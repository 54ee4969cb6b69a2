import Pinout.Proofs.Note.Row
import Pinout.Proofs.Note.Segments

/-!
# Pinout.Proofs.Note.Separator

Where a document falls into parts. Behind lines whose blocks are all closed, a blank line and a wave
block each separate what stands before from what stands behind, and a block that never closes ends
the document (`ofLines_separated`).

The lines before the separator are read up to their last block; behind it they open no more
blocks, and what follows them meets only this tail (`exists_tail`).
-/

namespace Pinout
namespace Note

/-- Every wave block that opens in the lines closes in them. -/
inductive Closed : List Text → Prop where
  | text {lines : List Text} (h : Wave.firstOpening? lines = none) : Closed lines
  | block {lines before behind rest : List Text} {o : Wave.Opening} {t : Text}
      (h : Wave.firstOpening? lines = some (before, o, behind))
      (hb : Wave.body? o behind = some (t, rest)) (hr : Closed rest) : Closed lines

namespace Document

/-- The document of one wave block, empty if its payload cannot be read. -/
def ofBlock (o : Wave.Opening) (t : Text) : Document :=
  match Wave.payload o.format t with
  | .ok v => ⟨[⟨o.indent, .wave v⟩], true⟩
  | .error _ => ⟨[], false⟩

theorem ofBlock_of_payload {o : Wave.Opening} {t : Text} {v : Json}
    (h : Wave.payload o.format t = .ok v) : ofBlock o t = ⟨[⟨o.indent, .wave v⟩], true⟩ := by
  rw [ofBlock, h]

/-- The document with some segments. -/
def ofSegments (segments : List Segment) : Document := ⟨segments, segments.any (·.content.isWave)⟩

theorem eq_ofSegments {d : Document} (h : d.Flagged) : d = ofSegments d.segments :=
  congrArg (Document.mk d.segments) h

theorem ofSegments_append (a b : List Segment) :
    ofSegments (a ++ b) = ofSegments a ++ ofSegments b := by
  show Document.mk _ _ = Document.mk _ _
  rw [List.any_append]
  rfl

theorem ofLines_eq (lines : List Text) :
    (ofLines lines).1 = ofSegments (Reading.blockSegments lines) :=
  eq_ofSegments (Reading.flagged_ofBlocks 1 lines)

theorem ofSegments_waveSegments (o : Wave.Opening) (t : Text) :
    ofSegments (Reading.waveSegments o t) = ofBlock o t := by
  rw [Reading.waveSegments, Reading.ofPayload, ofBlock]
  cases Wave.payload o.format t <;> rfl

end Document

namespace Reading

/-- Blocks that are closed are all that the warnings tell of. -/
theorem closed_of_warnings {number : Nat} {lines : List Text}
    (h : ∀ k, Warning.unterminated k ∉ (ofBlocks number lines).warnings) : Closed lines := by
  induction lines using blocks_induction generalizing number with
  | none lines hn => exact .text hn
  | block lines before o behind t rest ho hb ih =>
    rw [ofBlocks_block ho hb, warnings_append] at h
    exact .block ho hb (ih fun k hk => h k (List.mem_append_right _ hk))
  | unclosed lines before o behind ho hb =>
    refine absurd ?_ (h (number + before.length))
    rw [ofBlocks_unclosed ho hb, warnings_append]
    exact List.mem_append_left _ List.mem_cons_self

/-- Of closed lines only a tail without openings meets what follows. -/
theorem exists_tail {lines : List Text} (h : Closed lines) :
    ∃ head tail, Wave.firstOpening? tail = none ∧
      ∀ more, blockSegments (lines ++ more) = head ++ blockSegments (tail ++ more) := by
  induction h with
  | @text lines hn => exact ⟨[], lines, hn, fun more => rfl⟩
  | @block lines before behind rest o t ho hb hr ih =>
    obtain ⟨head, tail, ht, hh⟩ := ih
    refine ⟨textSegments before ++ waveSegments o t ++ head, tail, ht, fun more => ?_⟩
    rw [blockSegments_block (Wave.firstOpening?_append_of_some ho more) (Wave.body?_append hb more),
      hh more]
    simp only [List.append_assoc]

theorem not_mem_of_allBlank {line : Text} {c : Char} (hl : line.allBlank)
    (hc : Text.isBlank c = false) : c ∉ line := by
  intro hm
  rw [List.all_eq_true.1 hl c hm] at hc
  cases hc

theorem opening?_of_allBlank {line : Text} (hl : line.allBlank) : Wave.opening? line = none := by
  rw [Wave.opening?_eq_none_iff]
  exact fun _ _ => Text.not_infix_of_mem (List.mem_cons_self) (not_mem_of_allBlank hl rfl)

theorem ofLine_of_allBlank {line : Text} (hl : line.allBlank) : ofLine line = empty := by
  have hc : classify? line = none := by
    simp only [classify?, Text.trim_of_allBlank hl, if_true]
  rw [ofLine, hc]

theorem blockSegments_tail_blank {tail : List Text} {line : Text}
    (ht : Wave.firstOpening? tail = none) (hl : line.allBlank) (more : List Text) :
    blockSegments (tail ++ line :: more) = blockSegments tail ++ blockSegments more := by
  have hr := Table.isRow_eq_false (not_mem_of_allBlank hl rfl)
  have ha := Table.isAlignRow_eq_false (not_mem_of_allBlank hl rfl)
  have hs : (ofLine line).segments = [] := by rw [ofLine_of_allBlank hl]; rfl
  have hn : Wave.firstOpening? (tail ++ [line]) = none := by
    rw [Wave.firstOpening?_append_of_none ht, Wave.firstOpening?, opening?_of_allBlank hl]
    rfl
  rw [List.append_cons, blockSegments_append hn fun before _ => ?_, blockSegments_none ht]
  rw [List.append_assoc, List.singleton_append, textSegments_append_cons hr ha, hs, List.append_nil]

theorem blockSegments_tail_block {tail block : List Text} {o : Wave.Opening} {t : Text}
    (ht : Wave.firstOpening? tail = none) (hb : Wave.Block o block t) (more : List Text) :
    blockSegments (tail ++ block ++ more) =
      blockSegments tail ++ waveSegments o t ++ blockSegments more := by
  cases block with
  | nil => cases hb
  | cons first lines =>
    obtain ⟨ho, hbody⟩ := Wave.body?_of_block hb
    have hall : Wave.firstOpening? (tail ++ first :: lines ++ more) =
        some (tail, o, lines ++ more) := by
      rw [List.append_assoc, Wave.firstOpening?_append_of_none ht, List.cons_append,
        Wave.firstOpening?, Wave.opening?_eq_some_iff.2 ho]
      simp
    rw [blockSegments_block hall (Wave.body?_append hbody more), blockSegments_none ht]
    rfl

theorem blockSegments_tail_unclosed {tail behind : List Text} {first : Text} {o : Wave.Opening}
    (ht : Wave.firstOpening? tail = none) (hu : Wave.Unclosed o first behind) :
    blockSegments (tail ++ first :: behind) = blockSegments tail := by
  have hall : Wave.firstOpening? (tail ++ first :: behind) = some (tail, o, behind) := by
    rw [Wave.firstOpening?_append_of_none ht, Wave.firstOpening?,
      Wave.opening?_eq_some_iff.2 hu.opens]
    simp
  rw [blockSegments_unclosed hall (Wave.body?_of_unclosed hu), blockSegments_none ht]

end Reading

namespace Document

/-- Behind closed blocks, a blank line and a wave block separate, and a block without an end ends
the document. -/
theorem ofLines_separated {before : List Text}
    (h : ∀ k, Warning.unterminated k ∉ (ofLines before).2) (behind : List Text) :
    (∀ line : Text, line.allBlank →
      (ofLines (before ++ [line] ++ behind)).1 = (ofLines before).1 ++ (ofLines behind).1) ∧
    (∀ o block t, Wave.Block o block t →
      (ofLines (before ++ block ++ behind)).1 =
        (ofLines before).1 ++ ofBlock o t ++ (ofLines behind).1) ∧
    (∀ o first, Wave.Unclosed o first behind →
      (ofLines (before ++ first :: behind)).1 = (ofLines before).1) := by
  have hc : Closed before := Reading.closed_of_warnings h
  obtain ⟨head, tail, ht, hmore⟩ := Reading.exists_tail hc
  have hbefore : (ofLines before).1 = ofSegments (head ++ Reading.blockSegments tail) := by
    have := hmore []
    rw [List.append_nil, List.append_nil] at this
    rw [ofLines_eq, this]
  refine ⟨fun line hl => ?_, fun o block t hb => ?_, fun o first hu => ?_⟩
  · rw [ofLines_eq, List.append_assoc, hmore, List.singleton_append,
      Reading.blockSegments_tail_blank ht hl, ← List.append_assoc, ofSegments_append, ← hbefore,
      ofLines_eq behind]
  · rw [ofLines_eq, List.append_assoc, hmore, ← List.append_assoc tail,
      Reading.blockSegments_tail_block ht hb, ← List.append_assoc, ← List.append_assoc,
      ofSegments_append, ofSegments_append, ← hbefore, ofSegments_waveSegments, ofLines_eq behind]
  · rw [ofLines_eq, hmore, Reading.blockSegments_tail_unclosed ht hu, hbefore]

theorem exists_of_toOption {ε α β : Type} {f : α → β} {result : Except ε α} {b : β}
    (h : (result.map f).toOption = some b) : ∃ a, result = .ok a ∧ f a = b := by
  cases result with
  | error e => cases h
  | ok a => exact ⟨a, rfl, Option.some.inj h⟩

/-- Lines that end in a table. -/
def tableLines : List Text :=
  ["<wave>\x7b\x7d</wave>".toList, "|a|".toList, "|---|".toList, "|1|".toList]

/-- A block in whose first line a tag of another name stands behind its own. -/
def taggedLines : List Text :=
  ["x <wave>\x7ba: '<wavedrom>',".toList, "  b: 1\x7d </wave></wavedrom>|".toList]

def taggedOpening : Wave.Opening := ⟨"wave".toList, .json, 0, "\x7ba: '<wavedrom>',".toList⟩

def taggedText : Text := "\x7ba: '<wavedrom>',\n  b: 1\x7d ".toList

/-- A row on either side of the separator, which stays two tables; a block with two tags in its first
line; and a block without an end, with a closing tag of another name behind it. -/
theorem ofLines_separated_tables :
    (∀ k, Warning.unterminated k ∉ (ofLines tableLines).2) ∧ Text.allBlank [' '] ∧
    Wave.Block taggedOpening taggedLines taggedText ∧
    Wave.Unclosed ⟨"wave_yaml".toList, .yaml, 0, "a: <wave>".toList⟩ "<wave_yaml>a: <wave>".toList
      ["|2|".toList, "</wave>".toList] ∧
    (ofLines (tableLines ++ [[' ']] ++ ["|2|".toList, "</wave>".toList])).1 =
      (ofLines tableLines).1 ++ (ofLines ["|2|".toList, "</wave>".toList]).1 ∧
    (∃ v, (ofLines (tableLines ++ taggedLines ++ ["|2|".toList, "</wave>".toList])).1 =
        (ofLines tableLines).1 ++ ⟨[⟨0, .wave v⟩], true⟩ ++
          (ofLines ["|2|".toList, "</wave>".toList]).1 ∧
      v.compact = "\x7b\"a\":\"<wavedrom>\",\"b\":1\x7d".toList) ∧
    (ofLines (tableLines ++ "<wave_yaml>a: <wave>".toList :: ["|2|".toList, "</wave>".toList])).1 =
      (ofLines tableLines).1 := by
  have hw : (ofLines tableLines).2 = [] := by decide +kernel
  have h : ∀ k, Warning.unterminated k ∉ (ofLines tableLines).2 := by
    rw [hw]
    exact fun _ => List.not_mem_nil
  have hb : Wave.Block taggedOpening taggedLines taggedText :=
    @Wave.Block.lines taggedOpening "x <wave>\x7ba: '<wavedrom>',".toList
      "  b: 1\x7d </wave></wavedrom>|".toList "  b: 1\x7d ".toList "</wavedrom>|".toList []
      (by decide) (by decide) (by decide) rfl (by decide)
  have hpayload : ((Wave.payload .json taggedText).map (·.compact)).toOption =
      some "\x7b\"a\":\"<wavedrom>\",\"b\":1\x7d".toList := by decide +kernel
  have hu : Wave.Unclosed ⟨"wave_yaml".toList, .yaml, 0, "a: <wave>".toList⟩
      "<wave_yaml>a: <wave>".toList ["|2|".toList, "</wave>".toList] :=
    ⟨by decide, by decide, by decide⟩
  obtain ⟨hblank, hblock, hopen⟩ := ofLines_separated h ["|2|".toList, "</wave>".toList]
  have htagged := hblock _ _ _ hb
  obtain ⟨v, hv, hcompact⟩ := exists_of_toOption hpayload
  rw [@ofBlock_of_payload taggedOpening _ v hv] at htagged
  exact ⟨h, rfl, hb, hu, hblank _ rfl, ⟨v, htagged, hcompact⟩, hopen _ _ hu⟩

end Document
end Note
end Pinout
