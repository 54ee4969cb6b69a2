import Pinout.Note.Document
import Pinout.Proofs.Note.Block

/-!
# Pinout.Proofs.Note.Segments

The segments of documentation lines, without the line numbers that only warnings show.
`textSegments` are the segments of lines without wave blocks and `blockSegments` those of all lines;
each comes with one equation for every step that its reading takes.

`textSegments_append_cons` is the seam: a line that is neither a row nor an alignment row is in no
table, and no table reaches over it.

What is read is `Flagged` all the way: a document asks for the scripts of wave diagrams exactly where
it holds one (`flagged_ofBlocks`).
-/

namespace Pinout
namespace Note

namespace Table

/-- No table starts with the first of the lines. -/
def NoStart (lines : List Text) : Prop :=
  ∀ first second third rest, lines = first :: second :: third :: rest →
    ∀ indent head align, start first second third ≠ .table indent head align

theorem rows_of_start {first second third : Text} {indent : Nat} {head : List Text}
    {align : List Align} (h : start first second third = .table indent head align) :
    isRow first ∧ isAlignRow second ∧ isRowAt indent third := by
  simp only [start] at h
  split at h
  · next hr =>
    simp only [Bool.and_eq_true] at hr
    split at h
    · cases h
      exact ⟨hr.1.1.1, hr.1.1.2, hr.2⟩
    · cases h
  · cases h

theorem noStart_of_first {first : Text} (h : isRow first = false) (rest : List Text) :
    NoStart (first :: rest) := by
  rintro _ _ _ _ hl indent head align hs
  cases hl
  rw [(rows_of_start hs).1] at h
  cases h

/-- Only three lines of which none breaks the table can start one. -/
theorem noStart_append_cons {line first : Text} {a : List Text} (hr : isRow line = false)
    (ha : isAlignRow line = false) (h : NoStart (first :: a)) (b : List Text) :
    NoStart (first :: a ++ line :: b) := by
  rintro f second third rest hl indent head align hs
  cases a with
  | nil =>
    cases hl
    rw [(rows_of_start hs).2.1] at ha
    cases ha
  | cons s a =>
    cases a with
    | nil =>
      cases hl
      have := (rows_of_start hs).2.2
      rw [isRowAt, hr] at this
      cases this
    | cons t a =>
      cases hl
      exact h _ _ _ _ rfl _ _ _ hs

end Table

/-- A wave diagram is among the segments exactly where the scripts are asked for. -/
def Document.Flagged (d : Document) : Prop := d.hasWave = d.segments.any (·.content.isWave)

theorem Document.Flagged.append {a b : Document} (ha : a.Flagged) (hb : b.Flagged) :
    (a ++ b).Flagged := by
  show (a.hasWave || b.hasWave) = (a.segments ++ b.segments).any (·.content.isWave)
  rw [ha, hb, List.any_append]

namespace Reading

@[simp] theorem segments_append (a b : Reading) :
    (a ++ b).segments = a.segments ++ b.segments := rfl

@[simp] theorem warnings_append (a b : Reading) :
    (a ++ b).warnings = a.warnings ++ b.warnings := rfl

/-- The table that starts with a row and an alignment row, and ends before `rest`. -/
def tableSegment (indent : Nat) (head : List Text) (align : List Align) (rows : List Text) :
    Segment :=
  ⟨indent, .table ⟨head, align, rows.map fun row => Table.fitTo head.length (Table.cells row)⟩⟩

theorem segments_ofLines_nil (number : Nat) : (ofLines number []).segments = [] := by
  rw [ofLines]
  rfl

theorem segments_ofLines_cons {first : Text} {rest : List Text}
    (h : Table.NoStart (first :: rest)) (number : Nat) :
    (ofLines number (first :: rest)).segments =
      (ofLine first).segments ++ (ofLines (number + 1) rest).segments := by
  rw [ofLines.eq_def]
  split
  · next hl =>
    cases hl
    split
    · next hs => exact absurd hs (h _ _ _ _ rfl _ _ _)
    · rfl
    · rfl
  · next hl =>
    cases hl
    rfl
  · next hl => cases hl

theorem segments_ofLines_table {first second third : Text} {indent : Nat} {head : List Text}
    {align : List Align} (h : Table.start first second third = .table indent head align)
    (rest : List Text) (number : Nat) :
    (ofLines number (first :: second :: third :: rest)).segments =
      tableSegment indent head align (third :: rest.takeWhile (Table.isRowAt indent)) ::
        (ofLines (number + 2 + (third :: rest.takeWhile (Table.isRowAt indent)).length)
          (rest.dropWhile (Table.isRowAt indent))).segments := by
  rw [ofLines, h]
  rfl

/-- Lines are read one by one, and where a table starts up to its end. -/
theorem lines_induction {P : List Text → Prop} (nil : P [])
    (line : ∀ first rest, Table.NoStart (first :: rest) → P rest → P (first :: rest))
    (table : ∀ first second third rest indent head align,
      Table.start first second third = .table indent head align →
      P (rest.dropWhile (Table.isRowAt indent)) → P (first :: second :: third :: rest))
    (lines : List Text) : P lines := by
  generalize hn : 0 = number
  clear hn
  fun_induction ofLines number lines with
  | case1 number first second third rest indent head align hs rows body ih =>
    exact table first second third rest indent head align hs ih
  | case2 number first second third rest head align hs ih =>
    refine line _ _ ?_ ih
    rintro _ _ _ _ hl i h a ht
    cases hl
    rw [hs] at ht
    cases ht
  | case3 number first second third rest hs ih =>
    refine line _ _ ?_ ih
    rintro _ _ _ _ hl i h a ht
    cases hl
    rw [hs] at ht
    cases ht
  | case4 number first rest hr ih =>
    exact line _ _ (fun _ _ _ _ hl => absurd hl (by rintro ⟨⟩; exact hr _ _ _ rfl)) ih
  | case5 => exact nil

theorem segments_ofLines_number (lines : List Text) (m n : Nat) :
    (ofLines m lines).segments = (ofLines n lines).segments := by
  induction lines using lines_induction generalizing m n with
  | nil => rw [segments_ofLines_nil, segments_ofLines_nil]
  | line first rest h ih => rw [segments_ofLines_cons h, segments_ofLines_cons h, ih]
  | table first second third rest indent head align h ih =>
    rw [segments_ofLines_table h, segments_ofLines_table h, ih]

/-- The segments of lines without wave blocks. -/
def textSegments (lines : List Text) : List Segment := (ofLines 0 lines).segments

theorem segments_ofLines (number : Nat) (lines : List Text) :
    (ofLines number lines).segments = textSegments lines := segments_ofLines_number lines number 0

@[simp] theorem textSegments_nil : textSegments [] = [] := segments_ofLines_nil 0

theorem textSegments_cons {first : Text} {rest : List Text} (h : Table.NoStart (first :: rest)) :
    textSegments (first :: rest) = (ofLine first).segments ++ textSegments rest := by
  rw [textSegments, segments_ofLines_cons h, segments_ofLines]

theorem textSegments_table {first second third : Text} {indent : Nat} {head : List Text}
    {align : List Align} (h : Table.start first second third = .table indent head align)
    (rest : List Text) :
    textSegments (first :: second :: third :: rest) =
      tableSegment indent head align (third :: rest.takeWhile (Table.isRowAt indent)) ::
        textSegments (rest.dropWhile (Table.isRowAt indent)) := by
  rw [textSegments, segments_ofLines_table h, segments_ofLines]

/-- No table reaches over a line that is neither a row nor an alignment row. -/
theorem textSegments_append_cons {line : Text} (hr : Table.isRow line = false)
    (ha : Table.isAlignRow line = false) (a b : List Text) :
    textSegments (a ++ line :: b) =
      textSegments a ++ (ofLine line).segments ++ textSegments b := by
  induction a using lines_induction with
  | nil =>
    rw [List.nil_append, textSegments_cons (Table.noStart_of_first hr b), textSegments_nil,
      List.nil_append]
  | line first rest h ih =>
    have hn := Table.noStart_append_cons hr ha h b
    rw [List.cons_append] at hn ⊢
    rw [textSegments_cons hn, ih, textSegments_cons h]
    simp only [List.append_assoc]
  | table first second third rest indent head align h ih =>
    have hi : Table.isRowAt indent line = false := by rw [Table.isRowAt, hr]; rfl
    obtain ⟨ht, hd⟩ := Text.takeWhile_append_cons hi rest b
    rw [List.cons_append, List.cons_append, List.cons_append, textSegments_table h,
      textSegments_table h, ht, hd, ih]
    rfl

/-! ## All lines -/

theorem isWave_of_classify? {line : Text} {content : Content} (h : classify? line = some content) :
    content.isWave = false := by
  unfold classify? at h
  dsimp only at h
  split at h
  · cases h
  · split at h
    · cases h
      rfl
    · split at h <;> cases h <;> rfl

theorem flagged_ofLine (line : Text) : (ofLine line).Flagged := by
  rw [ofLine]
  cases hc : classify? line with
  | none => exact rfl
  | some content => simp [Document.Flagged, segment, isWave_of_classify? hc]

theorem flagged_ofLines (number : Nat) (lines : List Text) : (ofLines number lines).Flagged := by
  fun_induction ofLines number lines with
  | case1 number first second third rest indent head align hs rows body ih =>
    exact Document.Flagged.append rfl ih
  | case2 number first second third rest head align hs ih =>
    exact .append (.append rfl (flagged_ofLine first)) ih
  | case3 number first second third rest hs ih => exact .append (flagged_ofLine first) ih
  | case4 number first rest hr ih => exact .append (flagged_ofLine first) ih
  | case5 => rfl

theorem flagged_ofPayload (o : Wave.Opening) (t : Text) : (ofPayload o t).Flagged := by
  rw [ofPayload]
  cases Wave.payload o.format t <;> rfl

theorem flagged_ofBlocks (number : Nat) (lines : List Text) : (ofBlocks number lines).Flagged := by
  fun_induction ofBlocks number lines with
  | case1 number lines h => exact flagged_ofLines number lines
  | case2 number lines before o behind h t rest hb ih =>
    exact .append (.append (flagged_ofLines number before) (flagged_ofPayload o t)) ih
  | case3 number lines before o behind h hb => exact .append rfl (flagged_ofLines number before)

/-- The wave diagram of a payload, if it can be read. -/
def waveSegments (o : Wave.Opening) (t : Text) : List Segment := (ofPayload o t).segments

theorem ofBlocks_none {lines : List Text} (h : Wave.firstOpening? lines = none) (number : Nat) :
    ofBlocks number lines = ofLines number lines := by
  rw [ofBlocks.eq_def]
  split
  · rfl
  · next hs => rw [h] at hs; cases hs

theorem ofBlocks_block {lines before behind rest : List Text} {o : Wave.Opening} {t : Text}
    (h : Wave.firstOpening? lines = some (before, o, behind))
    (hb : Wave.body? o behind = some (t, rest)) (number : Nat) :
    ofBlocks number lines = ofLines number before ++ ofPayload o t ++
      ofBlocks (number + lines.length - rest.length) rest := by
  rw [ofBlocks.eq_def]
  split
  · next hs => rw [h] at hs; cases hs
  · next hs =>
    rw [h] at hs
    cases hs
    split
    · next hs =>
      rw [hb] at hs
      cases hs
      rfl
    · next hs => rw [hb] at hs; cases hs

theorem ofBlocks_unclosed {lines before behind : List Text} {o : Wave.Opening}
    (h : Wave.firstOpening? lines = some (before, o, behind))
    (hb : Wave.body? o behind = none) (number : Nat) :
    ofBlocks number lines =
      warning (.unterminated (number + before.length)) ++ ofLines number before := by
  rw [ofBlocks.eq_def]
  split
  · next hs => rw [h] at hs; cases hs
  · next hs =>
    rw [h] at hs
    cases hs
    split
    · next hs => rw [hb] at hs; cases hs
    · rfl

/-- Lines are read up to the first block, and behind its end again. -/
theorem blocks_induction {P : List Text → Prop}
    (none : ∀ lines, Wave.firstOpening? lines = none → P lines)
    (block : ∀ lines before o behind t rest,
      Wave.firstOpening? lines = some (before, o, behind) →
      Wave.body? o behind = some (t, rest) → P rest → P lines)
    (unclosed : ∀ lines before o behind, Wave.firstOpening? lines = some (before, o, behind) →
      Wave.body? o behind = .none → P lines) (lines : List Text) : P lines := by
  generalize hn : 0 = number
  clear hn
  fun_induction ofBlocks number lines with
  | case1 number lines h => exact none lines h
  | case2 number lines before o behind h t rest hb ih =>
    exact block lines before o behind t rest h hb ih
  | case3 number lines before o behind h hb => exact unclosed lines before o behind h hb

theorem segments_ofBlocks_number (lines : List Text) (m n : Nat) :
    (ofBlocks m lines).segments = (ofBlocks n lines).segments := by
  induction lines using blocks_induction generalizing m n with
  | none lines h => rw [ofBlocks_none h, ofBlocks_none h, segments_ofLines_number]
  | block lines before o behind t rest h hb ih =>
    rw [ofBlocks_block h hb, ofBlocks_block h hb]
    simp only [segments_append, segments_ofLines]
    rw [ih]
  | unclosed lines before o behind h hb =>
    rw [ofBlocks_unclosed h hb, ofBlocks_unclosed h hb]
    simp only [segments_append, segments_ofLines]
    rfl

/-- The segments of lines. -/
def blockSegments (lines : List Text) : List Segment := (ofBlocks 1 lines).segments

theorem segments_ofBlocks (number : Nat) (lines : List Text) :
    (ofBlocks number lines).segments = blockSegments lines :=
  segments_ofBlocks_number lines number 1

theorem blockSegments_none {lines : List Text} (h : Wave.firstOpening? lines = none) :
    blockSegments lines = textSegments lines := by
  rw [blockSegments, ofBlocks_none h, segments_ofLines]

theorem blockSegments_block {lines before behind rest : List Text} {o : Wave.Opening} {t : Text}
    (h : Wave.firstOpening? lines = some (before, o, behind))
    (hb : Wave.body? o behind = some (t, rest)) :
    blockSegments lines = textSegments before ++ waveSegments o t ++ blockSegments rest := by
  rw [blockSegments, ofBlocks_block h hb, segments_append, segments_append, segments_ofLines,
    segments_ofBlocks]
  rfl

theorem blockSegments_unclosed {lines before behind : List Text} {o : Wave.Opening}
    (h : Wave.firstOpening? lines = some (before, o, behind))
    (hb : Wave.body? o behind = none) : blockSegments lines = textSegments before := by
  rw [blockSegments, ofBlocks_unclosed h hb, segments_append, segments_ofLines]
  rfl

/-- Lines without openings come off the front, if they do so where no blocks stand behind them. -/
theorem blockSegments_append {a rest : List Text} {segments : List Segment}
    (ha : Wave.firstOpening? a = none)
    (hs : ∀ before, before <+: rest → textSegments (a ++ before) = segments ++ textSegments before) :
    blockSegments (a ++ rest) = segments ++ blockSegments rest := by
  cases ho : Wave.firstOpening? rest with
  | none =>
    have hall : Wave.firstOpening? (a ++ rest) = none := by
      rw [Wave.firstOpening?_append_of_none ha, ho]
      rfl
    rw [blockSegments_none hall, blockSegments_none ho, hs rest List.prefix_rfl]
  | some found =>
    obtain ⟨before, o, behind⟩ := found
    have hall : Wave.firstOpening? (a ++ rest) = some (a ++ before, o, behind) := by
      rw [Wave.firstOpening?_append_of_none ha, ho]
      rfl
    have hb := hs before (Wave.prefix_of_firstOpening? ho)
    cases hbody : Wave.body? o behind with
    | none => rw [blockSegments_unclosed hall hbody, blockSegments_unclosed ho hbody, hb]
    | some read =>
      rw [blockSegments_block hall hbody, blockSegments_block ho hbody, hb]
      simp only [List.append_assoc]

end Reading
end Note
end Pinout
