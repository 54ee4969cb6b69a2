import Mathlib.Data.List.Forall2
import Pinout.Proofs.Json.Guarded
import Pinout.Proofs.Page.Reading
import Pinout.Proofs.Text.Search

/-!
# Pinout.Proofs.Page.Script

The wave diagrams of a page. The texts of the script elements for them are found in the rendered
notes (`waveTexts`), one for each payload and in their order (`waveTexts_notes`). No text ends early,
and each is JSON for the payload that it was written for (`waves_readBack`).

The other segments leave nothing to be found: they are `Scriptless`, since no item of them starts a
script element (`scriptless_of_unscripted`).
-/

namespace Pinout

namespace Note

def Content.payload? : Content → Option Json
  | wave v => some v
  | _ => none

/-- The payloads of the wave diagrams. -/
def Document.payloads (d : Document) : List Json := d.segments.filterMap (·.content.payload?)

end Note

namespace Page

open Markup (Block Item IsName tagList)

/-! ## Scripts of wave diagrams -/

/-- The tag that opens a script element for a wave diagram. -/
def waveTag : Text := "<script type=\"WaveDrom\">".toList

def scriptEnd : Text := "</script>".toList

/-- The text of the first script element for a wave diagram, and what stands behind it. -/
def waveScript? (output : Text) : Option (Text × Text) :=
  (Text.behind? waveTag output).bind (Text.splitAround? scriptEnd)

theorem length_of_waveScript? {output text t : Text} (h : waveScript? output = some (text, t)) :
    t.length < output.length := by
  obtain ⟨inside, hinside, hs⟩ := Option.bind_eq_some_iff.1 h
  have hle := Text.length_of_behind? hinside
  have hsplit := Text.length_of_splitAround? hs
  have hend : scriptEnd.length = 9 := rfl
  omega

/-- The texts of the script elements for wave diagrams in an output. -/
def waveTexts (output : Text) : List Text :=
  match _h : waveScript? output with
  | none => []
  | some (text, t) => text :: waveTexts t
termination_by output.length
decreasing_by exact length_of_waveScript? _h

theorem waveTexts_congr {t t' : Text} (h : Text.behind? waveTag t = Text.behind? waveTag t') :
    waveTexts t = waveTexts t' := by
  rw [waveTexts, waveTexts, waveScript?, h, waveScript?]

/-- A script element, and what stands behind it. -/
theorem waveTexts_script {text : Text} (h : ¬ ['<', '/'] <:+: text) (t : Text) :
    waveTexts (waveTag ++ (text ++ scriptEnd ++ t)) = text :: waveTexts t := by
  have hclosed : ¬ "</script".toList ++ ['>'] <:+: text := by
    intro hi
    exact h (List.IsInfix.trans ⟨[], "script>".toList, rfl⟩ hi)
  have hend : Text.splitAround? scriptEnd (text ++ scriptEnd ++ t) = some (text, t) :=
    Text.splitAround?_append_concat (by decide) hclosed
  have hscript : waveScript? (waveTag ++ (text ++ scriptEnd ++ t)) = some (text, t) := by
    rw [waveScript?, Text.behind?_append]
    exact hend
  rw [waveTexts]
  split
  · next hnone =>
    rw [hscript] at hnone
    cases hnone
  · next hsome =>
    rw [hscript] at hsome
    cases hsome
    rfl

/-! ## Markup without scripts -/

theorem waveTexts_cons {c : Char} {t : Text} (h : Text.dropLead? waveTag (c :: t) = none) :
    waveTexts (c :: t) = waveTexts t := waveTexts_congr (Text.behind?_cons h)

theorem waveTexts_append_of_not_mem {u : Text} (hu : '<' ∉ u) (t : Text) :
    waveTexts (u ++ t) = waveTexts t := by
  induction u with
  | nil => rfl
  | cons c u ih =>
    rw [List.mem_cons, not_or] at hu
    have hc : Text.dropLead? waveTag (c :: (u ++ t)) = none := if_neg hu.1
    rw [List.cons_append, waveTexts_cons hc, ih hu.2]

/-- A tag that starts with another letter than the one of a script element. -/
theorem waveTexts_tag {tag : Text} (hs : tag.head? ≠ some 's') (hopen : '<' ∉ tag) (t : Text) :
    waveTexts ('<' :: (tag ++ '>' :: t)) = waveTexts t := by
  have htag : Text.dropLead? waveTag ('<' :: (tag ++ '>' :: t)) = none := by
    have hlead : waveTag = '<' :: 's' :: "cript type=\"WaveDrom\">".toList := rfl
    -- the two tags part at the letter behind the angle bracket
    rw [hlead, Text.dropLead?, if_pos rfl]
    cases tag with
    | nil => rfl
    | cons c tag => exact if_neg fun h => hs (by rw [← h]; rfl)
  have hbody : '<' ∉ tag ++ ['>'] := by simp [hopen]
  have hsplit : tag ++ '>' :: t = tag ++ ['>'] ++ t := by simp
  rw [waveTexts_cons htag, hsplit, waveTexts_append_of_not_mem hbody]

/-- An item that cannot be taken for the start of a script element, by the first letter of its tag. -/
structure Unscripted (item : Item) : Prop where
  clean : item.Clean
  tag : ∀ tag ∈ item.tag?, tag.head? ≠ some 's'

/-- No script element for a wave diagram is found in the markup, whatever stands behind it. -/
def Scriptless (m : Markup) : Prop := ∀ t, waveTexts (m.render ++ t) = waveTexts t

theorem Unscripted.waveTexts_append {item : Item} (h : Unscripted item) (t : Text) :
    waveTexts (item.render ++ t) = waveTexts t := by
  have hopen := h.clean.1
  cases htag : item.tag? with
  | none =>
    rw [htag, Option.getD_none] at hopen
    rw [Markup.render_of_not_tag? htag, waveTexts_append_of_not_mem hopen]
  | some tag =>
    rw [htag, Option.getD_some] at hopen
    have hrender : item.render ++ t = '<' :: (tag ++ '>' :: t) := by
      rw [Markup.render_of_tag? htag]
      simp
    rw [hrender, waveTexts_tag (h.tag tag htag) hopen]

theorem unscripted_layout {w : Text} (hw : w.allBlank) : Unscripted (.layout w) :=
  ⟨Markup.clean_layout hw, fun _ h => nomatch h⟩

theorem unscripted_closing {name : String} (hn : IsName name) : Unscripted (.closing name) :=
  ⟨Markup.clean_closing hn, fun tag h => by cases h; simp⟩

theorem scriptless_of_unscripted {m : Markup} (h : ∀ item ∈ m, Unscripted item) : Scriptless m := by
  intro t
  induction m with
  | nil => rfl
  | cons item m ih =>
    have hrender : Markup.render (item :: m) ++ t = item.render ++ (Markup.render m ++ t) := by
      rw [← List.append_assoc]
      rfl
    rw [hrender, (h item List.mem_cons_self).waveTexts_append,
      ih fun i hi => h i (List.mem_cons_of_mem item hi)]

/-- Markup by the rules, where no tag starts as that of a script element. -/
theorem scriptless_of_block {m : Markup} {texts : List Text} (h : Block m texts)
    (hs : ∀ tag ∈ m.tagList, tag.head? ≠ some 's') : Scriptless m :=
  scriptless_of_unscripted fun item hi => ⟨h.faithful.clean item hi, fun tag ht =>
    hs tag (List.mem_filterMap.2 ⟨item, hi, ht⟩)⟩

/-! ## Segments -/

theorem tags_noteTable (t : Note.Table) : ∀ tag ∈ tagList (noteTable t), tag.head? ≠ some 's' := by
  have htext (t : Text) : tagList [.text t] = [] := rfl
  simp +contextual [noteTable, grid, row, Cell.markup, htext, or_imp]

theorem exists_block_noteTable (t : Note.Table) : ∃ texts, Block (noteTable t) texts := by
  refine ⟨_, block_grid t.head fun cells hm c hc => ?_⟩
  obtain ⟨row, -, rfl⟩ := List.mem_map.1 hm
  exact named_aligned_cells hc

theorem scriptless_segment {s : Note.Segment} (h : s.content.payload? = none) :
    Scriptless (segment s) := by
  obtain ⟨indent, content⟩ := s
  have hstyle := named_paddingStyle indent
  cases content with
  | plain t | header t | item t =>
    have htext (t : Text) : tagList [.text t] = [] := rfl
    refine scriptless_of_block (block_segment ?_) ?_
    · exact trivial
    · simp [segment, htext]
  | table t =>
    obtain ⟨texts, htable⟩ := exists_block_noteTable t
    have hblock : Block (segment ⟨indent, .table t⟩) texts :=
      .block 0 (by decide) (by decide) hstyle htable
    have htags := tags_noteTable t
    exact scriptless_of_block hblock (by simpa [segment, or_imp, forall_and] using htags)
  | wave v => cases h

/-- A payload between the tags of its script element. -/
def scriptText (v : Json) : Text := "\n\t\t".toList ++ wavePayload v ++ "\n\t".toList

theorem not_infix_scriptText (v : Json) : ¬ ['<', '/'] <:+: scriptText v := by
  have hguarded : ¬ ['<'] ++ ['/'] <:+: wavePayload v := Markup.not_infix_guardScript v.compact
  intro h
  rw [scriptText, List.append_assoc] at h
  have hi := Text.infix_append_of_head (by decide) h
  exact hguarded ((Text.infix_append_iff_of_not_mem (by decide)).1 hi)

/-- The segment of a wave diagram up to the script element. -/
def waveFront (indent : Nat) : Markup :=
  [Markup.tabs 0, .opening "div" (waveStyle indent), Markup.lineEnd, Markup.tabs 1]

/-- The segment of a wave diagram behind the script element. -/
def waveBack : Markup := [Markup.lineEnd, Markup.tabs 0, .closing "div", Markup.lineEnd]

theorem scriptless_waveFront (indent : Nat) : Scriptless (waveFront indent) := by
  have hstyle : Markup.Named (waveStyle indent) := List.forall_mem_singleton.2 ⟨by simp, by simp⟩
  have hdiv : Unscripted (.opening "div" (waveStyle indent)) :=
    ⟨Markup.clean_opening (by decide) hstyle, fun tag h => by cases h; simp⟩
  refine scriptless_of_unscripted ?_
  simp only [waveFront, List.forall_mem_cons]
  exact ⟨unscripted_layout rfl, hdiv, unscripted_layout rfl, unscripted_layout rfl,
    List.forall_mem_nil _⟩

theorem scriptless_waveBack : Scriptless waveBack := by
  refine scriptless_of_unscripted ?_
  simp only [waveBack, List.forall_mem_cons]
  exact ⟨unscripted_layout rfl, unscripted_layout rfl, unscripted_closing (by decide),
    unscripted_layout rfl, List.forall_mem_nil _⟩

theorem render_script (v : Json) : Markup.render [.opening "script" [("type", "WaveDrom".toList)],
    Markup.lineEnd, Markup.tabs 2, .verbatim (wavePayload v), Markup.lineEnd, Markup.tabs 1,
    .closing "script"] = waveTag ++ (scriptText v ++ scriptEnd) := by
  have hopen : (Item.opening "script" [("type", "WaveDrom".toList)]).render = waveTag := by decide
  have hclose : (Item.closing "script").render = scriptEnd := rfl
  have hbefore : Markup.lineEnd.render ++ (Markup.tabs 2).render = "\n\t\t".toList := rfl
  have hbehind : Markup.lineEnd.render ++ (Markup.tabs 1).render = "\n\t".toList := rfl
  simp only [Markup.render, List.flatMap_cons, List.flatMap_nil, hopen, hclose, scriptText,
    ← hbefore, ← hbehind, List.append_assoc, List.append_nil]
  rfl

/-- The script element of a wave diagram is all that is found in its segment. -/
theorem waveTexts_wave (indent : Nat) (v : Json) (t : Text) :
    waveTexts ((segment ⟨indent, .wave v⟩).render ++ t) = scriptText v :: waveTexts t := by
  have hsegment : segment ⟨indent, .wave v⟩ = waveFront indent ++
      [.opening "script" [("type", "WaveDrom".toList)], Markup.lineEnd, Markup.tabs 2,
        .verbatim (wavePayload v), Markup.lineEnd, Markup.tabs 1, .closing "script"] ++
      waveBack := rfl
  have hrender : (segment ⟨indent, .wave v⟩).render ++ t = (waveFront indent).render ++
      (waveTag ++ (scriptText v ++ scriptEnd ++ (waveBack.render ++ t))) := by
    rw [hsegment, Markup.render_append, Markup.render_append, render_script]
    simp only [List.append_assoc]
  rw [hrender, scriptless_waveFront,
    waveTexts_script (not_infix_scriptText v), scriptless_waveBack]

theorem waveTexts_segment (s : Note.Segment) (t : Text) :
    waveTexts ((segment s).render ++ t) =
      s.content.payload?.toList.map scriptText ++ waveTexts t := by
  obtain ⟨indent, content⟩ := s
  cases content with
  | wave v => exact waveTexts_wave indent v t
  | _ => exact scriptless_segment rfl t

/-- The scripts of a page are the payloads of its wave diagrams, in their order. -/
theorem waveTexts_notes (d : Note.Document) :
    waveTexts (notes d).render = d.payloads.map scriptText := by
  obtain ⟨segments, hasWave⟩ := d
  induction segments with
  | nil => rw [waveTexts]; rfl
  | cons s segments ih =>
    have hnotes : notes ⟨s :: segments, hasWave⟩ = segment s ++ notes ⟨segments, hasWave⟩ := rfl
    have hpayloads : Note.Document.payloads ⟨s :: segments, hasWave⟩ =
        s.content.payload?.toList ++ Note.Document.payloads ⟨segments, hasWave⟩ := by
      rw [Note.Document.payloads, List.filterMap_cons]
      cases s.content.payload? <;> rfl
    rw [hnotes, Markup.render_append, waveTexts_segment, ih, hpayloads, List.map_append]

/-- The script element that is written for a wave diagram does not end early, and its text is JSON
for the payload, wherever so many groups may be nested as the payload has. -/
theorem waves_readBack {d : Note.Document} (hd : ∀ v ∈ d.payloads, v.isIntegral) :
    List.Forall₂ (fun text v => ¬ ['<', '/'] <:+: text ∧
        ∀ limit, v.depth ≤ limit → Json.Strict.readNested? limit text = some v)
      (waveTexts (notes d).render) d.payloads := by
  rw [waveTexts_notes, List.forall₂_map_left_iff, List.forall₂_same]
  intro v hv
  refine ⟨not_infix_scriptText v, fun limit hlimit => ?_⟩
  exact Json.Strict.readNested?_guarded (hd v hv) hlimit (Text.forall_of_all (by decide))
    (Text.forall_of_all (by decide))

/-- A payload whose key and string would both end the script, with its keys out of order. -/
theorem waves_readBack_closingTag :
    let v := Json.object
      [("</b".toList, .string "</script>".toList), ("a".toList, .array [.int (-1)])]
    v.isIntegral ∧ ∃ text, waveTexts (notes ⟨[⟨3, .wave v⟩], true⟩).render = [text] ∧
      ¬ ['<', '/'] <:+: text ∧ Json.Strict.read? text = some v := by
  intro v
  have hv : v.isIntegral := by decide
  have h := waves_readBack (d := ⟨[⟨3, .wave v⟩], true⟩) (List.forall_mem_singleton.2 hv)
  obtain ⟨text, texts, ⟨hclosed, hread⟩, hnil, htexts⟩ := List.forall₂_cons_right_iff.1 h
  cases List.forall₂_nil_right_iff.1 hnil
  refine ⟨hv, text, htexts, hclosed, ?_⟩
  rw [← Json.Strict.readNested?_maxDepth]
  exact hread Json.Strict.maxDepth (by decide)

end Page
end Pinout
