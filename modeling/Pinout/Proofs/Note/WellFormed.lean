import Pinout.Proofs.Note.Runs

/-!
# Pinout.Proofs.Note.WellFormed

What every document is like, whatever lines it is read from:

* tables are rectangular, with an alignment for each column, a row below the head and trimmed cells;
* text is trimmed and not empty, its form is the one it is marked with, and behind the mark of a
  header or an item stands something;
* payloads are objects, and the document says whether it holds any.

Runs of lines make segments of the first two kinds (`wellFormed_of_segment?`); the third is what a
payload is checked for.
-/

namespace Pinout
namespace Note

structure Table.WellFormed (t : Table) : Prop where
  head : t.head ≠ []
  align : t.align.length = t.head.length
  body : t.body ≠ []
  width : ∀ row ∈ t.body, row.length = t.head.length
  trimmed : ∀ row ∈ t.head :: t.body, ∀ cell ∈ row, cell.trim = cell

/-- The text of a segment of this form. -/
structure Form.WellFormed (form : Form) (t : Text) : Prop where
  trimmed : t.trim = t
  ne : t ≠ []
  header : form = .header ↔ IsHeading t
  item : form = .item ↔ IsItem t
  title : form = .header → Note.title t ≠ []
  body : form = .item → itemBody t ≠ []

namespace Content

def WellFormed : Content → Prop
  | plain t => Form.WellFormed .plain t
  | header t => Form.WellFormed .header t
  | item t => Form.WellFormed .item t
  | table t => t.WellFormed
  | wave v => v.isObject

end Content

structure Document.WellFormed (d : Document) : Prop where
  segments : ∀ s ∈ d.segments, s.content.WellFormed
  wave : d.hasWave ↔ ∃ s ∈ d.segments, s.content.isWave

/-! ## Tables -/

namespace Table

theorem length_fitTo (width : Nat) (row : List Text) : (fitTo width row).length = width := by
  simp [fitTo]
  omega

/-- The cells that fill up a row are empty. -/
theorem trim_of_mem_fitTo {width : Nat} {row : List Text} (h : ∀ cell ∈ row, cell.trim = cell) :
    ∀ cell ∈ fitTo width row, cell.trim = cell := by
  intro cell hc
  rcases List.mem_append.1 hc with hc | hc
  · exact h cell (List.mem_of_mem_take hc)
  · rw [(List.mem_replicate.1 hc).2]
    rfl

theorem wellFormed_of_starts {head align first : Text} (h : Starts head align first)
    (rows : List Text) :
    WellFormed ⟨cells head, (cells align).map Align.ofToken,
      (first :: rows).map fun row => fitTo (cells head).length (cells row)⟩ where
  head := cells_ne_nil head
  align := by rw [List.length_map, h.width]
  body := by simp
  width := by
    intro row hr
    obtain ⟨line, _, rfl⟩ := List.mem_map.1 hr
    exact length_fitTo _ _
  trimmed := by
    intro row hr
    rcases List.mem_cons.1 hr with rfl | hr
    · exact fun _ => trim_of_mem_cells
    · obtain ⟨line, _, rfl⟩ := List.mem_map.1 hr
      exact trim_of_mem_fitTo fun _ => trim_of_mem_cells

end Table

/-! ## Text -/

theorem title_ne_nil {t : Text} (ht : t.trim = t) (h : IsHeading t) : title t ≠ [] := by
  obtain ⟨c, rest, hc, rfl⟩ := h
  have hsign : (c == '#') = false := by
    rw [beq_eq_false_iff_ne]
    rintro rfl
    cases hc
  have hdrop : (Text.trimStart ('#' :: c :: rest)).dropWhile (· == '#') = c :: rest := by
    rw [Text.trimStart_cons rfl]
    simp [hsign]
  rw [title, hdrop]
  exact Text.trim_ne_nil_of_suffix ht (List.suffix_cons _ _) (by simp)

theorem itemBody_ne_nil {t : Text} (ht : t.trim = t) (h : IsItem t) : itemBody t ≠ [] := by
  obtain ⟨marker, c, rest, hm, hc, rfl⟩ := h
  rw [itemBody, Text.trimStart_eq_self (hm.start _), afterItemMarker?_append hm hc]
  exact Text.trim_ne_nil_of_suffix ht (List.suffix_append _ _) (List.cons_ne_nil c rest)

namespace Form

theorem header_iff {form : Form} {t : Text} (h : form.Fits t) : form = .header ↔ IsHeading t := by
  cases form with
  | plain => simp [h.1]
  | header => simp [show IsHeading t from h]
  | item => simp [not_isHeading_of_isItem h]

theorem item_iff {form : Form} {t : Text} (h : form.Fits t) : form = .item ↔ IsItem t := by
  cases form with
  | plain => simp [h.2]
  | header => simpa using fun hi => not_isHeading_of_isItem hi h
  | item => simp [show IsItem t from h]

theorem wellFormed_of_fits {form : Form} {t : Text} (ht : t.trim = t) (hne : t ≠ [])
    (h : form.Fits t) : form.WellFormed t where
  trimmed := ht
  ne := hne
  header := header_iff h
  item := item_iff h
  title hf := title_ne_nil ht ((header_iff h).1 hf)
  body hf := itemBody_ne_nil ht ((item_iff h).1 hf)

end Form

/-! ## Documents -/

theorem Run.wellFormed_of_segment? {run : Run} (hv : run.Valid) {s : Segment}
    (h : run.segment? = some s) : s.content.WellFormed := by
  cases run with
  | blank => cases h
  | text line form =>
    cases h
    have ht := Form.wellFormed_of_fits (Text.trim_trim line) hv.1 hv.2
    cases form <;> exact ht
  | table head align rows =>
    cases h
    obtain ⟨⟨first, hf, hstart⟩, _⟩ := hv
    obtain ⟨rest, rfl⟩ := List.head?_eq_some_iff.1 hf
    exact Table.wellFormed_of_starts hstart rest

namespace Reading

theorem wellFormed_textSegments (lines : List Text) :
    ∀ s ∈ textSegments lines, s.content.WellFormed := by
  obtain ⟨runs, _, hs, hv, _⟩ := exists_runs lines
  rw [hs]
  intro s hm
  obtain ⟨run, hr, h⟩ := List.mem_filterMap.1 hm
  exact Run.wellFormed_of_segment? (hv run hr) h

theorem isObject_of_payload {format : Wave.Format} {t : Text} {v : Json}
    (h : Wave.payload format t = .ok v) : v.isObject := by
  rw [Wave.payload] at h
  split at h
  · split at h
    · cases h
      assumption
    · cases h
  · cases h

theorem wellFormed_waveSegments (o : Wave.Opening) (t : Text) :
    ∀ s ∈ waveSegments o t, s.content.WellFormed := by
  intro s hs
  rw [waveSegments, ofPayload] at hs
  split at hs
  · next v hv =>
    obtain rfl := List.mem_singleton.1 hs
    exact isObject_of_payload hv
  · cases hs

theorem wellFormed_blockSegments (lines : List Text) :
    ∀ s ∈ blockSegments lines, s.content.WellFormed := by
  induction lines using blocks_induction with
  | none lines h =>
    rw [blockSegments_none h]
    exact wellFormed_textSegments lines
  | block lines before o behind t rest h hb ih =>
    rw [blockSegments_block h hb]
    intro s hs
    rcases List.mem_append.1 hs with hs | hs
    · rcases List.mem_append.1 hs with hs | hs
      · exact wellFormed_textSegments before s hs
      · exact wellFormed_waveSegments o t s hs
    · exact ih s hs
  | unclosed lines before o behind h hb =>
    rw [blockSegments_unclosed h hb]
    exact wellFormed_textSegments before

end Reading

namespace Document

theorem ofLines_wellFormed (lines : List Text) : (ofLines lines).1.WellFormed where
  segments := Reading.wellFormed_blockSegments lines
  wave := by
    have hflag : (ofLines lines).1.hasWave = _ := Reading.flagged_ofBlocks 1 lines
    rw [hflag]
    exact List.any_eq_true

end Document

end Note
end Pinout
