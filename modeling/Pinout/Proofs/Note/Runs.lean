import Pinout.Proofs.Note.Printed

/-!
# Pinout.Proofs.Note.Runs

Which lines make which segment. Lines without wave blocks fall into runs: a blank line, a line of
text, or the rows of a table. Every line is in one run, every run but a blank line is one segment,
and the runs are as long as they can be (`ofLines_runs`).

`start_eq_table_iff` says by what three lines a table starts, and `Greedy` what stands behind a run.
-/

namespace Pinout
namespace Note

namespace Table

/-- A header row above an alignment row with as many cells above a body row, all of one
indentation. -/
structure Starts (first second third : Text) : Prop where
  head : isRow first
  align : isAlignRow second
  row : isRow third
  width : (cells second).length = (cells first).length
  second : indentOf second = indentOf first
  third : indentOf third = indentOf first

theorem start_eq_table_iff {first second third : Text} {indent : Nat} {head : List Text}
    {align : List Align} : start first second third = .table indent head align ↔
      Starts first second third ∧ indent = indentOf first ∧ head = cells first ∧
        align = (cells second).map Align.ofToken := by
  constructor
  · intro h
    simp only [start] at h
    split at h
    · next hr =>
      simp only [isRowAt, Bool.and_eq_true, beq_iff_eq] at hr
      obtain ⟨⟨⟨hfirst, hsecond⟩, hi⟩, hthird, hj⟩ := hr
      split at h
      · next hl =>
        cases h
        exact ⟨⟨hfirst, hsecond, hthird, by simpa using hl, hi, hj⟩, rfl, rfl, rfl⟩
      · cases h
    · cases h
  · rintro ⟨h, rfl, rfl, rfl⟩
    simp [start, isRowAt, h.head, h.align, h.row, h.width, h.second, h.third]

end Table

/-! ## Runs -/

inductive Run where
  | blank (line : Text)
  | text (line : Text) (form : Form)
  | table (head align : Text) (rows : List Text)

namespace Run

def lines : Run → List Text
  | blank line | text line _ => [line]
  | table head align rows => head :: align :: rows

def segment? : Run → Option Segment
  | blank _ => none
  | text line form => some ⟨indentOf line, form.content line.trim⟩
  | table head align rows => some ⟨indentOf head, .table ⟨Table.cells head,
      (Table.cells align).map Align.ofToken,
      rows.map fun row => Table.fitTo (Table.cells head).length (Table.cells row)⟩⟩

/-- The lines are what the run says they are. -/
def Valid : Run → Prop
  | blank line => line.allBlank
  | text line form => line.trim ≠ [] ∧ form.Fits line.trim
  | table head align rows => (∃ first ∈ rows.head?, Table.Starts head align first) ∧
      ∀ row ∈ rows, Table.isRow row ∧ indentOf row = indentOf head

/-- No table starts with a line of text, and a table goes on for as long as rows follow. -/
def Greedy (behind : List Text) : Run → Prop
  | blank _ => True
  | text line _ => ∀ second third rest, behind = second :: third :: rest →
      ¬ Table.Starts line second third
  | table head _ _ => ∀ next ∈ behind.head?, ¬ (Table.isRow next ∧ indentOf next = indentOf head)

/-- Every run is greedy before the lines of the runs behind it. -/
def Maximal : List Run → Prop
  | [] => True
  | run :: runs => run.Greedy (runs.flatMap lines) ∧ Maximal runs

end Run

namespace Reading

/-- The runs of lines without wave blocks. -/
theorem exists_runs (lines : List Text) :
    ∃ runs : List Run, runs.flatMap Run.lines = lines ∧
      textSegments lines = runs.filterMap Run.segment? ∧ (∀ run ∈ runs, run.Valid) ∧
      Run.Maximal runs := by
  induction lines using lines_induction with
  | nil => exact ⟨[], rfl, textSegments_nil, by simp, trivial⟩
  | line first rest hn ih =>
    obtain ⟨runs, hl, hs, hv, hm⟩ := ih
    by_cases ht : first.trim = []
    · have hb := Text.allBlank_of_trim ht
      refine ⟨.blank first :: runs, by rw [List.flatMap_cons, hl]; rfl, ?_, ?_, trivial, hm⟩
      · rw [textSegments_cons hn, ofLine_of_allBlank hb, hs]
        rfl
      · exact List.forall_mem_cons.2 ⟨hb, hv⟩
    · obtain ⟨form, hf⟩ := Form.exists_fits first.trim
      refine ⟨.text first form :: runs, by rw [List.flatMap_cons, hl]; rfl, ?_, ?_, ?_, hm⟩
      · rw [textSegments_cons hn, ofLine, Form.classify?_eq hf rfl ht, hs]
        rfl
      · exact List.forall_mem_cons.2 ⟨⟨ht, hf⟩, hv⟩
      · rintro second third more hr hstart
        rw [hl] at hr
        exact hn first second third more (by rw [hr]) _ _ _
          (Table.start_eq_table_iff.2 ⟨hstart, rfl, rfl, rfl⟩)
  | table first second third rest indent head align hs ih =>
    obtain ⟨runs, hl, hsegs, hv, hm⟩ := ih
    obtain ⟨hstart, rfl, rfl, rfl⟩ := Table.start_eq_table_iff.1 hs
    refine ⟨.table first second (third :: rest.takeWhile (Table.isRowAt (indentOf first))) :: runs,
      ?_, ?_, ?_, ?_, hm⟩
    · rw [List.flatMap_cons, hl]
      simp [Run.lines]
    · rw [textSegments_table hs, hsegs]
      rfl
    · refine List.forall_mem_cons.2 ⟨⟨⟨third, rfl, hstart⟩, ?_⟩, hv⟩
      refine List.forall_mem_cons.2 ⟨⟨hstart.row, hstart.third⟩, fun row hrow => ?_⟩
      have hat := List.all_eq_true.1 List.all_takeWhile row hrow
      simpa [Table.isRowAt] using hat
    · rintro next hnext ⟨hr, hi⟩
      have hstop := List.head?_dropWhile_not (Table.isRowAt (indentOf first)) rest
      rw [hl] at hnext
      rw [Option.mem_def.1 hnext] at hstop
      simp [Table.isRowAt, hr, hi] at hstop

end Reading

namespace Run

theorem isWave_of_segment? {run : Run} {s : Segment} (h : run.segment? = some s) :
    s.content.isWave = false := by
  cases run with
  | blank => cases h
  | text line form =>
    cases h
    cases form <;> rfl
  | table =>
    cases h
    rfl

end Run

namespace Document

/-- Lines in which no wave block opens fall into runs, of which each but a blank line is one segment
of the document. -/
theorem ofLines_runs {lines : List Text} (h : ∀ line ∈ lines, Tagless line) :
    ∃ runs : List Run, runs.flatMap Run.lines = lines ∧
      (ofLines lines).1 = ⟨runs.filterMap Run.segment?, false⟩ ∧ (∀ run ∈ runs, run.Valid) ∧
      Run.Maximal runs := by
  have hn : Wave.firstOpening? lines = none :=
    Wave.firstOpening?_eq_none fun line hl => Wave.opening?_eq_none_iff.2 (h line hl)
  obtain ⟨runs, hl, hs, hv, hm⟩ := Reading.exists_runs lines
  refine ⟨runs, hl, ?_, hv, hm⟩
  have hw : (runs.filterMap Run.segment?).any (·.content.isWave) = false := by
    rw [List.any_eq_false]
    intro s hs
    obtain ⟨run, _, hr⟩ := List.mem_filterMap.1 hs
    simp [Run.isWave_of_segment? hr]
  rw [ofLines_eq, Reading.blockSegments_none hn, hs, ofSegments, hw]

/-- An alignment row that does not fit, a table with a ragged row, and rows of another indentation
below it. -/
theorem ofLines_runs_ragged :
    (∀ line ∈ ["|a|".toList, "|---|---|".toList, "x|y".toList, "--:|---".toList, "1".toList,
      "x|y".toList, "--:|---".toList, "1|".toList, "1|2|3".toList, " 4|5".toList, [' ']],
      Tagless line) ∧
    ∃ runs : List Run, runs.flatMap Run.lines = ["|a|".toList, "|---|---|".toList, "x|y".toList,
        "--:|---".toList, "1".toList, "x|y".toList, "--:|---".toList, "1|".toList, "1|2|3".toList,
        " 4|5".toList, [' ']] ∧
      (ofLines ["|a|".toList, "|---|---|".toList, "x|y".toList, "--:|---".toList, "1".toList,
        "x|y".toList, "--:|---".toList, "1|".toList, "1|2|3".toList, " 4|5".toList, [' ']]).1 =
          ⟨runs.filterMap Run.segment?, false⟩ ∧
      (∀ run ∈ runs, run.Valid) ∧ Run.Maximal runs := by
  have h : ∀ line ∈ ["|a|".toList, "|---|---|".toList, "x|y".toList, "--:|---".toList, "1".toList,
      "x|y".toList, "--:|---".toList, "1|".toList, "1|2|3".toList, " 4|5".toList, [' ']],
      Tagless line := by
    unfold Tagless
    decide
  exact ⟨h, ofLines_runs h⟩

end Document

end Note
end Pinout
