import Pinout.Proofs.Note.Indented

/-!
# Pinout.Proofs.Note.Dedented

A line without its first columns. `stripIndent` takes off the longest run of spaces and tabs that
ends in them (`LongestIndent`), where the columns of a tab depend on where it stands. A line that is
indented by spaces alone then has that much less indentation, so two such lines stay as far apart as
they are (`stripIndent_dedents`).

One pass over the line finds the run: `exists_stripIndentFrom` says what it has taken off and that
what follows is `Full`, and from the latter no longer run fits (`prefix_of_full`).
-/

namespace Pinout
namespace Note

/-- Spaces and tabs only. -/
def IsIndent (p : Text) : Prop := ∀ c ∈ p, c = ' ' ∨ c = '\t'

/-- `p` is the longest run of spaces and tabs at the head of the line that ends in its first `limit`
columns. -/
structure LongestIndent (limit : Nat) (line p : Text) : Prop where
  lead : p <+: line
  indent : IsIndent p
  fits : indentOf p ≤ limit
  longest : ∀ q, q <+: line → IsIndent q → indentOf q ≤ limit → q <+: p

/-- A space or a tab at the head of the text would, from `column`, go beyond the first `limit`
columns. -/
def Full (limit column : Nat) (t : Text) : Prop :=
  ∀ c ∈ t.head?, ∀ next ∈ nextColumn? column c, limit + markerWidth < next

section

variable {limit column : Nat} {line p t : Text}

/-! ## Runs of spaces and tabs -/

theorem isIndent_nil : IsIndent [] := fun _ h => absurd h List.not_mem_nil

theorem isIndent_cons {c : Char} : IsIndent (c :: p) ↔ (c = ' ' ∨ c = '\t') ∧ IsIndent p :=
  List.forall_mem_cons

theorem exists_nextColumn? {c : Char} (hc : c = ' ' ∨ c = '\t') (column : Nat) :
    ∃ next, nextColumn? column c = some next := by
  rcases hc with rfl | rfl
  · exact ⟨_, rfl⟩
  · exact ⟨_, rfl⟩

theorem columnAfterIndent_cons {c : Char} {next : Nat} (h : nextColumn? column c = some next)
    (t : Text) : columnAfterIndent column (c :: t) = columnAfterIndent next t := by
  rw [columnAfterIndent, h]

theorem columnAfterIndent_append (hp : IsIndent p) (t : Text) (column : Nat) :
    columnAfterIndent column (p ++ t) = columnAfterIndent (columnAfterIndent column p) t := by
  induction p generalizing column with
  | nil => rfl
  | cons c p ih =>
    rw [isIndent_cons] at hp
    obtain ⟨next, hn⟩ := exists_nextColumn? hp.1 column
    rw [List.cons_append, columnAfterIndent_cons hn, columnAfterIndent_cons hn]
    exact ih hp.2 next

theorem indentOf_le_iff :
    indentOf p ≤ limit ↔ columnAfterIndent markerWidth p ≤ limit + markerWidth := by
  rw [indentOf]
  omega

/-! ## The pass over the line -/

/-- What a pass takes off, and that it could not take more. -/
theorem exists_stripIndentFrom (hc : column ≤ limit + markerWidth) (line : Text) :
    ∃ p, line = p ++ stripIndentFrom column limit line ∧ IsIndent p ∧
      columnAfterIndent column p ≤ limit + markerWidth ∧
      Full limit (columnAfterIndent column p) (stripIndentFrom column limit line) := by
  induction line generalizing column with
  | nil => exact ⟨[], rfl, isIndent_nil, hc, by simp [Full, stripIndentFrom]⟩
  | cons c line ih =>
    rw [stripIndentFrom]
    cases hn : nextColumn? column c with
    | none => exact ⟨[], rfl, isIndent_nil, hc, by simp [Full, columnAfterIndent, hn]⟩
    | some next =>
      by_cases hlimit : limit < next - markerWidth
      · simp only [hlimit, if_true]
        refine ⟨[], rfl, isIndent_nil, hc, ?_⟩
        simp [Full, columnAfterIndent, hn]
        omega
      · simp only [hlimit, if_false]
        obtain ⟨p, hline, hp, hfits, hfull⟩ := ih (by omega : next ≤ limit + markerWidth)
        refine ⟨c :: p, congrArg (c :: ·) hline, ?_, ?_, ?_⟩
        · exact isIndent_cons.2 ⟨isIndent_of_nextColumn? hn, hp⟩
        · rwa [columnAfterIndent_cons hn]
        · rwa [columnAfterIndent_cons hn]

/-- A run that fits does not go on where the columns are full. -/
theorem prefix_of_full (hp : IsIndent p) (hfull : Full limit (columnAfterIndent markerWidth p) t)
    {q : Text} (hq : q <+: p ++ t) (hi : IsIndent q) (hfits : indentOf q ≤ limit) : q <+: p := by
  rcases List.prefix_or_prefix_of_prefix hq (List.prefix_append p t) with h | ⟨s, rfl⟩
  · exact h
  · cases s with
    | nil => simp
    | cons c s =>
      exfalso
      obtain ⟨next, hn⟩ :=
        exists_nextColumn? (hi c (by simp)) (columnAfterIndent markerWidth p)
      have hhead : t.head? = some c := by
        obtain ⟨r, rfl⟩ := (List.prefix_append_right_inj p).1 hq
        rfl
      have hbeyond := hfull c hhead next hn
      have hcolumn := le_columnAfterIndent next s
      rw [indentOf_le_iff, columnAfterIndent_append hp, columnAfterIndent_cons hn] at hfits
      omega

/-- Why a pass stops. -/
theorem full_cases (hp : IsIndent p) (h : Full limit (columnAfterIndent markerWidth p) t) :
    t = [] ∨ startsFlush t ∨ ∃ c r, t = c :: r ∧ limit < indentOf (p ++ [c]) := by
  cases t with
  | nil => exact .inl rfl
  | cons c r =>
    right
    by_cases hc : c = ' ' ∨ c = '\t'
    · right
      obtain ⟨next, hn⟩ := exists_nextColumn? hc (columnAfterIndent markerWidth p)
      have hbeyond := h c rfl next hn
      refine ⟨c, r, rfl, Nat.lt_of_not_le fun hfits => ?_⟩
      rw [indentOf_le_iff, columnAfterIndent_append hp, columnAfterIndent_cons hn] at hfits
      have hcolumn := le_columnAfterIndent next []
      omega
    · left
      rw [not_or] at hc
      simp [startsFlush, hc]

theorem exists_longestIndent (limit : Nat) (line : Text) :
    ∃ p, line = p ++ stripIndent limit line ∧ LongestIndent limit line p ∧
      (stripIndent limit line = [] ∨ startsFlush (stripIndent limit line) ∨
        ∃ c r, stripIndent limit line = c :: r ∧ limit < indentOf (p ++ [c])) := by
  obtain ⟨p, hline, hp, hfits, hfull⟩ :=
    exists_stripIndentFrom (Nat.le_add_left markerWidth limit) line
  refine ⟨p, hline, ⟨⟨_, hline.symm⟩, hp, indentOf_le_iff.2 hfits, fun q hq hi hf => ?_⟩,
    full_cases hp hfull⟩
  rw [hline] at hq
  exact prefix_of_full hp hfull hq hi hf

/-! ## Lines indented by spaces -/

theorem exists_spaces_of_untabbed (h : Untabbed line) :
    ∃ n t, line = Text.spaces n ++ t ∧ startsFlush t := by
  have hline := List.takeWhile_append_dropWhile (p := fun c => c == ' ' || c == '\t') (l := line)
  have hhead := List.head?_dropWhile_not (fun c => c == ' ' || c == '\t') line
  have hspaces : ∀ c ∈ line.takeWhile fun c => c == ' ' || c == '\t', c = ' ' := by
    intro c hc
    have hindent := List.all_eq_true.1 List.all_takeWhile c hc
    rw [Bool.or_eq_true, beq_iff_eq, beq_iff_eq] at hindent
    refine hindent.resolve_right ?_
    rintro rfl
    exact h hc
  rw [List.eq_replicate_of_mem hspaces] at hline
  refine ⟨_, _, hline.symm, ?_⟩
  cases hd : line.dropWhile fun c => c == ' ' || c == '\t' with
  | nil => rfl
  | cons c r =>
    rw [hd] at hhead
    simpa [startsFlush] using hhead

theorem indentOf_stripIndent (h : Untabbed line) (limit : Nat) :
    indentOf (stripIndent limit line) = indentOf line - limit := by
  obtain ⟨n, t, rfl, ht⟩ := exists_spaces_of_untabbed h
  rw [stripIndent_spaces limit n ht, indentOf_spaces _ ht, indentOf_spaces _ ht]

end

/-- What is taken off a line is the longest run of spaces and tabs in its first `limit` columns: the
rest is empty, or starts with something else, or its first character would go beyond them. A line
that is indented by spaces loses just these columns, so another such line is as much further in as
it was before. -/
theorem stripIndent_dedents (limit : Nat) (line : Text) :
    (∃ p, line = p ++ stripIndent limit line ∧ LongestIndent limit line p ∧
      (stripIndent limit line = [] ∨ startsFlush (stripIndent limit line) ∨
        ∃ c r, stripIndent limit line = c :: r ∧ limit < indentOf (p ++ [c]))) ∧
    (Untabbed line → indentOf (stripIndent limit line) = indentOf line - limit ∧
      ∀ other, Untabbed other → limit ≤ indentOf line →
        indentOf (stripIndent limit other) - indentOf (stripIndent limit line) =
          indentOf other - indentOf line) := by
  refine ⟨exists_longestIndent limit line, fun h => ?_⟩
  refine ⟨indentOf_stripIndent h limit, fun other ho hle => ?_⟩
  rw [indentOf_stripIndent h, indentOf_stripIndent ho]
  omega

/-- Two lines of a payload in a block that is indented by two columns; and a tab that goes beyond
them, which stays. -/
theorem stripIndent_dedents_payload :
    Untabbed "   a:".toList ∧ Untabbed "      b: 1".toList ∧ 2 ≤ indentOf "   a:".toList ∧
    indentOf (stripIndent 2 "   a:".toList) = 1 ∧
    indentOf (stripIndent 2 "      b: 1".toList) - indentOf (stripIndent 2 "   a:".toList) = 3 ∧
    ∃ p, " \t\tc".toList = p ++ stripIndent 2 " \t\tc".toList ∧ LongestIndent 2 " \t\tc".toList p := by
  have ha : Untabbed "   a:".toList := by unfold Untabbed; decide
  have hb : Untabbed "      b: 1".toList := by unfold Untabbed; decide
  have hle : 2 ≤ indentOf "   a:".toList := by decide
  obtain ⟨hindent, hnesting⟩ := (stripIndent_dedents 2 "   a:".toList).2 ha
  obtain ⟨p, hline, hlongest, -⟩ := (stripIndent_dedents 2 " \t\tc".toList).1
  exact ⟨ha, hb, hle, hindent, hnesting _ hb hle, p, hline, hlongest⟩

end Note
end Pinout
