import Pinout.Note.Table
import Pinout.Proofs.Text.Blank

/-!
# Pinout.Proofs.Note.Row

Rows of tables, printed and read. `row` puts a space and a pipe around each cell and a backslash
before each pipe in one; `cells_row` reads the cells back, and `start_rows` finds the table where its
rows are printed. The cells of any line are trimmed (`trim_of_mem_cells`), so they are among those
that are read back: a line is split into the cells of the row in which they are printed
(`cells_normalForm`).

A line without a pipe is no row of any kind (`isRow_eq_false`, `isAlignRow_eq_false`).
-/

namespace Pinout
namespace Note

/-! ## Indentation -/

/-- The text starts with neither a space nor a tab. -/
def startsFlush (t : Text) : Bool := t.head?.all fun c => c != ' ' && c != '\t'

theorem nextColumn?_of_flush {c : Char} {t : Text} (h : startsFlush (c :: t)) (column : Nat) :
    nextColumn? column c = none := by
  have hc : c ≠ ' ' ∧ c ≠ '\t' := by simpa [startsFlush] using h
  rw [nextColumn?, if_neg hc.1, if_neg hc.2]

theorem columnAfterIndent_spaces (n : Nat) {t : Text} (h : startsFlush t) (column : Nat) :
    columnAfterIndent column (Text.spaces n ++ t) = column + n := by
  induction n generalizing column with
  | zero =>
    cases t with
    | nil => rfl
    | cons c t =>
      show columnAfterIndent column (c :: t) = column
      rw [columnAfterIndent, nextColumn?_of_flush h]
  | succ n ih =>
    show columnAfterIndent (column + 1) (Text.spaces n ++ t) = column + (n + 1)
    rw [ih]
    omega

theorem indentOf_spaces (n : Nat) {t : Text} (h : startsFlush t) :
    indentOf (Text.spaces n ++ t) = n := by
  rw [indentOf, columnAfterIndent_spaces n h]
  omega

theorem stripIndentFrom_spaces (n : Nat) {k limit : Nat} {t : Text} (h : startsFlush t)
    (hk : k ≤ limit) : stripIndentFrom (markerWidth + k) limit (Text.spaces n ++ t) =
      Text.spaces (n - (limit - k)) ++ t := by
  induction n generalizing k with
  | zero =>
    cases t with
    | nil => simp [Text.spaces, stripIndentFrom]
    | cons c t => simp [Text.spaces, stripIndentFrom, nextColumn?_of_flush h]
  | succ n ih =>
    show (if limit < markerWidth + k + 1 - markerWidth then ' ' :: (Text.spaces n ++ t)
      else stripIndentFrom (markerWidth + (k + 1)) limit (Text.spaces n ++ t)) = _
    by_cases hfull : limit = k
    · rw [if_pos (by omega), hfull, Nat.sub_self]
      rfl
    · rw [if_neg (by omega), ih (by omega), show n - (limit - (k + 1)) = n + 1 - (limit - k) by omega]

/-- Of spaces at the head of a line those stay that are behind the columns taken off. -/
theorem stripIndent_spaces (limit n : Nat) {t : Text} (h : startsFlush t) :
    stripIndent limit (Text.spaces n ++ t) = Text.spaces (n - limit) ++ t :=
  stripIndentFrom_spaces n h (Nat.zero_le limit)

theorem stripIndent_spaces_self (n : Nat) {t : Text} (h : startsFlush t) :
    stripIndent n (Text.spaces n ++ t) = t := by
  rw [stripIndent_spaces n n h, Nat.sub_self]
  rfl

theorem startsFlush_of_not_blank {t : Text} (h : t.head?.all (!Text.isBlank ·)) :
    startsFlush t := by
  cases t with
  | nil => rfl
  | cons c t =>
    have hc : Text.isBlank c = false := by simpa using h
    have h₁ : c ≠ ' ' := by rintro rfl; cases hc
    have h₂ : c ≠ '\t' := by rintro rfl; cases hc
    simp [startsFlush, h₁, h₂]

namespace Table

/-! ## Lines without a pipe -/

theorem pipe_mem_of_hasInnerPipe {previous : Char} {t : Text} (h : hasInnerPipe previous t) :
    '|' ∈ t := by
  induction t generalizing previous with
  | nil => cases h
  | cons c t ih =>
    rw [hasInnerPipe, Bool.or_eq_true, Bool.and_eq_true, beq_iff_eq] at h
    rcases h with ⟨rfl, _⟩ | h
    · exact List.mem_cons_self
    · exact List.mem_cons_of_mem _ (ih h)

theorem mem_of_mem_dropLeadingPipe {t : Text} {c : Char} (h : c ∈ dropLeadingPipe t) : c ∈ t := by
  unfold dropLeadingPipe at h
  split at h
  · exact List.mem_cons_of_mem _ h
  · exact h

theorem isRow_eq_false {line : Text} (h : '|' ∉ line) : isRow line = false := by
  rw [Bool.eq_false_iff]
  intro hr
  unfold isRow at hr
  split at hr
  · cases hr
  · next c t ht =>
    refine h (Text.mem_of_mem_trim (mem_of_mem_dropLeadingPipe ?_))
    rw [ht]
    exact List.mem_cons_of_mem _ (pipe_mem_of_hasInnerPipe hr)

theorem isAlignRow_eq_false {line : Text} (h : '|' ∉ line) : isAlignRow line = false := by
  rw [isAlignRow, Bool.and_eq_false_iff]
  exact .inl (by simpa using fun hm => h (Text.mem_of_mem_trim hm))

/-! ## Printed rows -/

/-- A cell as it is written, with a backslash before each pipe. -/
def escapePipes (t : Text) : Text := t.flatMap fun c => if c = '|' then ['\\', '|'] else [c]

/-- A cell with a space on both sides. -/
def padded (cell : Text) : Text := ' ' :: (escapePipes cell ++ [' '])

/-- A row with pipes around its cells. -/
def row (cells : List Text) : Text := '|' :: (Text.joinWith ['|'] (cells.map padded) ++ ['|'])

theorem escapePipes_nil : escapePipes [] = [] := rfl

theorem escapePipes_pipe (t : Text) : escapePipes ('|' :: t) = '\\' :: '|' :: escapePipes t := rfl

theorem escapePipes_cons {c : Char} (hc : c ≠ '|') (t : Text) :
    escapePipes (c :: t) = c :: escapePipes t := by
  rw [escapePipes, List.flatMap_cons, if_neg hc]
  rfl

theorem unescapePipes_cons {c : Char} {t : Text} (h : c ≠ '\\' ∨ t.head? ≠ some '|') :
    unescapePipes (c :: t) = c :: unescapePipes t := by
  cases t with
  | nil => rfl
  | cons d t =>
    rw [unescapePipes, if_neg]
    rintro ⟨rfl, rfl⟩
    rcases h with h | h <;> exact h rfl

/-- An escaped text never starts with a pipe. -/
theorem head?_escapePipes (t : Text) : (escapePipes t).head? ≠ some '|' := by
  cases t with
  | nil => simp [escapePipes_nil]
  | cons c t =>
    by_cases hc : c = '|'
    · rw [hc, escapePipes_pipe]
      simp
    · rw [escapePipes_cons hc]
      simpa using hc

theorem unescapePipes_escapePipes (t : Text) : unescapePipes (escapePipes t) = t := by
  induction t with
  | nil => rfl
  | cons c t ih =>
    by_cases hc : c = '|'
    · rw [hc, escapePipes_pipe, unescapePipes, if_pos ⟨rfl, rfl⟩, ih]
    · rw [escapePipes_cons hc, unescapePipes_cons (.inr (head?_escapePipes t)), ih]

theorem escapePipes_eq_self {t : Text} (h : '|' ∉ t) : escapePipes t = t := by
  induction t with
  | nil => rfl
  | cons c t ih =>
    simp only [List.mem_cons, not_or] at h
    rw [escapePipes_cons (Ne.symm h.1), ih h.2]

theorem splitPipes_cons {escaped : Bool} {c : Char} {t piece : Text} {pieces : List Text}
    (hc : c ≠ '|' ∨ escaped) (h : splitPipes (c == '\\') t = piece :: pieces) :
    splitPipes escaped (c :: t) = (c :: piece) :: pieces := by
  rw [splitPipes, if_neg, h]
  rintro ⟨rfl, he⟩
  rcases hc with hc | hc
  · exact hc rfl
  · rw [hc] at he
    cases he

/-- The pipes of an escaped cell cut nothing, and the space behind it keeps a backslash at its end
away from the next pipe. -/
theorem splitPipes_escapePipes (escaped : Bool) (cell : Text) {t : Text} {pieces : List Text}
    (h : splitPipes false t = [] :: pieces) :
    splitPipes escaped (escapePipes cell ++ ' ' :: t) = (escapePipes cell ++ [' ']) :: pieces := by
  induction cell generalizing escaped with
  | nil => exact splitPipes_cons (.inl (by decide)) h
  | cons c cell ih =>
    by_cases hc : c = '|'
    · rw [hc, escapePipes_pipe]
      exact splitPipes_cons (.inl (by decide)) (splitPipes_cons (.inr rfl) (ih _))
    · rw [escapePipes_cons hc]
      exact splitPipes_cons (.inl hc) (ih _)

theorem splitPipes_joinWith {cells : List Text} (h : cells ≠ []) :
    splitPipes false (Text.joinWith ['|'] (cells.map padded)) = cells.map padded := by
  induction cells with
  | nil => exact absurd rfl h
  | cons cell cells ih =>
    cases cells with
    | nil => exact splitPipes_cons (.inl (by decide)) (splitPipes_escapePipes _ cell rfl)
    | cons next cells =>
      have hj : Text.joinWith ['|'] ((cell :: next :: cells).map padded) =
          ' ' :: (escapePipes cell ++ ' ' :: '|' ::
            Text.joinWith ['|'] ((next :: cells).map padded)) := by
        simp [Text.joinWith, padded]
      rw [hj]
      refine splitPipes_cons (.inl (by decide)) (splitPipes_escapePipes _ cell ?_)
      rw [splitPipes, if_pos ⟨rfl, rfl⟩, ih (by simp)]

/-- Padded cells end in a space. -/
theorem exists_concat_joinWith {cells : List Text} (h : cells ≠ []) :
    ∃ t, Text.joinWith ['|'] (cells.map padded) = ' ' :: (t ++ [' ']) := by
  induction cells with
  | nil => exact absurd rfl h
  | cons cell cells ih =>
    cases cells with
    | nil => exact ⟨escapePipes cell, rfl⟩
    | cons next cells =>
      obtain ⟨t, ht⟩ := ih (by simp)
      refine ⟨escapePipes cell ++ " | ".toList ++ t, ?_⟩
      have hj : Text.joinWith ['|'] ((cell :: next :: cells).map padded) =
          padded cell ++ ['|'] ++ Text.joinWith ['|'] ((next :: cells).map padded) := rfl
      rw [hj, ht]
      simp [padded]

theorem trim_spaces_row (n : Nat) (cells : List Text) :
    Text.trim (Text.spaces n ++ row cells) = row cells := by
  rw [Text.trim_append (Text.allBlank_spaces n)]
  refine Text.trim_eq_self rfl ?_
  rw [row, ← List.cons_append, List.getLast?_concat]
  rfl

theorem isRow_row (n : Nat) {cells : List Text} (h : cells ≠ []) :
    isRow (Text.spaces n ++ row cells) := by
  obtain ⟨t, ht⟩ := exists_concat_joinWith h
  have hp : ∀ (previous : Char) (t : Text), hasInnerPipe previous (t ++ [' ', '|']) := by
    intro previous t
    induction t generalizing previous with
    | nil => simp [hasInnerPipe]
    | cons c t ih => rw [List.cons_append, hasInnerPipe, ih, Bool.or_true]
  have hd : dropLeadingPipe (row cells) = ' ' :: (t ++ [' ', '|']) := by
    rw [row, ht]
    simp [dropLeadingPipe]
  rw [isRow, trim_spaces_row, hd]
  exact hp ' ' t

theorem head?_all_escapePipes {t : Text} (h : t.head?.all (!Text.isBlank ·)) :
    (escapePipes t).head?.all (!Text.isBlank ·) := by
  cases t with
  | nil => rfl
  | cons c t =>
    by_cases hc : c = '|'
    · rw [hc, escapePipes_pipe]
      rfl
    · rw [escapePipes_cons hc]
      exact h

theorem getLast?_all_escapePipes {t : Text} (h : t.getLast?.all (!Text.isBlank ·)) :
    (escapePipes t).getLast?.all (!Text.isBlank ·) := by
  cases t using List.reverseRecOn with
  | nil => rfl
  | append_singleton t c =>
    rw [escapePipes, List.flatMap_append, List.flatMap_singleton]
    by_cases hc : c = '|'
    · rw [if_pos hc, List.getLast?_append]
      rfl
    · rw [if_neg hc, List.getLast?_concat]
      rwa [List.getLast?_concat] at h

theorem trim_padded {cell : Text} (h : cell.trim = cell) :
    Text.trim (padded cell) = escapePipes cell := by
  obtain ⟨hs, he⟩ := Text.ends_of_trim h
  have hp : padded cell = [' '] ++ (escapePipes cell ++ [' ']) := rfl
  rw [hp, Text.trim_append rfl, Text.trim_append_right rfl]
  exact Text.trim_eq_self (head?_all_escapePipes hs) (getLast?_all_escapePipes he)

/-- The cells of a printed row. -/
theorem cells_row (n : Nat) {cells : List Text} (h : cells ≠ []) (ht : ∀ c ∈ cells, c.trim = c) :
    Table.cells (Text.spaces n ++ row cells) = cells := by
  obtain ⟨t, hj⟩ := exists_concat_joinWith h
  have hd : dropTrailingPipe (dropLeadingPipe (row cells)) =
      Text.joinWith ['|'] (cells.map padded) := by
    show dropTrailingPipe (Text.joinWith ['|'] (cells.map padded) ++ ['|']) = _
    have hl : (Text.joinWith ['|'] (cells.map padded)).getLast? ≠ some '\\' := by
      rw [hj, ← List.cons_append, List.getLast?_concat]
      decide
    rw [dropTrailingPipe, List.getLast?_concat, List.dropLast_concat, if_pos ⟨rfl, hl⟩]
  rw [Table.cells, trim_spaces_row, hd, splitPipes_joinWith h, List.map_map]
  conv => rhs; rw [← List.map_id cells]
  refine List.map_congr_left fun c hc => ?_
  show unescapePipes (Text.trim (padded c)) = c
  rw [trim_padded (ht c hc), unescapePipes_escapePipes]

/-! ## Cells of any line -/

theorem head?_unescapePipes {t : Text} (h : t.head?.all (!Text.isBlank ·)) :
    (unescapePipes t).head?.all (!Text.isBlank ·) := by
  fun_cases unescapePipes t with
  | case1 | case2 => exact h
  | case3 => rfl
  | case4 => exact h

theorem getLast?_unescapePipes (t : Text) : (unescapePipes t).getLast? = t.getLast? := by
  fun_induction unescapePipes t with
  | case1 | case2 => rfl
  | case3 c d t h ih =>
    rw [List.getLast?_cons, ih, List.getLast?_cons_cons, List.getLast?_cons, h.2]
  | case4 c d t h ih =>
    rw [List.getLast?_cons, ih, List.getLast?_cons_cons, List.getLast?_cons]
    rfl

theorem trim_of_mem_cells {line cell : Text} (h : cell ∈ cells line) : cell.trim = cell := by
  obtain ⟨piece, _, rfl⟩ := List.mem_map.1 h
  obtain ⟨hs, he⟩ := Text.ends_trim piece
  refine Text.trim_eq_self (head?_unescapePipes hs) ?_
  rwa [getLast?_unescapePipes]

theorem splitPipes_ne_nil (escaped : Bool) (t : Text) : splitPipes escaped t ≠ [] := by
  fun_cases splitPipes escaped t <;> simp

theorem cells_ne_nil (line : Text) : cells line ≠ [] := by
  intro h
  exact splitPipes_ne_nil _ _ (List.map_eq_nil_iff.1 h)

/-- Rows have a normal form. Cells without blanks around them are what their printed row is split
into, and every line is split into such cells, one at least. -/
theorem cells_normalForm :
    (∀ cells : List Text, cells ≠ [] → (∀ c ∈ cells, c.trim = c) → Table.cells (row cells) = cells) ∧
    ∀ line, Table.cells line ≠ [] ∧ (∀ c ∈ Table.cells line, c.trim = c) ∧
      Table.cells (row (Table.cells line)) = Table.cells line := by
  have hread {cells : List Text} (hne : cells ≠ []) (ht : ∀ c ∈ cells, c.trim = c) :
      Table.cells (row cells) = cells := cells_row 0 hne ht
  refine ⟨fun cells => hread, fun line => ?_⟩
  have ht : ∀ c ∈ Table.cells line, c.trim = c := fun _ => trim_of_mem_cells
  exact ⟨cells_ne_nil line, ht, hread (cells_ne_nil line) ht⟩

/-- A cell that ends in a backslash, an empty one, and one of backslashes and pipes alone. -/
def slashedCells : List Text := ["a\\".toList, [], "\\||\\".toList]

/-- The cells are read back, and what an untidy line is split into is read back as well. -/
theorem cells_normalForm_slashed :
    slashedCells ≠ [] ∧ (∀ c ∈ slashedCells, c.trim = c) ∧
    row slashedCells = "| a\\ |  | \\\\|\\|\\ |".toList ∧
    Table.cells "| a\\ |  | \\\\|\\|\\ |".toList = slashedCells ∧
    Table.cells "|| \\| a\\|".toList = [[], "| a|".toList] ∧
    Table.cells (row [[], "| a|".toList]) = [[], "| a|".toList] := by
  have hne : slashedCells ≠ [] := by decide
  have ht : ∀ c ∈ slashedCells, c.trim = c := by decide
  have hcells : Table.cells "|| \\| a\\|".toList = [[], "| a|".toList] := by decide
  have hagain := (cells_normalForm.2 "|| \\| a\\|".toList).2.2
  rw [hcells] at hagain
  exact ⟨hne, ht, rfl, cells_normalForm.1 slashedCells hne ht, hcells, hagain⟩

/-! ## Printed tables -/

/-- How an alignment is written. -/
def token : Align → Text
  | .left => "---".toList
  | .center => ":---:".toList
  | .right => "---:".toList

theorem token_spec (align : Align) : (token align).trim = token align ∧
    isAlignToken (token align) ∧ Align.ofToken (token align) = align ∧ '|' ∉ token align := by
  cases align <;> decide

theorem cells_alignRow (n : Nat) {aligns : List Align} (h : aligns ≠ []) :
    Table.cells (Text.spaces n ++ row (aligns.map token)) = aligns.map token := by
  refine cells_row n (by simpa using h) fun c hc => ?_
  obtain ⟨align, _, rfl⟩ := List.mem_map.1 hc
  exact (token_spec align).1

theorem isAlignRow_row (n : Nat) {aligns : List Align} (h : aligns ≠ []) :
    isAlignRow (Text.spaces n ++ row (aligns.map token)) := by
  have hr := cells_alignRow 0 h
  rw [isAlignRow, trim_spaces_row, Bool.and_eq_true, List.all_eq_true]
  refine ⟨by simp [row], fun c hc => ?_⟩
  rw [show row (aligns.map token) = Text.spaces 0 ++ row (aligns.map token) from rfl, hr] at hc
  obtain ⟨align, _, rfl⟩ := List.mem_map.1 hc
  exact (token_spec align).2.1

theorem indentOf_row (n : Nat) (cells : List Text) :
    indentOf (Text.spaces n ++ row cells) = n := indentOf_spaces n rfl

theorem isRowAt_row (n : Nat) {cells : List Text} (h : cells ≠ []) :
    isRowAt n (Text.spaces n ++ row cells) := by
  rw [isRowAt, isRow_row n h, indentOf_row]
  simp

/-- A table starts where its first three rows are printed. -/
theorem start_rows (n : Nat) {head first : List Text} {aligns : List Align} (hh : head ≠ [])
    (ht : ∀ c ∈ head, c.trim = c) (ha : aligns.length = head.length) (hf : first ≠ []) :
    start (Text.spaces n ++ row head) (Text.spaces n ++ row (aligns.map token))
      (Text.spaces n ++ row first) = .table n head aligns := by
  have hne : aligns ≠ [] := by
    rintro rfl
    exact hh (List.length_eq_zero_iff.1 ha.symm)
  have htokens : (aligns.map token).map Align.ofToken = aligns := by
    rw [List.map_map]
    conv => rhs; rw [← List.map_id aligns]
    exact List.map_congr_left fun align _ => (token_spec align).2.2.1
  simp only [start, indentOf_row, isRow_row n hh, isAlignRow_row n hne, isRowAt_row n hf,
    beq_self_eq_true, Bool.and_self, if_true, cells_row n hh ht, cells_alignRow n hne, htokens, ha]

theorem fitTo_eq_self {width : Nat} {cells : List Text} (h : cells.length = width) :
    fitTo width cells = cells := by
  rw [fitTo, ← h, List.take_length, Nat.sub_self]
  exact List.append_nil cells

end Table
end Note
end Pinout
