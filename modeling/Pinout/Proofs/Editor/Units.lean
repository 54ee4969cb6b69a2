import Pinout.Proofs.Editor.Occurrence

/-!
# Pinout.Proofs.Editor.Units

Positions against code units of UTF-16, in which an editor may count. A character outside the basic
plane has two code units and is one character of a position (`length_utf16`), so a position is a
place in the code units as well as long as no such character stands in front of it on its line, and
otherwise it is as many short as there are (`positions_utf16`, `positions_behind_wide`).
-/

namespace Pinout

namespace Text

/-- Outside the basic plane. -/
def isWide (c : Char) : Bool := 0x10000 ≤ c.toNat

/-- The code units of a character: itself, or a pair of surrogates that share its bits. -/
def units (c : Char) : List Nat :=
  if isWide c then
    [0xD800 + (c.toNat - 0x10000) / 0x400, 0xDC00 + (c.toNat - 0x10000) % 0x400]
  else [c.toNat]

def utf16 (t : Text) : List Nat := t.flatMap units

/-- The number of code units in front of a character. -/
def offset16 (t : Text) (n : Nat) : Nat := (utf16 (t.take n)).length

theorem utf16_append (t u : Text) : utf16 (t ++ u) = utf16 t ++ utf16 u := List.flatMap_append

theorem length_utf16 (t : Text) : (utf16 t).length = t.length + t.countP isWide := by
  induction t with
  | nil => rfl
  | cons c t ih =>
    rw [utf16, List.flatMap_cons, List.length_append, ← utf16, ih, List.length_cons,
      List.countP_cons, units]
    split <;> simp only [List.length_cons, List.length_nil] <;> omega

theorem lt_of_isWordChar {c : Char} (h : isWordChar c) : c.toNat < 0x80 := by
  simp only [isWordChar, Bool.or_eq_true, beq_iff_eq] at h
  rcases h with (h | rfl) | rfl
  · have hn : c.val.toNat = c.toNat := rfl
    have hranges : ((decide (65 ≤ c.val ∧ c.val ≤ 90) || 97 ≤ c.val && c.val ≤ 122) ||
      48 ≤ c.val && c.val ≤ 57) = true := h
    simp only [UInt32.le_iff_toNat_le, hn, Bool.or_eq_true, Bool.and_eq_true,
      decide_eq_true_eq] at hranges
    rcases hranges with (⟨-, h⟩ | ⟨-, h⟩) | ⟨-, h⟩
    · exact Nat.lt_of_le_of_lt h (by decide)
    · exact Nat.lt_of_le_of_lt h (by decide)
    · exact Nat.lt_of_le_of_lt h (by decide)
  · decide
  · decide

theorem not_isWide_of_isWordChar {c : Char} (h : isWordChar c) : isWide c = false := by
  have := lt_of_isWordChar h
  rw [isWide, decide_eq_false_iff_not]
  omega

theorem countP_isWide_word {word : Text} (hw : ∀ c ∈ word, isWordChar c) :
    word.countP isWide = 0 :=
  List.countP_eq_zero.2 fun c hc => by simp [not_isWide_of_isWordChar (hw c hc)]

end Text

namespace Editor

open Text (isWordChar WordAt utf16 offset16 isWide)

/-- The items from one place to right before another. -/
def slice {α : Type} (items : List α) (start stop : Nat) : List α :=
  (items.drop start).take (stop - start)

section

variable {word line : Text} {column : Nat}

/-- In a word, the code units in front of a place are as many more than the characters as there are
wide characters in front of the word. -/
theorem offset16_of_wordAt (hne : word ≠ []) (hw : ∀ c ∈ word, isWordChar c)
    (h : WordAt word line column) {i : Nat} (hi : i ≤ word.length) :
    offset16 line (column + i) = column + i + (line.take column).countP isWide := by
  obtain ⟨a, b, rfl, rfl, -, -⟩ := Text.exists_of_wordAt hne h
  have htake := Text.countP_isWide_word fun c hc => hw c (List.take_subset i word hc)
  rw [offset16, Text.length_utf16, List.take_left, List.take_length_add_append,
    List.take_append_of_le_length hi, List.length_append, List.length_take_of_le hi,
    List.countP_append, htake]
  omega

theorem slice_of_wordAt (hne : word ≠ []) (h : WordAt word line column) :
    slice (utf16 line) (offset16 line column) (offset16 line (column + word.length)) =
      utf16 word := by
  obtain ⟨a, b, rfl, rfl, -, -⟩ := Text.exists_of_wordAt hne h
  rw [slice, offset16, offset16, List.take_left, List.take_length_add_append, List.take_left,
    Text.utf16_append, Text.utf16_append, Text.utf16_append, List.drop_left, List.length_append,
    Nat.add_sub_cancel_left, List.take_left]

end

/-- Positions count characters. In front of a name that is found stand `k` more code units than its
range says, where `k` is the number of wide characters in front of it on its line, and the code units
at its range, moved by `k`, spell the name. At the place that the code units give for a point of a
whole word, the word is found as long as `k` more characters of it follow; without wide characters
in front these are all its points, both ends included. -/
theorem positions_utf16 (t : Text) {name : Text} (hne : name ≠ []) (hw : ∀ c ∈ name, isWordChar c) :
    (∀ origin r, findIdentifier? t name origin = some r → r.stop.line = r.start.line ∧
      ∃ line k, t.lines[r.start.line]? = some line ∧
        k = (line.take r.start.character).countP isWide ∧
        offset16 line r.start.character = r.start.character + k ∧
        offset16 line r.stop.character = r.stop.character + k ∧
        slice (utf16 line) (r.start.character + k) (r.stop.character + k) = utf16 name) ∧
    ∀ n line column, t.lines[n]? = some line → WordAt name line column →
      ∀ i, i + (line.take column).countP isWide ≤ name.length →
        identifierAt? t ⟨n, offset16 line (column + i)⟩ = some name := by
  constructor
  · intro origin r hr
    obtain ⟨⟨line, hl, hword⟩, hstop⟩ := (isFirst_of_findIdentifier? hr).holds
    have hstart := offset16_of_wordAt hne hw hword (Nat.zero_le _)
    have hend := offset16_of_wordAt hne hw hword (Nat.le_refl _)
    have hslice := slice_of_wordAt hne hword
    rw [Nat.add_zero] at hstart
    rw [hstart, hend] at hslice
    rw [hstop]
    exact ⟨rfl, line, _, hl, rfl, hstart, hend, hslice⟩
  · intro n line column hl hword i hi
    rw [offset16_of_wordAt hne hw hword (by omega), Nat.add_assoc, identifierAt?, hl]
    exact identifierInLine?_of_wordAt hne hw hword hi

/-- A wide character in a comment in front of the name. -/
def wideLine : Text := "/* 😀 */ input clk".toList

theorem positions_utf16_comment :
    "clk".toList ≠ [] ∧ (∀ c ∈ "clk".toList, isWordChar c) ∧
    findIdentifier? wideLine "clk".toList .zero = some (rangeAt "clk".toList 0 14) ∧
    (wideLine.take 14).countP isWide = 1 ∧
    slice (utf16 wideLine) (14 + 1) (17 + 1) = utf16 "clk".toList ∧
    identifierAt? wideLine ⟨0, offset16 wideLine (14 + 2)⟩ = some "clk".toList := by
  have hw : ∀ c ∈ "clk".toList, isWordChar c := Text.forall_of_all (by decide)
  have hfound : findIdentifier? wideLine "clk".toList .zero = some (rangeAt "clk".toList 0 14) := by
    decide
  have hwide : (wideLine.take 14).countP isWide = 1 := by decide
  obtain ⟨hrange, hpoint⟩ := positions_utf16 wideLine (List.cons_ne_nil _ _) hw
  obtain ⟨-, line, k, hl, hk, -, -, hslice⟩ := hrange _ _ hfound
  obtain rfl : wideLine = line := Option.some.inj hl
  obtain rfl : k = 1 := hk.trans hwide
  exact ⟨List.cons_ne_nil _ _, hw, hfound, hwide, hslice,
    hpoint 0 wideLine 14 hl ⟨by decide, by decide, by decide⟩ 2 (by decide)⟩

/-- The code units at the range are not those of the name, and at the place that the code units give
for its end nothing is found. -/
theorem positions_behind_wide :
    (∀ c ∈ "clk".toList, isWordChar c) ∧
    findIdentifier? wideLine "clk".toList .zero = some (rangeAt "clk".toList 0 14) ∧
    slice (utf16 wideLine) 14 17 ≠ utf16 "clk".toList ∧
    WordAt "clk".toList wideLine 14 ∧ offset16 wideLine (14 + 3) = 18 ∧
    identifierAt? wideLine ⟨0, 18⟩ = none :=
  ⟨Text.forall_of_all (by decide), by decide, by decide, ⟨by decide, by decide, by decide⟩,
    by decide, by decide⟩

end Editor
end Pinout
