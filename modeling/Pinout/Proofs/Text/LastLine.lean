import Mathlib.Data.List.DropRight
import Pinout.Proofs.Text.Line
import Pinout.Text.Blank

/-!
# Pinout.Proofs.Text.LastLine

A place in a text is given by what stands in front of it: `lastLine` is what stands in front of it
on its line, and its line is numbered by the newlines before (`getElem?_splitNewlines`).
-/

namespace Pinout
namespace Text

/-- The text behind the last newline. -/
def lastLine (t : Text) : Text := t.rtakeWhile (· ≠ '\n')

theorem lastLine_newline (t : Text) : lastLine (t ++ ['\n']) = [] :=
  List.rtakeWhile_concat_neg _ _ _ (by simp)

theorem lastLine_char {c : Char} (h : c ≠ '\n') (t : Text) :
    lastLine (t ++ [c]) = lastLine t ++ [c] :=
  List.rtakeWhile_concat_pos _ _ _ (by simpa using h)

theorem lastLine_subset (t : Text) : lastLine t ⊆ t := (List.rtakeWhile_suffix _ _).subset

/-- Text without a newline goes on with the last line. -/
theorem lastLine_append {u : Text} (h : '\n' ∉ u) (t : Text) :
    lastLine (t ++ u) = lastLine t ++ u := by
  induction u using List.reverseRecOn with
  | nil => rw [List.append_nil, List.append_nil]
  | append_singleton u c ih =>
    simp only [List.mem_append, List.mem_singleton, not_or] at h
    rw [← List.append_assoc, lastLine_char (Ne.symm h.2), ih h.1, List.append_assoc]

/-- Only what stands on the last line is carried over a seam. -/
theorem lastLine_append_congr {t u : Text} (h : lastLine t = lastLine u) (v : Text) :
    lastLine (t ++ v) = lastLine (u ++ v) := by
  induction v using List.reverseRecOn with
  | nil => rwa [List.append_nil, List.append_nil]
  | append_singleton v c ih =>
    rw [← List.append_assoc, ← List.append_assoc]
    by_cases hc : c = '\n'
    · rw [hc, lastLine_newline, lastLine_newline]
    · rw [lastLine_char hc, lastLine_char hc, ih]

theorem lastLine_eq_self {t : Text} (h : '\n' ∉ t) : lastLine t = t := lastLine_append h []

theorem lastLine_append_of_mem {u : Text} (h : '\n' ∈ u) (t : Text) :
    lastLine (t ++ u) = lastLine u := by
  obtain ⟨a, b, rfl⟩ := List.append_of_mem h
  have hseam : lastLine (t ++ a ++ ['\n']) = lastLine (a ++ ['\n']) := by
    rw [lastLine_newline, lastLine_newline]
  rw [List.append_cons, ← List.append_assoc, ← List.append_assoc]
  exact lastLine_append_congr hseam b

theorem allBlank_lastLine_char {c : Char} (h : c ≠ '\n') (t : Text) :
    (lastLine (t ++ [c])).allBlank = ((lastLine t).allBlank && isBlank c) := by
  rw [lastLine_char h]
  simp [allBlank]

/-! ## Lines by number -/

theorem length_splitNewlines (t : Text) : (splitNewlines t).length = t.count '\n' + 1 := by
  induction t with
  | nil => rfl
  | cons c t ih =>
    rw [splitNewlines]
    split
    · next h => rw [h, List.count_cons_self, List.length_cons, ih]
    · next h =>
      rw [List.count_cons_of_ne h]
      cases hs : splitNewlines t with
      | nil => exact absurd hs (splitNewlines_ne_nil t)
      | cons line more => rwa [hs] at ih

theorem head?_splitNewlines (t : Text) :
    (splitNewlines t).head? = some (t.takeWhile (· ≠ '\n')) := by
  induction t with
  | nil => rfl
  | cons c t ih =>
    rw [splitNewlines]
    split
    · next h => simp [h]
    · next h =>
      cases hs : splitNewlines t with
      | nil => exact absurd hs (splitNewlines_ne_nil t)
      | cons line more =>
        rw [hs] at ih
        simpa [h] using ih

/-- The line that a place is on. -/
theorem getElem?_splitNewlines (t u : Text) :
    (splitNewlines (t ++ u))[t.count '\n']? = some (lastLine t ++ u.takeWhile (· ≠ '\n')) := by
  induction t using List.reverseRecOn generalizing u with
  | nil => rw [List.nil_append, List.count_nil, ← List.head?_eq_getElem?, head?_splitNewlines]; rfl
  | append_singleton t c ih =>
    rw [List.append_assoc, List.singleton_append]
    by_cases hc : c = '\n'
    · subst hc
      have hcount : (t ++ ['\n']).count '\n' = (splitNewlines t).length := by
        rw [List.count_append, length_splitNewlines]
        rfl
      rw [splitNewlines_append_newline, hcount, List.getElem?_append_right (Nat.le_refl _),
        Nat.sub_self, ← List.head?_eq_getElem?, head?_splitNewlines, lastLine_newline]
      rfl
    · have hcount : (t ++ [c]).count '\n' = t.count '\n' := by
        rw [List.count_append, List.count_singleton, beq_false_of_ne hc]
        rfl
      rw [hcount, ih, lastLine_char hc, List.takeWhile_cons_of_pos (by simpa using hc)]
      simp

/-- A line, with the text on either side of it. -/
theorem exists_append_of_getElem? {t line : Text} {n : Nat}
    (h : (splitNewlines t)[n]? = some line) : ∃ before behind, t = before ++ (line ++ behind) ∧
      before.count '\n' = n ∧ lastLine before = [] ∧ behind.head?.all (· == '\n') := by
  induction t generalizing n line with
  | nil =>
    obtain ⟨rfl, rfl⟩ : n = 0 ∧ line = [] := by
      cases n with
      | zero => exact ⟨rfl, (Option.some.inj h).symm⟩
      | succ n => cases h
    exact ⟨[], [], rfl, rfl, rfl, rfl⟩
  | cons c t ih =>
    rw [splitNewlines] at h
    split at h
    · next hc =>
      subst hc
      cases n with
      | zero =>
        obtain rfl : [] = line := Option.some.inj h
        exact ⟨[], '\n' :: t, rfl, rfl, rfl, rfl⟩
      | succ n =>
        obtain ⟨before, behind, rfl, rfl, hlast, hend⟩ := ih h
        refine ⟨'\n' :: before, behind, rfl, List.count_cons_self, ?_, hend⟩
        rw [← hlast]
        exact lastLine_append_congr (t := ['\n']) (u := []) rfl before
    · next hc =>
      cases hs : splitNewlines t with
      | nil => exact absurd hs (splitNewlines_ne_nil t)
      | cons first more =>
        rw [hs] at h ih
        cases n with
        | zero =>
          obtain rfl : c :: first = line := Option.some.inj h
          obtain ⟨before, behind, rfl, hcount, hlast, hend⟩ := @ih first 0 rfl
          rw [lastLine_eq_self (List.count_eq_zero.1 hcount)] at hlast
          subst hlast
          exact ⟨[], behind, rfl, rfl, rfl, hend⟩
        | succ n =>
          obtain ⟨before, behind, rfl, hcount, hlast, hend⟩ := @ih line (n + 1) h
          have hmem : '\n' ∈ before := List.count_pos_iff.1 (by omega)
          refine ⟨c :: before, behind, rfl, ?_, ?_, hend⟩
          · rwa [List.count_cons_of_ne hc]
          · rw [← hlast]
            exact lastLine_append_of_mem hmem [c]

theorem exists_dropReturn (t : Text) : ∃ w, t = dropReturn t ++ w ∧ (w = [] ∨ w = ['\r']) := by
  fun_induction dropReturn t with
  | case1 => exact ⟨[], rfl, .inl rfl⟩
  | case2 => exact ⟨['\r'], rfl, .inr rfl⟩
  | case3 c hc => exact ⟨[], rfl, .inl rfl⟩
  | case4 c d t ih =>
    obtain ⟨w, hw, hr⟩ := ih
    exact ⟨w, congrArg (c :: ·) hw, hr⟩

/-- A line is what stands between two newlines, but for a carriage return. -/
theorem exists_of_getElem?_endLines {ps : List Text} {line : Text} {n : Nat}
    (h : (endLines ps)[n]? = some line) :
    ∃ w, ps[n]? = some (line ++ w) ∧ (w = [] ∨ w = ['\r']) := by
  fun_induction endLines ps generalizing n with
  | case1 => cases h
  | case2 => cases h
  | case3 last hlast => exact ⟨[], by rwa [List.append_nil], .inl rfl⟩
  | case4 piece next pieces ih =>
    cases n with
    | zero =>
      obtain rfl : dropReturn piece = line := Option.some.inj h
      obtain ⟨w, hw, hr⟩ := exists_dropReturn piece
      exact ⟨w, congrArg some hw, hr⟩
    | succ n => exact ih h

end Text
end Pinout
