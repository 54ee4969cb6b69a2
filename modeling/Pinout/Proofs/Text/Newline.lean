import Mathlib.Data.List.Infix
import Pinout.Text.Basic

/-!
# Pinout.Proofs.Text.Newline

How the two line endings become one. `unifyNewlines_cons` is the equation that the rest follows
from: a carriage return is dropped exactly where a newline follows it.
-/

namespace Pinout
namespace Text

theorem unifyNewlines_newline (t : Text) :
    unifyNewlines ('\n' :: t) = '\n' :: unifyNewlines t := by
  cases t with
  | nil => rfl
  | cons d t => simp [unifyNewlines]

theorem unifyNewlines_cons (c : Char) (t : Text) :
    unifyNewlines (c :: t) =
      if c = '\r' ∧ t.head? = some '\n' then unifyNewlines t else c :: unifyNewlines t := by
  cases t with
  | nil => simp [unifyNewlines]
  | cons d t =>
    rw [unifyNewlines]
    by_cases h : c = '\r' ∧ d = '\n'
    · rw [if_pos h, if_pos (by simpa using h), h.2, unifyNewlines_newline]
    · rw [if_neg h, if_neg (by simpa using h)]

theorem unifyNewlines_cons_of_ne {c : Char} (hc : c ≠ '\r') (t : Text) :
    unifyNewlines (c :: t) = c :: unifyNewlines t := by
  rw [unifyNewlines_cons, if_neg fun h => hc h.1]

theorem unifyNewlines_subset (t : Text) : unifyNewlines t ⊆ t := by
  fun_induction unifyNewlines t with
  | case1 => exact List.Subset.refl _
  | case2 c => exact List.Subset.refl _
  | case3 c d t h ih =>
    rw [h.2]
    exact List.subset_cons_of_subset c (List.cons_subset_cons '\n' ih)
  | case4 c d t h ih => exact List.cons_subset_cons c ih

theorem unifyNewlines_append_of_not_mem {t : Text} (h : '\r' ∉ t) (u : Text) :
    unifyNewlines (t ++ u) = t ++ unifyNewlines u := by
  induction t with
  | nil => rfl
  | cons c t ih =>
    simp only [List.mem_cons, not_or] at h
    rw [List.cons_append, unifyNewlines_cons_of_ne (Ne.symm h.1), ih h.2, List.cons_append]

theorem unifyNewlines_eq_self {t : Text} (h : '\r' ∉ t) : unifyNewlines t = t := by
  have := unifyNewlines_append_of_not_mem h []
  rwa [List.append_nil, unifyNewlines, List.append_nil] at this

/-- A text that starts with no newline does not see what stands before it. -/
theorem unifyNewlines_append {u : Text} (hu : u.head? ≠ some '\n') (t : Text) :
    unifyNewlines (t ++ u) = unifyNewlines t ++ unifyNewlines u := by
  induction t with
  | nil => rfl
  | cons c t ih =>
    have hh : (t ++ u).head? = some '\n' ↔ t.head? = some '\n' := by
      cases t with
      | nil => simp [hu]
      | cons d t => rfl
    rw [List.cons_append, unifyNewlines_cons, unifyNewlines_cons, ih]
    simp only [hh]
    split <;> rfl

/-- Neither does what stands behind a newline. -/
theorem unifyNewlines_append_newline (t u : Text) :
    unifyNewlines (t ++ '\n' :: u) = unifyNewlines (t ++ ['\n']) ++ unifyNewlines u := by
  induction t with
  | nil => exact unifyNewlines_newline u
  | cons c t ih =>
    have hh : (t ++ '\n' :: u).head? = (t ++ ['\n']).head? := by
      cases t <;> rfl
    rw [List.cons_append, List.cons_append, unifyNewlines_cons, unifyNewlines_cons, hh, ih]
    split <;> rfl

theorem getLast?_unifyNewlines (t : Text) : (unifyNewlines t).getLast? = t.getLast? := by
  induction t with
  | nil => rfl
  | cons c t ih =>
    rw [unifyNewlines_cons]
    split
    · next h =>
      obtain ⟨u, rfl⟩ := List.head?_eq_some_iff.1 h.2
      rw [ih, List.getLast?_cons_cons]
    · rw [List.getLast?_cons, List.getLast?_cons, ih]

theorem unifyNewlines_ne_nil {t : Text} (h : t ≠ []) : unifyNewlines t ≠ [] := by
  cases t with
  | nil => exact h
  | cons c t =>
    rw [unifyNewlines_cons]
    split
    · next hc =>
      obtain ⟨u, rfl⟩ := List.head?_eq_some_iff.1 hc.2
      rw [unifyNewlines_newline]
      exact List.cons_ne_nil _ _
    · exact List.cons_ne_nil _ _

theorem head?_unifyNewlines {t : Text} {c : Char} (h : (unifyNewlines t).head? = some c)
    (hc : c ≠ '\n') : t.head? = some c := by
  cases t with
  | nil => exact h
  | cons d t =>
    rw [unifyNewlines_cons] at h
    split at h
    · next hd =>
      obtain ⟨u, rfl⟩ := List.head?_eq_some_iff.1 hd.2
      rw [unifyNewlines_newline] at h
      exact absurd (Option.some.inj h).symm hc
    · exact h

/-- Only newlines get new neighbours. -/
theorem pair_infix_of_unifyNewlines {x y : Char} (hy : y ≠ '\n') {t : Text}
    (h : [x, y] <:+: unifyNewlines t) : [x, y] <:+: t := by
  induction t with
  | nil => exact h
  | cons c t ih =>
    rw [unifyNewlines_cons] at h
    split at h
    · exact List.infix_cons (ih h)
    · rcases List.infix_cons_iff.1 h with hp | hi
      · obtain ⟨rfl, r, hr⟩ := List.cons_prefix_cons.1 hp
        have hh := head?_unifyNewlines (c := y) (by rw [← hr]; rfl) hy
        obtain ⟨u, rfl⟩ := List.head?_eq_some_iff.1 hh
        exact ⟨[], u, rfl⟩
      · exact List.infix_cons (ih hi)

/-- A line stays a line. -/
theorem exists_line_unifyNewlines {t : Text} (h : '\n' ∉ t) (u : Text) :
    ∃ line, '\n' ∉ line ∧ unifyNewlines (t ++ '\n' :: u) = line ++ '\n' :: unifyNewlines u := by
  induction t with
  | nil => exact ⟨[], List.not_mem_nil, unifyNewlines_newline u⟩
  | cons c t ih =>
    simp only [List.mem_cons, not_or] at h
    obtain ⟨line, hl, he⟩ := ih h.2
    rw [List.cons_append, unifyNewlines_cons, he]
    split
    · exact ⟨line, hl, rfl⟩
    · exact ⟨c :: line, by simp [h.1, hl], rfl⟩

end Text
end Pinout
