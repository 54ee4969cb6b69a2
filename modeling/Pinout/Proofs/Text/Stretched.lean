import Mathlib.Data.Option.Basic
import Pinout.Proofs.Text.Word

/-!
# Pinout.Proofs.Text.Stretched

One more newline behind a newline. `Stretched t u` says that `u` is the text `t`, or `t` with one of
its newlines doubled. What is cut from the two texts is stretched again (`dropWhile`, `trim`,
`dropLead?`, `splitIdentifier`, `afterWord?`), and what holds no newline is the same
(`takeWhile_eq`, `words_eq`, `collapse_eq`).
-/

namespace Pinout
namespace Text

inductive Stretched : Text → Text → Prop where
  | refl (t : Text) : Stretched t t
  | here (t : Text) : Stretched ('\n' :: t) ('\n' :: '\n' :: t)
  | cons (c : Char) {t u : Text} (h : Stretched t u) : Stretched (c :: t) (c :: u)

/-! ## Related options -/

section

variable {α β γ δ : Type} {r : α → β → Prop} {a : Option α} {b : Option β}

theorem rel_map {s : γ → δ → Prop} {f : α → γ} {g : β → δ} (hfg : ∀ x y, r x y → s (f x) (g y))
    (h : Option.Rel r a b) : Option.Rel s (a.map f) (b.map g) := by
  cases h with
  | none => exact .none
  | some h => exact .some (hfg _ _ h)

theorem rel_bind {s : γ → δ → Prop} {f : α → Option γ} {g : β → Option δ}
    (hfg : ∀ x y, r x y → Option.Rel s (f x) (g y)) (h : Option.Rel r a b) :
    Option.Rel s (a.bind f) (b.bind g) := by
  cases h with
  | none => exact .none
  | some h => exact hfg _ _ h

theorem bind_eq_of_rel {f : α → Option γ} {g : β → Option γ} (hfg : ∀ x y, r x y → f x = g y)
    (h : Option.Rel r a b) : a.bind f = b.bind g := by
  cases h with
  | none => rfl
  | some h => exact hfg _ _ h

theorem rel_filter {p : α → Bool} {q : β → Bool} (hpq : ∀ x y, r x y → p x = q y)
    (h : Option.Rel r a b) : Option.Rel r (a.filter p) (b.filter q) := by
  cases h with
  | none => exact .none
  | some h =>
    rw [Option.filter_some, Option.filter_some, hpq _ _ h]
    split
    · exact .some h
    · exact .none

theorem rel_or {c : Option α} {d : Option β} (h : Option.Rel r a b) (h' : Option.Rel r c d) :
    Option.Rel r (a.or c) (b.or d) := by
  cases h with
  | none => exact h'
  | some h => exact .some h

theorem rel_findSome? {f : γ → Option α} {g : γ → Option β} {xs : List γ}
    (h : ∀ x ∈ xs, Option.Rel r (f x) (g x)) :
    Option.Rel r (xs.findSome? f) (xs.findSome? g) := by
  induction xs with
  | nil => exact .none
  | cons x xs ih =>
    have hx := h x List.mem_cons_self
    have hxs := ih fun y hy => h y (List.mem_cons_of_mem _ hy)
    rw [List.findSome?_cons, List.findSome?_cons]
    generalize f x = a, g x = b at hx
    cases hx with
    | none => exact hxs
    | some hx => exact .some hx

end

/-! ## Stretched texts -/

namespace Stretched

variable {t u : Text}

theorem append_left (a : Text) (h : Stretched t u) : Stretched (a ++ t) (a ++ u) := by
  induction a with
  | nil => exact h
  | cons c a ih => exact .cons c ih

theorem append_right (a : Text) (h : Stretched t u) : Stretched (t ++ a) (u ++ a) := by
  induction h with
  | refl t => exact .refl _
  | here t => exact .here _
  | cons c h ih => exact .cons c ih

theorem exists_append (h : Stretched t u) :
    t = u ∨ ∃ a b, t = a ++ '\n' :: b ∧ u = a ++ '\n' :: '\n' :: b := by
  induction h with
  | refl t => exact .inl rfl
  | here t => exact .inr ⟨[], t, rfl, rfl⟩
  | cons c h ih =>
    rcases ih with rfl | ⟨a, b, rfl, rfl⟩
    · exact .inl rfl
    · exact .inr ⟨c :: a, b, rfl, rfl⟩

theorem reverse (h : Stretched t u) : Stretched t.reverse u.reverse := by
  rcases h.exists_append with rfl | ⟨a, b, rfl, rfl⟩
  · exact .refl _
  · have := append_left b.reverse (.here a.reverse)
    simpa using this

theorem head?_eq (h : Stretched t u) : t.head? = u.head? := by
  cases h <;> rfl

theorem eq_nil_iff (h : Stretched t u) : t = [] ↔ u = [] := by
  rw [← List.head?_eq_none_iff, h.head?_eq, List.head?_eq_none_iff]

/-! ## Runs of characters -/

theorem dropWhile (p : Char → Bool) (h : Stretched t u) :
    Stretched (t.dropWhile p) (u.dropWhile p) := by
  induction h with
  | refl t => exact .refl _
  | here t =>
    cases hp : p '\n' with
    | false => simpa [hp] using here t
    | true => simpa [hp] using refl _
  | cons c h ih =>
    rw [List.dropWhile_cons, List.dropWhile_cons]
    split
    · exact ih
    · exact .cons c h

theorem takeWhile_eq {p : Char → Bool} (hp : p '\n' = false) (h : Stretched t u) :
    t.takeWhile p = u.takeWhile p := by
  induction h with
  | refl t => rfl
  | here t => simp [hp]
  | cons c h ih => rw [List.takeWhile_cons, List.takeWhile_cons, ih]

theorem trimStart (h : Stretched t u) : Stretched t.trimStart u.trimStart := h.dropWhile isBlank

theorem trimEnd (h : Stretched t u) : Stretched t.trimEnd u.trimEnd :=
  (h.reverse.dropWhile isBlank).reverse

theorem trim (h : Stretched t u) : Stretched t.trim u.trim := h.trimStart.trimEnd

theorem allBlank_eq (h : Stretched t u) : t.allBlank = u.allBlank := by
  rcases h.exists_append with rfl | ⟨a, b, rfl, rfl⟩
  · rfl
  · have hn : isBlank '\n' = true := rfl
    simp [allBlank, hn]

/-! ## Words -/

theorem words_eq (h : Stretched t u) : words t = words u := by
  rcases h.exists_append with rfl | ⟨a, b, rfl, rfl⟩
  · rfl
  · have hn : isBlank '\n' := rfl
    have hb : words ('\n' :: b) = words b := words_append (w := ['\n']) rfl b
    rw [words_append_blank hn, words_append_blank hn, hb]

theorem collapse_eq (h : Stretched t u) : collapse t = collapse u := by
  rw [collapse, collapse, h.words_eq]

theorem endsWord_eq (h : Stretched t u) : endsWord t = endsWord u := by
  cases h <;> rfl

theorem splitIdentifier (h : Stretched t u) :
    (splitIdentifier t).1 = (splitIdentifier u).1 ∧
      Stretched (splitIdentifier t).2 (splitIdentifier u).2 := by
  cases h with
  | refl => exact ⟨rfl, .refl _⟩
  | here t => exact ⟨rfl, .here t⟩
  | cons c h =>
    rw [Text.splitIdentifier, Text.splitIdentifier]
    split
    · exact ⟨congrArg (c :: ·) (h.takeWhile_eq (by decide)), h.dropWhile isWordChar⟩
    · exact ⟨rfl, .cons c h⟩

/-- An identifier holds no newline. -/
theorem eq_of_splitIdentifier (h : Stretched t u) (hu : (Text.splitIdentifier u).2 = []) :
    t = u := by
  obtain ⟨hname, hrest⟩ := h.splitIdentifier
  have ht := hrest.eq_nil_iff.2 hu
  have hspec (v : Text) := (splitIdentifier_spec (Prod.eta (Text.splitIdentifier v)).symm).1
  rw [hspec t, hspec u, hname, ht, hu]

theorem rel_refl (a : Option Text) : Option.Rel Stretched a a := by
  cases a with
  | none => exact .none
  | some t => exact .some (.refl t)

theorem dropLead? {lead : Text} (hl : '\n' ∉ lead) (h : Stretched t u) :
    Option.Rel Stretched (dropLead? lead t) (dropLead? lead u) := by
  induction h generalizing lead with
  | refl t => exact rel_refl _
  | here t =>
    cases lead with
    | nil => exact .some (.here t)
    | cons p lead =>
      simp only [List.mem_cons, not_or] at hl
      rw [Text.dropLead?, Text.dropLead?, if_neg (Ne.symm hl.1), if_neg (Ne.symm hl.1)]
      exact .none
  | cons c h ih =>
    cases lead with
    | nil => exact .some (.cons c h)
    | cons p lead =>
      simp only [List.mem_cons, not_or] at hl
      rw [Text.dropLead?, Text.dropLead?]
      split
      · exact ih hl.2
      · exact .none

theorem afterWord? {word : Text} (hw : isIdentifier word) (h : Stretched t u) :
    Option.Rel Stretched (afterWord? word t) (afterWord? word u) := by
  rcases h.exists_append with rfl | ⟨a, b, rfl, rfl⟩
  · exact rel_refl _
  · have hn : isWordChar '\n' = false := by decide
    rw [afterWord?_append_cons hw hn, afterWord?_append_cons hw hn, afterWord?_cons hw hn]
    cases Text.afterWord? word a with
    | none => exact rel_refl _
    | some r => exact .some (append_left r (.here b))

end Stretched
end Text
end Pinout
