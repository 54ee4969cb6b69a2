import Pinout.Proofs.Text.Stretched

/-!
# Pinout.Proofs.Text.Swapped

A literal with other contents. `Swapped c d t u` says that `u` is the text `t`, or `t` with one of
its literals `"c"` replaced by `"d"`. A cut that tells apart characters other than the quote is made
at the same place in both texts, before the literal or behind it (`trim`, `splitIdentifier`,
`dropLead?`), and the first word of the collapsed texts is the same (`firstWord_eq`).
-/

namespace Pinout
namespace Text

inductive Swapped (c d : Text) : Text → Text → Prop where
  | refl (t : Text) : Swapped c d t t
  | here (t : Text) : Swapped c d ('"' :: (c ++ '"' :: t)) ('"' :: (d ++ '"' :: t))
  | cons (e : Char) {t u : Text} (h : Swapped c d t u) : Swapped c d (e :: t) (e :: u)

/-! ## Blanks and words before a quote -/

theorem trimStart_append_cons {e : Char} (he : isBlank e = false) (x y : Text) :
    trimStart (x ++ e :: y) = trimStart x ++ e :: y :=
  (takeWhile_append_cons he x y).2

theorem trimEnd_append_cons {e : Char} (he : isBlank e = false) (x y : Text) :
    trimEnd (x ++ e :: y) = x ++ e :: trimEnd y := by
  have hcat : (x ++ e :: y).reverse = y.reverse ++ e :: x.reverse := by simp
  rw [trimEnd, hcat, (takeWhile_append_cons he _ _).2, trimEnd]
  simp

theorem takeWhile_endsWord {r : Text} (hr : endsWord r) (w : Text) :
    (w ++ r).takeWhile isWordChar = w.takeWhile isWordChar := by
  cases r with
  | nil => rw [List.append_nil]
  | cons e r =>
    rw [endsWord, Bool.not_eq_true'] at hr
    exact (takeWhile_append_cons hr w r).1

theorem exists_joinWith_cons (w : Text) (ws : List Text) :
    ∃ r, joinWith [' '] (w :: ws) = w ++ r ∧ endsWord r := by
  cases ws with
  | nil => exact ⟨[], (List.append_nil w).symm, rfl⟩
  | cons v vs => exact ⟨' ' :: joinWith [' '] (v :: vs), by simp [joinWith], rfl⟩

/-- Blanks at the head apart, a text starts with the identifier that it starts with collapsed. -/
theorem firstWord_collapse (t : Text) :
    (splitIdentifier (collapse t)).1 = (splitIdentifier t.trimStart).1 := by
  cases ht : t.dropWhile isBlank with
  | nil => rw [collapse, words_of_nil ht, trimStart, ht, joinWith]
  | cons e r =>
    have hrest : endsWord (r.dropWhile (!isBlank ·)) := by
      have := List.head?_dropWhile_not (!isBlank ·) r
      cases hd : r.dropWhile (!isBlank ·) with
      | nil => rfl
      | cons b s =>
        rw [hd] at this
        rw [endsWord, isWordChar_of_isBlank (by simpa using this)]
        rfl
    obtain ⟨s, hs, hse⟩ := exists_joinWith_cons (e :: r.takeWhile (!isBlank ·))
      (words (r.dropWhile (!isBlank ·)))
    have hrun : (r.takeWhile (!isBlank ·) ++ s).takeWhile isWordChar = r.takeWhile isWordChar := by
      rw [takeWhile_endsWord hse, ← takeWhile_endsWord hrest, List.takeWhile_append_dropWhile]
    rw [collapse, words_of_cons ht, hs, trimStart, ht, List.cons_append, splitIdentifier,
      splitIdentifier, hrun]
    split <;> rfl

theorem collapse_eq_nil_iff {t : Text} : collapse t = [] ↔ t.trimStart = [] := by
  cases ht : t.dropWhile isBlank with
  | nil =>
    rw [collapse, words_of_nil ht, trimStart, ht]
    exact ⟨fun _ => rfl, fun _ => rfl⟩
  | cons e r =>
    obtain ⟨s, hs, -⟩ := exists_joinWith_cons (e :: r.takeWhile (!isBlank ·))
      (words (r.dropWhile (!isBlank ·)))
    rw [collapse, words_of_cons ht, hs, trimStart, ht]
    simp

namespace Swapped

variable {c d t u : Text}

theorem append_left (a : Text) (h : Swapped c d t u) : Swapped c d (a ++ t) (a ++ u) := by
  induction a with
  | nil => exact h
  | cons e a ih => exact .cons e ih

theorem append_right (a : Text) (h : Swapped c d t u) : Swapped c d (t ++ a) (u ++ a) := by
  induction h with
  | refl t => exact .refl _
  | here t => simpa using here (t ++ a)
  | cons e h ih => exact .cons e ih

/-- A literal in a text, replaced where it stands. -/
theorem literal (a b : Text) : Swapped c d (a ++ '"' :: (c ++ '"' :: b)) (a ++ '"' :: (d ++ '"' :: b)) :=
  append_left a (.here b)

theorem exists_append (h : Swapped c d t u) :
    t = u ∨ ∃ a b, t = a ++ '"' :: (c ++ '"' :: b) ∧ u = a ++ '"' :: (d ++ '"' :: b) := by
  induction h with
  | refl t => exact .inl rfl
  | here t => exact .inr ⟨[], t, rfl, rfl⟩
  | cons e h ih =>
    rcases ih with rfl | ⟨a, b, rfl, rfl⟩
    · exact .inl rfl
    · exact .inr ⟨e :: a, b, rfl, rfl⟩

theorem head?_eq (h : Swapped c d t u) : t.head? = u.head? := by
  cases h <;> rfl

theorem eq_nil_iff (h : Swapped c d t u) : t = [] ↔ u = [] := by
  rw [← List.head?_eq_none_iff, h.head?_eq, List.head?_eq_none_iff]

theorem endsWord_eq (h : Swapped c d t u) : endsWord t = endsWord u := by
  cases h <;> rfl

theorem dropWhile {p : Char → Bool} (hp : p '"' = false) (h : Swapped c d t u) :
    Swapped c d (t.dropWhile p) (u.dropWhile p) := by
  induction h with
  | refl t => exact .refl _
  | here t => simpa [hp] using here t
  | cons e h ih =>
    rw [List.dropWhile_cons, List.dropWhile_cons]
    split
    · exact ih
    · exact .cons e h

theorem takeWhile_eq {p : Char → Bool} (hp : p '"' = false) (h : Swapped c d t u) :
    t.takeWhile p = u.takeWhile p := by
  induction h with
  | refl t => rfl
  | here t => simp [hp]
  | cons e h ih => rw [List.takeWhile_cons, List.takeWhile_cons, ih]

theorem reverse (h : Swapped c d t u) : Swapped c.reverse d.reverse t.reverse u.reverse := by
  rcases h.exists_append with rfl | ⟨a, b, rfl, rfl⟩
  · exact .refl _
  · have := @literal c.reverse d.reverse b.reverse a.reverse
    simpa using this

theorem reverse_dropWhile {p : Char → Bool} (hp : p '"' = false) (h : Swapped c d t u) :
    Swapped c d (t.reverse.dropWhile p).reverse (u.reverse.dropWhile p).reverse := by
  have := (h.reverse.dropWhile hp).reverse
  rwa [List.reverse_reverse, List.reverse_reverse] at this

theorem trimStart (h : Swapped c d t u) : Swapped c d t.trimStart u.trimStart := h.dropWhile rfl

theorem trimEnd (h : Swapped c d t u) : Swapped c d t.trimEnd u.trimEnd := h.reverse_dropWhile rfl

theorem trim (h : Swapped c d t u) : Swapped c d t.trim u.trim := h.trimStart.trimEnd

theorem allBlank_eq (h : Swapped c d t u) : t.allBlank = u.allBlank := by
  rcases h.exists_append with rfl | ⟨a, b, rfl, rfl⟩
  · rfl
  · have hq : isBlank '"' = false := rfl
    simp [allBlank, hq]

theorem splitIdentifier (h : Swapped c d t u) :
    (splitIdentifier t).1 = (splitIdentifier u).1 ∧
      Swapped c d (splitIdentifier t).2 (splitIdentifier u).2 := by
  cases h with
  | refl => exact ⟨rfl, .refl _⟩
  | here t => exact ⟨rfl, .here t⟩
  | cons e h =>
    rw [Text.splitIdentifier, Text.splitIdentifier]
    split
    · exact ⟨congrArg (e :: ·) (h.takeWhile_eq (by decide)), h.dropWhile (by decide)⟩
    · exact ⟨rfl, .cons e h⟩

/-- An identifier holds no literal. -/
theorem eq_of_splitIdentifier (h : Swapped c d t u) (hu : (Text.splitIdentifier u).2 = []) :
    t = u := by
  obtain ⟨hname, hrest⟩ := h.splitIdentifier
  have ht := hrest.eq_nil_iff.2 hu
  have hspec (v : Text) := (splitIdentifier_spec (Prod.eta (Text.splitIdentifier v)).symm).1
  rw [hspec t, hspec u, hname, ht, hu]

theorem rel_refl (a : Option Text) : Option.Rel (Swapped c d) a a := by
  cases a with
  | none => exact .none
  | some t => exact .some (.refl t)

theorem dropLead? {lead : Text} (hl : '"' ∉ lead) (h : Swapped c d t u) :
    Option.Rel (Swapped c d) (dropLead? lead t) (dropLead? lead u) := by
  induction h generalizing lead with
  | refl t => exact rel_refl _
  | here t =>
    cases lead with
    | nil => exact .some (.here t)
    | cons p lead =>
      simp only [List.mem_cons, not_or] at hl
      rw [Text.dropLead?, Text.dropLead?, if_neg (Ne.symm hl.1), if_neg (Ne.symm hl.1)]
      exact .none
  | cons e h ih =>
    cases lead with
    | nil => exact .some (.cons e h)
    | cons p lead =>
      simp only [List.mem_cons, not_or] at hl
      rw [Text.dropLead?, Text.dropLead?]
      split
      · exact ih hl.2
      · exact .none

theorem firstWord_eq (h : Swapped c d t u) :
    (Text.splitIdentifier (collapse t)).1 = (Text.splitIdentifier (collapse u)).1 := by
  rw [firstWord_collapse, firstWord_collapse, h.trimStart.splitIdentifier.1]

end Swapped
end Text
end Pinout
