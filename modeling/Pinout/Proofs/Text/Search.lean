import Mathlib.Data.List.Infix
import Pinout.Text.Basic

/-!
# Pinout.Proofs.Text.Search

What the search for a pattern finds: `splitAround?` fails exactly where the pattern does not occur
(`splitAround?_eq_none_iff`), and finds it behind a text when it occurs nowhere earlier
(`splitAround?_append`). For a pattern whose last character is found only at its end, nowhere
earlier means not in the text before it (`splitAround?_append_concat`).

The rest is about occurrences that cannot cross a seam: `infix_append_cons` for a character that
the pattern does not hold, and `infix_append_of_head` for a text without the pattern's first
character.
-/

namespace Pinout
namespace Text

theorem dropLead?_eq_none_iff {lead t : Text} : dropLead? lead t = none ↔ ¬ lead <+: t := by
  constructor
  · rintro h ⟨r, rfl⟩
    rw [dropLead?_append] at h
    cases h
  · intro h
    cases hd : dropLead? lead t with
    | none => rfl
    | some r => exact absurd ⟨r, (append_of_dropLead? hd).symm⟩ h

theorem splitAround?_eq_none_iff {p t : Text} : splitAround? p t = none ↔ ¬ p <:+: t := by
  induction t with
  | nil => simp [splitAround?, dropLead?_eq_none_iff, List.prefix_nil, List.infix_nil]
  | cons c t ih =>
    rw [splitAround?, List.infix_cons_iff]
    cases hd : dropLead? p (c :: t) with
    | none => simp [ih, dropLead?_eq_none_iff.1 hd]
    | some r =>
      have hp : p <+: c :: t := ⟨r, (append_of_dropLead? hd).symm⟩
      simp [hp]

/-- A pattern that ends nowhere earlier is found where it stands. -/
theorem splitAround?_append {p b a : Text} (hp : p ≠ []) (h : ¬ p <:+: b ++ p.dropLast) :
    splitAround? p (b ++ p ++ a) = some (b, a) := by
  induction b with
  | nil =>
    obtain ⟨c, q, rfl⟩ := List.exists_cons_of_ne_nil hp
    rw [List.nil_append, List.cons_append, splitAround?, ← List.cons_append, dropLead?_append]
  | cons c b ih =>
    have hn : dropLead? p (c :: b ++ p ++ a) = none := by
      rw [dropLead?_eq_none_iff]
      intro hpre
      -- an occurrence at the head is shorter than what stands before the last character of `p`
      have hle : p.length ≤ (c :: b ++ p.dropLast).length := by
        simp only [List.length_append, List.length_cons, List.length_dropLast]
        omega
      have hpre' : c :: b ++ p.dropLast <+: c :: b ++ p ++ a := by
        rw [List.append_assoc, List.prefix_append_right_inj]
        exact (List.dropLast_prefix p).trans (List.prefix_append p a)
      exact h (List.prefix_of_prefix_length_le hpre hpre' hle).isInfix
    have hb : ¬ p <:+: b ++ p.dropLast := fun hi => h (hi.trans (List.suffix_cons c _).isInfix)
    have hc : c :: b ++ p ++ a = c :: (b ++ p ++ a) := rfl
    rw [hc, splitAround?, ← hc, hn, ih hb]
    rfl

/-- The pattern does not stand in the text before its first occurrence. -/
theorem not_infix_of_splitAround? {p t b a : Text} (hp : p ≠ [])
    (h : splitAround? p t = some (b, a)) : ¬ p <:+: b := by
  induction t generalizing b with
  | nil =>
    obtain ⟨r, _, he⟩ := Option.map_eq_some_iff.1 h
    cases he
    exact fun hi => hp (List.infix_nil.1 hi)
  | cons c t ih =>
    unfold splitAround? at h
    split at h
    · cases h
      exact fun hi => hp (List.infix_nil.1 hi)
    · next hd =>
      obtain ⟨⟨b', a'⟩, hs, he⟩ := Option.map_eq_some_iff.1 h
      cases he
      intro hi
      rcases List.infix_cons_iff.1 hi with hpre | hi
      · have ht := append_of_splitAround? hs
        rw [List.append_assoc] at ht
        have hb : c :: b' <+: c :: t := ⟨p ++ a, by rw [ht, List.cons_append]⟩
        exact dropLead?_eq_none_iff.1 hd (hpre.trans hb)
      · exact ih hs hi

/-- No occurrence stands further left than the one that is found. -/
theorem length_le_of_splitAround? {p t b a x y : Text} (h : splitAround? p t = some (b, a))
    (ht : t = x ++ p ++ y) : b.length ≤ x.length := by
  induction t generalizing b x with
  | nil =>
    obtain ⟨r, -, he⟩ := Option.map_eq_some_iff.1 h
    cases he
    exact Nat.zero_le _
  | cons c t ih =>
    unfold splitAround? at h
    split at h
    · cases h
      exact Nat.zero_le _
    · next hd =>
      obtain ⟨⟨b', a'⟩, hs, he⟩ := Option.map_eq_some_iff.1 h
      cases he
      cases x with
      | nil => exact absurd ⟨y, ht.symm⟩ (dropLead?_eq_none_iff.1 hd)
      | cons d x => exact Nat.succ_le_succ (ih hs (List.cons.inj ht).2)

/-- A character that does not stand in `s` stands behind it. -/
theorem length_le_of_append_eq {s t x y : Text} {c : Char} (hc : c ∉ s)
    (h : s ++ t = x ++ c :: y) : s.length ≤ x.length := by
  rcases List.append_eq_append_iff.1 h with ⟨u, rfl, -⟩ | ⟨u, rfl, hu⟩
  · simp
  · cases u with
    | nil => simp
    | cons d u =>
      obtain ⟨rfl, -⟩ := List.cons.inj hu
      exact absurd (List.mem_append_right x List.mem_cons_self) hc

/-- Two texts that end before the first `c` are the same. -/
theorem append_cons_inj {a b x y : Text} {c : Char} (ha : c ∉ a) (hb : c ∉ b)
    (h : a ++ c :: x = b ++ c :: y) : a = b ∧ x = y := by
  have hlength : a.length = b.length :=
    Nat.le_antisymm (length_le_of_append_eq ha h) (length_le_of_append_eq hb h.symm)
  obtain ⟨hab, hrest⟩ := List.append_inj h hlength
  exact ⟨hab, (List.cons.inj hrest).2⟩

/-- The text behind the first occurrence of a pattern. -/
def behind? (pattern t : Text) : Option Text := (splitAround? pattern t).map Prod.snd

theorem length_of_splitAround? {p t b a : Text} (h : splitAround? p t = some (b, a)) :
    t.length = b.length + p.length + a.length := by
  rw [append_of_splitAround? h, List.length_append, List.length_append]

theorem length_of_behind? {p t a : Text} (h : behind? p t = some a) : a.length ≤ t.length := by
  obtain ⟨⟨b, a⟩, hs, rfl⟩ := Option.map_eq_some_iff.1 h
  rw [length_of_splitAround? hs]
  exact Nat.le_add_left _ _

theorem behind?_cons {p t : Text} {c : Char} (h : dropLead? p (c :: t) = none) :
    behind? p (c :: t) = behind? p t := by
  rw [behind?, splitAround?, h, Option.map_map]
  rfl

theorem behind?_append (p t : Text) : behind? p (p ++ t) = some t := by
  rw [behind?]
  cases p with
  | nil => cases t <;> rfl
  | cons c p =>
    have h := dropLead?_append (c :: p) t
    rw [List.cons_append] at h ⊢
    rw [splitAround?, h]
    rfl

theorem infix_concat_iff_of_not_mem {p t : Text} {d c : Char} (hd : d ≠ c) :
    p ++ [c] <:+: t ++ [d] ↔ p ++ [c] <:+: t := by
  constructor
  · intro h
    rcases List.infix_concat_iff.1 h with hs | hi
    · obtain ⟨u, hu⟩ := hs
      rw [← List.append_assoc] at hu
      have := (List.append_inj' hu rfl).2
      exact absurd (List.cons.inj this).1.symm hd
    · exact hi
  · intro h
    exact h.trans (List.prefix_append t [d]).isInfix

theorem infix_append_iff_of_not_mem {q b r : Text} {c : Char} (hc : c ∉ r) :
    q ++ [c] <:+: b ++ r ↔ q ++ [c] <:+: b := by
  induction r using List.reverseRecOn with
  | nil => rw [List.append_nil]
  | append_singleton r d ih =>
    simp only [List.mem_append, List.mem_singleton, not_or] at hc
    rw [← List.append_assoc, infix_concat_iff_of_not_mem (Ne.symm hc.2), ih hc.1]

/-- A pattern whose last character stands in it only once, behind a text without the pattern. -/
theorem splitAround?_append_concat {q b a : Text} {c : Char} (hc : c ∉ q)
    (h : ¬ q ++ [c] <:+: b) : splitAround? (q ++ [c]) (b ++ (q ++ [c]) ++ a) = some (b, a) := by
  apply splitAround?_append (by simp)
  rw [List.dropLast_concat, infix_append_iff_of_not_mem hc]
  exact h

theorem prefix_of_prefix_append_cons {p a b : Text} {c : Char} (hc : c ∉ p)
    (h : p <+: a ++ c :: b) : p <+: a := by
  induction p generalizing a with
  | nil => exact List.nil_prefix
  | cons d p ih =>
    simp only [List.mem_cons, not_or] at hc
    cases a with
    | nil => exact absurd (List.cons_prefix_cons.1 h).1.symm hc.1
    | cons e a =>
      obtain ⟨rfl, hp⟩ := List.cons_prefix_cons.1 h
      exact List.cons_prefix_cons.2 ⟨rfl, ih hc.2 hp⟩

/-- An occurrence of a pattern without `c` lies on one side of `c`. -/
theorem infix_append_cons {p a b : Text} {c : Char} (hc : c ∉ p) (h : p <:+: a ++ c :: b) :
    p <:+: a ∨ p <:+: b := by
  induction a with
  | nil =>
    rcases List.infix_cons_iff.1 h with hp | hi
    · exact .inl (prefix_of_prefix_append_cons hc hp).isInfix
    · exact .inr hi
  | cons d a ih =>
    rcases List.infix_cons_iff.1 h with hp | hi
    · exact .inl (prefix_of_prefix_append_cons hc hp).isInfix
    · exact (ih hi).imp_left List.infix_cons

theorem infix_joinWith {p : Text} {c : Char} (hc : c ∉ p) (hp : p ≠ []) {pieces : List Text}
    (h : p <:+: joinWith [c] pieces) : ∃ piece ∈ pieces, p <:+: piece := by
  induction pieces with
  | nil => exact absurd (List.infix_nil.1 h) hp
  | cons t ts ih =>
    cases ts with
    | nil => exact ⟨t, List.mem_cons_self, h⟩
    | cons u us =>
      have hj : joinWith [c] (t :: u :: us) = t ++ c :: joinWith [c] (u :: us) := by simp [joinWith]
      rw [hj] at h
      rcases infix_append_cons hc h with h | h
      · exact ⟨t, List.mem_cons_self, h⟩
      · obtain ⟨piece, hm, hi⟩ := ih h
        exact ⟨piece, List.mem_cons_of_mem _ hm, hi⟩

/-- A pattern does not start in a text without its first character. -/
theorem infix_append_of_head {p a b : Text} {c : Char} (hc : c ∉ a) (h : c :: p <:+: a ++ b) :
    c :: p <:+: b := by
  induction a with
  | nil => exact h
  | cons d a ih =>
    simp only [List.mem_cons, not_or] at hc
    rcases List.infix_cons_iff.1 h with hp | hi
    · exact absurd (List.cons_prefix_cons.1 hp).1 hc.1
    · exact ih hc.2 hi

/-- Two characters next to each other stand on one side of a seam or around it. -/
theorem pair_infix_append {x y : Char} {a b : Text} (h : [x, y] <:+: a ++ b) :
    [x, y] <:+: a ∨ [x, y] <:+: b ∨ (a.getLast? = some x ∧ b.head? = some y) := by
  induction a with
  | nil => exact .inr (.inl h)
  | cons c a ih =>
    rcases List.infix_cons_iff.1 h with hp | hi
    · obtain ⟨rfl, hy⟩ := List.cons_prefix_cons.1 hp
      cases a with
      | nil =>
        obtain ⟨s, rfl⟩ := hy
        exact .inr (.inr ⟨rfl, rfl⟩)
      | cons d a =>
        obtain ⟨rfl, _⟩ := List.cons_prefix_cons.1 hy
        exact .inl ⟨[], a, rfl⟩
    · rcases ih hi with ha | hb | ⟨ha, hb⟩
      · exact .inl (List.infix_cons ha)
      · exact .inr (.inl hb)
      · refine .inr (.inr ⟨?_, hb⟩)
        rw [List.getLast?_cons, ha]
        rfl

theorem not_infix_of_mem {p t : Text} {c : Char} (hp : c ∈ p) (ht : c ∉ t) : ¬ p <:+: t :=
  fun h => ht (h.subset hp)

/-- What is checked of each character holds of each. -/
theorem forall_of_all {P : Char → Prop} [DecidablePred P] {t : Text}
    (h : t.all fun c => decide (P c)) : ∀ c ∈ t, P c :=
  fun c hc => of_decide_eq_true (List.all_eq_true.1 h c hc)

/-- A run that an item ends does not see what stands behind it. -/
theorem takeWhile_append_cons {α : Type} {p : α → Bool} {x : α} (h : p x = false) (a b : List α) :
    (a ++ x :: b).takeWhile p = a.takeWhile p ∧
      (a ++ x :: b).dropWhile p = a.dropWhile p ++ x :: b := by
  induction a with
  | nil => simp [h]
  | cons y a ih =>
    rw [List.cons_append, List.takeWhile_cons, List.takeWhile_cons, List.dropWhile_cons,
      List.dropWhile_cons]
    split
    · exact ⟨by rw [ih.1], ih.2⟩
    · exact ⟨rfl, rfl⟩

end Text
end Pinout
