import Pinout.Proofs.Json.Scalar
import Pinout.Text.Blank

/-!
# Pinout.Proofs.Json.Steps

What the strict reader does where it succeeds. `Strict.Reads` are the ways to read a value, each with
what its parts are read as, and the reader takes one of them (`Strict.value?_eq_some_iff`);
`Strict.items?_eq_some_iff`, `Strict.key?_eq_some_iff` and `Strict.members?_eq_some_iff` are the same
for the parts of a group. No number and no blank holds a backslash.
-/

namespace Pinout
namespace Json

/-! ## Numbers -/

namespace Literal

theorem digits?_spec {t w r : Text} (h : digits? t = some (w, r)) :
    t = w ++ r ∧ w ≠ [] ∧ ∀ c ∈ w, c.isDigit := by
  unfold digits? at h
  split at h
  · cases h
  · next hne =>
    cases h
    refine ⟨List.takeWhile_append_dropWhile.symm, hne, fun c hc => ?_⟩
    exact List.all_eq_true.1 List.all_takeWhile c hc

theorem natural?_spec {t w r : Text} (h : natural? t = some (w, r)) :
    t = w ++ r ∧ w ≠ [] ∧ ∀ c ∈ w, c.isDigit := by
  unfold natural? at h
  split at h
  · cases h
    exact ⟨rfl, List.cons_ne_nil _ _, List.forall_mem_singleton.2 rfl⟩
  · exact digits?_spec h

theorem not_mem_of_isDigit {w : Text} (h : ∀ c ∈ w, c.isDigit) : '\\' ∉ w :=
  fun hm => absurd (h _ hm) (by decide)

theorem fraction?_spec {t w r : Text} (h : fraction? t = some (w, r)) :
    ∃ u, t = u ++ r ∧ '\\' ∉ u := by
  unfold fraction? at h
  split at h
  · obtain ⟨ht, -, hd⟩ := digits?_spec h
    exact ⟨'.' :: w, by rw [ht]; rfl, by simp [not_mem_of_isDigit hd]⟩
  · cases h
    exact ⟨[], rfl, List.not_mem_nil⟩

theorem signedExponent?_spec {t r : Text} {e : Int} (h : signedExponent? t = some (e, r)) :
    ∃ u, t = u ++ r ∧ '\\' ∉ u := by
  unfold signedExponent? at h
  split at h <;> obtain ⟨⟨w, r⟩, hw, he⟩ := Option.map_eq_some_iff.1 h <;> cases he <;>
    obtain ⟨rfl, -, hd⟩ := digits?_spec hw
  · exact ⟨'+' :: w, rfl, by simp [not_mem_of_isDigit hd]⟩
  · exact ⟨'-' :: w, rfl, by simp [not_mem_of_isDigit hd]⟩
  · exact ⟨w, rfl, not_mem_of_isDigit hd⟩

theorem exponent?_spec {t r : Text} {e : Option Int} (h : exponent? t = some (e, r)) :
    ∃ u, t = u ++ r ∧ '\\' ∉ u := by
  unfold exponent? at h
  split at h
  · obtain ⟨⟨e, r⟩, he, heq⟩ := Option.map_eq_some_iff.1 h
    cases heq
    obtain ⟨u, rfl, hu⟩ := signedExponent?_spec he
    exact ⟨'e' :: u, rfl, by simp [hu]⟩
  · obtain ⟨⟨e, r⟩, he, heq⟩ := Option.map_eq_some_iff.1 h
    cases heq
    obtain ⟨u, rfl, hu⟩ := signedExponent?_spec he
    exact ⟨'E' :: u, rfl, by simp [hu]⟩
  · cases h
    exact ⟨[], rfl, List.not_mem_nil⟩

/-- A literal without its sign starts with a digit. -/
theorem unsigned_spec {t t₁ t₂ r whole fraction : Text} {e : Option Int}
    (hw : natural? t = some (whole, t₁)) (hf : fraction? t₁ = some (fraction, t₂))
    (he : exponent? t₂ = some (e, r)) :
    ∃ c u, t = c :: u ++ r ∧ c.isDigit ∧ '\\' ∉ c :: u := by
  obtain ⟨rfl, hne, hd⟩ := natural?_spec hw
  obtain ⟨u, rfl, hu⟩ := fraction?_spec hf
  obtain ⟨v, rfl, hv⟩ := exponent?_spec he
  obtain ⟨c, whole, rfl⟩ := List.exists_cons_of_ne_nil hne
  have hwhole := not_mem_of_isDigit hd
  refine ⟨c, whole ++ u ++ v, by simp, hd c List.mem_cons_self, ?_⟩
  rw [← List.cons_append, ← List.cons_append]
  simp only [List.mem_append, not_or]
  exact ⟨⟨hwhole, hu⟩, hv⟩

theorem read?_spec {t r : Text} {l : Literal} (h : read? t = some (l, r)) :
    ∃ c u, t = c :: u ++ r ∧ (c.isDigit ∨ c = '-') ∧ '\\' ∉ c :: u := by
  unfold read? at h
  split at h
  · next negative t₀ hsign =>
    simp only [Option.bind_eq_bind, Option.bind_eq_some_iff, Prod.exists] at h
    obtain ⟨whole, t₁, hw, fraction, t₂, hf, e, t₃, he, h⟩ := h
    cases h
    obtain ⟨c, u, ht, hc, hu⟩ := unsigned_spec hw hf he
    split at hsign
    · cases hsign
      exact ⟨'-', c :: u, by rw [ht]; rfl, .inr rfl, by simpa using hu⟩
    · cases hsign
      exact ⟨c, u, ht, .inl hc, hu⟩

end Literal

/-- A number starts with a digit or a sign, and no backslash is in it. -/
theorem number?_spec {t r : Text} {v : Json} (h : number? t = some (v, r)) :
    ∃ c u, t = c :: u ++ r ∧ (c.isDigit ∨ c = '-') ∧ '\\' ∉ c :: u := by
  simp only [number?, Option.bind_eq_bind, Option.bind_eq_some_iff, Prod.exists] at h
  obtain ⟨l, u, hl, v, -, he⟩ := h
  cases he
  exact Literal.read?_spec hl

/-- The digits of a number that can be read are hexadecimal ones. -/
theorem hexValue?_of_hexNumber? {a b c d : Char} {n : Nat} (h : hexNumber? [a, b, c, d] = some n) :
    ∀ x ∈ [a, b, c, d], (hexValue? x).isSome := by
  intro x hx
  rw [Option.isSome_iff_ne_none]
  intro hnone
  simp only [List.mem_cons, List.not_mem_nil, or_false] at hx
  rcases hx with rfl | rfl | rfl | rfl <;> simp [hexNumber?, hnone] at h

/-! ## Blanks -/

namespace Strict

theorem isBlank_of_isBlank {c : Char} (h : isBlank c) : Text.isBlank c := by
  simp only [isBlank, Bool.or_eq_true, beq_iff_eq] at h
  rcases h with ((rfl | rfl) | rfl) | rfl <;> rfl

/-- The blanks of strict JSON in front of a text. -/
theorem exists_blanks (t : Text) : ∃ w, w.allBlank ∧ '\\' ∉ w ∧ t = w ++ skipBlanks t := by
  have hall : ∀ c ∈ t.takeWhile isBlank, isBlank c := List.all_eq_true.1 List.all_takeWhile
  refine ⟨t.takeWhile isBlank, ?_, fun hm => absurd (hall _ hm) (by decide), ?_⟩
  · rw [Text.allBlank, List.all_eq_true]
    exact fun c hc => isBlank_of_isBlank (hall c hc)
  · exact List.takeWhile_append_dropWhile.symm

theorem length_skipBlanks (t : Text) : (skipBlanks t).length ≤ t.length :=
  (List.dropWhile_sublist _).length_le

/-! ## Steps of the strict reader -/

/-- What the strict reader does with a value: a literal, a string, an empty group, a group, or a
number. -/
inductive Reads (fuel : Nat) : Nat → Text → Json → Text → Prop where
  | literal {d : Nat} {word : String} {v : Json} {u : Text}
      (h : (word, v) ∈ [("null", .null), ("true", .bool true), ("false", .bool false)]) :
      Reads fuel d (word.toList ++ u) v u
  | string {d : Nat} {u s r : Text} (h : string? u = some (s, r)) :
      Reads fuel d ('"' :: u) (.string s) r
  | emptyArray {d : Nat} {u r : Text} (h : skipBlanks u = ']' :: r) :
      Reads fuel (d + 1) ('[' :: u) (.array []) r
  | array {d : Nat} {u r : Text} {vs : List Json} (h : items? fuel d (skipBlanks u) = some (vs, r)) :
      Reads fuel (d + 1) ('[' :: u) (.array vs) r
  | emptyObject {d : Nat} {u r : Text} (h : skipBlanks u = '}' :: r) :
      Reads fuel (d + 1) ('{' :: u) (.object []) r
  | object {d : Nat} {u r : Text} {ms : Members}
      (h : members? fuel d (skipBlanks u) = some (ms, r)) :
      Reads fuel (d + 1) ('{' :: u) (.object (ofEntries ms)) r
  | number {d : Nat} {t r : Text} {v : Json} (h : number? t = some (v, r)) : Reads fuel d t v r

theorem reads_of_value? {fuel d : Nat} {t r : Text} {v : Json}
    (h : value? (fuel + 1) d t = some (v, r)) : Reads fuel d (skipBlanks t) v r := by
  rw [value?] at h
  generalize skipBlanks t = t at h
  split at h
  · cases h
    exact @Reads.literal fuel d "null" _ _ (by simp)
  · cases h
    exact @Reads.literal fuel d "true" _ _ (by simp)
  · cases h
    exact @Reads.literal fuel d "false" _ _ (by simp)
  · obtain ⟨⟨s, r⟩, hs, he⟩ := Option.map_eq_some_iff.1 h
    cases he
    exact .string hs
  · split at h
    · cases h
    · next hu =>
      cases h
      exact .emptyArray hu
    · obtain ⟨⟨vs, r⟩, hs, he⟩ := Option.map_eq_some_iff.1 h
      cases he
      exact .array hs
  · split at h
    · cases h
    · next hu =>
      cases h
      exact .emptyObject hu
    · obtain ⟨⟨ms, r⟩, hs, he⟩ := Option.map_eq_some_iff.1 h
      cases he
      exact .object hs
  · exact .number h

/-- No item starts with the bracket that closes the group. -/
theorem items?_closing (fuel d : Nat) (t : Text) : items? fuel d (']' :: t) = none := by
  cases fuel with
  | zero => rfl
  | succ fuel => cases fuel <;> rfl

/-- No member starts with the brace that closes the group. -/
theorem members?_closing (fuel d : Nat) (t : Text) : members? fuel d ('}' :: t) = none := by
  cases fuel <;> rfl

theorem value?_of_reads {fuel d : Nat} {t r : Text} {v : Json}
    (h : Reads fuel d (skipBlanks t) v r) : value? (fuel + 1) d t = some (v, r) := by
  rw [value?]
  generalize skipBlanks t = t at h
  cases h with
  | @literal _ word _ _ h =>
    simp only [List.mem_cons, Prod.mk.injEq, List.not_mem_nil, or_false] at h
    rcases h with ⟨rfl, rfl⟩ | ⟨rfl, rfl⟩ | ⟨rfl, rfl⟩ <;> rfl
  | string h => exact Option.map_eq_some_iff.2 ⟨_, h, rfl⟩
  | emptyArray h => simp only [h]
  | array h =>
    simp only
    split
    · next hd => cases hd
    · next hu =>
      rw [hu, items?_closing] at h
      cases h
    · next hd _ =>
      cases hd
      exact Option.map_eq_some_iff.2 ⟨_, h, rfl⟩
  | emptyObject h => simp only [h]
  | object h =>
    simp only
    split
    · next hd => cases hd
    · next hu =>
      rw [hu, members?_closing] at h
      cases h
    · next hd _ =>
      cases hd
      exact Option.map_eq_some_iff.2 ⟨_, h, rfl⟩
  | number h =>
    obtain ⟨c, u, rfl, hc, -⟩ := number?_spec h
    rw [List.cons_append] at h ⊢
    have hm := sign_or_digit_cases hc
    simp only [List.mem_cons, List.not_mem_nil, or_false] at hm
    rcases hm with rfl | rfl | rfl | rfl | rfl | rfl | rfl | rfl | rfl | rfl | rfl <;> exact h

theorem value?_eq_some_iff {fuel d : Nat} {t r : Text} {v : Json} :
    value? (fuel + 1) d t = some (v, r) ↔ Reads fuel d (skipBlanks t) v r :=
  ⟨reads_of_value?, value?_of_reads⟩

/-- Behind an item stands a comma and more items, or the closing bracket. -/
theorem items?_eq_some_iff {fuel d : Nat} {t r : Text} {vs : List Json} :
    items? (fuel + 1) d t = some (vs, r) ↔ ∃ v u, value? fuel d t = some (v, u) ∧
      ((∃ t₁ vs₁, skipBlanks u = ',' :: t₁ ∧ items? fuel d t₁ = some (vs₁, r) ∧ vs = v :: vs₁) ∨
        (skipBlanks u = ']' :: r ∧ vs = [v])) := by
  constructor
  · intro h
    simp only [items?, Option.bind_eq_bind, Option.bind_eq_some_iff, Prod.exists] at h
    obtain ⟨v, u, hv, h⟩ := h
    refine ⟨v, u, hv, ?_⟩
    split at h
    · next t₁ hu =>
      simp only [Option.bind_eq_some_iff, Prod.exists] at h
      obtain ⟨vs₁, r₁, hs, he⟩ := h
      cases he
      exact .inl ⟨t₁, vs₁, hu, hs, rfl⟩
    · next hu =>
      cases h
      exact .inr ⟨hu, rfl⟩
    · cases h
  · rintro ⟨v, u, hv, ⟨t₁, vs₁, hu, hs, rfl⟩ | ⟨hu, rfl⟩⟩
    · simp [items?, hv, hu, hs]
    · simp [items?, hv, hu]

theorem key?_eq_some_iff {t r k : Text} : key? t = some (k, r) ↔
    ∃ u u₁, skipBlanks t = '"' :: u ∧ string? u = some (k, u₁) ∧ skipBlanks u₁ = ':' :: r := by
  constructor
  · intro h
    rw [key?] at h
    split at h
    · next u ht =>
      simp only [Option.bind_eq_bind, Option.bind_eq_some_iff, Prod.exists] at h
      obtain ⟨k₁, u₁, hs, h⟩ := h
      split at h
      · next hu =>
        cases h
        exact ⟨u, u₁, ht, hs, hu⟩
      · cases h
    · cases h
  · rintro ⟨u, u₁, ht, hs, hu⟩
    simp [key?, ht, hs, hu]

/-- Behind a member stands a comma and more members, or the closing brace. -/
theorem members?_eq_some_iff {fuel d : Nat} {t r : Text} {ms : Members} :
    members? (fuel + 1) d t = some (ms, r) ↔
      ∃ k v t₁ u, key? t = some (k, t₁) ∧ value? fuel d t₁ = some (v, u) ∧
        ((∃ t₂ ms₁, skipBlanks u = ',' :: t₂ ∧ members? fuel d t₂ = some (ms₁, r) ∧
            ms = (k, v) :: ms₁) ∨
          (skipBlanks u = '}' :: r ∧ ms = [(k, v)])) := by
  constructor
  · intro h
    simp only [members?, Option.bind_eq_bind, Option.bind_eq_some_iff, Prod.exists] at h
    obtain ⟨k, t₁, hk, v, u, hv, h⟩ := h
    refine ⟨k, v, t₁, u, hk, hv, ?_⟩
    split at h
    · next t₂ hu =>
      simp only [Option.bind_eq_some_iff, Prod.exists] at h
      obtain ⟨ms₁, r₁, hs, he⟩ := h
      cases he
      exact .inl ⟨t₂, ms₁, hu, hs, rfl⟩
    · next hu =>
      cases h
      exact .inr ⟨hu, rfl⟩
    · cases h
  · rintro ⟨k, v, t₁, u, hk, hv, ⟨t₂, ms₁, hu, hs, rfl⟩ | ⟨hu, rfl⟩⟩
    · simp [members?, hk, hv, hu, hs]
    · simp [members?, hk, hv, hu]

theorem length_of_string? {t s r : Text} (h : string? t = some (s, r)) : r.length < t.length := by
  fun_induction string? t generalizing s r with
  | case1 => cases h
  | case2 t =>
    cases h
    simp
  | case3 t d u hd hq ih =>
    obtain ⟨⟨s, r⟩, hs, he⟩ := Option.map_eq_some_iff.1 h
    cases he
    have := ih hs
    have := length_of_escaped? hd
    simp only [List.length_cons]
    omega
  | case4 => cases h
  | case5 => cases h
  | case6 c t hq hb hc ih =>
    obtain ⟨⟨s, r⟩, hs, he⟩ := Option.map_eq_some_iff.1 h
    cases he
    have := ih hs
    simp only [List.length_cons]
    omega

end Strict

end Json
end Pinout
