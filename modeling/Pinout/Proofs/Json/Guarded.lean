import Pinout.Markup
import Pinout.Proofs.Json.Compact
import Pinout.Proofs.Json.Steps

/-!
# Pinout.Proofs.Json.Guarded

JSON guarded for a script element. No `</` is left in a guarded text
(`Markup.not_infix_guardScript`), and a guarded text is read as the text itself: a `<` stands in
strict JSON only inside a string, where `\/` is read as `/`. So a printed value is read back when it
is guarded (`Json.Strict.readNested?_guarded`).

A reader that makes the same of a guarded text as of the text itself is `Json.Guarded`. Every part of
the strict reader is, which is shown from numbers and strings up to values, items and members, by
induction on the fuel (`Json.Strict.guarded_all`).
-/

namespace Pinout

namespace Markup

theorem guardScript_cons {c : Char} (hc : c ≠ '<') (t : Text) :
    guardScript (c :: t) = c :: guardScript t := by
  cases t with
  | nil => rfl
  | cons d t => rw [guardScript, if_neg fun h => hc h.1]

theorem guardScript_append {u : Text} (hu : '<' ∉ u) (t : Text) :
    guardScript (u ++ t) = u ++ guardScript t := by
  induction u with
  | nil => rfl
  | cons c u ih =>
    rw [List.mem_cons, not_or] at hu
    rw [List.cons_append, guardScript_cons (Ne.symm hu.1), ih hu.2, List.cons_append]

theorem guardScript_of_not_mem {t : Text} (h : '<' ∉ t) : guardScript t = t := by
  have := guardScript_append h []
  rwa [List.append_nil, guardScript, List.append_nil] at this

/-- A slash behind the seam would be guarded with what stands in front of it. -/
theorem guardScript_append_of_head {b : Text} (hb : b.head? ≠ some '/') (a : Text) :
    guardScript (a ++ b) = guardScript a ++ guardScript b := by
  induction a using guardScript.induct with
  | case1 => rfl
  | case2 c =>
    cases b with
    | nil => rfl
    | cons d b =>
      have hd : ¬ (c = '<' ∧ d = '/') := fun h => hb (by rw [h.2]; rfl)
      exact if_neg hd
  | case3 c d t h ih =>
    rw [List.cons_append, List.cons_append, guardScript, if_pos h, ih, guardScript, if_pos h]
    rfl
  | case4 c d t h ih =>
    rw [List.cons_append, List.cons_append, guardScript, if_neg h, ← List.cons_append, ih,
      guardScript, if_neg h]
    rfl

/-- The first character stays. -/
theorem exists_guardScript_cons (c : Char) (t : Text) : ∃ u, guardScript (c :: t) = c :: u := by
  cases t with
  | nil => exact ⟨[], rfl⟩
  | cons d t =>
    rw [guardScript]
    split
    · next h => exact ⟨_, by rw [h.1]⟩
    · exact ⟨_, rfl⟩

theorem guardScript_ne_cons {c : Char} {t : Text} (h : ∀ u, t ≠ c :: u) (u : Text) :
    guardScript t ≠ c :: u := by
  intro he
  cases t with
  | nil => cases he
  | cons d t =>
    obtain ⟨v, hv⟩ := exists_guardScript_cons d t
    obtain ⟨rfl, -⟩ := List.cons.inj (hv.symm.trans he)
    exact h t rfl

theorem takeWhile_guardScript {p : Char → Bool} (hp : p '<' = false) (t : Text) :
    (guardScript t).takeWhile p = t.takeWhile p := by
  induction t with
  | nil => rfl
  | cons c t ih =>
    by_cases hc : p c
    · have hne : c ≠ '<' := by
        rintro rfl
        rw [hp] at hc
        cases hc
      rw [guardScript_cons hne, List.takeWhile_cons_of_pos hc, List.takeWhile_cons_of_pos hc, ih]
    · obtain ⟨u, hu⟩ := exists_guardScript_cons c t
      rw [hu, List.takeWhile_cons_of_neg hc, List.takeWhile_cons_of_neg hc]

theorem dropWhile_guardScript {p : Char → Bool} (hp : p '<' = false) (t : Text) :
    (guardScript t).dropWhile p = guardScript (t.dropWhile p) := by
  have htake := takeWhile_guardScript hp t
  have hmem : '<' ∉ t.takeWhile p := by
    intro hm
    rw [List.all_eq_true.1 List.all_takeWhile _ hm] at hp
    cases hp
  have ht : guardScript t = t.takeWhile p ++ guardScript (t.dropWhile p) := by
    rw [← guardScript_append hmem, List.takeWhile_append_dropWhile]
  have hsplit := List.takeWhile_append_dropWhile (p := p) (l := guardScript t)
  rw [htake] at hsplit
  exact List.append_cancel_left (hsplit.trans ht)

theorem length_guardScript (t : Text) : t.length ≤ (guardScript t).length := by
  induction t using guardScript.induct with
  | case1 | case2 => exact Nat.le_refl _
  | case3 c d t h ih =>
    rw [guardScript, if_pos h]
    simp only [List.length_cons]
    omega
  | case4 c d t h ih =>
    rw [guardScript, if_neg h]
    exact Nat.succ_le_succ ih

/-- Behind a guarded `<` stands no slash. -/
theorem not_infix_guardScript (t : Text) : ¬ ['<', '/'] <:+: guardScript t := by
  induction t using guardScript.induct with
  | case1 => simp [guardScript]
  | case2 c => simp [guardScript, List.infix_cons_iff]
  | case3 c d t h ih =>
    rw [guardScript, if_pos h]
    simp [List.infix_cons_iff, ih]
  | case4 c d t h ih =>
    obtain ⟨u, hu⟩ := exists_guardScript_cons d t
    rw [guardScript, if_neg h, List.infix_cons_iff, not_or]
    refine ⟨?_, ih⟩
    rw [hu, List.cons_prefix_cons, List.cons_prefix_cons]
    exact fun hp => h ⟨hp.1.symm, hp.2.1.symm⟩

end Markup

namespace Json

open Markup (guardScript guardScript_cons guardScript_append guardScript_ne_cons
  takeWhile_guardScript dropWhile_guardScript)

/-- A guarded text is read as the text itself. -/
def Guarded {α : Type} (read : Text → Option (α × Text)) : Prop :=
  ∀ ⦃t x r⦄, read t = some (x, r) → read (guardScript t) = some (x, guardScript r)

theorem Guarded.map {α β : Type} {read : Text → Option (α × Text)} (h : Guarded read) (f : α → β) :
    Guarded fun t => (read t).map fun (x, r) => (f x, r) := by
  intro t y r hy
  obtain ⟨⟨x, r⟩, hx, he⟩ := Option.map_eq_some_iff.1 hy
  cases he
  exact Option.map_eq_some_iff.2 ⟨_, h hx, rfl⟩

/-! ## Numbers -/

namespace Literal

theorem guarded_digits? : Guarded digits? := by
  intro t w r h
  unfold digits? at h ⊢
  rw [takeWhile_guardScript (by decide), dropWhile_guardScript (by decide)]
  split at h
  · cases h
  · cases h
    rfl

theorem guarded_natural? : Guarded natural? := by
  intro t w r h
  unfold natural? at h
  split at h
  · cases h
    rw [guardScript_cons (by decide)]
    rfl
  · next hne =>
    rw [natural?]
    · exact guarded_digits? h
    · exact guardScript_ne_cons hne

theorem guarded_fraction? : Guarded fraction? := by
  intro t w r h
  unfold fraction? at h
  split at h
  · rw [guardScript_cons (by decide)]
    exact guarded_digits? h
  · next hne =>
    cases h
    rw [fraction?]
    exact guardScript_ne_cons hne

theorem guarded_signedExponent? : Guarded signedExponent? := by
  intro t e r h
  unfold signedExponent? at h
  split at h
  · rw [guardScript_cons (by decide)]
    exact guarded_digits?.map (fun w => (Text.ofDecimal w : Int)) h
  · rw [guardScript_cons (by decide)]
    exact guarded_digits?.map (fun w => -(Text.ofDecimal w : Int)) h
  · next hplus hminus =>
    rw [signedExponent?]
    · exact guarded_digits?.map (fun w => (Text.ofDecimal w : Int)) h
    · exact guardScript_ne_cons hplus
    · exact guardScript_ne_cons hminus

theorem guarded_exponent? : Guarded exponent? := by
  intro t e r h
  unfold exponent? at h
  split at h
  · rw [guardScript_cons (by decide)]
    exact guarded_signedExponent?.map some h
  · rw [guardScript_cons (by decide)]
    exact guarded_signedExponent?.map some h
  · next hlower hupper =>
    cases h
    rw [exponent?]
    · exact guardScript_ne_cons hlower
    · exact guardScript_ne_cons hupper

/-- A literal without its sign. -/
def unsigned? (negative : Bool) (t : Text) : Option (Literal × Text) := do
  let (whole, t) ← natural? t
  let (fraction, t) ← fraction? t
  let (exponent, t) ← exponent? t
  return (⟨negative, whole, fraction, exponent⟩, t)

theorem guarded_unsigned? (negative : Bool) : Guarded (unsigned? negative) := by
  intro t l r h
  simp only [unsigned?, Option.bind_eq_bind, Option.bind_eq_some_iff, Prod.exists] at h
  obtain ⟨whole, t₁, hw, fraction, t₂, hf, e, t₃, he, h⟩ := h
  cases h
  simp [unsigned?, guarded_natural? hw, guarded_fraction? hf, guarded_exponent? he]

theorem read?_minus (t : Text) : read? ('-' :: t) = unsigned? true t := rfl

theorem read?_unsigned {t : Text} (h : ∀ u, t ≠ '-' :: u) : read? t = unsigned? false t := by
  rw [read?]
  · rfl
  · exact h

theorem guarded_read? : Guarded read? := by
  intro t l r h
  by_cases hminus : ∃ u, t = '-' :: u
  · obtain ⟨u, rfl⟩ := hminus
    rw [read?_minus] at h
    rw [guardScript_cons (by decide), read?_minus]
    exact guarded_unsigned? true h
  · rw [not_exists] at hminus
    rw [read?_unsigned hminus] at h
    rw [read?_unsigned (guardScript_ne_cons hminus)]
    exact guarded_unsigned? false h

end Literal

theorem guarded_number? : Guarded number? := by
  intro t v r h
  simp only [number?, Option.bind_eq_bind, Option.bind_eq_some_iff, Prod.exists] at h
  obtain ⟨l, u, hl, v, hv, he⟩ := h
  cases he
  simp [number?, Literal.guarded_read? hl, hv]

/-! ## Strings -/

theorem guarded_codeUnit? : Guarded codeUnit? := by
  intro t n r h
  unfold codeUnit? at h
  split at h
  · next a b c d _ =>
    obtain ⟨m, hm, he⟩ := Option.map_eq_some_iff.1 h
    cases he
    have hmem : '<' ∉ [a, b, c, d] := by
      intro hmem
      have := hexValue?_of_hexNumber? hm _ hmem
      exact absurd this (by decide)
    have ht := guardScript_append hmem r
    simp only [List.cons_append, List.nil_append] at ht
    rw [ht, codeUnit?, hm]
    rfl
  · cases h

namespace Strict

theorem guarded_escaped? : Guarded escaped? := by
  intro t c r h
  unfold escaped? at h
  split at h
  case h_9 t =>
    rw [guardScript_cons (by decide)]
    simp only [Option.bind_eq_bind, Option.bind_eq_some_iff, Prod.exists] at h
    obtain ⟨n, u, hu, h⟩ := h
    split at h
    · next hn =>
      split at h
      · next v =>
        simp only [Option.bind_eq_some_iff, Prod.exists] at h
        obtain ⟨m, w, hw, h⟩ := h
        split at h
        · next hm =>
          simp only [Option.bind_eq_some_iff] at h
          obtain ⟨d, hd, he⟩ := h
          cases he
          have hu' := guarded_codeUnit? hu
          rw [guardScript_cons (by decide), guardScript_cons (by decide)] at hu'
          simp [escaped?, hu', hn, guarded_codeUnit? hw, hm, hd]
        · cases h
      · cases h
    · next hn =>
      simp only [Option.bind_eq_some_iff] at h
      obtain ⟨d, hd, he⟩ := h
      cases he
      simp [escaped?, guarded_codeUnit? hu, hn, hd]
  case h_10 => cases h
  all_goals
    cases h
    rw [guardScript_cons (by decide)]
    rfl

theorem guarded_string? : Guarded string? := by
  intro t s r h
  fun_induction string? t generalizing s r with
  | case1 => cases h
  | case2 t =>
    cases h
    rw [guardScript_cons (by decide), string?, if_pos rfl]
  | case3 t d u hd hq ih =>
    obtain ⟨⟨s, r⟩, hs, he⟩ := Option.map_eq_some_iff.1 h
    cases he
    rw [guardScript_cons (by decide), string?_escaped (guarded_escaped? hd), ih hs]
    rfl
  | case4 => cases h
  | case5 => cases h
  | case6 c t hq hb hc ih =>
    obtain ⟨⟨s, r⟩, hs, he⟩ := Option.map_eq_some_iff.1 h
    cases he
    have hguarded := ih hs
    by_cases hguard : c = '<' ∧ t.head? = some '/'
    · -- the guard puts a backslash before the slash, which is read as the slash alone
      obtain ⟨rfl, hslash⟩ := hguard
      obtain ⟨t, rfl⟩ : ∃ u, t = '/' :: u := List.head?_eq_some_iff.1 hslash
      rw [guardScript_cons (by decide),
        string?_plain (by decide) (by decide) (by decide)] at hguarded
      rw [guardScript, if_pos ⟨rfl, rfl⟩, string?_plain hq hb hc, string?_escaped rfl, hguarded]
      rfl
    · have ht : guardScript (c :: t) = c :: guardScript t := by
        cases t with
        | nil => rfl
        | cons d t => rw [guardScript, if_neg (by simpa using hguard)]
      rw [ht, string?_plain hq hb hc, hguarded]
      rfl

/-! ## Values -/

theorem skipBlanks_guardScript (t : Text) :
    skipBlanks (guardScript t) = guardScript (skipBlanks t) := dropWhile_guardScript (by decide) t

theorem skipBlanks_guarded {t u : Text} {c : Char} (hc : c ≠ '<') (h : skipBlanks t = c :: u) :
    skipBlanks (guardScript t) = c :: guardScript u := by
  rw [skipBlanks_guardScript, h, guardScript_cons hc]

theorem guarded_key? : Guarded key? := by
  intro t k r h
  obtain ⟨u, u₁, ht, hs, hu⟩ := key?_eq_some_iff.1 h
  exact key?_eq_some_iff.2 ⟨_, _, skipBlanks_guarded (by decide) ht, guarded_string? hs,
    skipBlanks_guarded (by decide) hu⟩

variable {fuel : Nat}

theorem guarded_value?_succ (hi : ∀ d, Guarded (items? fuel d))
    (hm : ∀ d, Guarded (members? fuel d)) (d : Nat) : Guarded (value? (fuel + 1) d) := by
  intro t v r h
  have hreads := value?_eq_some_iff.1 h
  rw [value?_eq_some_iff, skipBlanks_guardScript]
  generalize skipBlanks t = t at hreads
  cases hreads with
  | @literal _ word _ _ h =>
    have hword : ∀ p ∈ [("null", Json.null), ("true", .bool true), ("false", .bool false)],
        '<' ∉ p.1.toList := by simp
    rw [guardScript_append (hword _ h)]
    exact .literal h
  | string h =>
    rw [guardScript_cons (by decide)]
    exact .string (guarded_string? h)
  | emptyArray h =>
    rw [guardScript_cons (by decide)]
    exact .emptyArray (skipBlanks_guarded (by decide) h)
  | array h =>
    rw [guardScript_cons (by decide)]
    exact .array (by rw [skipBlanks_guardScript, hi _ h])
  | emptyObject h =>
    rw [guardScript_cons (by decide)]
    exact .emptyObject (skipBlanks_guarded (by decide) h)
  | object h =>
    rw [guardScript_cons (by decide)]
    exact .object (by rw [skipBlanks_guardScript, hm _ h])
  | number h => exact .number (guarded_number? h)

theorem guarded_items?_succ (hv : ∀ d, Guarded (value? fuel d))
    (hi : ∀ d, Guarded (items? fuel d)) (d : Nat) : Guarded (items? (fuel + 1) d) := by
  intro t vs r h
  obtain ⟨v, u, hvalue, hrest⟩ := items?_eq_some_iff.1 h
  refine items?_eq_some_iff.2 ⟨v, _, hv d hvalue, ?_⟩
  rcases hrest with ⟨t₁, vs₁, hu, hs, rfl⟩ | ⟨hu, rfl⟩
  · exact .inl ⟨_, vs₁, skipBlanks_guarded (by decide) hu, hi d hs, rfl⟩
  · exact .inr ⟨skipBlanks_guarded (by decide) hu, rfl⟩

theorem guarded_members?_succ (hv : ∀ d, Guarded (value? fuel d))
    (hm : ∀ d, Guarded (members? fuel d)) (d : Nat) : Guarded (members? (fuel + 1) d) := by
  intro t ms r h
  obtain ⟨k, v, t₁, u, hk, hvalue, hrest⟩ := members?_eq_some_iff.1 h
  refine members?_eq_some_iff.2 ⟨k, v, _, _, guarded_key? hk, hv d hvalue, ?_⟩
  rcases hrest with ⟨t₂, ms₁, hu, hs, rfl⟩ | ⟨hu, rfl⟩
  · exact .inl ⟨_, ms₁, skipBlanks_guarded (by decide) hu, hm d hs, rfl⟩
  · exact .inr ⟨skipBlanks_guarded (by decide) hu, rfl⟩

theorem guarded_all (fuel : Nat) : (∀ d, Guarded (value? fuel d)) ∧ (∀ d, Guarded (items? fuel d)) ∧
    ∀ d, Guarded (members? fuel d) := by
  induction fuel with
  | zero =>
    refine ⟨fun d t v r h => ?_, fun d t v r h => ?_, fun d t v r h => ?_⟩
    · rw [value?] at h
      cases h
    · rw [items?] at h
      cases h
    · rw [members?] at h
      cases h
  | succ fuel ih =>
    obtain ⟨hv, hi, hm⟩ := ih
    exact ⟨guarded_value?_succ hi hm, guarded_items?_succ hv hi, guarded_members?_succ hv hm⟩

/-- The value that a text is, with `limit` groups nested at most. -/
def readNested? (limit : Nat) (t : Text) : Option Json := do
  let (v, t) ← value? (2 * t.length + 2) limit t
  if skipBlanks t = [] then some v else none

theorem readNested?_maxDepth (t : Text) : readNested? maxDepth t = read? t := rfl

section Blanks

variable {w w' : Text}

theorem skipBlanks_append (hw : ∀ c ∈ w, isBlank c) (t : Text) :
    skipBlanks (w ++ t) = skipBlanks t := List.dropWhile_append_of_pos hw

theorem endsToken_blanks (hw : ∀ c ∈ w, isBlank c) : endsToken w := by
  have hblank : w.allBlank := List.all_eq_true.2 fun c hc => isBlank_of_isBlank (hw c hc)
  have := Relaxed.endsToken_append hblank (r := []) rfl
  rwa [List.append_nil] at this

theorem guardScript_blanks (hw : ∀ c ∈ w, isBlank c) : guardScript w = w :=
  Markup.guardScript_of_not_mem fun h => absurd (hw _ h) (by decide)

theorem guardScript_append_blanks (hw : ∀ c ∈ w, isBlank c) (t : Text) :
    guardScript (t ++ w) = guardScript t ++ w := by
  have hslash : w.head? ≠ some '/' := by
    intro h
    exact absurd (hw _ (List.mem_of_head? h)) (by decide)
  rw [Markup.guardScript_append_of_head hslash, guardScript_blanks hw]

/-- A printed value is read back when it is guarded, with blanks around it, wherever so many groups
may be nested as it has. -/
theorem readNested?_guarded {v : Json} (hv : v.isIntegral) {limit : Nat} (hd : v.depth ≤ limit)
    (hw : ∀ c ∈ w, isBlank c) (hw' : ∀ c ∈ w', isBlank c) :
    readNested? limit (w ++ guardScript v.compact ++ w') = some v := by
  have hlength := Markup.length_guardScript v.compact
  have hfuel : 2 * v.compact.length ≤ 2 * (w ++ guardScript v.compact ++ w').length + 1 + 1 := by
    simp only [List.length_append]
    omega
  have hcompact := value?_compact v _ limit w' hv hfuel (endsToken_blanks hw')
  rw [if_pos hd] at hcompact
  have hguarded := (guarded_all _).1 limit hcompact
  rw [guardScript_append_blanks hw', guardScript_blanks hw'] at hguarded
  have hvalue : value? (2 * (w ++ guardScript v.compact ++ w').length + 1 + 1) limit
      (w ++ guardScript v.compact ++ w') = some (v, w') := by
    rw [value?_eq_some_iff] at hguarded ⊢
    rwa [List.append_assoc, skipBlanks_append hw, ← List.append_assoc]
  have hrest : skipBlanks w' = [] := by
    have := skipBlanks_append hw' []
    rwa [List.append_nil] at this
  rw [readNested?, hvalue]
  simp [hrest]

end Blanks

end Strict
end Json
end Pinout
