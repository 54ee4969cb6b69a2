import Mathlib.Tactic.SplitIfs
import Pinout.Json.Printer
import Pinout.Json.Strict
import Pinout.Proofs.Text.Decimal

/-!
# Pinout.Proofs.Json.Scalar

Numbers and strings as the printer writes them, read back: an integer of 64 bits by
`number?_decimalInt`, and a string by the strict reader (`Strict.string?_quote`).
-/

namespace Pinout
namespace Json

/-- No word or number goes on with the text. -/
def endsToken (t : Text) : Bool := t.head?.all fun c => !c.isAlphanum && c != '_' && c != '.'

theorem takeWhile_append_token {p : Char → Bool} (hp : ∀ c, p c → c.isAlphanum ∨ c = '_')
    {w r : Text} (hw : ∀ c ∈ w, p c) (hr : endsToken r) :
    (w ++ r).takeWhile p = w ∧ (w ++ r).dropWhile p = r := by
  have hn : r.takeWhile p = [] ∧ r.dropWhile p = r := by
    cases r with
    | nil => exact ⟨rfl, rfl⟩
    | cons c r =>
      have hc : ¬ p c := by
        intro h
        simp only [endsToken, List.head?_cons, Option.all_some, Bool.and_eq_true, bne_iff_ne, ne_eq,
          Bool.not_eq_true'] at hr
        rcases hp c h with ha | ha
        · rw [ha] at hr
          cases hr.1.1
        · exact hr.1.2 ha
      exact ⟨List.takeWhile_cons_of_neg hc, List.dropWhile_cons_of_neg hc⟩
  rw [List.takeWhile_append_of_pos hw, List.dropWhile_append_of_pos hw, hn.1, hn.2, List.append_nil]
  exact ⟨rfl, rfl⟩

theorem digit_cases {c : Char} (h : c.isDigit) :
    c ∈ ['0', '1', '2', '3', '4', '5', '6', '7', '8', '9'] := by
  have hall : ∀ n, n < 58 → 48 ≤ n →
      Char.ofNat n ∈ ['0', '1', '2', '3', '4', '5', '6', '7', '8', '9'] := by decide
  simp only [Char.isDigit, Bool.and_eq_true, decide_eq_true_eq, UInt32.le_iff_toNat_le] at h
  have h₁ : 48 ≤ c.toNat := h.1
  have h₂ : c.toNat ≤ 57 := h.2
  have := hall c.toNat (by omega) h₁
  rwa [Char.ofNat_toNat] at this

theorem sign_or_digit_cases {c : Char} (h : c.isDigit ∨ c = '-') :
    c ∈ ['-', '0', '1', '2', '3', '4', '5', '6', '7', '8', '9'] := by
  rcases h with h | rfl
  · exact List.mem_cons_of_mem _ (digit_cases h)
  · decide

/-! ## Numbers -/

namespace Literal

theorem digits?_append {w r : Text} (hw : ∀ c ∈ w, c.isDigit) (hne : w ≠ []) (hr : endsToken r) :
    digits? (w ++ r) = some (w, r) := by
  have hp : ∀ c : Char, c.isDigit → c.isAlphanum ∨ c = '_' := by
    intro c hc
    exact .inl (by rw [Char.isAlphanum, hc, Bool.or_true])
  obtain ⟨ht, hd⟩ := takeWhile_append_token hp hw hr
  cases w with
  | nil => exact absurd rfl hne
  | cons c w => rw [digits?, ht, hd]

theorem natural?_decimal (n : Nat) {r : Text} (hr : endsToken r) :
    natural? (Text.decimal n ++ r) = some (Text.decimal n, r) := by
  obtain ⟨c, t, ht, hd, hz⟩ := Text.exists_cons_decimal n
  have hdigits := digits?_append (Text.isDigit_of_mem_decimal n) (by rw [ht]; simp) hr
  rw [ht] at hdigits ⊢
  rw [List.cons_append] at hdigits ⊢
  unfold natural?
  split
  · next u hu =>
    obtain ⟨rfl, rfl⟩ := List.cons.inj hu
    rw [(hz rfl).2]
    rfl
  · exact hdigits

theorem fraction?_of_endsToken {r : Text} (hr : endsToken r) : fraction? r = some ([], r) := by
  unfold fraction?
  split
  · cases hr
  · rfl

theorem exponent?_of_endsToken {r : Text} (hr : endsToken r) : exponent? r = some (none, r) := by
  unfold exponent?
  split
  · cases hr
  · cases hr
  · rfl

theorem read?_decimalInt (i : Int) {r : Text} (hr : endsToken r) :
    read? (Text.decimalInt i ++ r) =
      some (⟨decide (i < 0), Text.decimal i.natAbs, [], none⟩, r) := by
  cases i with
  | ofNat n =>
    have hm : ∀ u, Text.decimal n ++ r ≠ '-' :: u := by
      intro u hu
      obtain ⟨c, t, ht, hd, _⟩ := Text.exists_cons_decimal n
      rw [ht] at hu
      obtain ⟨rfl, _⟩ := List.cons.inj hu
      cases hd
    have hs : decide (Int.ofNat n < 0) = false := by simp
    rw [Text.decimalInt, read?, hs]
    · simp [natural?_decimal n hr, fraction?_of_endsToken hr, exponent?_of_endsToken hr]
    · exact hm
  | negSucc n =>
    have hs : decide (Int.negSucc n < 0) = true := by simp [Int.negSucc_lt_zero]
    rw [Text.decimalInt, List.cons_append, read?, hs]
    simp [natural?_decimal (n + 1) hr, fraction?_of_endsToken hr, exponent?_of_endsToken hr]

theorem le_foldl_digits (m : Nat) (digits : Text) :
    m ≤ digits.foldl (fun n c => 10 * n + (c.toNat - '0'.toNat)) m := by
  induction digits generalizing m with
  | nil => exact Nat.le_refl m
  | cons c digits ih =>
    have h : m ≤ 10 * m + (c.toNat - '0'.toNat) := by omega
    exact Nat.le_trans h (ih _)

/-- Digits whose number 64 bits hold are all significant. -/
theorem significand_of_le {m : Nat} {digits : Text}
    (h : digits.foldl (fun n c => 10 * n + (c.toNat - '0'.toNat)) m ≤ maxSignificand) :
    significand m digits = (digits.foldl (fun n c => 10 * n + (c.toNat - '0'.toNat)) m, 0) := by
  induction digits generalizing m with
  | nil => rfl
  | cons c digits ih =>
    rw [List.foldl_cons] at h ⊢
    have hle := Nat.le_trans (le_foldl_digits _ digits) h
    simp only [significand]
    rw [Nat.mul_comm m 10, if_neg (by omega), ih h]

theorem significand_decimal {n : Nat} (h : n ≤ maxSignificand) :
    significand 0 (Text.decimal n) = (n, 0) := by
  have he := Text.ofDecimal_decimal n
  rw [Text.ofDecimal] at he
  have := @significand_of_le 0 (Text.decimal n) (by rw [he]; exact h)
  rw [this, he]

end Literal

/-- The integers that 64 bits hold, with or without a sign. -/
def fits64 (i : Int) : Bool := -(Nat.pow 2 63 : Nat) ≤ i && i < (Nat.pow 2 64 : Nat)

theorem number?_decimalInt {i : Int} (hi : fits64 i) {r : Text} (hr : endsToken r) :
    number? (Text.decimalInt i ++ r) = some (.int i, r) := by
  simp only [fits64, Bool.and_eq_true, decide_eq_true_eq] at hi
  have hmax : Literal.maxSignificand = 18446744073709551615 := by decide
  have hmin : Nat.pow 2 63 = 9223372036854775808 := by decide
  have hsup : Nat.pow 2 64 = 18446744073709551616 := by decide
  have hs := Literal.significand_decimal (n := i.natAbs) (by omega)
  have hv : Literal.value? ⟨decide (i < 0), Text.decimal i.natAbs, [], none⟩ = some (.int i) := by
    simp only [Literal.value?, hs, and_self, if_true, true_and]
    by_cases h : i < 0
    · have h₀ : i.natAbs ≠ 0 := by omega
      have h₁ : i.natAbs ≤ Nat.pow 2 63 := by omega
      have h₂ : -(i.natAbs : Int) = i := by omega
      rw [if_neg (by simp [h]), if_pos ⟨h₀, h₁⟩, h₂]
    · have h₁ : (i.natAbs : Int) = i := by omega
      rw [if_pos (by simp [h]), h₁]
  rw [number?, Literal.read?_decimalInt i hr]
  simp [hv]

/-! ## Strings -/

theorem codeUnit?_hexDigits : ∀ n, n < 0x20 →
    hexNumber? ['0', '0', hexDigit (n / 16), hexDigit (n % 16)] = some n ∧
      scalar? n = some (Char.ofNat n) ∧ ¬ (0xD800 ≤ n ∧ n < 0xDC00) := by decide

/-- What the printer writes for a character: the character, or a backslash and a code for it. -/
inductive Escaped : Char → Text → Prop where
  | plain {c : Char} (hq : c ≠ '"') (hb : c ≠ '\\') (hc : ¬ c.toNat < 0x20) : Escaped c [c]
  | coded {c : Char} {code : Text} (h : ∀ t, Strict.escaped? (code ++ t) = some (c, t)) :
      Escaped c ('\\' :: code)

theorem escaped_control {c : Char} (hc : c.toNat < 0x20) :
    Escaped c ("\\u00".toList ++ [hexDigit (c.toNat / 16), hexDigit (c.toNat % 16)]) := by
  obtain ⟨hh, hn, hd⟩ := codeUnit?_hexDigits c.toNat hc
  rw [Char.ofNat_toNat] at hn
  have hu : ∀ t, codeUnit? ('0' :: '0' :: hexDigit (c.toNat / 16) ::
      hexDigit (c.toNat % 16) :: t) = some (c.toNat, t) := by
    intro t
    rw [codeUnit?, hh]
    rfl
  refine @Escaped.coded c ('u' :: '0' :: '0' :: [_, _]) fun t => ?_
  simp [Strict.escaped?, hu, hd, hn]

theorem escaped_escape (c : Char) : Escaped c (escape c) := by
  unfold escape
  split_ifs with hq hb h₁ h₂ h₃ h₄ h₅ hc
  · subst hq; exact .coded fun _ => rfl
  · subst hb; exact .coded fun _ => rfl
  · subst h₁; exact .coded fun _ => rfl
  · subst h₂; exact .coded fun _ => rfl
  · subst h₃; exact .coded fun _ => rfl
  · subst h₄; exact .coded fun _ => rfl
  · subst h₅; exact .coded fun _ => rfl
  · exact escaped_control hc
  · exact .plain hq hb hc

theorem Strict.string?_plain {c : Char} (hq : c ≠ '"') (hb : c ≠ '\\') (hc : ¬ c.toNat < 0x20)
    (t : Text) : string? (c :: t) = (string? t).map fun (s, r) => (c :: s, r) := by
  rw [string?, if_neg hq, if_neg hb, if_neg hc]

theorem Strict.string?_escaped {c : Char} {t u : Text} (h : escaped? t = some (c, u)) :
    string? ('\\' :: t) = (string? u).map fun (s, r) => (c :: s, r) := by
  rw [string?, if_neg (by decide), if_pos rfl]
  split
  · next hd =>
    rw [h] at hd
    cases hd
    rfl
  · next hd =>
    rw [h] at hd
    cases hd

theorem Strict.string?_escape (c : Char) (t : Text) :
    Strict.string? (escape c ++ t) = (Strict.string? t).map fun (s, r) => (c :: s, r) := by
  generalize he : escape c = e
  have h := escaped_escape c
  rw [he] at h
  cases h with
  | plain hq hb hc => exact string?_plain hq hb hc t
  | coded hs => exact string?_escaped (hs t)

theorem Strict.string?_quote (s t : Text) :
    Strict.string? (s.flatMap escape ++ '"' :: t) = some (s, t) := by
  induction s with
  | nil => rw [List.flatMap_nil, List.nil_append, Strict.string?, if_pos rfl]
  | cons c s ih =>
    rw [List.flatMap_cons, List.append_assoc, Strict.string?_escape, ih]
    rfl

end Json
end Pinout
