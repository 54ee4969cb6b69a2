import Pinout.Text.Basic

/-!
# Pinout.Proofs.Text.Decimal

Decimal digits of a natural number: `decimal n` holds digits only, starts with a zero for zero alone,
and stands for `n` (`ofDecimal_decimal`).
-/

namespace Pinout
namespace Text

theorem digit_spec : ∀ n, n < 10 → (digit n).isDigit ∧ (digit n).toNat - '0'.toNat = n ∧
    (digit n = '0' → n = 0) := by decide

theorem isDigit_of_mem_decimal (n : Nat) : ∀ c ∈ decimal n, c.isDigit := by
  induction n using Nat.strongRecOn with
  | ind n ih =>
    intro c hc
    rw [decimal] at hc
    split at hc
    · next h =>
      rw [List.mem_singleton.1 hc]
      exact (digit_spec n h).1
    · rcases List.mem_append.1 hc with hc | hc
      · exact ih (n / 10) (by omega) c hc
      · rw [List.mem_singleton.1 hc]
        exact (digit_spec (n % 10) (by omega)).1

/-- The digits start with a zero for zero alone. -/
theorem exists_cons_decimal (n : Nat) :
    ∃ c t, decimal n = c :: t ∧ c.isDigit ∧ (c = '0' → n = 0 ∧ t = []) := by
  induction n using Nat.strongRecOn with
  | ind n ih =>
    rw [decimal]
    split
    · next h => exact ⟨digit n, [], rfl, (digit_spec n h).1, fun he => ⟨(digit_spec n h).2.2 he, rfl⟩⟩
    · obtain ⟨c, t, ht, hd, hz⟩ := ih (n / 10) (by omega)
      refine ⟨c, t ++ [digit (n % 10)], by rw [ht]; rfl, hd, fun he => ?_⟩
      have := (hz he).1
      omega

theorem ofDecimal_decimal (n : Nat) : ofDecimal (decimal n) = n := by
  induction n using Nat.strongRecOn with
  | ind n ih =>
    rw [decimal]
    split
    · next h =>
      rw [ofDecimal, List.foldl_cons, List.foldl_nil, (digit_spec n h).2.1, Nat.mul_zero,
        Nat.zero_add]
    · have h := ih (n / 10) (by omega)
      have hd := (digit_spec (n % 10) (by omega)).2.1
      rw [ofDecimal, List.foldl_append, ← ofDecimal, h, List.foldl_cons, List.foldl_nil, hd]
      omega

end Text
end Pinout
