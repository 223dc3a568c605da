import Mathlib.Algebra.Order.Field.Basic
import Mathlib.Algebra.Order.Round
import Mathlib.Tactic.FieldSimp
import Mathlib.Tactic.Linarith
import Mathlib.Tactic.Positivity

/-!
# The nearest integer, ties to even

A number has exactly one integer nearest to it when a tie goes to the even one. A quotient of
naturals finds it by its quotient and remainder.
-/

namespace Purrdf

structure NearestEven {α : Type} [Field α] [LinearOrder α] (x : α) (n : ℤ) : Prop where
  near : 2 * |x - n| ≤ 1
  even : 2 * |x - n| = 1 → Even n

variable {α : Type} [Field α] [LinearOrder α] [IsStrictOrderedRing α] {x : α} {m n : ℤ}

def roundQuotient (quotient remainder divisor : ℕ) : ℕ :=
  if divisor < 2 * remainder ∨ 2 * remainder = divisor ∧ quotient % 2 = 1 then quotient + 1
  else quotient

theorem nearestEven_roundQuotient {quotient remainder divisor : ℕ} (hless : remainder < divisor) :
    NearestEven (((divisor * quotient + remainder : ℕ) : α) / divisor)
      (roundQuotient quotient remainder divisor) := by
  have hpositive : (0 : α) < divisor := by
    exact_mod_cast Nat.lt_of_le_of_lt (Nat.zero_le _) hless
  have hvalue : ((divisor * quotient + remainder : ℕ) : α) / divisor =
      quotient + remainder / divisor := by
    push_cast
    field_simp
  have hfraction : (0 : α) ≤ remainder / divisor := by positivity
  unfold roundQuotient
  rw [hvalue]
  split
  · next hup =>
      have hhalf : (1 : α) ≤ 2 * (remainder / divisor) := by
        rw [← mul_div_assoc, le_div_iff₀ hpositive, one_mul]
        have hle : divisor ≤ 2 * remainder := by omega
        exact_mod_cast hle
      have hone : (remainder : α) / divisor ≤ 1 := by
        rw [div_le_one hpositive]
        exact_mod_cast hless.le
      have hdistance : |(quotient : α) + remainder / divisor - ((quotient + 1 : ℕ) : ℤ)| =
          1 - remainder / divisor := by
        push_cast
        rw [abs_sub_comm, abs_of_nonneg] <;> linarith
      constructor
      · rw [hdistance]
        linarith
      · rw [hdistance]
        intro htie
        have heq : 2 * ((remainder : α) / divisor) = 1 := by linarith
        rw [← mul_div_assoc, div_eq_one_iff_eq hpositive.ne'] at heq
        have hexact : 2 * remainder = divisor := by exact_mod_cast heq
        obtain hmore | ⟨-, hodd⟩ := hup
        · omega
        · rw [Int.even_coe_nat, Nat.even_add_one, Nat.not_even_iff]
          exact hodd
  · next hdown =>
      have hhalf : 2 * ((remainder : α) / divisor) ≤ 1 := by
        rw [← mul_div_assoc, div_le_one hpositive]
        have hle : 2 * remainder ≤ divisor := by omega
        exact_mod_cast hle
      have hdistance : |(quotient : α) + remainder / divisor - ((quotient : ℕ) : ℤ)| =
          remainder / divisor := by
        push_cast
        rw [add_sub_cancel_left, abs_of_nonneg hfraction]
      constructor
      · rw [hdistance]
        exact hhalf
      · rw [hdistance]
        intro htie
        rw [← mul_div_assoc, div_eq_one_iff_eq hpositive.ne'] at htie
        have hexact : 2 * remainder = divisor := by exact_mod_cast htie
        rw [Int.even_coe_nat, Nat.even_iff]
        omega

end Purrdf
