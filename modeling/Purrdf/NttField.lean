import Mathlib.FieldTheory.Finite.Basic
import Mathlib.NumberTheory.LucasPrimality
import Mathlib.Tactic.NormNum.Prime
import Mathlib.Tactic.ReduceModChar
import Purrdf.BitReversal
import Purrdf.Ntt

/-!
# The field of the transform

Folding computes remainders of `2^64 - 2^32 + 1`, which is a prime, and the powers of seven give
roots of unity of every order up to `2^32`.
-/

namespace Purrdf.BigInteger.Ntt

open Limbs

def prime : Nat := 18446744069414584321

theorem modulus_toNat : modulus.toNat = prime := by
  decide

theorem add_toNat {a b : UInt64} (hsum : a.toNat + b.toNat < 2 * prime) :
    (add a b).toNat = (a.toNat + b.toNat) % prime := by
  have ha := a.toNat_lt
  have hb := b.toNat_lt
  have hplain := UInt64.toNat_add a b
  have hfolded := UInt64.toNat_add (a + b) fold
  have hsmall := UInt64.toNat_sub (a + b) modulus
  have hfold : fold.toNat = 4294967295 := rfl
  rw [modulus_toNat] at hsmall
  rw [hfold] at hfolded
  unfold add
  simp only [UInt64.le_iff_toNat_le, modulus_toNat]
  unfold radix prime at *
  split
  · rw [if_neg (by omega)]
    omega
  · split
    · omega
    · omega

theorem subtract_toNat {a b : UInt64} (ha : a.toNat < prime) (hb : b.toNat < prime) :
    (subtract a b).toNat = (a.toNat + prime - b.toNat) % prime := by
  have hplain := UInt64.toNat_sub a b
  have hfolded := UInt64.toNat_sub (a - b) fold
  have hfold : fold.toNat = 4294967295 := rfl
  rw [hfold] at hfolded
  unfold subtract
  simp only [UInt64.lt_iff_toNat_lt]
  unfold prime at *
  split <;> omega

/-- The high word of a product contributes its low half times the fold, less its high half. -/
theorem multiply_toNat (a b : UInt64) :
    (multiply a b).toNat = a.toNat * b.toNat % prime := by
  have hproduct : a.toNat * b.toNat ≤ (2 ^ 64 - 1) * (2 ^ 64 - 1) :=
    Nat.mul_le_mul (Nat.le_sub_one_of_lt a.toNat_lt) (Nat.le_sub_one_of_lt b.toNat_lt)
  unfold multiply
  simp only
  generalize a.toNat * b.toNat = product at hproduct
  have hhigh : (UInt64.ofNat (product / radix)).toNat = product / radix := by
    apply toNat_ofNat_of_lt
    unfold radix
    omega
  have hlow : (UInt64.ofNat product).toNat = product % radix := toNat_ofNat product
  have htaken : (UInt64.ofNat (product / radix) >>> 32).toNat = product / radix / 2 ^ 32 := by
    rw [UInt64.toNat_shiftRight, hhigh, Nat.shiftRight_eq_div_pow]
    rfl
  have hmask : (UInt64.ofNat (product / radix) &&& fold).toNat = product / radix % 2 ^ 32 := by
    rw [UInt64.toNat_and, hhigh]
    exact Nat.and_two_pow_sub_one_eq_mod _ 32
  have hscaled : ((UInt64.ofNat (product / radix) &&& fold) * fold).toNat =
      product / radix % 2 ^ 32 * 4294967295 := by
    rw [UInt64.toNat_mul, hmask]
    have hfold : fold.toNat = 4294967295 := rfl
    rw [hfold]
    unfold radix
    omega
  have hdifference := UInt64.toNat_sub (UInt64.ofNat product)
    (UInt64.ofNat (product / radix) >>> 32)
  have hfolded := UInt64.toNat_sub (UInt64.ofNat product -
    UInt64.ofNat (product / radix) >>> 32) fold
  have hfold : fold.toNat = 4294967295 := rfl
  rw [htaken, hlow] at hdifference
  rw [hdifference, hfold] at hfolded
  simp only [UInt64.lt_iff_toNat_lt, htaken, hlow]
  have hsplit := Nat.mod_add_div product radix
  have hparts := Nat.mod_add_div (product / radix) (2 ^ 32)
  have hword := Nat.mod_lt product radix_pos
  have hpart := Nat.mod_lt (product / radix) (show 0 < 2 ^ 32 by decide)
  have hrest : product / radix / 2 ^ 32 < 2 ^ 32 := by
    unfold radix
    omega
  generalize product / radix / 2 ^ 32 = taken at *
  generalize product / radix % 2 ^ 32 = part at *
  generalize product % radix = word at *
  unfold radix at *
  split
  · rename_i hborrow
    have hvalue : (UInt64.ofNat product - UInt64.ofNat (product / 2 ^ 64) >>> 32 - fold).toNat =
        word + prime - taken := by
      rw [hfolded, prime]
      omega
    have hmultiple : product = word + prime - taken + part * 4294967295 +
        prime * (part + 4294967297 * taken - 1) := by
      unfold prime
      omega
    rw [add_toNat, hvalue, hscaled]
    · conv_rhs => rw [hmultiple, Nat.add_mul_mod_self_left]
    · rw [hvalue, hscaled, prime]
      omega
  · rename_i hborrow
    have hvalue : (UInt64.ofNat product - UInt64.ofNat (product / 2 ^ 64) >>> 32).toNat =
        word - taken := by
      rw [hdifference]
      omega
    have hmultiple : product = word - taken + part * 4294967295 +
        prime * (part + 4294967297 * taken) := by
      unfold prime
      omega
    rw [add_toNat, hvalue, hscaled]
    · conv_rhs => rw [hmultiple, Nat.add_mul_mod_self_left]
    · rw [hvalue, hscaled, prime]
      omega

/-! ### The field -/

theorem prime_factors {q : Nat} (hq : q.Prime) (hdvd : q ∣ prime - 1) :
    q ∈ [2, 3, 5, 17, 257, 65537] := by
  have hfactored : prime - 1 = 2 ^ 32 * (3 * (5 * (17 * (257 * 65537)))) := by
    decide
  rw [hfactored, hq.dvd_mul, hq.dvd_mul, hq.dvd_mul, hq.dvd_mul, hq.dvd_mul] at hdvd
  have hsame : ∀ factor : Nat, factor.Prime → q ∣ factor → q = factor := fun factor hfactor =>
    (Nat.prime_dvd_prime_iff_eq hq hfactor).mp
  rcases hdvd with h | h | h | h | h | h
  · simp [hsame 2 Nat.prime_two (hq.dvd_of_dvd_pow h)]
  · simp [hsame 3 Nat.prime_three h]
  · simp [hsame 5 Nat.prime_five h]
  · simp [hsame 17 (by norm_num) h]
  · simp [hsame 257 (by norm_num) h]
  · simp [hsame 65537 (by norm_num) h]

theorem prime_prime : prime.Prime := by
  apply lucas_primality prime 7
  · unfold prime
    reduce_mod_char
  · intro q hq hdvd
    have hmem := prime_factors hq hdvd
    simp only [List.mem_cons, List.not_mem_nil, or_false] at hmem
    unfold prime
    rcases hmem with rfl | rfl | rfl | rfl | rfl | rfl <;> reduce_mod_char <;> decide

instance : Fact prime.Prime :=
  ⟨prime_prime⟩

def residue (word : UInt64) : ZMod prime :=
  word.toNat

def Reduced (word : UInt64) : Prop :=
  word.toNat < prime

theorem prime_pos : 0 < prime := by
  decide

theorem val_residue {word : UInt64} (hword : Reduced word) : (residue word).val = word.toNat := by
  rw [residue, ZMod.val_natCast, Nat.mod_eq_of_lt hword]

theorem residue_add {a b : UInt64} (ha : Reduced a) (hb : Reduced b) :
    residue (add a b) = residue a + residue b ∧ Reduced (add a b) := by
  unfold Reduced residue at *
  rw [add_toNat (by omega)]
  refine ⟨?_, Nat.mod_lt _ prime_pos⟩
  rw [ZMod.natCast_mod, Nat.cast_add]

theorem residue_subtract {a b : UInt64} (ha : Reduced a) (hb : Reduced b) :
    residue (subtract a b) = residue a - residue b ∧ Reduced (subtract a b) := by
  unfold Reduced residue at *
  rw [subtract_toNat ha hb]
  refine ⟨?_, Nat.mod_lt _ prime_pos⟩
  rw [ZMod.natCast_mod, Nat.cast_sub (by omega), Nat.cast_add, ZMod.natCast_self, add_zero]

theorem residue_multiply (a b : UInt64) :
    residue (multiply a b) = residue a * residue b ∧ Reduced (multiply a b) := by
  unfold Reduced residue
  rw [multiply_toNat]
  refine ⟨?_, Nat.mod_lt _ prime_pos⟩
  rw [ZMod.natCast_mod, Nat.cast_mul]

theorem residue_powerFrom (result value : UInt64) (exponent : Nat) :
    residue (powerFrom result value exponent) = residue result * residue value ^ exponent := by
  induction exponent using Nat.strong_induction_on generalizing result value with
  | h exponent ih =>
  by_cases hexponent : exponent = 0
  · simp [powerFrom, hexponent]
  · rw [powerFrom, if_neg hexponent, ih (exponent / 2) (by omega)]
    have hsplit := Nat.div_add_mod exponent 2
    by_cases hhalf : exponent / 2 = 0
    · have hone : exponent = 1 := by omega
      simp [hone, (residue_multiply result value).1]
    · rw [if_pos hhalf, (residue_multiply value value).1, ← pow_two, ← pow_mul]
      conv_rhs => rw [← hsplit, pow_add]
      by_cases hodd : exponent % 2 = 0
      · simp [hodd]
      · have hone : exponent % 2 = 1 := by omega
        rw [if_pos hodd, (residue_multiply result value).1, hone]
        ring

@[simp] theorem residue_one : residue 1 = 1 := by
  simp [residue]

theorem residue_power (value : UInt64) (exponent : Nat) :
    residue (power value exponent) = residue value ^ exponent := by
  rw [power, residue_powerFrom, residue_one, one_mul]

/-! ### Roots of unity -/

theorem generator_half : residue generator ^ ((prime - 1) / 2) = -1 := by
  have hgenerator : residue generator = 7 := by
    simp [residue, generator]
  rw [hgenerator]
  unfold prime
  reduce_mod_char

theorem generator_inverse : residue generator * residue (power generator (modulus.toNat - 2)) = 1 ∧
    residue (power generator (modulus.toNat - 2)) ^ ((prime - 1) / 2) = -1 := by
  rw [residue_power, modulus_toNat]
  refine ⟨?_, ?_⟩
  · rw [← pow_succ']
    have hexponent : prime - 2 + 1 = (prime - 1) / 2 * 2 := by decide
    rw [hexponent, pow_mul, generator_half, neg_one_sq]
  · rw [← pow_mul, Nat.mul_comm, pow_mul, generator_half]
    exact Odd.neg_one_pow (by decide)

theorem root_half {base : ZMod prime} (hbase : base ^ ((prime - 1) / 2) = -1) {bits : Nat}
    (hbits : bits < 32) : (base ^ ((prime - 1) / 2 ^ (bits + 1))) ^ 2 ^ bits = -1 := by
  rw [← pow_mul]
  have hdvd : 2 ^ (bits + 1) ∣ prime - 1 :=
    (Nat.pow_dvd_pow 2 hbits).trans (by decide)
  obtain ⟨k, hk⟩ := hdvd
  have hexponent : (prime - 1) / 2 ^ (bits + 1) * 2 ^ bits = (prime - 1) / 2 := by
    rw [hk, Nat.mul_div_cancel_left _ (Nat.two_pow_pos _), pow_succ, Nat.mul_comm (2 ^ bits),
      Nat.mul_assoc, Nat.mul_div_cancel_left _ (by decide), Nat.mul_comm]
  rw [hexponent, hbase]

theorem root_square (base : ZMod prime) {bits : Nat} (hbits : bits < 32) :
    (base ^ ((prime - 1) / 2 ^ (bits + 1))) ^ 2 = base ^ ((prime - 1) / 2 ^ bits) := by
  rw [← pow_mul]
  have hdvd : 2 ^ (bits + 1) ∣ prime - 1 :=
    (Nat.pow_dvd_pow 2 hbits).trans (by decide)
  obtain ⟨k, hk⟩ := hdvd
  congr 1
  rw [hk, Nat.mul_div_cancel_left _ (Nat.two_pow_pos _), pow_succ, Nat.mul_assoc,
    Nat.mul_div_cancel_left _ (Nat.two_pow_pos _), Nat.mul_comm]

theorem root_primitive {base : ZMod prime} (hbase : base ^ ((prime - 1) / 2) = -1) {bits : Nat}
    (hbits : bits ≤ 32) : IsPrimitiveRoot (base ^ ((prime - 1) / 2 ^ bits)) (2 ^ bits) := by
  cases bits with
  | zero =>
    have hexponent : prime - 1 = (prime - 1) / 2 * 2 := by decide
    rw [pow_zero, Nat.div_one, hexponent, pow_mul, hbase, neg_one_sq]
    exact IsPrimitiveRoot.one
  | succ bits =>
    have hhalf := root_half hbase hbits
    generalize base ^ ((prime - 1) / 2 ^ (bits + 1)) = root at hhalf ⊢
    have horder : orderOf root = 2 ^ (bits + 1) := by
      apply orderOf_eq_prime_pow
      · rw [hhalf]
        decide
      · rw [pow_succ, pow_mul, hhalf, neg_one_sq]
    rw [← horder]
    exact IsPrimitiveRoot.orderOf root

end Purrdf.BigInteger.Ntt
