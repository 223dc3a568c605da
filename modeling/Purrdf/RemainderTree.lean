import Mathlib.Algebra.Polynomial.BigOperators
import Mathlib.Algebra.Polynomial.Monic
import Mathlib.Tactic.LinearCombination

/-!
# Remainder trees

A polynomial known modulo `X ^ (2 w) - z ^ 2` is known modulo `X ^ w - z` and `X ^ w + z`, by one
butterfly on the coefficients of the remainder, and the other way round up to the factor two.
-/

namespace Purrdf.RemainderTree

open Polynomial

variable {R : Type} [CommRing R]

noncomputable def block (v : Nat → R) (start width : Nat) : R[X] :=
  ∑ t ∈ Finset.range width, C (v (start + t)) * X ^ t

/-- A stretch holds what is left of a polynomial modulo `X ^ width - c`. -/
def Leaves (p : R[X]) (v : Nat → R) (start width : Nat) (c : R) : Prop :=
  X ^ width - C c ∣ p - block v start width

theorem block_congr {v v' : Nat → R} {start start' width : Nat}
    (hsame : ∀ t < width, v' (start' + t) = v (start + t)) :
    block v' start' width = block v start width := by
  apply Finset.sum_congr rfl
  intro t ht
  rw [hsame t (Finset.mem_range.mp ht)]

theorem block_add (v : Nat → R) (start low high : Nat) :
    block v start (low + high) = block v start low + X ^ low * block v (start + low) high := by
  unfold block
  rw [Finset.sum_range_add, Finset.mul_sum]
  congr 1
  apply Finset.sum_congr rfl
  intro t _
  rw [Nat.add_assoc, pow_add]
  ring

theorem block_smul (k : R) (v : Nat → R) (start width : Nat) :
    block (fun i => k * v i) start width = C k * block v start width := by
  unfold block
  rw [Finset.mul_sum]
  apply Finset.sum_congr rfl
  intro t _
  rw [C_mul, mul_assoc]

theorem block_linear (k : R) (u v : Nat → R) (start start' width : Nat) :
    block (fun t => u (start + t) + k * v (start' + t)) 0 width =
      block u start width + C k * block v start' width := by
  unfold block
  rw [Finset.mul_sum, ← Finset.sum_add_distrib]
  apply Finset.sum_congr rfl
  intro t _
  simp only [Nat.zero_add, C_add, C_mul]
  ring

theorem coeff_block (v : Nat → R) {width k : Nat} (hk : k < width) :
    (block v 0 width).coeff k = v k := by
  simp [block, coeff_C_mul, coeff_X_pow, hk]

theorem degree_block_lt (v : Nat → R) (start width : Nat) :
    (block v start width).degree < width := by
  apply lt_of_le_of_lt (degree_sum_le _ _)
  apply (Finset.sup_lt_iff (WithBot.bot_lt_coe width)).mpr
  intro t ht
  exact lt_of_le_of_lt (degree_C_mul_X_pow_le t _)
    (WithBot.coe_lt_coe.mpr (Finset.mem_range.mp ht))

/-! ### Butterflies -/

section
variable {p q : R[X]} {u v v' : Nat → R} {start width : Nat} {c z : R}

theorem Leaves.refl (v : Nat → R) (start width : Nat) (c : R) :
    Leaves (block v start width) v start width c := by
  unfold Leaves
  rw [sub_self]
  exact dvd_zero _

theorem Leaves.congr (hleaves : Leaves p v start width c)
    (hsame : ∀ t < width, v' (start + t) = v (start + t)) : Leaves p v' start width c := by
  unfold Leaves at hleaves ⊢
  rwa [block_congr hsame]

theorem Leaves.split (hleaves : Leaves p v start (width + width) (z * z))
    (hlow : ∀ t < width, v' (start + t) = v (start + t) + z * v (start + width + t))
    (hhigh : ∀ t < width, v' (start + width + t) = v (start + t) - z * v (start + width + t)) :
    Leaves p v' start width z ∧ Leaves p v' (start + width) width (-z) := by
  obtain ⟨quotient, hquotient⟩ := hleaves
  rw [block_add, pow_add, C_mul] at hquotient
  have hlower : block v' start width =
      block v start width + C z * block v (start + width) width := by
    rw [← block_linear]
    exact block_congr fun t ht => by rw [Nat.zero_add, hlow t ht]
  have hupper : block v' (start + width) width =
      block v start width + C (-z) * block v (start + width) width := by
    rw [← block_linear]
    exact block_congr fun t ht => by rw [Nat.zero_add, hhigh t ht, neg_mul, sub_eq_add_neg]
  constructor
  · refine ⟨(X ^ width + C z) * quotient + block v (start + width) width, ?_⟩
    rw [hlower]
    linear_combination hquotient
  · refine ⟨(X ^ width - C z) * quotient + block v (start + width) width, ?_⟩
    rw [hupper, C_neg]
    linear_combination hquotient

theorem Leaves.merge {y : R} (hy : z * y = -1) (hlow : Leaves p v start width z)
    (hhigh : Leaves p v (start + width) width (-z))
    (hsum : ∀ t < width, v' (start + t) = v (start + t) + v (start + width + t))
    (hdifference : ∀ t < width,
      v' (start + width + t) = y * (v (start + width + t) - v (start + t))) :
    Leaves (2 * p) v' start (width + width) (z * z) := by
  obtain ⟨low, hlow⟩ := hlow
  obtain ⟨high, hhigh⟩ := hhigh
  have hy' : C z * C y = (-1 : R[X]) := by rw [← C_mul, hy, C_neg, C_1]
  have hlower : block v' start width =
      block v start width + C 1 * block v (start + width) width := by
    rw [← block_linear]
    exact block_congr fun t ht => by rw [Nat.zero_add, hsum t ht, one_mul]
  have hupper : block v' (start + width) width =
      C y * (block v (start + width) width + C (-1) * block v start width) := by
    rw [← block_linear, ← block_smul]
    apply block_congr
    intro t ht
    rw [Nat.zero_add, hdifference t ht, neg_one_mul, sub_eq_add_neg]
  refine ⟨C y * (high - low), ?_⟩
  rw [block_add, hlower, hupper, pow_add, C_mul, C_1]
  rw [C_neg] at hhigh
  simp only [C_neg, C_1]
  linear_combination (-(C y) * (X ^ width + C z)) * hlow + (C y * (X ^ width - C z)) * hhigh +
    (p - block v start width) * hy' + (p - block v (start + width) width) * hy'

theorem Leaves.scale {k m : R} (hk : k * m = 1) (hleaves : Leaves (C m * p) v start width c)
    (hscaled : ∀ t < width, v' (start + t) = k * v (start + t)) : Leaves p v' start width c := by
  obtain ⟨quotient, hquotient⟩ := hleaves
  have hk' : C k * C m = (1 : R[X]) := by rw [← C_mul, hk, C_1]
  refine ⟨C k * quotient, ?_⟩
  rw [block_congr (v := fun i => k * v i) hscaled, block_smul]
  linear_combination C k * hquotient - p * hk'

/-! ### Products -/

theorem Leaves.mul_single (hp : Leaves p u start 1 c) (hq : Leaves q v start 1 c)
    (hproduct : v' start = u start * v start) : Leaves (p * q) v' start 1 c := by
  obtain ⟨left, hleft⟩ := hp
  obtain ⟨right, hright⟩ := hq
  simp only [block, Finset.sum_range_one, Nat.add_zero, pow_zero, mul_one] at hleft hright
  refine ⟨left * q + C (u start) * right, ?_⟩
  simp only [block, Finset.sum_range_one, Nat.add_zero, pow_zero, hproduct, C_mul]
  linear_combination q * hleft + C (u start) * hright

/-- Remainders modulo `X ^ 2 - c` are multiplied as pairs. -/
theorem Leaves.mul_pair (hp : Leaves p u start 2 c) (hq : Leaves q v start 2 c)
    (hlow : v' start = u start * v start + u (start + 1) * v (start + 1) * c)
    (hhigh : v' (start + 1) = u start * v (start + 1) + u (start + 1) * v start) :
    Leaves (p * q) v' start 2 c := by
  obtain ⟨left, hleft⟩ := hp
  obtain ⟨right, hright⟩ := hq
  simp only [block, Finset.sum_range_succ, Finset.sum_range_zero, zero_add, Nat.add_zero, pow_zero,
    pow_one] at hleft hright
  refine ⟨left * q + (C (u start) + C (u (start + 1)) * X) * right +
    C (u (start + 1)) * C (v (start + 1)), ?_⟩
  simp only [block, Finset.sum_range_succ, Finset.sum_range_zero, zero_add, Nat.add_zero, pow_zero,
    pow_one, hlow, hhigh, C_mul, C_add]
  linear_combination q * hleft + (C (u start) + C (u (start + 1)) * X) * hright

theorem Leaves.unique (hu : Leaves p u 0 width c) (hv : Leaves p v 0 width c) {k : Nat}
    (hk : k < width) : u k = v k := by
  nontriviality R
  have hdvd : X ^ width - C c ∣ block u 0 width - block v 0 width := by
    have hsub := dvd_sub hv hu
    rwa [sub_sub_sub_cancel_left] at hsub
  have hzero : block u 0 width - block v 0 width = 0 := by
    by_contra hne
    refine (monic_X_pow_sub_C c (Nat.ne_zero_of_lt hk)).not_dvd_of_degree_lt hne ?_ hdvd
    rw [degree_X_pow_sub_C (Nat.zero_lt_of_lt hk)]
    exact lt_of_le_of_lt (degree_sub_le _ _)
      (max_lt (degree_block_lt u 0 width) (degree_block_lt v 0 width))
  rw [← coeff_block u hk, ← coeff_block v hk, sub_eq_zero.mp hzero]

end

section
variable (c : R) (width : Nat) (a b : Nat → R)

/-- The coefficients times `X ^ i` modulo `X ^ width - c`. -/
def shifted (i k : Nat) : R :=
  if i ≤ k then b (k - i) else c * b (width + k - i)

/-- The coefficients of a product modulo `X ^ width - c`. -/
def twisted (k : Nat) : R :=
  ∑ i ∈ Finset.range width, a i * shifted c width b i k

theorem shifted_dvd {i : Nat} (hi : i ≤ width) :
    X ^ width - C c ∣ X ^ i * block b 0 width - block (shifted c width b i) 0 width := by
  obtain ⟨low, rfl⟩ := Nat.exists_eq_add_of_le' hi
  have hfirst : block (shifted c (low + i) b i) 0 i = C c * block b low i := by
    rw [← block_smul]
    apply block_congr
    intro t ht
    have hplace : low + i + (0 + t) - i = low + t := by omega
    rw [shifted, if_neg (by omega), hplace]
  have hsecond : block (shifted c (low + i) b i) (0 + i) low = block b 0 low := by
    apply block_congr
    intro t _
    have hplace : 0 + i + t - i = 0 + t := by omega
    rw [shifted, if_pos (by omega), hplace]
  refine ⟨block b low i, ?_⟩
  rw [block_add b, Nat.add_comm low i, block_add (shifted _ _ _ _), Nat.add_comm i low, hfirst,
    hsecond, Nat.zero_add, pow_add]
  ring

theorem block_twisted : block (twisted c width a b) 0 width =
    ∑ i ∈ Finset.range width, C (a i) * block (shifted c width b i) 0 width := by
  simp only [block, twisted, map_sum, Finset.sum_mul, Finset.mul_sum, Nat.zero_add]
  rw [Finset.sum_comm]
  apply Finset.sum_congr rfl
  intro i _
  apply Finset.sum_congr rfl
  intro k _
  rw [C_mul, mul_assoc]

theorem twisted_leaves :
    Leaves (block a 0 width * block b 0 width) (twisted c width a b) 0 width c := by
  have hproduct : block a 0 width * block b 0 width =
      ∑ i ∈ Finset.range width, C (a i) * (X ^ i * block b 0 width) := by
    conv_lhs => rw [block, Finset.sum_mul]
    apply Finset.sum_congr rfl
    intro i _
    rw [Nat.zero_add, mul_assoc]
  unfold Leaves
  rw [hproduct, block_twisted, ← Finset.sum_sub_distrib]
  apply Finset.dvd_sum
  intro i hi
  rw [← mul_sub]
  exact (shifted_dvd c width b (Finset.mem_range.mp hi).le).mul_left _

end

end Purrdf.RemainderTree
