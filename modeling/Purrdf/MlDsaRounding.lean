import Mathlib
import Purrdf.HintEncoding
import Purrdf.LatticeProduct

/-!
# Rounding

A reduced coefficient is cut into high and low bits, around powers of two for the public key and
around multiples of `2 γ₂` for a signature. A hint of one bit tells which multiple was meant when
a small number is added later.
-/

namespace Purrdf.MlDsa

open Purrdf.Lattice

def q : Int := 8380417

def gamma1 : Int := 524288

def gamma2 : Int := (q - 1) / 32

def beta : Int := 196

/-- A shift to the left drops the bits that leave the word. -/
def shl (value : Int) (amount : Nat) : Int :=
  Int.bmod (value * 2 ^ amount) (2 ^ 32)

def powerRound (value : Int) : Option (Int × Int) := do
  let sum ← i32 (value + 4096)
  let sum ← i32 (sum - 1)
  let high := sum >>> (13 : Nat)
  let low ← i32 (value - shl high 13)
  return (high, low)

/-- The last multiple wraps to the first one, without a branch. -/
def decompose (value : Int) : Option (Int × Int) := do
  let sum ← i32 (value + gamma2)
  let sum ← i32 (sum - 1)
  let double ← i32 (2 * gamma2)
  let high := sum.tdiv double
  let product ← i32 (high * double)
  let low ← i32 (value - product)
  let low ← i32 (low - high >>> (4 : Nat))
  return (Int.land high 15, low)

def useHint (hint value : Int) : Option Int := do
  let (high, low) ← decompose value
  let direction := 2 * (if 0 < low then 1 else 0) - 1
  let step ← i32 (hint * direction)
  let sum ← i32 (high + step)
  return Int.land sum 15

/-! ### What the parts are -/

/-- The multiple of `2 γ₂` a reduced coefficient is next to. -/
def highBits (value : Int) : Int :=
  (value + 261887) / 523776 % 16

def lowBits (value : Int) : Int :=
  if (value + 261887) / 523776 = 16 then value - q else value - (value + 261887) / 523776 * 523776

theorem gamma2_eq : gamma2 = 261888 := by
  decide

theorem land_fifteen : ∀ value ∈ Finset.Icc (-1 : Int) 16, Int.land value 15 = value % 16 := by
  decide +kernel

theorem shiftRight_four {value : Int} : value >>> (4 : Nat) = value / 16 := by
  rw [Int.shiftRight_eq_div_pow]
  rfl

theorem inRange_iff {value : Int} : InRange dsa value ↔ 0 ≤ value ∧ value < 8380417 :=
  Iff.rfl

theorem decompose_eq {value : Int} (hvalue : InRange dsa value) :
    decompose value = some (highBits value, lowBits value) := by
  obtain ⟨hlow, hhigh⟩ := inRange_iff.mp hvalue
  have hquotient : 0 ≤ (value + 261887) / 523776 ∧ (value + 261887) / 523776 ≤ 16 := by omega
  have hland : Int.land ((value + 261887) / 523776) 15 = (value + 261887) / 523776 % 16 :=
    land_fifteen _ (Finset.mem_Icc.mpr ⟨by omega, hquotient.2⟩)
  have hdiv : (value + 261888 - 1).tdiv 523776 = (value + 261887) / 523776 := by
    rw [Int.tdiv_eq_ediv_of_nonneg (by omega)]
    congr 1
    omega
  simp only [decompose, gamma2_eq, i32_eq (value + 261888) (by omega) (by omega),
    i32_eq (value + 261888 - 1) (by omega) (by omega), i32_eq 523776 (by decide) (by decide),
    Option.bind_eq_bind, Option.bind_some, Int.reduceMul, hdiv, hland, shiftRight_four]
  rw [i32_eq _ (by omega) (by omega), Option.bind_some, i32_eq _ (by omega) (by omega),
    Option.bind_some, i32_eq _ (by omega) (by omega), Option.bind_some, highBits, lowBits]
  split
  · next hlast =>
    rw [hlast]
    simp only [Option.pure_def, Option.some.injEq, Prod.mk.injEq, true_and, q]
    omega
  · simp only [Option.pure_def, Option.some.injEq, Prod.mk.injEq, true_and]
    omega

theorem powerRound_eq {value : Int} (hvalue : InRange dsa value) :
    powerRound value = some ((value + 4095) / 8192, value - (value + 4095) / 8192 * 8192) := by
  obtain ⟨hlow, hhigh⟩ := inRange_iff.mp hvalue
  have hshift : (value + 4096 - 1) >>> (13 : Nat) = (value + 4095) / 8192 := by
    rw [Int.shiftRight_eq_div_pow]
    change (value + 4096 - 1) / 8192 = _
    congr 1
    omega
  have hshl : shl ((value + 4095) / 8192) 13 = (value + 4095) / 8192 * 8192 := by
    unfold shl
    rw [Int.bmod_eq_of_le_mul_two] <;> omega
  simp only [powerRound, i32_eq (value + 4096) (by omega) (by omega),
    i32_eq (value + 4096 - 1) (by omega) (by omega), Option.bind_eq_bind, Option.bind_some, hshift,
    hshl]
  rw [i32_eq _ (by omega) (by omega)]
  rfl

theorem highBits_range (value : Int) : 0 ≤ highBits value ∧ highBits value < 16 := by
  unfold highBits
  omega

theorem useHint_eq {hint value : Int} (hhint : hint = 0 ∨ hint = 1) (hvalue : InRange dsa value) :
    useHint hint value =
      some ((highBits value + hint * (if 0 < lowBits value then 1 else -1)) % 16) := by
  obtain ⟨hlow, hhigh⟩ := highBits_range value
  have hland : ∀ sum, -1 ≤ sum → sum ≤ 16 → Int.land sum 15 = sum % 16 := fun sum hlow hhigh =>
    land_fifteen _ (Finset.mem_Icc.mpr ⟨hlow, hhigh⟩)
  rw [useHint, decompose_eq hvalue]
  simp only [Option.bind_eq_bind, Option.bind_some]
  rcases hhint with rfl | rfl
  · split
    · rw [i32_eq _ (by omega) (by omega), Option.bind_some, i32_eq _ (by omega) (by omega),
        Option.bind_some, hland _ (by omega) (by omega)]
      rfl
    · rw [i32_eq _ (by omega) (by omega), Option.bind_some, i32_eq _ (by omega) (by omega),
        Option.bind_some, hland _ (by omega) (by omega)]
      rfl
  · split
    · rw [i32_eq _ (by omega) (by omega), Option.bind_some, i32_eq _ (by omega) (by omega),
        Option.bind_some, hland _ (by omega) (by omega)]
      rfl
    · rw [i32_eq _ (by omega) (by omega), Option.bind_some, i32_eq _ (by omega) (by omega),
        Option.bind_some, hland _ (by omega) (by omega)]
      rfl

/-! ### Small changes -/

theorem sum_cases {value other change : Int} (hvalue : InRange dsa value)
    (hsum : other = (value + change) % q) (hchange : |change| ≤ gamma2) :
    other = value + change + 8380417 ∨ other = value + change ∨
      other = value + change - 8380417 := by
  obtain ⟨hlow, hhigh⟩ := inRange_iff.mp hvalue
  rw [abs_le, gamma2_eq] at hchange
  have hmod : (value + change) % q = value + change - 8380417 * ((value + change) / 8380417) :=
    Int.emod_def _ _
  have hturns : (value + change) / 8380417 = -1 ∨ (value + change) / 8380417 = 0 ∨
      (value + change) / 8380417 = 1 := by omega
  rw [hsum, hmod]
  rcases hturns with hturn | hturn | hturn <;> rw [hturn] <;> omega

theorem highBits_of_room {value other change : Int} (hvalue : InRange dsa value)
    (hother : InRange dsa other) (hsum : other = (value + change) % q)
    (hchange : |change| ≤ beta) (hroom : |lowBits value| < gamma2 - beta) :
    highBits other = highBits value := by
  obtain ⟨hlow, hhigh⟩ := inRange_iff.mp hvalue
  obtain ⟨hlow', hhigh'⟩ := inRange_iff.mp hother
  have hcases := sum_cases hvalue hsum (hchange.trans (by decide))
  rw [abs_le] at hchange
  rw [abs_lt, gamma2_eq] at hroom
  unfold highBits lowBits q beta at *
  rcases hcases with rfl | rfl | rfl <;> split at hroom <;> omega

theorem useHint_of_change {value other change : Int} (hvalue : InRange dsa value)
    (hother : InRange dsa other) (hsum : other = (value + change) % q) (hchange : |change| ≤ gamma2) :
    useHint (if highBits other ≠ highBits value then 1 else 0) other = some (highBits value) := by
  obtain ⟨hlow, hhigh⟩ := inRange_iff.mp hvalue
  obtain ⟨hlow', hhigh'⟩ := inRange_iff.mp hother
  have hcases := sum_cases hvalue hsum hchange
  rw [abs_le, gamma2_eq] at hchange
  rw [useHint_eq (by split <;> simp) hother]
  congr 1
  unfold highBits lowBits q
  rcases hcases with rfl | rfl | rfl <;> split <;> split <;> omega

theorem rounding_laws {value : Int} (hvalue : InRange dsa value) :
    (∃ high low, powerRound value = some (high, low) ∧ 0 ≤ high ∧ high < 1024 ∧ -4095 ≤ low ∧
      low ≤ 4096 ∧ value = high * 8192 + low) ∧
    ∃ high low, decompose value = some (high, low) ∧ 0 ≤ high ∧ high < 16 ∧ |low| ≤ gamma2 ∧
      value = (high * (2 * gamma2) + low) % q ∧
      ∀ change other other' : Int, other = (value + change) % q → |change| ≤ gamma2 →
        ∀ high', decompose other = some (high', other') →
          useHint (if high' ≠ high then 1 else 0) other = some high ∧
          (|change| ≤ beta → |low| < gamma2 - beta → high' = high) := by
  obtain ⟨hlow, hhigh⟩ := inRange_iff.mp hvalue
  refine ⟨⟨_, _, powerRound_eq hvalue, by omega, by omega, by omega, by omega, by omega⟩, _, _,
    decompose_eq hvalue, (highBits_range value).1, (highBits_range value).2, ?_, ?_, ?_⟩
  · rw [abs_le, gamma2_eq]
    unfold lowBits q
    split <;> omega
  · rw [gamma2_eq]
    unfold highBits lowBits q
    split
    · omega
    · rw [Int.emod_eq_of_lt (a := (value + 261887) / 523776) (by omega) (by omega)]
      omega
  · intro change other other' hsum hchange high' hother'
    have hother : InRange dsa other := by
      rw [hsum, inRange_iff]
      exact ⟨Int.emod_nonneg _ (by decide), Int.emod_lt_of_pos _ (by decide)⟩
    have hsame : (highBits other, lowBits other) = (high', other') :=
      Option.some.inj ((decompose_eq hother).symm.trans hother')
    obtain ⟨rfl, rfl⟩ := Prod.mk.inj hsame
    exact ⟨useHint_of_change hvalue hother hsum hchange,
      fun hsmall hroom => highBits_of_room hvalue hother hsum hsmall hroom⟩

theorem rounding_laws_last : InRange dsa 8380416 ∧
    ∃ high low, powerRound 8380416 = some (high, low) ∧ 0 ≤ high ∧ high < 1024 ∧ -4095 ≤ low ∧
      low ≤ 4096 ∧ 8380416 = high * 8192 + low := by
  have hlast : InRange dsa 8380416 := inRange_iff.mpr (by decide)
  exact ⟨hlast, (rounding_laws hlast).1⟩

end Purrdf.MlDsa
