import Purrdf.MagnitudeShifts

/-!
# Big integers

A sign and a canonical magnitude. The operations here are those on which products and quotients
are built; each is exact.
-/

namespace Purrdf.BigInteger

open Limbs

structure BigInt where
  negative : Bool
  magnitude : Mag
  trimmed : Trimmed magnitude
  signed : negative = true → magnitude ≠ []
deriving DecidableEq

namespace BigInt

def signedValue (negative : Bool) (magnitude : Mag) : Int :=
  if negative then -value magnitude else value magnitude

def toInt (n : BigInt) : Int :=
  signedValue n.negative n.magnitude

def limbLen (n : BigInt) : Nat :=
  n.magnitude.length

def zero : BigInt :=
  ⟨false, [], trimmed_nil, by simp⟩

def fromParts (negative : Bool) (magnitude : Mag) : BigInt :=
  ⟨negative && !(magTrim magnitude).isEmpty, magTrim magnitude, trimmed_trim magnitude, by simp⟩

def withSign (n : BigInt) (negative : Bool) : BigInt :=
  ⟨negative && !n.magnitude.isEmpty, n.magnitude, n.trimmed, by simp⟩

def abs (n : BigInt) : BigInt :=
  n.withSign false

def isZero (n : BigInt) : Bool :=
  n.magnitude.isEmpty

def fromU64 (v : UInt64) : BigInt :=
  fromParts false (magFromU64 v)

def combine (n other : BigInt) (otherNegative : Bool) : BigInt :=
  if n.negative = otherNegative then fromParts n.negative (magAdd n.magnitude other.magnitude)
  else
    match magCmp n.magnitude other.magnitude with
    | .eq => zero
    | .gt => fromParts n.negative (magSub n.magnitude other.magnitude)
    | .lt => fromParts otherNegative (magSub other.magnitude n.magnitude)

def add (n other : BigInt) : BigInt :=
  n.combine other other.negative

def sub (n other : BigInt) : BigInt :=
  n.combine other (!other.negative)

def mul (n other : BigInt) : Option BigInt :=
  (magMul n.magnitude other.magnitude).map (fromParts (n.negative != other.negative))

def shl (n : BigInt) (bits : Nat) : Option BigInt :=
  (magShl n.magnitude bits).map (fromParts n.negative)

def shr (n : BigInt) (bits : Nat) : Option BigInt :=
  (magShr n.magnitude bits).map (fromParts n.negative)

/-! ### Signs -/

@[simp] theorem signedValue_false (magnitude : Mag) :
    signedValue false magnitude = value magnitude :=
  rfl

@[simp] theorem signedValue_true (magnitude : Mag) :
    signedValue true magnitude = -value magnitude :=
  rfl

@[simp] theorem signedValue_nil (negative : Bool) : signedValue negative [] = 0 := by
  cases negative <;> rfl

theorem signedValue_not (negative : Bool) (magnitude : Mag) :
    signedValue (!negative) magnitude = -signedValue negative magnitude := by
  cases negative <;> simp

theorem natAbs_signedValue (negative : Bool) (magnitude : Mag) :
    (signedValue negative magnitude).natAbs = value magnitude := by
  cases negative <;> simp

@[simp] theorem natAbs_toInt (n : BigInt) : n.toInt.natAbs = value n.magnitude :=
  natAbs_signedValue n.negative n.magnitude

@[simp] theorem toInt_zero : zero.toInt = 0 :=
  rfl

theorem toInt_of_nonneg {n : BigInt} (hn : n.negative = false) : n.toInt = value n.magnitude := by
  simp [toInt, hn]

@[simp] theorem toInt_fromParts (negative : Bool) (magnitude : Mag) :
    (fromParts negative magnitude).toInt = signedValue negative magnitude := by
  unfold toInt fromParts
  by_cases hempty : magTrim magnitude = []
  · have hvalue : value magnitude = 0 := by
      rw [← value_trim, ← magTrim, hempty]
      rfl
    cases negative <;> simp [hempty, signedValue, hvalue]
  · have hsome : (magTrim magnitude).isEmpty = false := by simpa using hempty
    simp only [hsome, Bool.not_false, Bool.and_true]
    cases negative <;> simp

@[simp] theorem fromParts_magnitude (negative : Bool) (magnitude : Mag) :
    value (fromParts negative magnitude).magnitude = value magnitude :=
  value_trim magnitude

@[simp] theorem fromParts_false_negative (magnitude : Mag) :
    (fromParts false magnitude).negative = false :=
  rfl

theorem fromParts_limbLen_le (negative : Bool) (magnitude : Mag) :
    (fromParts negative magnitude).limbLen ≤ magnitude.length :=
  length_trim_le magnitude

theorem toInt_injective {n other : BigInt} (hsame : n.toInt = other.toInt) : n = other := by
  have habs := congrArg Int.natAbs hsame
  rw [natAbs_toInt, natAbs_toInt] at habs
  have hmagnitude := n.trimmed.eq_of_value other.trimmed habs
  have hnegative : n.negative = other.negative := by
    by_contra hdiffer
    have hzero : value n.magnitude = 0 := by
      unfold toInt at hsame
      rw [hmagnitude] at hsame ⊢
      cases hn : n.negative <;> cases ho : other.negative <;> simp [hn, ho] at hsame hdiffer <;>
        omega
    have hempty := n.trimmed.value_eq_zero_iff.mp hzero
    cases hn : n.negative with
    | true => exact n.signed hn hempty
    | false =>
      have hother : other.negative = true := by
        cases ho : other.negative with
        | true => rfl
        | false => exact absurd (hn.trans ho.symm) hdiffer
      exact other.signed hother (hmagnitude ▸ hempty)
  cases n
  cases other
  subst hmagnitude hnegative
  rfl

theorem limbLen_le_iff (n : BigInt) (length : Nat) :
    n.limbLen ≤ length ↔ n.toInt.natAbs < radix ^ length := by
  rw [natAbs_toInt]
  exact n.trimmed.length_le_iff length

/-! ### Exactness -/

theorem toInt_withSign (n : BigInt) (negative : Bool) :
    (n.withSign negative).toInt = signedValue negative n.magnitude := by
  unfold toInt withSign
  by_cases hempty : n.magnitude = []
  · simp [hempty]
  · have hsome : n.magnitude.isEmpty = false := by simpa using hempty
    simp only [hsome, Bool.not_false, Bool.and_true]

@[simp] theorem abs_magnitude (n : BigInt) : n.abs.magnitude = n.magnitude :=
  rfl

theorem isZero_iff (n : BigInt) : n.isZero = true ↔ n.toInt = 0 := by
  rw [isZero, List.isEmpty_iff, ← n.trimmed.value_eq_zero_iff, ← natAbs_toInt, Int.natAbs_eq_zero]

theorem toInt_combine (n other : BigInt) (otherNegative : Bool) :
    (n.combine other otherNegative).toInt =
      n.toInt + signedValue otherNegative other.magnitude := by
  unfold combine
  by_cases hsign : n.negative = otherNegative
  · rw [if_pos hsign, toInt_fromParts, toInt, ← hsign]
    cases n.negative
    · simp [magAdd_value]
    · simp [magAdd_value]
      ring
  · rw [if_neg hsign]
    have hflip : n.negative = !otherNegative := by
      cases hn : n.negative <;> cases ho : otherNegative <;> simp_all
    rw [magCmp_eq n.trimmed other.trimmed]
    rcases Nat.lt_trichotomy (value n.magnitude) (value other.magnitude) with hlt | heq | hgt
    · have hlength := n.trimmed.length_le_of_value_le hlt.le
      have hvalue := magSubInPlace_value hlength hlt.le
      rw [compare_lt_iff_lt.mpr hlt]
      simp only [toInt_fromParts]
      rw [toInt, hflip]
      cases otherNegative <;> simp [signedValue, magSub, hvalue] <;> omega
    · rw [compare_eq_iff_eq.mpr heq]
      simp only [toInt_zero]
      rw [toInt, hflip]
      cases otherNegative <;> simp [signedValue, heq]
    · have hlength := other.trimmed.length_le_of_value_le hgt.le
      have hvalue := magSubInPlace_value hlength hgt.le
      rw [compare_gt_iff_gt.mpr hgt]
      simp only [toInt_fromParts]
      rw [toInt, hflip]
      cases otherNegative <;> simp [signedValue, magSub, hvalue] <;> omega

theorem toInt_add (n other : BigInt) : (n.add other).toInt = n.toInt + other.toInt :=
  toInt_combine n other other.negative

theorem toInt_sub (n other : BigInt) : (n.sub other).toInt = n.toInt - other.toInt := by
  rw [sub, toInt_combine, signedValue_not, ← toInt]
  ring

theorem mul_spec (n other : BigInt) :
    ∃ product, n.mul other = some product ∧ product.toInt = n.toInt * other.toInt := by
  obtain ⟨product, hproduct, _, hvalue⟩ := magMul_value n.magnitude other.magnitude
  refine ⟨_, by rw [mul, hproduct]; rfl, ?_⟩
  rw [toInt_fromParts, toInt, toInt]
  cases n.negative <;> cases other.negative <;> simp [hvalue]

theorem shl_spec (n : BigInt) (bits : Nat) :
    ∃ shifted, n.shl bits = some shifted ∧ shifted.toInt = n.toInt * 2 ^ bits := by
  obtain ⟨shifted, hshifted, _, hvalue⟩ := magShl_spec n.trimmed bits
  refine ⟨_, by rw [shl, hshifted]; rfl, ?_⟩
  rw [toInt_fromParts, toInt]
  cases n.negative <;> simp [hvalue]

theorem shr_spec (n : BigInt) (bits : Nat) :
    ∃ shifted, n.shr bits = some shifted ∧ shifted.toInt = n.toInt.tdiv (2 ^ bits) := by
  obtain ⟨shifted, hshifted, _, hvalue⟩ := magShr_spec n.trimmed bits
  refine ⟨_, by rw [shr, hshifted]; rfl, ?_⟩
  rw [toInt_fromParts, toInt]
  cases n.negative <;> simp [hvalue, Int.neg_tdiv, Int.tdiv_eq_ediv_of_nonneg]

/-- Sums, differences, products and shifts of integers of any length are exact, and an integer
has one representation. -/
theorem arithmetic_exact (n other : BigInt) (bits : Nat) :
    (n.add other).toInt = n.toInt + other.toInt ∧ (n.sub other).toInt = n.toInt - other.toInt ∧
    (∃ product, n.mul other = some product ∧ product.toInt = n.toInt * other.toInt) ∧
    (∃ shifted, n.shl bits = some shifted ∧ shifted.toInt = n.toInt * 2 ^ bits) ∧
    (∃ shifted, n.shr bits = some shifted ∧ shifted.toInt = n.toInt.tdiv (2 ^ bits)) ∧
    (n.toInt = other.toInt ↔ n = other) :=
  ⟨toInt_add n other, toInt_sub n other, mul_spec n other, shl_spec n bits, shr_spec n bits,
    toInt_injective, congrArg toInt⟩

end BigInt

end Purrdf.BigInteger

/-!
## Division

Quotient digits are estimated from the two highest limbs, corrected against the third, and
corrected once more after the subtraction. A failure is an index outside its slice, a broken
assertion, a digit taken below zero or a third correction.
-/

namespace Purrdf.BigInteger

open Limbs

/-! ### Normalized division -/

/-- How often an estimate may be reduced before the subtraction. -/
def correctionLimit : Nat := 2

/-- Reduce an estimate as long as the next limb shows that it is too large. -/
def correctDigit (top next low : Nat) : Nat → Nat → Nat → Option Nat
  | 0, digit, remainder =>
    if remainder < radix ∧ remainder * radix + low < digit * next then none else some digit
  | turns + 1, digit, remainder =>
    if remainder < radix ∧ remainder * radix + low < digit * next then
      if digit = 0 then none
      else correctDigit top next low turns (digit - 1) (remainder + top)
    else some digit

def estimateDigit (top high middle : Nat) : Nat × Nat :=
  if high = top then (radix - 1, middle + top)
  else ((high * radix + middle) / top, (high * radix + middle) % top)

def mulSubFrom (digit : UInt64) : Nat → Mag → Mag → Mag × Nat
  | carry, limb :: window, divisor :: v =>
    let product := digit.toNat * divisor.toNat + carry
    let borrowed := limb < UInt64.ofNat product
    let rest := mulSubFrom digit (product / radix + if borrowed then 1 else 0) window v
    ((limb - UInt64.ofNat product) :: rest.1, rest.2)
  | carry, window, _ => (window, carry)

def addBackFrom : Nat → Mag → Mag → Mag × Nat
  | carry, limb :: window, divisor :: v =>
    let sum := limb.toNat + divisor.toNat + carry
    let rest := addBackFrom (sum / radix) window v
    (UInt64.ofNat sum :: rest.1, rest.2)
  | carry, window, _ => (window, carry)

/-- The digit that is subtracted at some position, from the limbs it is estimated from. -/
def trialDigit (v u : Mag) (j : Nat) : Option Nat :=
  v[v.length - 1]?.bind fun top =>
    v[v.length - 2]?.bind fun next =>
      u[j + v.length]?.bind fun high =>
        u[j + v.length - 1]?.bind fun middle =>
          u[j + v.length - 2]?.bind fun low =>
            if top < high then none
            else
              let estimate := estimateDigit top.toNat high.toNat middle.toNat
              correctDigit top.toNat next.toNat low.toNat correctionLimit estimate.1 estimate.2

def divideStep (v : Mag) (j : Nat) (u : Mag) : Option (UInt64 × Mag) :=
  (trialDigit v u j).bind fun digit =>
    u[j + v.length]?.bind fun high =>
      let subtracted := mulSubFrom (UInt64.ofNat digit) 0 ((u.drop j).take v.length) v
      let rest := u.drop (j + v.length + 1)
      let guardLimb := high - UInt64.ofNat subtracted.2
      if high.toNat < subtracted.2 then
        if digit = 0 then none
        else
          let added := addBackFrom 0 subtracted.1 v
          some (UInt64.ofNat (digit - 1),
            u.take j ++ added.1 ++ (guardLimb + UInt64.ofNat added.2) :: rest)
      else some (UInt64.ofNat digit, u.take j ++ subtracted.1 ++ guardLimb :: rest)

/-- The digits below some position, from the highest one down. -/
def divideFrom (v : Mag) : Nat → Mag → Option (Mag × Mag)
  | 0, u => some ([], u)
  | j + 1, u =>
    (divideStep v j u).bind fun step =>
      (divideFrom v j step.2).map fun divided => (divided.1 ++ [step.1], divided.2)

def divideNormalized (u v : Mag) (quotientLength : Nat) : Option (Mag × Mag) :=
  if v.length < 2 ∨ ((v[v.length - 1]?).getD 0) >>> 63 ≠ 1 ∨
      u.length ≠ v.length + quotientLength then none
  else divideFrom v quotientLength u

/-! ### Routes -/

def divisionBlockThreshold : Nat := 2048

def useBlockDivision (numerator divisor : Nat) : Bool :=
  divisionBlockThreshold ≤ divisor && divisor ≤ numerator - divisor + 1

def divideShifted (a b : Mag) (shift quotientLength : Nat) (numerator divisor : Mag) :
    Option (Mag × Mag) :=
  (writeShl a shift numerator).bind fun numerator =>
    (writeShl b shift divisor).bind fun divisor =>
      (divideNormalized numerator divisor quotientLength).bind fun divided =>
        (magShrInPlace (magTrim (divided.2.take b.length)) shift).map fun remainder =>
          (magTrim divided.1, remainder)

def sliceTo (words : Mag) (n : Nat) : Option Mag :=
  if n ≤ words.length then some (words.take n) else none

def divideByPower (a : Mag) (power : Nat) : Option (Mag × Mag) :=
  let whole := power / 64
  let partialBits := power % 64
  let remainder := a.take (whole + if partialBits ≠ 0 then 1 else 0)
  let mask := (1 : UInt64) <<< UInt64.ofNat partialBits - 1
  let remainder :=
    if partialBits ≠ 0 ∧ whole < remainder.length then remainder.modify whole (· &&& mask)
    else remainder
  (magShr a power).map fun quotient => (quotient, magTrim remainder)

/-- Normalized division, for operands that are neither small nor a power of two. -/
def divideLimbs (blocks : Mag → Mag → Option (Mag × Mag)) (a b : Mag) : Option (Mag × Mag) :=
  let shift := leadingZeros ((b[b.length - 1]?).getD 0)
  let quotientLength := a.length - b.length + 1
  if a.length ≤ 8 then
    (sliceTo (List.replicate 9 0) (a.length + 1)).bind fun numerator =>
      (sliceTo (List.replicate 8 0) b.length).bind fun divisor =>
        (sliceTo (List.replicate 8 0) quotientLength).bind fun digits =>
          divideShifted a b shift digits.length numerator divisor
  else if useBlockDivision a.length b.length then blocks a b
  else
    divideShifted a b shift quotientLength (List.replicate (a.length + 1) 0)
      (List.replicate b.length 0)

/-- Division of magnitudes. The block route is a parameter, since its own products divide too. -/
def magDivRemBy (blocks : Mag → Mag → Option (Mag × Mag)) (a b : Mag) : Option (Mag × Mag) :=
  if magCmp a b = .lt then some ([], a)
  else
    match b with
    | [] => none
    | [divisor] => (magDivmodSmall a divisor).map fun divided => (divided.1, magFromU64 divided.2)
    | _ =>
      match magToU128 a, magToU128 b with
      | some x, some y => some (magFromU128 (x / y), magFromU128 (x % y))
      | _, _ =>
        if magTrailingZeros b + 1 = magBitLen b then divideByPower a (magTrailingZeros b)
        else divideLimbs blocks a b

/-- The quotient and the remainder, or nothing for a zero divisor. -/
def BigInt.divRemBy (blocks : Mag → Mag → Option (Mag × Mag)) (n other : BigInt) :
    Option (Option (BigInt × BigInt)) :=
  if other.isZero then some none
  else
    (magDivRemBy blocks n.magnitude other.magnitude).map fun divided =>
      some (BigInt.fromParts (n.negative != other.negative) divided.1,
        BigInt.fromParts n.negative divided.2)

end Purrdf.BigInteger
