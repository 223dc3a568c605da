import Mathlib.Data.List.DropRight
import Mathlib.Data.Nat.Log
import Mathlib.Data.Nat.Size
import Mathlib.Tactic.LinearCombination
import Mathlib.Tactic.Ring

/-!
# Little-endian limbs

The natural number that a list of machine words stands for. A list without a zero limb at its end
is the only such list of its number, and its length is the length of the number.
-/

namespace Purrdf.Limbs

def radix : Nat := 2 ^ 64

theorem radix_pos : 0 < radix := by
  decide

theorem one_lt_radix : 1 < radix := by
  decide

theorem limb_lt (limb : UInt64) : limb.toNat < radix :=
  limb.toNat_lt

@[simp] theorem toNat_ofNat (n : Nat) : (UInt64.ofNat n).toNat = n % radix :=
  UInt64.toNat_ofNat'

theorem toNat_ofNat_of_lt {n : Nat} (hn : n < radix) : (UInt64.ofNat n).toNat = n := by
  rw [toNat_ofNat, Nat.mod_eq_of_lt hn]

theorem pow_radix_pos (n : Nat) : 0 < radix ^ n :=
  Nat.pow_pos radix_pos

theorem radix_pow (n : Nat) : radix ^ n = 2 ^ (64 * n) := by
  rw [radix, ← Nat.pow_mul]

/-! ### Values -/

def value : List UInt64 → Nat
  | [] => 0
  | limb :: rest => limb.toNat + radix * value rest

@[simp] theorem value_nil : value [] = 0 :=
  rfl

@[simp] theorem value_cons (limb : UInt64) (rest : List UInt64) :
    value (limb :: rest) = limb.toNat + radix * value rest :=
  rfl

theorem value_append (low high : List UInt64) :
    value (low ++ high) = value low + radix ^ low.length * value high := by
  induction low with
  | nil => simp
  | cons limb low ih =>
    simp only [List.cons_append, value_cons, List.length_cons]
    linear_combination radix * ih

@[simp] theorem value_replicate_zero (n : Nat) : value (List.replicate n 0) = 0 := by
  induction n with
  | zero => rfl
  | succ n ih => simp [List.replicate_succ, ih]

theorem value_lt (limbs : List UInt64) : value limbs < radix ^ limbs.length := by
  induction limbs with
  | nil => simp
  | cons limb rest ih =>
    have hlimb := limb_lt limb
    calc value (limb :: rest) < radix + radix * value rest := by
          simpa using hlimb
      _ = radix * (value rest + 1) := by ring
      _ ≤ radix * radix ^ rest.length := Nat.mul_le_mul_left radix ih
      _ = radix ^ (limb :: rest).length := by
          rw [List.length_cons, pow_succ, Nat.mul_comm]

theorem value_split (limbs : List UInt64) (n : Nat) :
    value limbs = value (limbs.take n) + radix ^ n * value (limbs.drop n) := by
  induction limbs generalizing n with
  | nil => simp
  | cons limb rest ih =>
    cases n with
    | zero => simp
    | succ n =>
      simp only [List.take_succ_cons, List.drop_succ_cons, value_cons]
      linear_combination radix * ih n

theorem value_take_lt (limbs : List UInt64) (n : Nat) : value (limbs.take n) < radix ^ n :=
  Nat.lt_of_lt_of_le (value_lt _)
    (Nat.pow_le_pow_right radix_pos (List.length_take_le n limbs))

theorem value_drop (limbs : List UInt64) (n : Nat) :
    value (limbs.drop n) = value limbs / radix ^ n := by
  rw [value_split limbs n, Nat.add_mul_div_left _ _ (pow_radix_pos n),
    Nat.div_eq_of_lt (value_take_lt limbs n), Nat.zero_add]

theorem value_take (limbs : List UInt64) (n : Nat) :
    value (limbs.take n) = value limbs % radix ^ n := by
  rw [value_split limbs n, Nat.add_mul_mod_self_left, Nat.mod_eq_of_lt (value_take_lt limbs n)]

theorem getElem?_value (limbs : List UInt64) (n : Nat) :
    ((limbs[n]?).getD 0).toNat = value limbs / radix ^ n % radix := by
  rw [← value_drop]
  cases hrest : limbs.drop n with
  | nil =>
    have hshort := List.drop_eq_nil_iff.mp hrest
    simp [List.getElem?_eq_none hshort]
  | cons limb rest =>
    have hlimb : limbs[n]? = some limb := by
      rw [← List.head?_drop, hrest]
      rfl
    simp [hlimb, Nat.mod_eq_of_lt (limb_lt limb)]

theorem value_map_range (number n : Nat) :
    value ((List.range n).map fun position => UInt64.ofNat (number / radix ^ position)) =
      number % radix ^ n := by
  induction n generalizing number with
  | zero => simp [Nat.mod_one]
  | succ n ih =>
    rw [List.range_succ_eq_map, List.map_cons, List.map_map, value_cons]
    have hnext : ((fun position => UInt64.ofNat (number / radix ^ position)) ∘ Nat.succ) =
        fun position => UInt64.ofNat (number / radix / radix ^ position) := by
      funext position
      simp [Nat.div_div_eq_div_mul, pow_succ']
    rw [hnext, ih, toNat_ofNat, pow_zero, Nat.div_one, pow_succ', Nat.mod_mul]

def chunks (width : Nat) (words : List UInt64) : List (List UInt64) :=
  if width = 0 ∨ words = [] then []
  else words.take width :: chunks width (words.drop width)
termination_by words.length
decreasing_by
  rename_i hsome
  have hpositive : words.length ≠ 0 := fun hzero =>
    hsome (Or.inr (List.length_eq_zero_iff.mp hzero))
  rw [List.length_drop]
  omega

theorem chunks_cons {width : Nat} (hwidth : 0 < width) {words : List UInt64} (hwords : words ≠ []) :
    chunks width words = words.take width :: chunks width (words.drop width) := by
  rw [chunks, if_neg (by simp [hwords]; omega)]

@[simp] theorem chunks_nil (width : Nat) : chunks width [] = [] := by
  rw [chunks, if_pos (Or.inr rfl)]

/-! ### Trimmed lists -/

def Trimmed (limbs : List UInt64) : Prop :=
  limbs.getLast? ≠ some 0

instance (limbs : List UInt64) : Decidable (Trimmed limbs) :=
  inferInstanceAs (Decidable (_ ≠ _))

def trim (limbs : List UInt64) : List UInt64 :=
  limbs.rdropWhile (· == 0)

theorem trimmed_nil : Trimmed [] := by
  simp [Trimmed]

theorem trimmed_append_singleton (limbs : List UInt64) (top : UInt64) :
    Trimmed (limbs ++ [top]) ↔ top ≠ 0 := by
  simp [Trimmed]

theorem trim_append_zero (limbs : List UInt64) : trim (limbs ++ [0]) = trim limbs := by
  simp [trim]

variable {limbs : List UInt64}

theorem trim_of_trimmed (htrimmed : Trimmed limbs) :
    trim limbs = limbs := by
  induction limbs using List.reverseRecOn with
  | nil => rfl
  | append_singleton limbs top _ =>
    have htop := (trimmed_append_singleton limbs top).mp htrimmed
    simp [trim, htop]

theorem trimmed_trim (limbs : List UInt64) : Trimmed (trim limbs) := by
  induction limbs using List.reverseRecOn with
  | nil => exact trimmed_nil
  | append_singleton limbs top ih =>
    by_cases htop : top = 0
    · rwa [htop, trim_append_zero]
    · have htrimmed := (trimmed_append_singleton limbs top).mpr htop
      rwa [trim_of_trimmed htrimmed]

@[simp] theorem value_trim (limbs : List UInt64) : value (trim limbs) = value limbs := by
  induction limbs using List.reverseRecOn with
  | nil => rfl
  | append_singleton limbs top ih =>
    by_cases htop : top = 0
    · rw [htop, trim_append_zero, ih, value_append]
      simp
    · rw [trim_of_trimmed ((trimmed_append_singleton limbs top).mpr htop)]

theorem length_trim_le (limbs : List UInt64) : (trim limbs).length ≤ limbs.length :=
  (List.rdropWhile_prefix (· == 0) (l := limbs)).length_le

theorem Trimmed.drop (htrimmed : Trimmed limbs) (n : Nat) :
    Trimmed (limbs.drop n) := by
  by_cases hn : n < limbs.length
  · rw [Trimmed, List.getLast?_drop, if_neg (by omega)]
    exact htrimmed
  · rw [List.drop_eq_nil_of_le (by omega)]
    exact trimmed_nil

theorem trimmed_of_pow_le {n : Nat} (hlength : limbs.length = n + 1)
    (hvalue : radix ^ n ≤ value limbs) : Trimmed limbs := by
  induction limbs using List.reverseRecOn with
  | nil => exact absurd hlength (by simp)
  | append_singleton limbs top _ =>
    rw [trimmed_append_singleton]
    rintro rfl
    have hlow := value_lt limbs
    rw [value_append] at hvalue
    simp only [List.length_append, List.length_singleton, Nat.add_right_cancel_iff] at hlength
    simp [hlength] at hlow hvalue
    omega

theorem Trimmed.pow_le (htrimmed : Trimmed limbs) {n : Nat} (hlength : limbs.length = n + 1) :
    radix ^ n ≤ value limbs := by
  induction limbs using List.reverseRecOn with
  | nil => exact absurd hlength (by simp)
  | append_singleton limbs top _ =>
    have htop := (trimmed_append_singleton limbs top).mp htrimmed
    have hpositive : 1 ≤ top.toNat := by
      have hne : top.toNat ≠ 0 := fun hzero => htop (UInt64.toNat_inj.mp hzero)
      omega
    simp only [List.length_append, List.length_singleton, Nat.add_right_cancel_iff] at hlength
    rw [value_append, hlength]
    calc radix ^ n = radix ^ n * 1 := (Nat.mul_one _).symm
      _ ≤ radix ^ n * top.toNat := Nat.mul_le_mul_left _ hpositive
      _ ≤ value limbs + radix ^ n * value [top] := by simp

theorem Trimmed.length_le_iff (htrimmed : Trimmed limbs) (n : Nat) :
    limbs.length ≤ n ↔ value limbs < radix ^ n := by
  constructor
  · intro hlength
    exact Nat.lt_of_lt_of_le (value_lt limbs) (Nat.pow_le_pow_right radix_pos hlength)
  · intro hvalue
    by_contra hlong
    obtain ⟨k, hk⟩ := Nat.exists_eq_add_of_lt (Nat.lt_of_not_le hlong)
    have hlow := htrimmed.pow_le hk
    have hmore := Nat.pow_le_pow_right radix_pos (Nat.le_add_right n k)
    omega

theorem Trimmed.length_le_of_value_le {limbs other : List UInt64} (htrimmed : Trimmed limbs)
    (hvalue : value limbs ≤ value other) : limbs.length ≤ other.length :=
  (htrimmed.length_le_iff _).mpr (Nat.lt_of_le_of_lt hvalue (value_lt other))

theorem Trimmed.value_eq_zero_iff (htrimmed : Trimmed limbs) :
    value limbs = 0 ↔ limbs = [] := by
  simpa using (htrimmed.length_le_iff 0).symm

theorem eq_of_value_eq {limbs other : List UInt64} (hlength : limbs.length = other.length)
    (hvalue : value limbs = value other) : limbs = other := by
  induction limbs generalizing other with
  | nil => exact (List.length_eq_zero_iff.mp hlength.symm).symm
  | cons limb rest ih =>
    obtain ⟨limb', rest', rfl⟩ := List.exists_cons_of_length_eq_add_one hlength.symm
    simp only [value_cons] at hvalue
    have hlimb := limb_lt limb
    have hlimb' := limb_lt limb'
    have hlow := congrArg (· % radix) hvalue
    have hhigh := congrArg (· / radix) hvalue
    simp only [Nat.add_mul_mod_self_left, Nat.mod_eq_of_lt hlimb, Nat.mod_eq_of_lt hlimb'] at hlow
    simp only [Nat.add_mul_div_left _ _ radix_pos, Nat.div_eq_of_lt hlimb,
      Nat.div_eq_of_lt hlimb', Nat.zero_add] at hhigh
    rw [UInt64.toNat_inj.mp hlow, ih (by simpa using hlength) hhigh]

theorem Trimmed.eq_of_value {limbs other : List UInt64} (htrimmed : Trimmed limbs)
    (hother : Trimmed other) (hvalue : value limbs = value other) : limbs = other :=
  eq_of_value_eq (Nat.le_antisymm (htrimmed.length_le_of_value_le hvalue.le)
    (hother.length_le_of_value_le hvalue.ge)) hvalue

end Purrdf.Limbs

/-!
## Magnitudes

The limb loops under the big integers. A destination is a list, and its storage is never refused;
lengths and counts of bits are natural numbers. Every index outside its slice is a failure.
-/

namespace Purrdf.BigInteger

open Limbs

/-- Little-endian limbs; canonical when trimmed. -/
abbrev Mag := List UInt64

def magTrim (m : Mag) : Mag :=
  trim m

def magFromU64 (v : UInt64) : Mag :=
  if v = 0 then [] else [v]

def magFromU128 (v : Nat) : Mag :=
  let lo := UInt64.ofNat v
  let hi := UInt64.ofNat (v / radix)
  if hi = 0 then magFromU64 lo else [lo, hi]

def magToU128 : Mag → Option Nat
  | [] => some 0
  | [lo] => some lo.toNat
  | [lo, hi] => some (lo.toNat ||| hi.toNat <<< 64)
  | _ => none

def magToU64 : Mag → Option UInt64
  | [] => some 0
  | [limb] => some limb
  | _ => none

def nextPowerOfTwo (n : Nat) : Nat :=
  2 ^ Nat.clog 2 n

def magIsOne (a : Mag) : Bool :=
  a == [1]

def compareWords : List UInt64 → List UInt64 → Ordering
  | [], [] => .eq
  | [], _ :: _ => .lt
  | _ :: _, [] => .gt
  | a :: as, b :: bs => (compare a b).then (compareWords as bs)

def magCmp (a b : Mag) : Ordering :=
  (compare a.length b.length).then (compareWords a.reverse b.reverse)

/-! ### Bits -/

def leadingZeros (limb : UInt64) : Nat :=
  64 - limb.toNat.size

def lowZeros : Nat → Nat → Nat
  | 0, _ => 0
  | bits + 1, n => if n % 2 = 0 then lowZeros bits (n / 2) + 1 else 0

def trailingZeros (limb : UInt64) : Nat :=
  lowZeros 64 limb.toNat

def magBitLen (a : Mag) : Nat :=
  match a.getLast? with
  | none => 0
  | some top => (a.length - 1) * 64 + (64 - leadingZeros top)

def magTrailingZeros (a : Mag) : Nat :=
  match a.findIdx? (· != 0) with
  | none => 0
  | some i => i * 64 + trailingZeros ((a[i]?).getD 0)

/-! ### Sums and differences -/

def addFrom (carry : UInt64) : Mag → Mag → Mag
  | [], _ => if carry ≠ 0 then [carry] else []
  | la :: long, short =>
    let sum := la.toNat + ((short[0]?).getD 0).toNat + carry.toNat
    UInt64.ofNat sum :: addFrom (UInt64.ofNat (sum / radix)) long short.tail

def magAdd (a b : Mag) : Mag :=
  if b.length ≤ a.length then addFrom 0 a b else addFrom 0 b a

def subFrom (borrow : Bool) : Mag → Mag → Mag × Bool
  | [], _ => ([], borrow)
  | limb :: a, b =>
    let taken := (b[0]?).getD 0
    let part := limb - taken
    let rest := subFrom (limb < taken || part < borrow.toUInt64) a b.tail
    ((part - borrow.toUInt64) :: rest.1, rest.2)

def magSubInPlace (a b : Mag) : Mag :=
  magTrim (subFrom false a b).1

def magSub (a b : Mag) : Mag :=
  magSubInPlace a b

/-! ### Products -/

/-- One row of the schoolbook product, written from the row's place. The carry is stored over the
limb behind the row. -/
def mulRow (ai : UInt64) : UInt64 → Mag → Mag → Option Mag
  | carry, [], _ :: out => some (carry :: out)
  | carry, bj :: b, slot :: out =>
    let cur := ai.toNat * bj.toNat + slot.toNat + carry.toNat
    (mulRow ai (UInt64.ofNat (cur / radix)) b out).map (UInt64.ofNat cur :: ·)
  | _, _, [] => none

def writeMul : Mag → Mag → Mag → Option Mag
  | [], _, out => some out
  | ai :: a, b, out =>
    (if ai = 0 then some out else mulRow ai 0 b out).bind fun out =>
      match out with
      | [] => none
      | slot :: out => (writeMul a b out).map (slot :: ·)

def magMul (a b : Mag) : Option Mag :=
  if a = [] ∨ b = [] then some []
  else
    match magToU64 a, magToU64 b with
    | some x, some y => some (magFromU128 (x.toNat * y.toNat))
    | _, _ => (writeMul a b (List.replicate (a.length + b.length) 0)).map magTrim

def carryLimbs (carry : Nat) : Mag :=
  if carry = 0 then [] else UInt64.ofNat carry :: carryLimbs (carry / radix)
termination_by carry
decreasing_by exact Nat.div_lt_self (by omega) one_lt_radix

def mulSmallFrom (multiplier : UInt64) : Nat → Mag → Mag
  | carry, [] => carryLimbs carry
  | carry, limb :: a =>
    let cur := limb.toNat * multiplier.toNat + carry
    UInt64.ofNat cur :: mulSmallFrom multiplier (cur / radix) a

def magMulSmallAdd (a : Mag) (multiplier addend : UInt64) : Mag :=
  magTrim (mulSmallFrom multiplier addend.toNat a)

def divRemWord (divisor : Nat) : Mag → Mag × Nat
  | [] => ([], 0)
  | word :: words =>
    let high := divRemWord divisor words
    let current := high.2 * radix + word.toNat
    (UInt64.ofNat (current / divisor) :: high.1, current % divisor)

def magDivmodSmall (a : Mag) (divisor : UInt64) : Option (Mag × UInt64) :=
  if divisor = 0 then none
  else
    let words := divRemWord divisor.toNat a
    some (magTrim words.1, UInt64.ofNat words.2)

/-! ### Shifts -/

def shlFrom (bits : Nat) : UInt64 → Mag → Mag × UInt64
  | carry, [] => ([], carry)
  | carry, limb :: a =>
    let rest := shlFrom bits (limb >>> UInt64.ofNat (64 - bits)) a
    ((limb <<< UInt64.ofNat bits ||| carry) :: rest.1, rest.2)

/-- Write a shift over the front of a destination, and what is shifted out behind it. -/
def writeShl (a : Mag) (bits : Nat) (out : Mag) : Option Mag :=
  if out.length < a.length then none
  else if bits = 0 then some (a ++ out.drop a.length)
  else
    let shifted := shlFrom bits 0 a
    if a.length < out.length then some (shifted.1 ++ shifted.2 :: out.drop (a.length + 1))
    else if shifted.2 = 0 then some shifted.1
    else none

def magShl (a : Mag) (bits : Nat) : Option Mag :=
  match a.getLast? with
  | none => some []
  | some top =>
    let limbShift := bits / 64
    let bitShift := bits % 64
    let carry := bitShift ≠ 0 ∧ top >>> UInt64.ofNat (64 - bitShift) ≠ 0
    let length := a.length + limbShift + if carry then 1 else 0
    (writeShl a bitShift (List.replicate (length - limbShift) 0)).map
      (List.replicate limbShift 0 ++ ·)

def shiftedRightLimb (a : Mag) (source partialBits : Nat) : Option UInt64 :=
  if partialBits = 0 then a[source]?
  else
    a[source]?.map fun limb => limb >>> UInt64.ofNat partialBits |||
      (a[source + 1]?).getD 0 <<< UInt64.ofNat (64 - partialBits)

def magShr (a : Mag) (bits : Nat) : Option Mag :=
  let length := (magBitLen a - bits + 63) / 64
  (List.range length).mapM fun index => shiftedRightLimb a (index + bits / 64) (bits % 64)

def shrFrom (limbShift bitShift : Nat) : Nat → Nat → Mag → Option Mag
  | 0, _, a => some a
  | count + 1, i, a =>
    (shiftedRightLimb a (i + limbShift) bitShift).bind fun limb =>
      shrFrom limbShift bitShift count (i + 1) (a.set i limb)

def magShrInPlace (a : Mag) (bits : Nat) : Option Mag :=
  let limbShift := bits / 64
  if a.length ≤ limbShift then some []
  else
    let length := a.length - limbShift
    (shrFrom limbShift (bits % 64) length 0 a).map fun a => magTrim (a.take length)

end Purrdf.BigInteger
