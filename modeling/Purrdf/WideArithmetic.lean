import Mathlib.Tactic.Ring
import Mathlib.Algebra.Order.Floor.Semiring
import Mathlib.Data.Rat.Floor
import Purrdf.NearestEven

/-!
# Arithmetic past 128 bits

The full product of two words of 128 bits, the division of a double word, and the rounded
quotients of a product. Sums, differences and products that leave the word have no value here, as
overflow checks refuse them; shifts drop the bits that leave it.
-/

namespace Purrdf.Wide

def wordSize : Nat := 2 ^ 128

def add (a b : Nat) : Option Nat :=
  if a + b < wordSize then some (a + b) else none

def sub (a b : Nat) : Option Nat :=
  if b ≤ a then some (a - b) else none

def mul (a b : Nat) : Option Nat :=
  if a * b < wordSize then some (a * b) else none

def shiftLeft (a n : Nat) : Nat :=
  (a <<< n) % wordSize

def mask : Nat := 2 ^ 64 - 1

/-- The full product of two words, as its high and low word. -/
def wideMul (a b : Nat) : Option (Nat × Nat) := do
  let aHigh := a >>> 64
  let aLow := a &&& mask
  let bHigh := b >>> 64
  let bLow := b &&& mask
  let lowLow ← mul aLow bLow
  let lowHigh ← mul aLow bHigh
  let highLow ← mul aHigh bLow
  let highHigh ← mul aHigh bHigh
  let middle ← add (lowLow >>> 64) (lowHigh &&& mask)
  let middle ← add middle (highLow &&& mask)
  let low := (lowLow &&& mask) ||| shiftLeft middle 64
  let high ← add highHigh (lowHigh >>> 64)
  let high ← add high (highLow >>> 64)
  let high ← add high (middle >>> 64)
  some (high, low)

def divideBit (low divisor bit quotient remainder : Nat) : Nat × Nat :=
  let carry := remainder >>> 127
  let remainder := shiftLeft remainder 1 ||| (low >>> bit &&& 1)
  let quotient := shiftLeft quotient 1
  if carry = 1 ∨ divisor ≤ remainder then
    (quotient ||| 1, (remainder + wordSize - divisor) % wordSize)
  else (quotient, remainder)

def divideBits (low divisor : Nat) : Nat → Nat → Nat → Nat × Nat
  | 0, quotient, remainder => (quotient, remainder)
  | bit + 1, quotient, remainder =>
    let next := divideBit low divisor bit quotient remainder
    divideBits low divisor bit next.1 next.2

/-- The quotient and remainder of a double word. The high word must be below the divisor. -/
def divWideRem (high low divisor : Nat) : Option (Nat × Nat) :=
  if high < divisor then some (divideBits low divisor 128 0 high) else none

/-- The quotient and remainder of a product, unless the divisor is zero or the quotient leaves
the word. -/
def mulDivRem (a b c : Nat) : Option (Option (Nat × Nat)) :=
  if c = 0 then some none
  else
    match mul a b with
    | some product => some (some (product / c, product % c))
    | none => do
        let (high, low) ← wideMul a b
        if c ≤ high then some none else (divWideRem high low c).map some

def mulDiv (a b c : Nat) : Option (Option Nat) := do
  match ← mulDivRem a b c with
  | some (quotient, _) => some (some quotient)
  | none => some none

def mulDivCeil (a b c : Nat) : Option (Option Nat) := do
  match ← mulDivRem a b c with
  | none => some none
  | some (quotient, remainder) =>
    if remainder = 0 then some (some quotient) else some (add quotient 1)

def mulDivRoundEven (a b c : Nat) : Option (Option Nat) := do
  match ← mulDivRem a b c with
  | none => some none
  | some (quotient, remainder) =>
    let complement ← sub c remainder
    if complement < remainder ∨ remainder = complement ∧ quotient &&& 1 ≠ 0 then
      some (add quotient 1)
    else some (some quotient)

/-! ### The product -/

theorem and_mask (a : Nat) : a &&& mask = a % 2 ^ 64 :=
  Nat.and_two_pow_sub_one_eq_mod a 64

theorem mul_eq {a b : Nat} (h : a * b < wordSize) : mul a b = some (a * b) := if_pos h

theorem add_eq {a b : Nat} (h : a + b < wordSize) : add a b = some (a + b) := if_pos h

theorem mul_half {a b : Nat} (ha : a < 2 ^ 64) (hb : b < 2 ^ 64) :
    a * b ≤ (2 ^ 64 - 1) * (2 ^ 64 - 1) ∧ mul a b = some (a * b) := by
  have hbound : a * b ≤ (2 ^ 64 - 1) * (2 ^ 64 - 1) :=
    Nat.mul_le_mul (Nat.le_sub_one_of_lt ha) (Nat.le_sub_one_of_lt hb)
  refine ⟨hbound, mul_eq ?_⟩
  unfold wordSize
  omega

theorem join_halves (low high : Nat) (hlow : low < 2 ^ 64) :
    low ||| shiftLeft high 64 = low + high % 2 ^ 64 * 2 ^ 64 := by
  have hhigh : shiftLeft high 64 = (high % 2 ^ 64) <<< 64 := by
    unfold shiftLeft wordSize
    rw [Nat.shiftLeft_eq, Nat.shiftLeft_eq]
    omega
  rw [hhigh, Nat.or_comm, ← Nat.shiftLeft_add_eq_or_of_lt hlow, Nat.shiftLeft_eq, Nat.add_comm]

theorem columns {lowLow lowHigh highLow highHigh : Nat}
    (hll : lowLow ≤ (2 ^ 64 - 1) * (2 ^ 64 - 1)) (hlh : lowHigh ≤ (2 ^ 64 - 1) * (2 ^ 64 - 1))
    (hhl : highLow ≤ (2 ^ 64 - 1) * (2 ^ 64 - 1)) (hhh : highHigh ≤ (2 ^ 64 - 1) * (2 ^ 64 - 1)) :
    (do
      let middle ← add (lowLow / 2 ^ 64) (lowHigh % 2 ^ 64)
      let middle ← add middle (highLow % 2 ^ 64)
      let high ← add highHigh (lowHigh / 2 ^ 64)
      let high ← add high (highLow / 2 ^ 64)
      let high ← add high (middle / 2 ^ 64)
      some (high, lowLow % 2 ^ 64 ||| shiftLeft middle 64)) =
    some ((highHigh * 2 ^ 128 + (lowHigh + highLow) * 2 ^ 64 + lowLow) / wordSize,
      (highHigh * 2 ^ 128 + (lowHigh + highLow) * 2 ^ 64 + lowLow) % wordSize) := by
  have hjoined := join_halves (lowLow % 2 ^ 64)
    (lowLow / 2 ^ 64 + lowHigh % 2 ^ 64 + highLow % 2 ^ 64) (Nat.mod_lt _ (by norm_num))
  unfold wordSize
  simp only [Option.bind_eq_bind]
  rw [add_eq, Option.bind_some, add_eq, Option.bind_some, add_eq, Option.bind_some, add_eq,
    Option.bind_some, add_eq, Option.bind_some, hjoined]
  · congr 2 <;> omega
  all_goals
    unfold wordSize
    omega

theorem wideMul_eq {a b : Nat} (ha : a < wordSize) (hb : b < wordSize) :
    wideMul a b = some (a * b / wordSize, a * b % wordSize) := by
  have hhigh : a / 2 ^ 64 < 2 ^ 64 := Nat.div_lt_of_lt_mul ha
  have hhigh' : b / 2 ^ 64 < 2 ^ 64 := Nat.div_lt_of_lt_mul hb
  have hlow : a % 2 ^ 64 < 2 ^ 64 := Nat.mod_lt _ (by norm_num)
  have hlow' : b % 2 ^ 64 < 2 ^ 64 := Nat.mod_lt _ (by norm_num)
  obtain ⟨hll, hlowLow⟩ := mul_half hlow hlow'
  obtain ⟨hlh, hlowHigh⟩ := mul_half hlow hhigh'
  obtain ⟨hhl, hhighLow⟩ := mul_half hhigh hlow'
  obtain ⟨hhh, hhighHigh⟩ := mul_half hhigh hhigh'
  have hproduct : a * b = a / 2 ^ 64 * (b / 2 ^ 64) * 2 ^ 128 +
      (a % 2 ^ 64 * (b / 2 ^ 64) + a / 2 ^ 64 * (b % 2 ^ 64)) * 2 ^ 64 +
        a % 2 ^ 64 * (b % 2 ^ 64) := by
    conv_lhs => rw [← Nat.div_add_mod a (2 ^ 64), ← Nat.div_add_mod b (2 ^ 64)]
    ring
  unfold wideMul
  simp only [and_mask, Nat.shiftRight_eq_div_pow]
  rw [hlowLow, hlowHigh, hhighLow, hhighHigh, hproduct]
  exact columns hll hlh hhl hhh

theorem double_or {a bit : Nat} (hbit : bit < 2) :
    shiftLeft a 1 ||| bit = 2 * (a % 2 ^ 127) + bit := by
  have hshift : shiftLeft a 1 = (a % 2 ^ 127) <<< 1 := by
    unfold shiftLeft wordSize
    rw [Nat.shiftLeft_eq, Nat.shiftLeft_eq]
    omega
  rw [hshift, ← Nat.shiftLeft_add_eq_or_of_lt (by simpa using hbit), Nat.shiftLeft_eq, pow_one,
    Nat.mul_comm]

theorem divideBit_eq {low divisor bit quotient remainder : Nat} (hdivisor : divisor < wordSize)
    (hless : remainder < divisor) (hroom : quotient < 2 ^ 127) :
    divideBit low divisor bit quotient remainder =
      if divisor ≤ 2 * remainder + low / 2 ^ bit % 2 then
        (2 * quotient + 1, 2 * remainder + low / 2 ^ bit % 2 - divisor)
      else (2 * quotient, 2 * remainder + low / 2 ^ bit % 2) := by
  have hnext : low / 2 ^ bit % 2 < 2 := Nat.mod_lt _ Nat.two_pos
  have hdouble : shiftLeft quotient 1 = 2 * quotient := by
    unfold shiftLeft wordSize
    rw [Nat.shiftLeft_eq]
    omega
  have hset : shiftLeft quotient 1 ||| 1 = 2 * quotient + 1 := by
    rw [double_or Nat.one_lt_two, Nat.mod_eq_of_lt hroom]
  unfold divideBit
  simp only [Nat.shiftRight_eq_div_pow, Nat.and_one_is_mod]
  rw [double_or hnext, hset, hdouble]
  generalize low / 2 ^ bit % 2 = next at *
  unfold wordSize at *
  -- a carry stands for the bit of the doubled remainder that left the word
  by_cases hcarry : remainder / 2 ^ 127 = 1
  · rw [if_pos (Or.inl hcarry), if_pos (by omega)]
    congr 1
    omega
  · have hsmall : remainder % 2 ^ 127 = remainder := Nat.mod_eq_of_lt (by omega)
    rw [hsmall]
    by_cases hfits : divisor ≤ 2 * remainder + next
    · rw [if_pos (Or.inr hfits), if_pos hfits]
      congr 1
      omega
    · rw [if_neg (not_or.mpr ⟨hcarry, hfits⟩), if_neg hfits]

/-- The bits above some bit have been divided: the loop ends with the quotient and remainder of
the rest. -/
theorem divideBits_spec {low divisor bits quotient remainder : Nat} (hdivisor : divisor < wordSize)
    (hless : remainder < divisor) (hroom : quotient < 2 ^ (128 - bits)) (hbits : bits ≤ 128) :
    (divideBits low divisor bits quotient remainder).1 * divisor +
        (divideBits low divisor bits quotient remainder).2 =
      (quotient * divisor + remainder) * 2 ^ bits + low % 2 ^ bits ∧
    (divideBits low divisor bits quotient remainder).2 < divisor := by
  induction bits generalizing quotient remainder with
  | zero => simp [divideBits, hless, Nat.mod_one]
  | succ bit ih =>
    have hfew : quotient < 2 ^ 127 :=
      hroom.trans_le (Nat.pow_le_pow_right Nat.two_pos (by omega))
    have hdouble : 2 ^ (128 - bit) = 2 * 2 ^ (128 - (bit + 1)) := by
      rw [← pow_succ']
      congr 1
      omega
    have hlow : low % 2 ^ (bit + 1) = low / 2 ^ bit % 2 * 2 ^ bit + low % 2 ^ bit := by
      rw [pow_succ, Nat.mod_mul, Nat.mul_comm, Nat.add_comm]
    unfold divideBits
    rw [divideBit_eq hdivisor hless hfew]
    have hnext : low / 2 ^ bit % 2 < 2 := Nat.mod_lt _ Nat.two_pos
    split
    · next hfits =>
        obtain ⟨hvalue, hrest⟩ := @ih (2 * quotient + 1)
          (2 * remainder + low / 2 ^ bit % 2 - divisor) (by omega) (by omega) (by omega)
        refine ⟨?_, hrest⟩
        dsimp only
        rw [hvalue, hlow]
        have hsum : (2 * quotient + 1) * divisor + (2 * remainder + low / 2 ^ bit % 2 - divisor) =
            2 * (quotient * divisor + remainder) + low / 2 ^ bit % 2 := by
          have hexpand : (2 * quotient + 1) * divisor = 2 * (quotient * divisor) + divisor := by ring
          omega
        rw [hsum, pow_succ]
        ring
    · next hshort =>
        obtain ⟨hvalue, hrest⟩ := @ih (2 * quotient) (2 * remainder + low / 2 ^ bit % 2)
          (by omega) (by omega) (by omega)
        refine ⟨?_, hrest⟩
        dsimp only
        rw [hvalue, hlow, pow_succ]
        ring

theorem divWideRem_eq {high low divisor : Nat} (hlow : low < wordSize)
    (hdivisor : divisor < wordSize) (hless : high < divisor) :
    divWideRem high low divisor = some ((high * wordSize + low) / divisor,
      (high * wordSize + low) % divisor) := by
  obtain ⟨hvalue, hrest⟩ := @divideBits_spec low divisor 128 0 high hdivisor hless (by simp) le_rfl
  have hwhole : low % 2 ^ 128 = low := Nat.mod_eq_of_lt hlow
  rw [hwhole, Nat.zero_mul, Nat.zero_add] at hvalue
  unfold divWideRem wordSize
  rw [if_pos hless, ← hvalue]
  have hpositive : 0 < divisor := Nat.zero_lt_of_lt hless
  congr 1
  refine Prod.ext ?_ ?_
  · rw [Nat.mul_comm, Nat.mul_add_div hpositive, Nat.div_eq_of_lt hrest, Nat.add_zero]
  · rw [Nat.mul_comm, Nat.mul_add_mod, Nat.mod_eq_of_lt hrest]

/-! ### Quotients of a product -/

def fit (n : Nat) : Option Nat :=
  if n < wordSize then some n else none

theorem fit_eq {n : Nat} (h : n < wordSize) : fit n = some n := if_pos h

theorem fit_none {n : Nat} (h : wordSize ≤ n) : fit n = none := if_neg (Nat.not_lt.mpr h)

section

variable {a b c : Nat}

theorem mulDivRem_eq (ha : a < wordSize) (hb : b < wordSize) (hc : c < wordSize) (hne : c ≠ 0) :
    mulDivRem a b c = some (if a * b / c < wordSize then some (a * b / c, a * b % c) else none) := by
  have hpositive : 0 < c := Nat.pos_of_ne_zero hne
  unfold mulDivRem
  rw [if_neg hne]
  by_cases hsmall : a * b < wordSize
  · rw [mul_eq hsmall, if_pos ((Nat.div_le_self _ _).trans_lt hsmall)]
  · have hmul : mul a b = none := if_neg hsmall
    rw [hmul, wideMul_eq ha hb]
    dsimp only [Option.bind_eq_bind, Option.bind_some]
    have hquotient : a * b / c < wordSize ↔ a * b / wordSize < c := by
      rw [Nat.div_lt_iff_lt_mul hpositive, Nat.div_lt_iff_lt_mul (by simp [wordSize]),
        Nat.mul_comm wordSize c]
    by_cases hlarge : c ≤ a * b / wordSize
    · rw [if_pos hlarge, if_neg (fun h => absurd (hquotient.mp h) (Nat.not_lt.mpr hlarge))]
    · rw [if_neg hlarge, if_pos (hquotient.mpr (Nat.not_le.mp hlarge)),
        divWideRem_eq (Nat.mod_lt _ (by simp [wordSize])) hc (Nat.not_le.mp hlarge),
        Nat.div_add_mod']
      rfl

theorem mulDiv_eq (ha : a < wordSize) (hb : b < wordSize) (hc : c < wordSize) (hne : c ≠ 0) :
    mulDiv a b c = some (fit (a * b / c)) := by
  unfold mulDiv
  rw [mulDivRem_eq ha hb hc hne]
  by_cases hfits : a * b / c < wordSize
  · rw [if_pos hfits, fit_eq hfits]
    rfl
  · rw [if_neg hfits, fit_none (Nat.not_lt.mp hfits)]
    rfl

theorem ceil_quotient (hne : c ≠ 0) (n : Nat) :
    ⌈((n : Nat) : ℚ) / c⌉₊ = if n % c = 0 then n / c else n / c + 1 := by
  have hpositive : (0 : ℚ) < c := by exact_mod_cast Nat.pos_of_ne_zero hne
  have hsplit : ((n : Nat) : ℚ) / c = (n / c : Nat) + (n % c : Nat) / c := by
    rw [eq_comm, add_div' _ _ _ hpositive.ne']
    congr 1
    exact_mod_cast Nat.div_add_mod' n c
  rw [hsplit]
  split
  · next hexact =>
      rw [hexact, Nat.cast_zero, zero_div, add_zero, Nat.ceil_natCast]
  · next hrest =>
      have hfraction : (0 : ℚ) < (n % c : Nat) / c :=
        div_pos (by exact_mod_cast Nat.pos_of_ne_zero hrest) hpositive
      have hless : ((n % c : Nat) : ℚ) / c ≤ 1 := by
        rw [div_le_one hpositive]
        exact_mod_cast (Nat.mod_lt n (Nat.pos_of_ne_zero hne)).le
      rw [Nat.ceil_eq_iff (Nat.succ_ne_zero _)]
      push_cast
      constructor
      · simpa using hfraction
      · linarith

theorem mulDivCeil_eq (ha : a < wordSize) (hb : b < wordSize) (hc : c < wordSize) (hne : c ≠ 0) :
    mulDivCeil a b c = some (fit ⌈((a * b : Nat) : ℚ) / c⌉₊) := by
  rw [ceil_quotient hne]
  unfold mulDivCeil
  rw [mulDivRem_eq ha hb hc hne]
  by_cases hfits : a * b / c < wordSize
  · rw [if_pos hfits]
    dsimp only [Option.bind_eq_bind, Option.bind_some]
    by_cases hexact : a * b % c = 0
    · rw [if_pos hexact, if_pos hexact, fit_eq hfits]
    · rw [if_neg hexact, if_neg hexact]
      rfl
  · rw [if_neg hfits, fit_none]
    · rfl
    · split <;> omega

theorem mulDivRoundEven_eq (ha : a < wordSize) (hb : b < wordSize) (hc : c < wordSize)
    (hne : c ≠ 0) :
    mulDivRoundEven a b c = some (fit (roundQuotient (a * b / c) (a * b % c) c)) := by
  have hless : a * b % c < c := Nat.mod_lt _ (Nat.pos_of_ne_zero hne)
  have hsub : sub c (a * b % c) = some (c - a * b % c) := if_pos hless.le
  unfold mulDivRoundEven roundQuotient
  rw [mulDivRem_eq ha hb hc hne]
  by_cases hfits : a * b / c < wordSize
  · rw [if_pos hfits]
    dsimp only [Option.bind_eq_bind, Option.bind_some]
    rw [hsub]
    dsimp only [Option.bind_some]
    have hodd : a * b / c &&& 1 ≠ 0 ↔ a * b / c % 2 = 1 := by
      rw [Nat.and_one_is_mod]
      omega
    have hround : (c - a * b % c < a * b % c ∨ a * b % c = c - a * b % c ∧ a * b / c &&& 1 ≠ 0) ↔
        (c < 2 * (a * b % c) ∨ 2 * (a * b % c) = c ∧ a * b / c % 2 = 1) := by
      rw [hodd]
      omega
    by_cases hup : c < 2 * (a * b % c) ∨ 2 * (a * b % c) = c ∧ a * b / c % 2 = 1
    · rw [if_pos (hround.mpr hup), if_pos hup]
      rfl
    · rw [if_neg (fun h => hup (hround.mp h)), if_neg hup, fit_eq hfits]
  · rw [if_neg hfits, fit_none]
    · rfl
    · split <;> omega

end

/-- Products and quotients past the word are exact, and a rounded quotient is absent exactly for
a zero divisor or a result past the word. -/
theorem wide_exact :
    (∀ a b, a < wordSize → b < wordSize →
      wideMul a b = some (a * b / wordSize, a * b % wordSize)) ∧
    (∀ high low divisor, low < wordSize → divisor < wordSize → high < divisor →
      divWideRem high low divisor =
        some ((high * wordSize + low) / divisor, (high * wordSize + low) % divisor)) ∧
    ∀ a b c, a < wordSize → b < wordSize → c < wordSize →
      mulDiv a b c = some (if c = 0 then none else fit (a * b / c)) ∧
      mulDivCeil a b c = some (if c = 0 then none else fit ⌈((a * b : Nat) : ℚ) / c⌉₊) ∧
      ∃ nearest : Nat, (c ≠ 0 → NearestEven (((a * b : Nat) : ℚ) / c) nearest) ∧
        mulDivRoundEven a b c = some (if c = 0 then none else fit nearest) := by
  refine ⟨fun a b => wideMul_eq, fun high low divisor => divWideRem_eq, ?_⟩
  intro a b c ha hb hc
  by_cases hzero : c = 0
  · subst hzero
    exact ⟨rfl, rfl, 0, fun hne => absurd rfl hne, rfl⟩
  simp only [if_neg hzero]
  refine ⟨mulDiv_eq ha hb hc hzero, mulDivCeil_eq ha hb hc hzero,
    roundQuotient (a * b / c) (a * b % c) c, fun _ => ?_, mulDivRoundEven_eq ha hb hc hzero⟩
  have hnearest := @nearestEven_roundQuotient ℚ _ _ _ (a * b / c) _ _
    (Nat.mod_lt (a * b) (Nat.pos_of_ne_zero hzero))
  rwa [Nat.div_add_mod] at hnearest

/-- The largest words: their product fills both words, and dividing it by one gives the other. -/
theorem wide_exact_max :
    wideMul (2 ^ 128 - 1) (2 ^ 128 - 1) = some (2 ^ 128 - 2, 1) ∧
      mulDiv (2 ^ 128 - 1) (2 ^ 128 - 1) (2 ^ 128 - 1) = some (some (2 ^ 128 - 1)) := by
  have hmax : 2 ^ 128 - 1 < wordSize := by decide
  have hproduct := wide_exact.1 _ _ hmax hmax
  have hquotient := (wide_exact.2.2 _ _ _ hmax hmax hmax).1
  exact ⟨hproduct, hquotient⟩

end Purrdf.Wide
