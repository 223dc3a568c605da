import Mathlib.Data.Nat.Sqrt
import Purrdf.GreatestDivisor

/-!
# Floor square roots

Newton's descent from a power of two that is not below the root. An average is never below the
root, and it halves the distance to it, so the descent ends at the root within as many steps as
the start has bits.
-/

namespace Purrdf.BigInteger

open Limbs

/-! ### Descent -/

def newtonStep (n x : Nat) : Nat :=
  (x + n / x) / 2

theorem sqrt_le_newtonStep (n : Nat) {x : Nat} (hx : 0 < x) : Nat.sqrt n ≤ newtonStep n x := by
  have hsquare := Nat.sqrt_le n
  generalize Nat.sqrt n = root at *
  unfold newtonStep
  rw [Nat.le_div_iff_mul_le (by decide)]
  by_cases hlarge : root * 2 ≤ x
  · exact hlarge.trans (Nat.le_add_right _ _)
  · obtain ⟨rest, hrest⟩ := Nat.exists_eq_add_of_lt (Nat.lt_of_not_le hlarge)
    have hquotient : rest + 1 ≤ n / x := by
      rw [Nat.le_div_iff_mul_le hx]
      apply le_trans _ hsquare
      nlinarith [sq_nonneg ((root : Int) - (rest + 1))]
    omega

theorem newtonStep_le (n : Nat) {x : Nat} (hx : Nat.sqrt n < x) :
    newtonStep n x * 2 ≤ x + Nat.sqrt n := by
  have hquotient : n / x ≤ Nat.sqrt n := by
    rw [← Nat.lt_succ_iff, Nat.div_lt_iff_lt_mul (by omega)]
    calc n < (Nat.sqrt n).succ * (Nat.sqrt n).succ := Nat.lt_succ_sqrt n
      _ ≤ (Nat.sqrt n).succ * x := Nat.mul_le_mul_left _ hx
  unfold newtonStep
  omega

theorem eq_sqrt_of_le_newtonStep {n x : Nat} (hx : Nat.sqrt n ≤ x) (hstop : x ≤ newtonStep n x) :
    x = Nat.sqrt n := by
  rcases Nat.eq_or_lt_of_le hx with hsame | hless
  · exact hsame.symm
  · have hstep := newtonStep_le n hless
    omega

theorem sqrt_le_start (n : Nat) : Nat.sqrt n ≤ 2 ^ ((n.size + 1) / 2) := by
  apply Nat.le_of_lt
  rw [Nat.sqrt_lt, ← pow_add]
  apply (Nat.lt_size_self n).trans_le
  apply Nat.pow_le_pow_right (by decide)
  omega

/-! ### Routines -/

/-- The descent on two limbs. A guess of zero would divide by it. -/
def isqrtFrom (n x : Nat) : Option Nat :=
  if x = 0 then none
  else if x ≤ newtonStep n x then some x
  else isqrtFrom n (newtonStep n x)
termination_by x
decreasing_by omega

def isqrtU128 (n : Nat) : Option Nat :=
  if n = 0 then some 0 else isqrtFrom n (2 ^ ((n.size + 1) / 2))

def sqrtLoop : Nat → Mag → Mag → Option Mag
  | 0, _, _ => none
  | turns + 1, words, x =>
    (magDivRem words x).bind fun divided =>
      (magShr (magAdd x divided.1) 1).bind fun y =>
        if magCmp y x ≠ .lt then some x else sqrtLoop turns words y

def magSqrtFloor (words : Mag) : Option Mag :=
  if words = [] then some []
  else
    match magToU128 words with
    | some v => (isqrtU128 v).map magFromU128
    | none =>
      let half := (magBitLen words + 1) / 2
      (magShl [1] half).bind (sqrtLoop (half + 2) words)

/-- The floor square root, or nothing for a negative integer. -/
def BigInt.sqrtFloor (n : BigInt) : Option (Option BigInt) :=
  if n.negative then some none
  else (magSqrtFloor n.magnitude).map fun root => some (BigInt.fromParts false root)

/-! ### Exactness -/

theorem isqrtFrom_eq {n x : Nat} (hn : 0 < n) (hx : Nat.sqrt n ≤ x) :
    isqrtFrom n x = some (Nat.sqrt n) := by
  have hroot := Nat.sqrt_pos.mpr hn
  induction x using Nat.strong_induction_on with
  | h x ih =>
  rw [isqrtFrom, if_neg (by omega)]
  split
  · rename_i hstop
    rw [← eq_sqrt_of_le_newtonStep hx hstop]
  · exact ih (newtonStep n x) (by omega) (sqrt_le_newtonStep n (by omega))

theorem isqrtU128_eq (n : Nat) : isqrtU128 n = some (Nat.sqrt n) := by
  unfold isqrtU128
  split
  · rename_i hzero
    rw [hzero, Nat.sqrt_zero]
  · rename_i hsome
    exact isqrtFrom_eq (Nat.pos_of_ne_zero hsome) (sqrt_le_start n)

theorem sqrtLoop_step (words : Mag) (hwords : Trimmed words) {x : Mag} (hx : Trimmed x)
    (hpositive : 0 < value x) : ∃ y, Trimmed y ∧
      value y = newtonStep (value words) (value x) ∧
      ∀ turns, sqrtLoop (turns + 1) words x =
        if value x ≤ value y then some x else sqrtLoop turns words y := by
  have hsome : x ≠ [] := by
    rintro rfl
    exact Nat.lt_irrefl 0 hpositive
  obtain ⟨divided, hdivided, hquotientTrimmed, _, hvalue, hless⟩ := magDivRem_spec hwords hx hsome
  obtain ⟨y, hy, hyTrimmed, hyValue⟩ :=
    magShr_spec (magAdd_trimmed hx hquotientTrimmed) 1
  have hquotient : value words / value x = value divided.1 := by
    rw [hvalue, Nat.mul_comm, Nat.mul_add_div hpositive, Nat.div_eq_of_lt hless, Nat.add_zero]
  refine ⟨y, hyTrimmed, ?_, fun turns => ?_⟩
  · rw [hyValue, magAdd_value, newtonStep, hquotient, pow_one]
  · rw [sqrtLoop, hdivided, Option.bind_some, hy, Option.bind_some]
    by_cases hstop : value x ≤ value y
    · rw [if_pos hstop, if_pos]
      intro hcmp
      exact Nat.not_lt_of_le hstop ((magCmp_lt_iff hyTrimmed hx).mp hcmp)
    · rw [if_neg hstop, if_neg]
      rw [not_not]
      exact (magCmp_lt_iff hyTrimmed hx).mpr (Nat.lt_of_not_le hstop)

theorem sqrtLoop_spec {words : Mag} (hwords : Trimmed words) (hpositive : 0 < value words)
    {turns : Nat} {x : Mag} (hx : Trimmed x) (hroot : Nat.sqrt (value words) ≤ value x)
    (hturns : value x < Nat.sqrt (value words) + 2 ^ turns) :
    ∃ root, sqrtLoop (turns + 1) words x = some root ∧ Trimmed root ∧
      value root = Nat.sqrt (value words) := by
  have hsome := Nat.sqrt_pos.mpr hpositive
  induction turns generalizing x with
  | zero =>
    obtain ⟨y, _, hyValue, hstep⟩ := sqrtLoop_step words hwords hx (by omega)
    have hyRoot := sqrt_le_newtonStep (value words) (show 0 < value x by omega)
    rw [pow_zero] at hturns
    exact ⟨x, by rw [hstep, if_pos (by omega)], hx, by omega⟩
  | succ turns ih =>
    obtain ⟨y, hy, hyValue, hstep⟩ := sqrtLoop_step words hwords hx (by omega)
    have hyRoot := sqrt_le_newtonStep (value words) (show 0 < value x by omega)
    rw [hstep]
    by_cases hstop : value x ≤ value y
    · refine ⟨x, by rw [if_pos hstop], hx, ?_⟩
      exact eq_sqrt_of_le_newtonStep hroot (hyValue ▸ hstop)
    · have hhalf := newtonStep_le (value words) (show Nat.sqrt (value words) < value x by omega)
      rw [if_neg hstop]
      rw [pow_succ] at hturns
      exact ih hy (by omega) (by omega)

theorem magSqrtFloor_spec {words : Mag} (hwords : Trimmed words) :
    ∃ root, magSqrtFloor words = some root ∧ Trimmed root ∧
      value root = Nat.sqrt (value words) := by
  unfold magSqrtFloor
  by_cases hnone : words = []
  · exact ⟨[], by rw [if_pos hnone], trimmed_nil, by rw [hnone, value_nil, Nat.sqrt_zero]⟩
  · have hpositive : 0 < value words :=
      Nat.pos_of_ne_zero fun hzero => hnone (hwords.value_eq_zero_iff.mp hzero)
    rw [if_neg hnone, magToU128_spec]
    by_cases hshort : words.length ≤ 2
    · have hbound : Nat.sqrt (value words) < radix ^ 2 := by
        apply Nat.lt_of_le_of_lt (Nat.sqrt_le_self _)
        exact (value_lt words).trans_le (Nat.pow_le_pow_right radix_pos hshort)
      obtain ⟨hvalue, htrimmed, _⟩ := magFromU128_spec hbound
      rw [if_pos hshort]
      exact ⟨_, by simp only [isqrtU128_eq, Option.map_some], htrimmed, hvalue⟩
    · have hone : Trimmed [1] := by decide
      have hunit : value [1] = 1 := by decide
      rw [if_neg hshort]
      simp only [magBitLen_eq hwords]
      obtain ⟨start, hstart, hstartTrimmed, hstartValue⟩ :=
        magShl_spec hone (((value words).size + 1) / 2)
      rw [hunit, Nat.one_mul] at hstartValue
      rw [hstart, Option.bind_some]
      apply sqrtLoop_spec hwords hpositive hstartTrimmed
      · rw [hstartValue]
        exact sqrt_le_start (value words)
      · rw [hstartValue, pow_succ]
        have hpower := Nat.two_pow_pos (((value words).size + 1) / 2)
        omega

/-- Divisors and roots are exact, on every route and within the turns of their loops. -/
theorem gcd_sqrtFloor_exact (n other : BigInt) :
    (∃ divisor, n.gcd other = some divisor ∧
      divisor.toInt = (Int.gcd n.toInt other.toInt : Int)) ∧
    (n.toInt = 0 → n.gcd other = some other.abs) ∧
    (n.toInt < 0 → n.sqrtFloor = some none) ∧
    (0 ≤ n.toInt → ∃ root, n.sqrtFloor = some (some root) ∧ 0 ≤ root.toInt ∧
      root.toInt * root.toInt ≤ n.toInt ∧ n.toInt < (root.toInt + 1) * (root.toInt + 1)) ∧
    (∀ m < radix ^ 2, ∃ root, isqrtU128 m = some root ∧ root * root ≤ m ∧
      m < (root + 1) * (root + 1)) := by
  obtain ⟨divisor, hdivisor, _, hvalue⟩ := magGcd_spec n.trimmed other.trimmed
  have hgcd : n.gcd other = some (BigInt.fromParts false divisor) := by
    rw [BigInt.gcd, hdivisor]
    rfl
  have hgcdValue : (BigInt.fromParts false divisor).toInt =
      (Int.gcd n.toInt other.toInt : Int) := by
    rw [BigInt.toInt_fromParts, BigInt.signedValue_false, hvalue, Int.gcd, BigInt.natAbs_toInt,
      BigInt.natAbs_toInt]
  refine ⟨⟨_, hgcd, hgcdValue⟩, ?_, ?_, ?_, ?_⟩
  · intro hzero
    rw [hgcd, Option.some.injEq]
    apply BigInt.toInt_injective
    rw [hgcdValue, hzero, Int.gcd_zero_left, BigInt.natAbs_toInt, toInt_abs]
  · intro hnegative
    rw [BigInt.sqrtFloor, if_pos ((negative_iff n).mpr hnegative)]
  · intro hnonnegative
    have hsign := negative_of_nonneg hnonnegative
    obtain ⟨root, hroot, _, hrootValue⟩ := magSqrtFloor_spec n.trimmed
    refine ⟨BigInt.fromParts false root, ?_, ?_, ?_, ?_⟩
    · rw [BigInt.sqrtFloor, hsign, if_neg (by decide), hroot]
      rfl
    all_goals
      rw [BigInt.toInt_fromParts, BigInt.signedValue_false]
    · exact Int.natCast_nonneg _
    · rw [BigInt.toInt_of_nonneg hsign, hrootValue]
      exact_mod_cast Nat.sqrt_le (value n.magnitude)
    · rw [BigInt.toInt_of_nonneg hsign, hrootValue]
      exact_mod_cast Nat.lt_succ_sqrt (value n.magnitude)
  · intro m _
    exact ⟨Nat.sqrt m, isqrtU128_eq m, Nat.sqrt_le m, Nat.lt_succ_sqrt m⟩

end Purrdf.BigInteger
