import Purrdf.BlockDivisionExact

/-!
# Greatest common divisors

Euclid's algorithm on two limbs, and the binary one beyond. One operand of the binary loop stays
odd; the other loses its factors of two, and is replaced by the difference. Every difference of odd
numbers is even, so the product of the odd parts halves at every turn.
-/

namespace Purrdf.BigInteger

open Limbs

def wideGcd (a b : Nat) : Nat :=
  if b = 0 then a else wideGcd b (a % b)
termination_by b
decreasing_by exact Nat.mod_lt a (Nat.pos_of_ne_zero (by assumption))

def gcdLoop : Nat → Mag → Mag → Option Mag
  | 0, _, _ => none
  | turns + 1, u, v =>
    (magShrInPlace v (magTrailingZeros v)).bind fun v =>
      let smaller := if magCmp u v = .gt then v else u
      let larger := if magCmp u v = .gt then u else v
      (magSubChecked larger smaller).bind fun difference =>
        if difference = [] then some smaller else gcdLoop turns smaller difference

def reduceWide (a b : Mag) : Option (Mag × Mag) :=
  if b.length * 2 ≤ a.length then (magDivRem a b).map fun divided => (b, divided.2)
  else if a.length * 2 ≤ b.length then (magDivRem b a).map fun divided => (a, divided.2)
  else some (a, b)

def binaryGcd (a b : Mag) : Option Mag :=
  if b = [] then some a
  else
    let common := min (magTrailingZeros a) (magTrailingZeros b)
    (magShr a (magTrailingZeros a)).bind fun u =>
      (gcdLoop (magBitLen u + magBitLen b) u b).bind fun divisor => magShl divisor common

def magGcd (a b : Mag) : Option Mag :=
  if a = [] then some b
  else if b = [] then some a
  else if magIsOne a || magIsOne b then some [1]
  else
    match magToU128 a, magToU128 b with
    | some x, some y => some (magFromU128 (wideGcd x y))
    | _, _ => (reduceWide a b).bind fun reduced => binaryGcd reduced.1 reduced.2

def BigInt.gcd (n other : BigInt) : Option BigInt :=
  (magGcd n.magnitude other.magnitude).map (BigInt.fromParts false)

theorem wideGcd_eq (a b : Nat) : wideGcd a b = Nat.gcd a b := by
  fun_induction wideGcd a b with
  | case1 a => simp
  | case2 a b hb ih => rw [ih, Nat.gcd_comm b, ← Nat.gcd_rec, Nat.gcd_comm]

theorem gcd_two_pow_mul {u : Nat} (hodd : u % 2 = 1) (k v : Nat) :
    Nat.gcd u (2 ^ k * v) = Nat.gcd u v := by
  apply Nat.Coprime.gcd_mul_left_cancel_right
  exact ((Nat.coprime_two_right.mpr (Nat.odd_iff.mpr hodd)).pow_right k).symm

theorem gcd_two_pow_mul_mul {x y : Nat} (hx : x % 2 = 1) (hy : y % 2 = 1) (i j : Nat) :
    Nat.gcd (2 ^ i * x) (2 ^ j * y) = Nat.gcd x y * 2 ^ min i j := by
  rcases Nat.le_total i j with hij | hij
  · obtain ⟨k, rfl⟩ := Nat.exists_eq_add_of_le hij
    rw [pow_add, Nat.mul_assoc, Nat.gcd_mul_left, gcd_two_pow_mul hx, Nat.min_eq_left hij,
      Nat.mul_comm]
  · obtain ⟨k, rfl⟩ := Nat.exists_eq_add_of_le hij
    rw [pow_add, Nat.mul_assoc, Nat.gcd_mul_left, Nat.gcd_comm _ y, gcd_two_pow_mul hy,
      Nat.min_eq_right hij, Nat.gcd_comm y, Nat.mul_comm]

def oddPart (v : Mag) : Nat :=
  value v / 2 ^ magTrailingZeros v

theorem oddPart_spec {v : Mag} (hv : value v ≠ 0) :
    value v = 2 ^ magTrailingZeros v * oddPart v ∧ oddPart v % 2 = 1 := by
  obtain ⟨hdvd, hodd⟩ := magTrailingZeros_spec hv
  exact ⟨(Nat.mul_div_cancel' hdvd).symm, hodd⟩

theorem oddPart_le_half {v : Mag} (hv : value v ≠ 0) (heven : value v % 2 = 0) :
    oddPart v * 2 ≤ value v := by
  obtain ⟨hvalue, hodd⟩ := oddPart_spec hv
  have hpositive : magTrailingZeros v ≠ 0 := by
    intro hzero
    rw [hzero, pow_zero, Nat.one_mul] at hvalue
    omega
  obtain ⟨k, hk⟩ := Nat.exists_eq_succ_of_ne_zero hpositive
  have hpower := Nat.one_le_two_pow (n := k)
  calc oddPart v * 2 ≤ oddPart v * 2 * 2 ^ k := Nat.le_mul_of_pos_right _ hpower
    _ = 2 ^ (k + 1) * oddPart v := by ring
    _ = value v := by
        conv_rhs => rw [hvalue, hk]

theorem gcdLoop_spec {turns : Nat} {u v : Mag} (hu : Trimmed u) (hodd : value u % 2 = 1)
    (hv : value v ≠ 0) (hturns : value u * oddPart v < 2 ^ turns) :
    ∃ divisor, gcdLoop turns u v = some divisor ∧ Trimmed divisor ∧
      value divisor = Nat.gcd (value u) (value v) := by
  induction turns generalizing u v with
  | zero =>
    have hpart := (oddPart_spec hv).2
    have hpositive : 0 < value u * oddPart v := Nat.mul_pos (by omega) (by omega)
    rw [pow_zero] at hturns
    omega
  | succ turns ih =>
    obtain ⟨hvalue, hpart⟩ := oddPart_spec hv
    obtain ⟨stripped, hstripped, hstrippedTrimmed, hstrippedValue, _⟩ :=
      magShrInPlace_spec v (magTrailingZeros v)
    have hstrippedPart : value stripped = oddPart v := hstrippedValue
    have hgcd : Nat.gcd (value u) (value v) = Nat.gcd (value u) (value stripped) := by
      rw [hstrippedPart]
      conv_lhs => rw [hvalue]
      exact gcd_two_pow_mul hodd _ _
    rw [gcdLoop, hstripped, Option.bind_some, hgcd]
    rw [← hstrippedPart] at hturns hpart
    simp only
    -- the smaller of two odd numbers is taken from the larger one
    have hstep : ∀ {smaller larger : Mag}, Trimmed smaller → Trimmed larger →
        value smaller % 2 = 1 → value larger % 2 = 1 → value smaller ≤ value larger →
        value smaller * value larger < 2 ^ (turns + 1) →
        ∃ divisor, (magSubChecked larger smaller).bind (fun difference =>
          if difference = [] then some smaller else gcdLoop turns smaller difference) =
            some divisor ∧ Trimmed divisor ∧
          value divisor = Nat.gcd (value smaller) (value larger) := by
      intro smaller larger hsmaller hlarger hsmallerOdd hlargerOdd hle hproduct
      obtain ⟨difference, hdifference, htrimmed, hdifferenceValue⟩ :=
        magSubChecked_spec hlarger hsmaller hle
      have hdivisor : Nat.gcd (value smaller) (value larger) =
          Nat.gcd (value smaller) (value difference) := by
        rw [hdifferenceValue, Nat.gcd_sub_self_right hle]
      rw [hdifference, Option.bind_some, hdivisor]
      by_cases hempty : difference = []
      · refine ⟨smaller, by rw [if_pos hempty], hsmaller, ?_⟩
        rw [hempty, value_nil, Nat.gcd_zero_right]
      · rw [if_neg hempty]
        have hnonzero : value difference ≠ 0 := fun hzero =>
          hempty (htrimmed.value_eq_zero_iff.mp hzero)
        apply ih hsmaller hsmallerOdd hnonzero
        have hhalf := oddPart_le_half hnonzero (by omega)
        have hscaled : value smaller * (oddPart difference * 2) ≤ value smaller * value larger :=
          Nat.mul_le_mul_left _ (by omega)
        rw [pow_succ, ← Nat.mul_assoc] at *
        omega
    by_cases horder : magCmp u stripped = .gt
    · have hless := (magCmp_gt_iff hu hstrippedTrimmed).mp horder
      simp only [horder, if_true]
      rw [Nat.gcd_comm]
      exact hstep hstrippedTrimmed hu hpart hodd hless.le (by rw [Nat.mul_comm]; exact hturns)
    · have hle : value u ≤ value stripped := by
        by_contra hmore
        exact horder ((magCmp_gt_iff hu hstrippedTrimmed).mpr (Nat.lt_of_not_le hmore))
      simp only [horder, if_false]
      exact hstep hu hstrippedTrimmed hodd hpart hle hturns

theorem binaryGcd_spec {a b : Mag} (ha : Trimmed a) (hb : Trimmed b) (hpositive : value a ≠ 0) :
    ∃ divisor, binaryGcd a b = some divisor ∧ Trimmed divisor ∧
      value divisor = Nat.gcd (value a) (value b) := by
  unfold binaryGcd
  by_cases hnone : b = []
  · exact ⟨a, by rw [if_pos hnone], ha, by rw [hnone, value_nil, Nat.gcd_zero_right]⟩
  · have hb' : value b ≠ 0 := fun hzero => hnone (hb.value_eq_zero_iff.mp hzero)
    obtain ⟨hvalueA, hoddA⟩ := oddPart_spec hpositive
    obtain ⟨hvalueB, hoddB⟩ := oddPart_spec hb'
    obtain ⟨u, hu, huTrimmed, huValue⟩ := magShr_spec ha (magTrailingZeros a)
    have huPart : value u = oddPart a := huValue
    have hproduct : value u * oddPart b < 2 ^ (magBitLen u + magBitLen b) := by
      have hle : oddPart b ≤ value b := by
        conv_rhs => rw [hvalueB]
        exact Nat.le_mul_of_pos_left _ (Nat.two_pow_pos _)
      rw [magBitLen_eq huTrimmed, magBitLen_eq hb, pow_add]
      exact Nat.mul_lt_mul'' (Nat.lt_size_self _) (hle.trans_lt (Nat.lt_size_self _))
    obtain ⟨divisor, hdivisor, hdivisorTrimmed, hdivisorValue⟩ :=
      gcdLoop_spec huTrimmed (by rw [huPart]; exact hoddA) hb' hproduct
    obtain ⟨out, hout, houtTrimmed, houtValue⟩ :=
      magShl_spec hdivisorTrimmed (min (magTrailingZeros a) (magTrailingZeros b))
    refine ⟨out, ?_, houtTrimmed, ?_⟩
    · rw [if_neg hnone, hu, Option.bind_some, hdivisor, Option.bind_some, hout]
    · rw [houtValue, hdivisorValue, huPart]
      conv_lhs => rw [hvalueB, gcd_two_pow_mul hoddA]
      conv_rhs => rw [hvalueA, hvalueB, gcd_two_pow_mul_mul hoddA hoddB]

theorem reduceWide_spec {a b : Mag} (ha : Trimmed a) (hb : Trimmed b) (hpositive : value a ≠ 0)
    (hpositive' : value b ≠ 0) :
    ∃ reduced, reduceWide a b = some reduced ∧ Trimmed reduced.1 ∧ Trimmed reduced.2 ∧
      value reduced.1 ≠ 0 ∧
      Nat.gcd (value reduced.1) (value reduced.2) = Nat.gcd (value a) (value b) := by
  have hreduce : ∀ {long short divided : Mag} {left : Nat},
      value long = value divided * value short + left →
      Nat.gcd (value short) left = Nat.gcd (value long) (value short) := by
    intro long short divided left hvalue
    rw [hvalue, Nat.mul_comm, Nat.gcd_comm (value short * _ + left), Nat.gcd_mul_left_add_right]
  have hsome : ∀ {m : Mag}, value m ≠ 0 → m ≠ [] := by
    rintro m hm rfl
    exact hm rfl
  unfold reduceWide
  split
  · obtain ⟨divided, hdivided, _, htrimmed, hvalue, _⟩ := magDivRem_spec ha hb (hsome hpositive')
    exact ⟨(b, divided.2), by rw [hdivided]; rfl, hb, htrimmed, hpositive', hreduce hvalue⟩
  · split
    · obtain ⟨divided, hdivided, _, htrimmed, hvalue, _⟩ := magDivRem_spec hb ha (hsome hpositive)
      refine ⟨(a, divided.2), by rw [hdivided]; rfl, ha, htrimmed, hpositive, ?_⟩
      rw [Nat.gcd_comm (value a) (value b)]
      exact hreduce hvalue
    · exact ⟨(a, b), rfl, ha, hb, hpositive, rfl⟩

theorem magGcd_spec {a b : Mag} (ha : Trimmed a) (hb : Trimmed b) :
    ∃ divisor, magGcd a b = some divisor ∧ Trimmed divisor ∧
      value divisor = Nat.gcd (value a) (value b) := by
  unfold magGcd
  by_cases hnoneA : a = []
  · exact ⟨b, by rw [if_pos hnoneA], hb, by rw [hnoneA, value_nil, Nat.gcd_zero_left]⟩
  · by_cases hnoneB : b = []
    · refine ⟨a, by rw [if_neg hnoneA, if_pos hnoneB], ha, ?_⟩
      rw [hnoneB, value_nil, Nat.gcd_zero_right]
    · have hpositive : value a ≠ 0 := fun hzero => hnoneA (ha.value_eq_zero_iff.mp hzero)
      have hpositive' : value b ≠ 0 := fun hzero => hnoneB (hb.value_eq_zero_iff.mp hzero)
      rw [if_neg hnoneA, if_neg hnoneB]
      by_cases hone : (magIsOne a || magIsOne b) = true
      · have hunit : value [1] = 1 := by decide
        refine ⟨[1], by rw [if_pos hone], by decide, ?_⟩
        rw [Bool.or_eq_true, magIsOne_iff ha, magIsOne_iff hb] at hone
        rcases hone with hone | hone
        · rw [hone, Nat.gcd_one_left, hunit]
        · rw [hone, Nat.gcd_one_right, hunit]
      · rw [if_neg hone]
        simp only [magToU128_spec]
        have hwide : ∃ divisor, (reduceWide a b).bind (fun reduced =>
            binaryGcd reduced.1 reduced.2) = some divisor ∧ Trimmed divisor ∧
              value divisor = Nat.gcd (value a) (value b) := by
          obtain ⟨reduced, hreduced, hfirst, hsecond, hnonzero, hgcd⟩ :=
            reduceWide_spec ha hb hpositive hpositive'
          rw [hreduced, Option.bind_some, ← hgcd]
          exact binaryGcd_spec hfirst hsecond hnonzero
        by_cases hshort : a.length ≤ 2 ∧ b.length ≤ 2
        · have hbound : Nat.gcd (value a) (value b) < radix ^ 2 := by
            apply Nat.lt_of_le_of_lt (Nat.gcd_le_left _ (Nat.pos_of_ne_zero hpositive))
            exact (value_lt a).trans_le (Nat.pow_le_pow_right radix_pos hshort.1)
          obtain ⟨hvalue, htrimmed, _⟩ := magFromU128_spec hbound
          rw [if_pos hshort.1, if_pos hshort.2]
          refine ⟨_, rfl, ?_, ?_⟩
          · rw [wideGcd_eq]
            exact htrimmed
          · rw [wideGcd_eq, hvalue]
        · by_cases hshortA : a.length ≤ 2
          · rw [if_pos hshortA, if_neg (fun hshortB => hshort ⟨hshortA, hshortB⟩)]
            exact hwide
          · rw [if_neg hshortA]
            exact hwide

end Purrdf.BigInteger
