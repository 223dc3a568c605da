import Mathlib.Order.Compare
import Purrdf.Magnitude

/-!
# Sums, differences and products of magnitudes

Each loop keeps one equation between the limbs written, the limbs left and what is carried.
-/

namespace Purrdf.BigInteger

open Limbs

/-! ### The order -/

theorem compare_limbs (x y : UInt64) : compare x y = compare x.toNat y.toNat := by
  simp only [compare, compareOfLessAndEq, UInt64.lt_iff_toNat_lt, UInt64.toNat_inj]

theorem compare_high {low low' bound : Nat} (hlow : low < bound) (hlow' : low' < bound)
    (high high' : Nat) :
    compare (low + bound * high) (low' + bound * high') =
      (compare high high').then (compare low low') := by
  rcases Nat.lt_trichotomy high high' with hlt | rfl | hgt
  · have hstep : bound * high + bound ≤ bound * high' := by
      rw [← Nat.mul_succ]
      exact Nat.mul_le_mul_left bound hlt
    rw [compare_lt_iff_lt.mpr hlt]
    exact compare_lt_iff_lt.mpr (by omega)
  · rw [compare_eq_iff_eq.mpr rfl, Ordering.then]
    simp only [compare, compareOfLessAndEq, Nat.add_lt_add_iff_right, Nat.add_right_cancel_iff]
  · have hstep : bound * high' + bound ≤ bound * high := by
      rw [← Nat.mul_succ]
      exact Nat.mul_le_mul_left bound hgt
    rw [compare_gt_iff_gt.mpr hgt]
    exact compare_gt_iff_gt.mpr (by omega)

variable {a b : Mag}

theorem compareWords_reverse (hlength : a.length = b.length) :
    compareWords a.reverse b.reverse = compare (value a) (value b) := by
  induction a using List.reverseRecOn generalizing b with
  | nil =>
    obtain rfl := List.length_eq_zero_iff.mp hlength.symm
    rfl
  | append_singleton a x ih =>
    obtain ⟨b, y, rfl⟩ := (List.eq_nil_or_concat' b).resolve_left (by
      rintro rfl
      simp at hlength)
    have hrest : a.length = b.length := by simpa using hlength
    have ha := value_lt a
    have hb := value_lt b
    rw [← hrest] at hb
    rw [value_append, value_append, ← hrest]
    simp only [List.reverse_append, List.reverse_singleton, List.singleton_append, compareWords,
      value_cons, value_nil, Nat.mul_zero, Nat.add_zero]
    rw [ih hrest, compare_high ha hb, compare_limbs]

theorem magCmp_of_length_eq (hlength : a.length = b.length) :
    magCmp a b = compare (value a) (value b) := by
  rw [magCmp, hlength, compare_eq_iff_eq.mpr rfl, Ordering.then, compareWords_reverse hlength]

theorem magCmp_eq (ha : Trimmed a) (hb : Trimmed b) :
    magCmp a b = compare (value a) (value b) := by
  rcases Nat.lt_trichotomy a.length b.length with hlt | heq | hgt
  · have hvalue : value a < value b := by
      by_contra hnot
      have hle := hb.length_le_of_value_le (Nat.le_of_not_lt hnot)
      omega
    rw [magCmp, compare_lt_iff_lt.mpr hlt, compare_lt_iff_lt.mpr hvalue]
    rfl
  · exact magCmp_of_length_eq heq
  · have hvalue : value b < value a := by
      by_contra hnot
      have hle := ha.length_le_of_value_le (Nat.le_of_not_lt hnot)
      omega
    rw [magCmp, compare_gt_iff_gt.mpr hgt, compare_gt_iff_gt.mpr hvalue]
    rfl

theorem magCmp_lt_iff (ha : Trimmed a) (hb : Trimmed b) :
    magCmp a b = .lt ↔ value a < value b := by
  rw [magCmp_eq ha hb, compare_lt_iff_lt]

theorem magCmp_gt_iff (ha : Trimmed a) (hb : Trimmed b) :
    magCmp a b = .gt ↔ value b < value a := by
  rw [magCmp_eq ha hb, compare_gt_iff_gt]

/-! ### Small magnitudes -/

@[simp] theorem value_magTrim (m : Mag) : value (magTrim m) = value m :=
  value_trim m

theorem magFromU64_spec (v : UInt64) :
    value (magFromU64 v) = v.toNat ∧ Trimmed (magFromU64 v) ∧ (magFromU64 v).length ≤ 1 := by
  unfold magFromU64
  by_cases hv : v = 0
  · simp [hv, trimmed_nil]
  · simp [hv, Trimmed]

theorem magFromU128_spec {v : Nat} (hv : v < radix ^ 2) :
    value (magFromU128 v) = v ∧ Trimmed (magFromU128 v) ∧ (magFromU128 v).length ≤ 2 := by
  have hhigh : v / radix < radix := by
    rw [Nat.div_lt_iff_lt_mul radix_pos, ← pow_two]
    exact hv
  have hlow := Nat.mod_add_div v radix
  unfold magFromU128
  by_cases hzero : UInt64.ofNat (v / radix) = 0
  · have hquotient : v / radix = 0 := by
      rw [← toNat_ofNat_of_lt hhigh, hzero]
      rfl
    have hspec := magFromU64_spec (UInt64.ofNat v)
    rw [toNat_ofNat] at hspec
    rw [hquotient, Nat.mul_zero, Nat.add_zero] at hlow
    simp only [hzero, if_true]
    exact ⟨hspec.1.trans hlow, hspec.2.1, by omega⟩
  · simp only [hzero, if_false]
    refine ⟨?_, by simpa [Trimmed] using hzero, by simp⟩
    simp only [value_cons, value_nil, toNat_ofNat, Nat.mod_eq_of_lt hhigh, Nat.mul_zero,
      Nat.add_zero]
    exact hlow

theorem magToU128_spec (a : Mag) :
    magToU128 a = if a.length ≤ 2 then some (value a) else none := by
  match a with
  | [] => rfl
  | [lo] => simp [magToU128]
  | [lo, hi] =>
    have hor := Nat.shiftLeft_add_eq_or_of_lt (limb_lt lo) hi.toNat
    simp only [magToU128, value_cons, value_nil, List.length_cons, List.length_nil]
    rw [Nat.or_comm, ← hor, Nat.shiftLeft_eq]
    simp [radix, Nat.add_comm, Nat.mul_comm]
  | _ :: _ :: _ :: rest => simp [magToU128]

theorem magToU64_spec (a : Mag) {limb : UInt64} (hlimb : magToU64 a = some limb) :
    value a = limb.toNat := by
  match a, hlimb with
  | [], hlimb =>
    obtain rfl := Option.some.inj hlimb
    rfl
  | [_], hlimb =>
    obtain rfl := Option.some.inj hlimb
    simp
  | _ :: _ :: _, hlimb => exact absurd hlimb (by simp [magToU64])

theorem magIsOne_iff {a : Mag} (ha : Trimmed a) : magIsOne a = true ↔ value a = 1 := by
  have hone : Trimmed [1] := by simp [Trimmed]
  rw [magIsOne, beq_iff_eq]
  constructor
  · rintro rfl
    rfl
  · intro hvalue
    exact ha.eq_of_value hone hvalue

/-! ### Sums -/

theorem digit_carry (n : Nat) : (UInt64.ofNat n).toNat + radix * (n / radix) = n := by
  rw [toNat_ofNat, Nat.mod_add_div]

theorem toNat_carry {n bound : Nat} (hbound : bound ≤ radix) (hn : n < radix * bound) :
    (UInt64.ofNat (n / radix)).toNat = n / radix ∧ n / radix < bound := by
  have hquotient : n / radix < bound := by
    rwa [Nat.div_lt_iff_lt_mul radix_pos, Nat.mul_comm]
  exact ⟨toNat_ofNat_of_lt (Nat.lt_of_lt_of_le hquotient hbound), hquotient⟩

theorem value_head_tail (a : Mag) :
    ((a[0]?).getD 0).toNat + radix * value a.tail = value a := by
  cases a <;> simp

theorem addFrom_value {carry : UInt64} (hcarry : carry.toNat < 2) {long short : Mag}
    (hlength : short.length ≤ long.length) :
    value (addFrom carry long short) = value long + value short + carry.toNat := by
  induction long generalizing short carry with
  | nil =>
    obtain rfl := List.length_eq_zero_iff.mp (Nat.le_zero.mp hlength)
    by_cases hzero : carry = 0 <;> simp [addFrom, hzero]
  | cons la long ih =>
    have hla := limb_lt la
    have hlb := limb_lt ((short[0]?).getD 0)
    have hsplit := value_head_tail short
    have htail : short.tail.length ≤ long.length := by
      rw [List.length_tail]
      simpa using hlength
    simp only [addFrom, value_cons]
    generalize hsum : la.toNat + ((short[0]?).getD 0).toNat + carry.toNat = sum
    have hnext := toNat_carry one_lt_radix (show sum < radix * 2 by omega)
    have hcarried : (UInt64.ofNat (sum / radix)).toNat < 2 := by
      rw [hnext.1]
      exact hnext.2
    rw [ih hcarried htail, hnext.1]
    linear_combination digit_carry sum + hsplit - hsum

theorem addFrom_shape (carry : UInt64) (long short : Mag) : ∃ front top,
    addFrom carry long short = front ++ (if top ≠ 0 then [top] else []) ∧
      front.length = long.length := by
  induction long generalizing short carry with
  | nil => exact ⟨[], carry, by simp [addFrom], rfl⟩
  | cons la long ih =>
    obtain ⟨front, top, hfront, hlength⟩ := ih (UInt64.ofNat
      ((la.toNat + ((short[0]?).getD 0).toNat + carry.toNat) / radix)) short.tail
    refine ⟨UInt64.ofNat (la.toNat + ((short[0]?).getD 0).toNat + carry.toNat) :: front, top, ?_,
      by rw [List.length_cons, hlength, List.length_cons]⟩
    simp only [addFrom, hfront, List.cons_append]

theorem addFrom_trimmed {long short : Mag} (hlength : short.length ≤ long.length)
    (hlong : Trimmed long) : Trimmed (addFrom 0 long short) := by
  have hvalue := addFrom_value (show (0 : UInt64).toNat < 2 by decide) hlength
  obtain ⟨front, top, hfront, hcount⟩ := addFrom_shape 0 long short
  by_cases htop : top = 0
  · rw [htop] at hfront
    simp only [ne_eq, not_true_eq_false, if_false, List.append_nil] at hfront
    cases hn : long.length with
    | zero =>
      rw [hn, List.length_eq_zero_iff] at hcount
      rw [hfront, hcount]
      exact trimmed_nil
    | succ n =>
      refine trimmed_of_pow_le (n := n) (by rw [hfront, hcount, hn]) ?_
      have hlow := hlong.pow_le hn
      omega
  · rw [hfront, if_pos htop, trimmed_append_singleton]
    exact htop

theorem magAdd_value (a b : Mag) : value (magAdd a b) = value a + value b := by
  unfold magAdd
  split
  · rename_i hlength
    simpa using addFrom_value (show (0 : UInt64).toNat < 2 by decide) hlength
  · rename_i hlength
    have hsum := addFrom_value (show (0 : UInt64).toNat < 2 by decide) (Nat.le_of_not_le hlength)
    rw [hsum, Nat.add_comm (value b)]
    simp

theorem magAdd_trimmed (ha : Trimmed a) (hb : Trimmed b) :
    Trimmed (magAdd a b) := by
  unfold magAdd
  split
  · rename_i hlength
    exact addFrom_trimmed hlength ha
  · exact addFrom_trimmed (by omega) hb

theorem magAdd_length_le (a b : Mag) :
    (magAdd a b).length ≤ max a.length b.length + 1 := by
  have hshape : ∀ long short, (addFrom 0 long short).length ≤ long.length + 1 := by
    intro long short
    obtain ⟨front, top, hfront, hcount⟩ := addFrom_shape 0 long short
    rw [hfront, List.length_append, hcount]
    split <;> simp
  unfold magAdd
  split
  · exact (hshape a b).trans (by omega)
  · exact (hshape b a).trans (by omega)

/-! ### Differences -/

theorem sub_step (limb taken : UInt64) (borrow : Bool) :
    (limb - taken - borrow.toUInt64).toNat + taken.toNat + borrow.toNat =
      limb.toNat +
        radix * (decide (limb < taken) || decide (limb - taken < borrow.toUInt64)).toNat := by
  have hlimb := limb.toNat_lt
  have htaken := taken.toNat_lt
  have hborrow : borrow.toUInt64.toNat = borrow.toNat ∧ borrow.toNat < 2 := by
    cases borrow <;> decide
  have hpart := UInt64.toNat_sub limb taken
  have hdifference := UInt64.toNat_sub (limb - taken) borrow.toUInt64
  rw [hborrow.1] at hdifference
  rw [hdifference]
  simp only [UInt64.lt_iff_toNat_lt, hborrow.1, radix]
  by_cases hfirst : limb.toNat < taken.toNat
  · simp only [hfirst, decide_true, Bool.true_or, Bool.toNat_true]
    omega
  · by_cases hsecond : (limb - taken).toNat < borrow.toNat
    · simp only [hsecond, decide_true, Bool.or_true, Bool.toNat_true]
      omega
    · simp only [hfirst, hsecond, decide_false, Bool.or_false, Bool.toNat_false]
      omega

theorem subFrom_value (hlength : b.length ≤ a.length) (borrow : Bool) :
    value (subFrom borrow a b).1 + value b + borrow.toNat =
      value a + radix ^ a.length * (subFrom borrow a b).2.toNat := by
  induction a generalizing b borrow with
  | nil =>
    obtain rfl := List.length_eq_zero_iff.mp (Nat.le_zero.mp hlength)
    simp [subFrom]
  | cons limb a ih =>
    have hsplit := value_head_tail b
    have htail : b.tail.length ≤ a.length := by
      rw [List.length_tail]
      simpa using hlength
    have hstep := sub_step limb ((b[0]?).getD 0) borrow
    simp only [subFrom, value_cons, List.length_cons]
    generalize (decide (limb < (b[0]?).getD 0) ||
      decide (limb - (b[0]?).getD 0 < borrow.toUInt64)) = next at hstep ⊢
    linear_combination hstep - hsplit + radix * ih htail next

theorem subFrom_length (borrow : Bool) (a b : Mag) :
    (subFrom borrow a b).1.length = a.length := by
  induction a generalizing b borrow with
  | nil => rfl
  | cons limb a ih => simp [subFrom, ih]

theorem subFrom_borrow (hlength : b.length ≤ a.length) (hle : value b ≤ value a) :
    (subFrom false a b).2 = false := by
  have hvalue := subFrom_value hlength false
  have hbound := value_lt (subFrom false a b).1
  rw [subFrom_length] at hbound
  by_contra hborrow
  rw [Bool.not_eq_false] at hborrow
  simp only [hborrow, Bool.toNat_false, Bool.toNat_true] at hvalue
  omega

theorem magSubInPlace_value (hlength : b.length ≤ a.length) (hle : value b ≤ value a) :
    value (magSubInPlace a b) = value a - value b := by
  have hvalue := subFrom_value hlength false
  simp only [subFrom_borrow hlength hle, Bool.toNat_false] at hvalue
  rw [magSubInPlace, magTrim, value_trim]
  omega

theorem magSubInPlace_trimmed (a b : Mag) : Trimmed (magSubInPlace a b) :=
  trimmed_trim _

theorem mulRow_value (ai carry : UInt64) {b low : Mag} (hlength : low.length = b.length)
    (slot : UInt64) (rest : Mag) : ∃ row, mulRow ai carry b (low ++ slot :: rest) =
        some (row ++ rest) ∧ row.length = b.length + 1 ∧
      value row = ai.toNat * value b + value low + carry.toNat := by
  induction b generalizing low carry with
  | nil =>
    obtain rfl := List.length_eq_zero_iff.mp hlength
    exact ⟨[carry], rfl, rfl, by simp⟩
  | cons bj b ih =>
    obtain ⟨word, low, rfl⟩ := List.exists_cons_of_length_eq_add_one hlength
    have hcount : low.length = b.length := by simpa using hlength
    simp only [List.cons_append, mulRow]
    generalize hcur : ai.toNat * bj.toNat + word.toNat + carry.toNat = cur
    have hfits : cur < radix * radix := by
      have hproduct := Nat.mul_le_mul (Nat.le_sub_one_of_lt (limb_lt ai))
        (Nat.le_sub_one_of_lt (limb_lt bj))
      have hword := limb_lt word
      have hcarry := limb_lt carry
      unfold radix at hproduct hword hcarry ⊢
      omega
    have hnext := toNat_carry (Nat.le_refl radix) hfits
    obtain ⟨row, hrow, hrowLength, hrowValue⟩ := ih (UInt64.ofNat (cur / radix)) hcount
    refine ⟨UInt64.ofNat cur :: row, by rw [hrow]; rfl, by simp [hrowLength], ?_⟩
    rw [hnext.1] at hrowValue
    simp only [value_cons]
    linear_combination radix * hrowValue + digit_carry cur - hcur

theorem writeMul_value {b low : Mag} (hlength : low.length = b.length) (a : Mag) :
    ∃ product, writeMul a b (low ++ List.replicate a.length 0) = some product ∧
      product.length = a.length + b.length ∧ value product = value a * value b + value low := by
  induction a generalizing low with
  | nil =>
    refine ⟨low, by simp [writeMul], by simp [hlength], by simp⟩
  | cons ai a ih =>
    have hrow : ∃ row, (if ai = 0 then some (low ++ List.replicate (ai :: a).length 0)
        else mulRow ai 0 b (low ++ List.replicate (ai :: a).length 0)) =
          some (row ++ List.replicate a.length 0) ∧ row.length = b.length + 1 ∧
        value row = ai.toNat * value b + value low := by
      by_cases hzero : ai = 0
      · refine ⟨low ++ [0], ?_, by simp [hlength], by simp [hzero, value_append]⟩
        rw [if_pos hzero, List.length_cons, List.replicate_succ, List.append_assoc]
        rfl
      · obtain ⟨row, hwritten, hrowLength, hrowValue⟩ :=
          mulRow_value ai 0 hlength 0 (List.replicate a.length 0)
        refine ⟨row, ?_, hrowLength, by simpa using hrowValue⟩
        rw [if_neg hzero, List.length_cons, List.replicate_succ, hwritten]
    obtain ⟨row, hwritten, hrowLength, hrowValue⟩ := hrow
    obtain ⟨word, row, rfl⟩ := List.exists_cons_of_length_eq_add_one hrowLength
    obtain ⟨product, hproduct, hcount, hvalue⟩ := ih (by simpa using hrowLength)
    simp only [value_cons] at hrowValue
    refine ⟨word :: product, ?_, by simp [hcount]; omega, ?_⟩
    · rw [writeMul, hwritten]
      simp [hproduct]
    · simp only [value_cons]
      linear_combination radix * hvalue + hrowValue

theorem magMul_value (a b : Mag) :
    ∃ product, magMul a b = some product ∧ Trimmed product ∧
      value product = value a * value b := by
  obtain ⟨product, hproduct, _, hvalue⟩ :=
    @writeMul_value b (List.replicate b.length 0) (by simp) a
  rw [List.replicate_append_replicate, Nat.add_comm b.length] at hproduct
  have hlong : ∃ product, (writeMul a b (List.replicate (a.length + b.length) 0)).map magTrim =
      some product ∧ Trimmed product ∧ value product = value a * value b :=
    ⟨magTrim product, by rw [hproduct]; rfl, trimmed_trim product, by simp [magTrim, hvalue]⟩
  unfold magMul
  split
  · rename_i hempty
    refine ⟨[], rfl, trimmed_nil, ?_⟩
    rcases hempty with rfl | rfl <;> simp
  · split
    · rename_i x y hx hy
      have hfits : x.toNat * y.toNat < radix ^ 2 := by
        rw [pow_two]
        exact Nat.mul_lt_mul'' (limb_lt x) (limb_lt y)
      have hspec := magFromU128_spec hfits
      exact ⟨_, rfl, hspec.2.1, by rw [hspec.1, magToU64_spec a hx, magToU64_spec b hy]⟩
    · exact hlong

theorem divRemWord_value {divisor : Nat} (hdivisor : 0 < divisor) (hfits : divisor ≤ radix)
    (a : Mag) : value (divRemWord divisor a).1 * divisor + (divRemWord divisor a).2 = value a ∧
      (divRemWord divisor a).2 < divisor := by
  induction a with
  | nil => simpa [divRemWord] using hdivisor
  | cons word words ih =>
    obtain ⟨hvalue, hremainder⟩ := ih
    simp only [divRemWord, value_cons]
    generalize hcurrent : (divRemWord divisor words).2 * radix + word.toNat = current
    have hquotient : current / divisor < radix := by
      have hword := limb_lt word
      rw [Nat.div_lt_iff_lt_mul hdivisor, ← hcurrent]
      calc (divRemWord divisor words).2 * radix + word.toNat
          < (divRemWord divisor words).2 * radix + radix := by omega
        _ = ((divRemWord divisor words).2 + 1) * radix := by ring
        _ ≤ divisor * radix := Nat.mul_le_mul_right radix hremainder
        _ = radix * divisor := Nat.mul_comm _ _
    refine ⟨?_, Nat.mod_lt current hdivisor⟩
    rw [toNat_ofNat_of_lt hquotient]
    linear_combination radix * hvalue + Nat.div_add_mod current divisor - hcurrent

theorem magDivmodSmall_spec {divisor : UInt64} (hdivisor : divisor ≠ 0) (a : Mag) :
    ∃ quotient remainder, magDivmodSmall a divisor = some (quotient, remainder) ∧
      Trimmed quotient ∧ value quotient * divisor.toNat + remainder.toNat = value a ∧
      remainder.toNat < divisor.toNat := by
  have hpositive : 0 < divisor.toNat :=
    Nat.pos_of_ne_zero fun hzero => hdivisor (UInt64.toNat_inj.mp hzero)
  obtain ⟨hvalue, hremainder⟩ := divRemWord_value hpositive (limb_lt divisor).le a
  have hlimb := toNat_ofNat_of_lt (hremainder.trans (limb_lt divisor))
  refine ⟨magTrim (divRemWord divisor.toNat a).1, UInt64.ofNat (divRemWord divisor.toNat a).2,
    if_neg hdivisor, trimmed_trim _, ?_, ?_⟩
  · rw [magTrim, value_trim, hlimb, hvalue]
  · rw [hlimb]
    exact hremainder

end Purrdf.BigInteger
