import Purrdf.DivisionExact

/-!
# Every route divides exactly

A small quotient or divisor has a route of its own, and any other pair of operands is shifted so
that the divisor is normalized. The block route is an assumption here.
-/

namespace Purrdf.BigInteger

open Limbs

def Divides (divided : Option (Mag × Mag)) (a b : Mag) : Prop :=
  ∃ result, divided = some result ∧ Trimmed result.1 ∧ Trimmed result.2 ∧
    value a = value result.1 * value b + value result.2 ∧ value result.2 < value b

theorem magDivRemBy_of_lt (blocks : Mag → Mag → Option (Mag × Mag)) {a b : Mag} (ha : Trimmed a)
    (hb : Trimmed b) (hless : value a < value b) : Divides (magDivRemBy blocks a b) a b := by
  refine ⟨([], a), ?_, trimmed_nil, ha, by simp, hless⟩
  unfold magDivRemBy
  rw [if_pos ((magCmp_lt_iff ha hb).mpr hless)]

theorem magDivRemBy_one_limb_spec (blocks : Mag → Mag → Option (Mag × Mag)) {a : Mag}
    (ha : Trimmed a) {divisor : UInt64} (hdivisor : divisor ≠ 0) :
    Divides (magDivRemBy blocks a [divisor]) a [divisor] := by
  have hb : Trimmed [divisor] := by simpa [Trimmed] using hdivisor
  by_cases hless : value a < value [divisor]
  · exact magDivRemBy_of_lt blocks ha hb hless
  · obtain ⟨quotient, remainder, hdivided, htrimmed, hvalue, hremainder⟩ :=
      magDivmodSmall_spec hdivisor a
    obtain ⟨hsmall, hsmallTrimmed, _⟩ := magFromU64_spec remainder
    refine ⟨(quotient, magFromU64 remainder), ?_, htrimmed, hsmallTrimmed, ?_, ?_⟩
    · rw [magDivRemBy, if_neg (fun hcmp => hless ((magCmp_lt_iff ha hb).mp hcmp))]
      simp only [hdivided, Option.map_some]
    · simp only [hsmall, value_cons, value_nil, Nat.mul_zero, Nat.add_zero]
      exact hvalue.symm
    · simpa [hsmall] using hremainder

theorem small_division {x y : Nat} (hx : x < radix ^ 2) (hy : 0 < y) :
    value (magFromU128 (x / y)) * y + value (magFromU128 (x % y)) = x ∧
      value (magFromU128 (x % y)) < y := by
  have hquotient := (magFromU128_spec (Nat.lt_of_le_of_lt (Nat.div_le_self x y) hx)).1
  have hremainder := (magFromU128_spec (Nat.lt_of_le_of_lt (Nat.mod_le x y) hx)).1
  rw [hquotient, hremainder]
  exact ⟨Nat.div_add_mod' x y, Nat.mod_lt x hy⟩

theorem value_of_trailingZeros {b : Mag} (hb : Trimmed b) (hpositive : 0 < value b)
    (hpower : magTrailingZeros b + 1 = magBitLen b) : value b = 2 ^ magTrailingZeros b := by
  obtain ⟨hdvd, hodd⟩ := magTrailingZeros_spec (Nat.ne_of_gt hpositive)
  obtain ⟨rest, hrest⟩ := hdvd
  rw [magBitLen_eq hb] at hpower
  have hsize : value b < 2 ^ (magTrailingZeros b + 1) := by
    rw [← Nat.size_le, hpower]
  have hquotient : value b / 2 ^ magTrailingZeros b = rest := by
    rw [hrest, Nat.mul_div_cancel_left _ (Nat.two_pow_pos _)]
  have hsmall : rest < 2 := by
    rw [hrest, pow_succ] at hsize
    exact Nat.lt_of_mul_lt_mul_left hsize
  have hone : rest = 1 := by omega
  rw [hrest, hone, Nat.mul_one]

theorem masked_value (a : Mag) (power : Nat) :
    value (if power % 64 ≠ 0 ∧
        power / 64 < (a.take (power / 64 + if power % 64 ≠ 0 then 1 else 0)).length then
      (a.take (power / 64 + if power % 64 ≠ 0 then 1 else 0)).modify (power / 64)
        (· &&& ((1 : UInt64) <<< UInt64.ofNat (power % 64) - 1))
      else a.take (power / 64 + if power % 64 ≠ 0 then 1 else 0)) = value a % 2 ^ power := by
  have hbits : power % 64 < 64 := Nat.mod_lt _ (by decide)
  have hpower : 2 ^ power = radix ^ (power / 64) * 2 ^ (power % 64) := by
    rw [radix_pow, ← pow_add, Nat.div_add_mod]
  by_cases haligned : power % 64 = 0
  · rw [haligned, pow_zero, Nat.mul_one] at hpower
    simp only [haligned, ne_eq, not_true_eq_false, false_and, if_false, Nat.add_zero]
    rw [value_take, hpower]
  · simp only [ne_eq, haligned, not_false_eq_true, true_and, if_true]
    by_cases hinside : power / 64 < a.length
    · obtain ⟨limb, hlimb⟩ := getElem?_of_lt hinside
      have hfront : (a.take (power / 64)).length = power / 64 := by
        rw [List.length_take]
        omega
      have htaken : a.take (power / 64 + 1) = a.take (power / 64) ++ [limb] := by
        rw [List.take_add_one, hlimb]
        rfl
      have hmask : (limb &&& ((1 : UInt64) <<< UInt64.ofNat (power % 64) - 1)).toNat =
          limb.toNat % 2 ^ (power % 64) := by
        have hone : ((1 : UInt64) <<< UInt64.ofNat (power % 64)).toNat = 2 ^ (power % 64) := by
          have hfits : 2 ^ (power % 64) < radix :=
            Nat.pow_lt_pow_right (by decide) hbits
          have hliteral : (1 : UInt64).toNat = 1 := rfl
          rw [toNat_shiftLeft hbits, hliteral, Nat.one_mul, Nat.mod_eq_of_lt hfits]
        have hpositive := Nat.two_pow_pos (power % 64)
        have hless : (1 : UInt64) ≤ (1 : UInt64) <<< UInt64.ofNat (power % 64) := by
          rw [UInt64.le_iff_toNat_le, hone]
          exact hpositive
        rw [UInt64.toNat_and, UInt64.toNat_sub_of_le _ _ hless, hone]
        exact Nat.and_two_pow_sub_one_eq_mod _ _
      have hlimbValue : limb.toNat = value a / radix ^ (power / 64) % radix := by
        rw [← getElem?_value, hlimb, Option.getD_some]
      have hdvd : 2 ^ (power % 64) ∣ radix := Nat.pow_dvd_pow 2 hbits.le
      have hlong : power / 64 < (a.take (power / 64 + 1)).length := by
        rw [List.length_take]
        omega
      have hmodified : (a.take (power / 64 + 1)).modify (power / 64)
          (· &&& ((1 : UInt64) <<< UInt64.ofNat (power % 64) - 1)) =
            a.take (power / 64) ++ [limb &&& ((1 : UInt64) <<< UInt64.ofNat (power % 64) - 1)] := by
        have hlast : (a.take (power / 64 + 1))[power / 64] = limb := by
          rw [List.getElem_take]
          exact (List.getElem?_eq_some_iff.mp hlimb).2
        rw [List.modify_eq_take_cons_drop hlong, hlast, List.take_take,
          Nat.min_eq_left (Nat.le_succ _), List.drop_eq_nil_of_le (List.length_take_le _ _)]
      rw [if_pos hlong, hmodified, value_append, hfront, value_cons, value_nil, hmask, value_take,
        hlimbValue, Nat.mod_mod_of_dvd _ hdvd, hpower, Nat.mod_mul, Nat.mul_zero, Nat.add_zero]
    · have hall : a.take (power / 64 + 1) = a := List.take_of_length_le (by omega)
      rw [hall, if_neg hinside, Nat.mod_eq_of_lt]
      calc value a < radix ^ a.length := value_lt a
        _ ≤ radix ^ (power / 64) := Nat.pow_le_pow_right radix_pos (by omega)
        _ ≤ 2 ^ power := by
            rw [hpower]
            exact Nat.le_mul_of_pos_right _ (Nat.two_pow_pos _)

theorem divideByPower_spec {a b : Mag} (ha : Trimmed a) {power : Nat}
    (hb : value b = 2 ^ power) : Divides (divideByPower a power) a b := by
  obtain ⟨quotient, hquotient, htrimmed, hvalue⟩ := magShr_spec ha power
  refine ⟨(quotient, magTrim (if power % 64 ≠ 0 ∧
    power / 64 < (a.take (power / 64 + if power % 64 ≠ 0 then 1 else 0)).length then
      (a.take (power / 64 + if power % 64 ≠ 0 then 1 else 0)).modify (power / 64)
        (· &&& ((1 : UInt64) <<< UInt64.ofNat (power % 64) - 1))
      else a.take (power / 64 + if power % 64 ≠ 0 then 1 else 0))), ?_, htrimmed,
    trimmed_trim _, ?_, ?_⟩
  · rw [divideByPower, hquotient]
    rfl
  · rw [value_magTrim, masked_value, hvalue, hb, Nat.div_add_mod']
  · rw [value_magTrim, masked_value, hb]
    exact Nat.mod_lt _ (Nat.two_pow_pos _)

/-- The shift that moves a divisor's highest bit to the end of its highest limb. -/
theorem normalizing_shift {b : Mag} (hb : Trimmed b) {top : UInt64}
    (htop : b[b.length - 1]? = some top) :
    radix ^ b.length ≤ 2 * (value b * 2 ^ leadingZeros top) ∧
      value b * 2 ^ leadingZeros top < radix ^ b.length := by
  have hinside : b.length - 1 < b.length := (List.getElem?_eq_some_iff.mp htop).1
  have hlast : b.getLast? = some top := by
    rw [List.getLast?_eq_getElem?, htop]
  have hsize := magBitLen_eq hb
  have hlimb := size_limb_le top
  have hpositive : 0 < value b := by
    apply Nat.pos_of_ne_zero
    intro hzero
    rw [hb.value_eq_zero_iff.mp hzero] at hinside
    exact Nat.not_lt_zero _ hinside
  have hbits : (value b).size + leadingZeros top = 64 * b.length := by
    rw [← hsize, magBitLen, hlast]
    unfold leadingZeros
    have htopPositive : 0 < top.toNat := by
      apply Nat.pos_of_ne_zero
      intro hzero
      have hnone : top = 0 := UInt64.toNat_inj.mp hzero
      exact hb (by rw [hlast, hnone])
    simp only
    omega
  have hupper : value b < 2 ^ (value b).size := Nat.lt_size_self (value b)
  have hlower : 2 ^ ((value b).size - 1) ≤ value b :=
    Nat.lt_size.mp (Nat.sub_one_lt (Nat.ne_of_gt (Nat.size_pos.mpr hpositive)))
  have hsizePositive := Nat.size_pos.mpr hpositive
  rw [radix_pow, ← hbits, pow_add]
  refine ⟨?_, Nat.mul_lt_mul_of_pos_right hupper (Nat.two_pow_pos _)⟩
  rw [← Nat.mul_assoc]
  apply Nat.mul_le_mul_right
  calc 2 ^ (value b).size = 2 * 2 ^ ((value b).size - 1) := by
        rw [← pow_succ', Nat.sub_add_cancel hsizePositive]
    _ ≤ 2 * value b := Nat.mul_le_mul_left 2 hlower

theorem undo_shift {a b quotient remainder scale : Nat} (hscale : 0 < scale)
    (hvalue : a * scale = quotient * (b * scale) + remainder) (hremainder : remainder < b * scale) :
    a = quotient * b + remainder / scale ∧ remainder / scale < b := by
  have hdvd : scale ∣ remainder := by
    have hleft : scale ∣ quotient * (b * scale) + remainder := by
      rw [← hvalue]
      exact Nat.dvd_mul_left _ _
    exact (Nat.dvd_add_right ((Nat.dvd_mul_left _ _).mul_left _)).mp hleft
  obtain ⟨rest, rfl⟩ := hdvd
  rw [Nat.mul_div_cancel_left _ hscale]
  constructor
  · apply Nat.eq_of_mul_eq_mul_right hscale
    rw [hvalue]
    ring
  · rw [Nat.mul_comm] at hremainder
    exact Nat.lt_of_mul_lt_mul_right hremainder

theorem divideShifted_spec {a b : Mag} (hb : Trimmed b) (hlength : 2 ≤ b.length)
    (hle : value b ≤ value a) {top : UInt64} (htop : b[b.length - 1]? = some top) :
    Divides (divideShifted a b (leadingZeros top) (a.length - b.length + 1)
      (List.replicate (a.length + 1) 0) (List.replicate b.length 0)) a b := by
  have hcount : b.length ≤ a.length := hb.length_le_of_value_le hle
  obtain ⟨hhalf, hfits⟩ := normalizing_shift hb htop
  have hshift : leadingZeros top < 64 := by
    have htopPositive : 0 < top.toNat := by
      apply Nat.pos_of_ne_zero
      intro hzero
      have hnone : top = 0 := UInt64.toNat_inj.mp hzero
      exact hb (by rw [List.getLast?_eq_getElem?, htop, hnone])
    have hsize := Nat.size_pos.mpr htopPositive
    unfold leadingZeros
    omega
  generalize leadingZeros top = shift at *
  have hpower := Nat.two_pow_pos shift
  obtain ⟨numerator, hnumerator, hnumeratorLength, hnumeratorValue⟩ := writeShl_guard hshift a
  obtain ⟨divisor, hdivisor, hdivisorLength, hdivisorValue⟩ := writeShl_exact hshift hfits
  have hnormalized : Normalized divisor :=
    ⟨by omega, by rw [hdivisorLength, hdivisorValue]; exact hhalf⟩
  obtain ⟨divided, hdivided, _, hleftLength, hvalue, hremainder⟩ :=
    @divideNormalized_spec numerator divisor hnormalized (a.length - b.length + 1) (by omega) (by
      rw [value_drop, hnumeratorValue, hdivisorValue,
        Nat.div_lt_iff_lt_mul (pow_radix_pos _), Nat.mul_right_comm]
      apply Nat.mul_lt_mul_of_pos_right _ hpower
      obtain ⟨n, hn⟩ : ∃ n, b.length = n + 1 := ⟨b.length - 1, by omega⟩
      calc value a < radix ^ a.length := value_lt a
        _ = radix ^ n * radix ^ (a.length - b.length + 1) := by
            rw [← pow_add]
            congr 1
            omega
        _ ≤ value b * radix ^ (a.length - b.length + 1) :=
            Nat.mul_le_mul_right _ (hb.pow_le hn))
  have hkept : value (divided.2.take b.length) = value divided.2 := by
    rw [value_take, Nat.mod_eq_of_lt (hremainder.trans (by rw [hdivisorValue]; exact hfits))]
  obtain ⟨remainder, hshifted, htrimmed, hremainderValue, _⟩ :=
    magShrInPlace_spec (magTrim (divided.2.take b.length)) shift
  rw [value_magTrim, hkept] at hremainderValue
  rw [hnumeratorValue, hdivisorValue] at hvalue
  rw [hdivisorValue] at hremainder
  obtain ⟨hsum, hless⟩ := undo_shift hpower hvalue hremainder
  rw [← hremainderValue] at hsum hless
  refine ⟨(magTrim divided.1, remainder), ?_, trimmed_trim _, htrimmed, ?_, hless⟩
  · rw [divideShifted, hnumerator, Option.bind_some, hdivisor, Option.bind_some, hdivided,
      Option.bind_some, hshifted]
    rfl
  · rw [value_magTrim, hsum]

theorem sliceTo_replicate {count n : Nat} (hn : n ≤ count) :
    sliceTo (List.replicate count 0) n = some (List.replicate n 0) := by
  rw [sliceTo, if_pos (by simpa using hn), List.take_replicate, Nat.min_eq_left hn]

variable {blocks : Mag → Mag → Option (Mag × Mag)}

theorem divideLimbs_spec {a b : Mag} (hb : Trimmed b) (hlength : 2 ≤ b.length)
    (hle : value b ≤ value a)
    (hblocks : useBlockDivision a.length b.length = true → Divides (blocks a b) a b) :
    Divides (divideLimbs blocks a b) a b := by
  have hcount : b.length ≤ a.length := hb.length_le_of_value_le hle
  obtain ⟨top, htop⟩ := @getElem?_of_lt b (b.length - 1) (by omega)
  have hshifted := divideShifted_spec hb hlength hle htop
  unfold divideLimbs
  simp only [htop, Option.getD_some]
  split
  · rw [sliceTo_replicate (by omega), Option.bind_some, sliceTo_replicate (by omega),
      Option.bind_some, sliceTo_replicate (by omega), Option.bind_some, List.length_replicate]
    exact hshifted
  · split
    · rename_i hroute
      exact hblocks hroute
    · exact hshifted

theorem magDivRemBy_spec {a b : Mag} (ha : Trimmed a) (hb : Trimmed b) (hpositive : b ≠ [])
    (hblocks : useBlockDivision a.length b.length = true → value b ≤ value a →
      Divides (blocks a b) a b) : Divides (magDivRemBy blocks a b) a b := by
  by_cases hless : value a < value b
  · exact magDivRemBy_of_lt blocks ha hb hless
  · have hle := Nat.le_of_not_lt hless
    obtain ⟨first, more, rfl⟩ := List.exists_cons_of_ne_nil hpositive
    cases more with
    | nil => exact magDivRemBy_one_limb_spec blocks ha (by simpa [Trimmed] using hb)
    | cons second rest =>
      have hvalue : 0 < value (first :: second :: rest) :=
        Nat.pos_of_ne_zero fun hzero => List.cons_ne_nil _ _ (hb.value_eq_zero_iff.mp hzero)
      unfold magDivRemBy
      rw [if_neg fun hcmp => hless ((magCmp_lt_iff ha hb).mp hcmp)]
      simp only [magToU128_spec]
      by_cases hsmall : a.length ≤ 2
      · have hcount := hb.length_le_of_value_le hle
        have hbound : value a < radix ^ 2 :=
          (value_lt a).trans_le (Nat.pow_le_pow_right radix_pos hsmall)
        obtain ⟨hsum, hremainder⟩ := small_division hbound hvalue
        rw [if_pos hsmall, if_pos (hcount.trans hsmall)]
        have hquotient := (magFromU128_spec (Nat.lt_of_le_of_lt
          (Nat.div_le_self (value a) (value (first :: second :: rest))) hbound)).2.1
        have hleft := (magFromU128_spec (Nat.lt_of_le_of_lt
          (Nat.mod_le (value a) (value (first :: second :: rest))) hbound)).2.1
        exact ⟨_, rfl, hquotient, hleft, hsum.symm, hremainder⟩
      · rw [if_neg hsmall]
        simp only
        by_cases hpower : magTrailingZeros (first :: second :: rest) + 1 =
            magBitLen (first :: second :: rest)
        · rw [if_pos hpower]
          exact divideByPower_spec ha (value_of_trailingZeros hb hvalue hpower)
        · rw [if_neg hpower]
          exact divideLimbs_spec hb (by simp) hle fun hroute => hblocks hroute hle

theorem divRemBy_spec {n other : BigInt} (hother : other.toInt ≠ 0)
    (hdivides : Divides (magDivRemBy blocks n.magnitude other.magnitude) n.magnitude
      other.magnitude) :
    ∃ quotient remainder, n.divRemBy blocks other = some (some (quotient, remainder)) ∧
      quotient.toInt = n.toInt.tdiv other.toInt ∧ remainder.toInt = n.toInt.tmod other.toInt := by
  obtain ⟨divided, hdivided, _, _, hvalue, hremainder⟩ := hdivides
  have hnonzero : other.isZero = false := by
    rw [← Bool.not_eq_true, BigInt.isZero_iff]
    exact hother
  have hquotientNat : value n.magnitude / value other.magnitude = value divided.1 := by
    rw [hvalue, Nat.mul_comm, Nat.mul_add_div (by omega), Nat.div_eq_of_lt hremainder,
      Nat.add_zero]
  have hremainderNat : value n.magnitude % value other.magnitude = value divided.2 := by
    rw [hvalue, Nat.mul_comm, Nat.mul_add_mod, Nat.mod_eq_of_lt hremainder]
  refine ⟨_, _, by rw [BigInt.divRemBy, hnonzero, if_neg (by decide), hdivided]; rfl, ?_, ?_⟩
  · rw [BigInt.toInt_fromParts, BigInt.toInt, BigInt.toInt]
    cases n.negative <;> cases other.negative <;>
      simp [← hquotientNat, Int.tdiv_neg, Int.neg_tdiv]
  · rw [BigInt.toInt_fromParts, BigInt.toInt, BigInt.toInt]
    cases n.negative <;> cases other.negative <;>
      simp [← hremainderNat, Int.tmod_neg, Int.neg_tmod, Int.tmod_eq_emod_of_nonneg]

end Purrdf.BigInteger
