import Purrdf.DivisionRoutes
import Purrdf.Multiplication
import Purrdf.NttProduct

/-!
# Products are exact

Each route forms the product of two numbers from products of shorter ones. The parts get shorter
at every call, so the nesting ends, and no coefficient leaves its destination.
-/

namespace Purrdf.BigInteger

open Limbs BigInt

theorem propagate_spec {carry : Nat} {output : Mag}
    (hfits : value output + carry < radix ^ output.length) :
    ∃ summed, propagate carry output = some summed ∧ summed.length = output.length ∧
      value summed = value output + carry := by
  induction output generalizing carry with
  | nil =>
    obtain rfl : carry = 0 := by simpa using hfits
    exact ⟨[], rfl, rfl, rfl⟩
  | cons slot output ih =>
    by_cases hcarry : carry = 0
    · exact ⟨slot :: output, by simp [propagate, hcarry], rfl, by simp [hcarry]⟩
    · have hsplit := digit_carry (slot.toNat + carry)
      have hrest : value output + (slot.toNat + carry) / radix < radix ^ output.length := by
        rw [value_cons, List.length_cons, pow_succ'] at hfits
        apply Nat.lt_of_mul_lt_mul_left (a := radix)
        rw [Nat.mul_add]
        omega
      obtain ⟨summed, hsummed, hlength, hvalue⟩ := ih hrest
      refine ⟨UInt64.ofNat (slot.toNat + carry) :: summed, ?_, by simp [hlength], ?_⟩
      · simp only [propagate, if_neg hcarry, hsummed, Option.map_some]
      · rw [value_cons, hvalue, value_cons]
        linear_combination hsplit

theorem addScaledFrom_spec {factor carry : Nat} {output words : Mag}
    (hlength : words.length ≤ output.length)
    (hfits : value output + value words * factor + carry < radix ^ output.length) :
    ∃ summed, addScaledFrom factor carry output words = some summed ∧
      summed.length = output.length ∧
      value summed = value output + value words * factor + carry := by
  induction words generalizing carry output with
  | nil =>
    obtain ⟨summed, hsummed, hcount, hvalue⟩ := @propagate_spec carry output (by simpa using hfits)
    refine ⟨summed, ?_, hcount, by simp [hvalue]⟩
    cases output <;> exact hsummed
  | cons word words ih =>
    cases output with
    | nil => exact absurd hlength (by simp)
    | cons slot output =>
      have hsplit := digit_carry (slot.toNat + word.toNat * factor + carry)
      have hrest : value output + value words * factor +
          (slot.toNat + word.toNat * factor + carry) / radix < radix ^ output.length := by
        rw [value_cons, value_cons, List.length_cons, pow_succ'] at hfits
        apply Nat.lt_of_mul_lt_mul_left (a := radix)
        calc _ ≤ (UInt64.ofNat (slot.toNat + word.toNat * factor + carry)).toNat + radix *
              (value output + value words * factor +
                (slot.toNat + word.toNat * factor + carry) / radix) := Nat.le_add_left _ _
          _ = slot.toNat + radix * value output + (word.toNat + radix * value words) * factor +
              carry := by linear_combination hsplit
          _ < _ := hfits
      obtain ⟨summed, hsummed, hcount, hvalue⟩ := ih (by simpa using hlength) hrest
      refine ⟨UInt64.ofNat (slot.toNat + word.toNat * factor + carry) :: summed, ?_,
        by simp [hcount], ?_⟩
      · simp only [addScaledFrom, hsummed, Option.map_some]
      · simp only [value_cons, hvalue]
        linear_combination hsplit

/-- A sum that fits its destination is written there, wherever the magnitude starts. -/
theorem addScaledMagnitudeAt_spec {output words : Mag} {offset factor : Nat}
    (hoffset : offset ≤ output.length) (hwords : Trimmed words) (hfactor : 0 < factor)
    (hfits : value output + radix ^ offset * (value words * factor) < radix ^ output.length) :
    ∃ summed, addScaledMagnitudeAt output offset words factor = some summed ∧
      summed.length = output.length ∧
      value summed = value output + radix ^ offset * (value words * factor) := by
  have hroom : radix ^ output.length = radix ^ offset * radix ^ (output.length - offset) := by
    rw [← pow_add, Nat.add_sub_cancel' hoffset]
  have hsplit := value_split output offset
  have hinside : value (output.drop offset) + value words * factor <
      radix ^ (output.length - offset) := by
    apply Nat.lt_of_mul_lt_mul_left (a := radix ^ offset)
    rw [← hroom, Nat.mul_add]
    omega
  have hshort : words.length ≤ output.length - offset := by
    rw [hwords.length_le_iff]
    have hscaled := Nat.le_mul_of_pos_right (value words) hfactor
    omega
  obtain ⟨summed, hsummed, hlength, hvalue⟩ := @addScaledFrom_spec factor 0 (output.drop offset)
    words (by rw [List.length_drop]; exact hshort) (by
      rw [Nat.add_zero, List.length_drop]
      exact hinside)
  have hfront : (output.take offset).length = offset := by
    rw [List.length_take]
    exact Nat.min_eq_left hoffset
  refine ⟨output.take offset ++ summed, ?_, ?_, ?_⟩
  · rw [addScaledMagnitudeAt, if_neg (by omega), hsummed]
    rfl
  · rw [List.length_append, hlength, hfront, List.length_drop]
    omega
  · rw [value_append, hfront, hvalue, hsplit]
    ring

/-- A product is exact on factors up to some length. -/
def Multiplies (product : BigInt → BigInt → Option BigInt) (bound : Nat) : Prop :=
  ∀ a b, a.limbLen ≤ bound → b.limbLen ≤ bound →
    ∃ result, product a b = some result ∧ result.toInt = a.toInt * b.toInt

theorem toInt_product {n other : BigInt} {magnitude : Mag}
    (hvalue : value magnitude = value n.magnitude * value other.magnitude) :
    signedValue (n.negative != other.negative) magnitude = n.toInt * other.toInt := by
  rw [toInt, toInt]
  cases n.negative <;> cases other.negative <;> simp [hvalue]

theorem toInt_abs (n : BigInt) : n.abs.toInt = value n.magnitude := by
  unfold BigInt.abs
  rw [toInt_withSign, signedValue_false]

variable {product : BigInt → BigInt → Option BigInt}

theorem mulPieces_spec {short : BigInt} (hproduct : Multiplies product short.limbLen)
    (hshort : 0 < short.limbLen) {words output : Mag} {pieceIndex : Nat}
    (hlength : words ≠ [] → pieceIndex * short.limbLen + words.length ≤ output.length)
    (hfits : value output + radix ^ (pieceIndex * short.limbLen) *
      (value words * value short.magnitude) < radix ^ output.length) :
    ∃ summed, mulPieces product short pieceIndex (chunks short.limbLen words) output =
        some summed ∧ value summed = value output + radix ^ (pieceIndex * short.limbLen) *
          (value words * value short.magnitude) := by
  induction hcount : words.length using Nat.strong_induction_on generalizing words output pieceIndex
    with
  | h count ih =>
  by_cases hwords : words = []
  · subst hwords
    exact ⟨output, by simp [mulPieces], by simp⟩
  · have hpositive : 0 < words.length := List.length_pos_iff.mpr hwords
    have hroom := hlength hwords
    have hsplit := value_split words short.limbLen
    have hnext : radix ^ ((pieceIndex + 1) * short.limbLen) =
        radix ^ (pieceIndex * short.limbLen) * radix ^ short.limbLen := by
      rw [← pow_add, Nat.succ_mul]
    have htotal : radix ^ (pieceIndex * short.limbLen) * (value words * value short.magnitude) =
        radix ^ (pieceIndex * short.limbLen) *
          (value (words.take short.limbLen) * value short.magnitude) +
        radix ^ ((pieceIndex + 1) * short.limbLen) *
          (value (words.drop short.limbLen) * value short.magnitude) := by
      rw [hnext, hsplit]
      ring
    rw [htotal] at hfits ⊢
    obtain ⟨piece, hpiece, hvalue⟩ := hproduct (fromParts false (words.take short.limbLen))
      short.abs ((fromParts_limbLen_le _ _).trans (by simp)) (by simp [limbLen])
    have hmagnitude : value piece.magnitude =
        value (words.take short.limbLen) * value short.magnitude := by
      have habs := congrArg Int.natAbs hvalue
      rwa [toInt_abs, Int.natAbs_mul, natAbs_toInt, natAbs_toInt, fromParts_magnitude,
        Int.natAbs_natCast] at habs
    obtain ⟨summed, hsummed, hsame, hsum⟩ := @addScaledMagnitudeAt_spec output piece.magnitude
      (pieceIndex * short.limbLen) 1 (by omega) piece.trimmed (by decide) (by
        rw [hmagnitude, Nat.mul_one]
        exact Nat.lt_of_le_of_lt (Nat.add_le_add_left (Nat.le_add_right _ _) _) hfits)
    rw [hmagnitude, Nat.mul_one] at hsum
    obtain ⟨result, hresult, hfinal⟩ := @ih (words.drop short.limbLen).length (by
        rw [List.length_drop]
        omega) (words.drop short.limbLen) summed (pieceIndex + 1) (by
        intro hmore
        have hlong := List.length_pos_iff.mpr hmore
        rw [List.length_drop] at hlong ⊢
        rw [hsame, Nat.succ_mul]
        omega) (by
        rw [hsum, hsame, Nat.add_assoc]
        exact hfits) rfl
    refine ⟨result, ?_, by rw [hfinal, hsum, Nat.add_assoc]⟩
    rw [chunks_cons hshort hwords, mulPieces, hpiece, Option.bind_some, hsummed, Option.bind_some,
      hresult]

theorem mulChunked_spec {long short : BigInt} (hproduct : Multiplies product short.limbLen)
    (hshort : 0 < short.limbLen) (negative : Bool) :
    ∃ magnitude, mulChunked product long short negative = some (fromParts negative magnitude) ∧
      value magnitude = value long.magnitude * value short.magnitude := by
  have hzeros := value_replicate_zero (long.limbLen + short.limbLen + 1)
  obtain ⟨summed, hsummed, hvalue⟩ := @mulPieces_spec product short hproduct hshort
    long.magnitude (List.replicate (long.limbLen + short.limbLen + 1) 0) 0 (by
      intro _
      rw [List.length_replicate]
      unfold limbLen
      omega) (by
      rw [hzeros, List.length_replicate, Nat.zero_mul, pow_zero, Nat.one_mul, Nat.zero_add]
      calc value long.magnitude * value short.magnitude <
            radix ^ long.limbLen * radix ^ short.limbLen :=
          Nat.mul_lt_mul'' (value_lt _) (value_lt _)
        _ = radix ^ (long.limbLen + short.limbLen) := (pow_add _ _ _).symm
        _ ≤ _ := Nat.pow_le_pow_right radix_pos (Nat.le_succ _))
  rw [hzeros, Nat.zero_mul, pow_zero, Nat.one_mul, Nat.zero_add] at hvalue
  refine ⟨magTrim summed, ?_, by rw [value_magTrim, hvalue]⟩
  rw [mulChunked, hsummed]
  rfl

/-! ### Two halves -/

theorem toInt_lowPart (split : Nat) (n : BigInt) :
    (lowPart split n).toInt = value (n.magnitude.take split) := by
  rw [lowPart, toInt_fromParts, signedValue_false]

theorem toInt_highPart (split : Nat) (n : BigInt) :
    (highPart split n).toInt = value (n.magnitude.drop split) := by
  rw [highPart, toInt_fromParts, signedValue_false]

theorem lowPart_limbLen_le (split : Nat) (n : BigInt) : (lowPart split n).limbLen ≤ split :=
  (fromParts_limbLen_le _ _).trans (List.length_take_le _ _)

theorem highPart_limbLen_le (split : Nat) (n : BigInt) :
    (highPart split n).limbLen ≤ n.limbLen - split :=
  (fromParts_limbLen_le _ _).trans (List.length_drop).le

theorem limbLen_le_of_natAbs_le {a b result : BigInt}
    (hresult : result.toInt.natAbs ≤ a.toInt.natAbs + b.toInt.natAbs) {bound : Nat}
    (ha : a.limbLen ≤ bound) (hb : b.limbLen ≤ bound) : result.limbLen ≤ bound + 1 := by
  rw [limbLen_le_iff] at ha hb ⊢
  calc result.toInt.natAbs < radix ^ bound + radix ^ bound := by omega
    _ = radix ^ bound * 2 := by ring
    _ ≤ radix ^ (bound + 1) := by
        rw [pow_succ]
        exact Nat.mul_le_mul_left _ (by decide)

theorem add_limbLen_le {a b : BigInt} {bound : Nat} (ha : a.limbLen ≤ bound)
    (hb : b.limbLen ≤ bound) : (a.add b).limbLen ≤ bound + 1 := by
  apply limbLen_le_of_natAbs_le _ ha hb
  rw [toInt_add]
  exact Int.natAbs_add_le _ _

theorem sub_limbLen_le {a b : BigInt} {bound : Nat} (ha : a.limbLen ≤ bound)
    (hb : b.limbLen ≤ bound) : (a.sub b).limbLen ≤ bound + 1 := by
  apply limbLen_le_of_natAbs_le _ ha hb
  rw [toInt_sub]
  exact Int.natAbs_sub_le _ _

theorem toInt_fromParts_of_nonneg {n : BigInt} (hn : 0 ≤ n.toInt) {shifted : Mag} {factor : Nat}
    (hshifted : value shifted = value n.magnitude * factor) :
    (fromParts false shifted).toInt = n.toInt * factor := by
  have habs := natAbs_toInt n
  rw [toInt_fromParts, signedValue_false, hshifted]
  push_cast
  rw [← habs, Int.natCast_natAbs, abs_of_nonneg hn]

theorem mulKaratsuba_spec {bound split : Nat} (hproduct : Multiplies product (bound + 1))
    (hsplit : split ≤ bound) {n other : BigInt} (hn : n.limbLen ≤ split + bound)
    (hother : other.limbLen ≤ split + bound) :
    ∃ result, mulKaratsuba product split n other = some result ∧
      result.toInt = n.toInt * other.toInt := by
  have ha0 := lowPart_limbLen_le split n
  have ha1 := highPart_limbLen_le split n
  have hb0 := lowPart_limbLen_le split other
  have hb1 := highPart_limbLen_le split other
  obtain ⟨z0, hz0, hvalue0⟩ := hproduct (lowPart split n) (lowPart split other) (by omega) (by omega)
  obtain ⟨z2, hz2, hvalue2⟩ := hproduct (highPart split n) (highPart split other) (by omega)
    (by omega)
  obtain ⟨middle, hmiddle, hmiddleValue⟩ := hproduct
    ((lowPart split n).add (highPart split n)) ((lowPart split other).add (highPart split other))
    (add_limbLen_le (by omega) (by omega)) (add_limbLen_le (by omega) (by omega))
  obtain ⟨shiftedMiddle, hshiftedMiddle, _, hmiddleShift⟩ :=
    magShl_spec ((middle.sub z0).sub z2).trimmed (split * 64)
  obtain ⟨shiftedHigh, hshiftedHigh, _, hhighShift⟩ := magShl_spec z2.trimmed (split * 64 * 2)
  have hfirst := value_split n.magnitude split
  have hsecond := value_split other.magnitude split
  rw [toInt_lowPart, toInt_lowPart] at hvalue0
  rw [toInt_highPart, toInt_highPart] at hvalue2
  rw [toInt_add, toInt_add, toInt_lowPart, toInt_lowPart, toInt_highPart, toInt_highPart]
    at hmiddleValue
  have hz1 : ((middle.sub z0).sub z2).toInt =
      ((value (n.magnitude.take split) * value (other.magnitude.drop split) +
        value (n.magnitude.drop split) * value (other.magnitude.take split) : Nat) : Int) := by
    rw [toInt_sub, toInt_sub, hmiddleValue, hvalue0, hvalue2]
    push_cast
    ring
  have hpower : (2 : Int) ^ (split * 64) = radix ^ split := by
    have hnat := radix_pow split
    rw [Nat.mul_comm] at hnat
    exact_mod_cast hnat.symm
  have hmiddleInt := toInt_fromParts_of_nonneg (by rw [hz1]; exact Int.natCast_nonneg _)
    hmiddleShift
  have hhighInt := toInt_fromParts_of_nonneg (by rw [hvalue2]; positivity) hhighShift
  rw [hz1, Nat.cast_pow, Nat.cast_ofNat, hpower] at hmiddleInt
  rw [hvalue2, Nat.cast_pow, Nat.cast_ofNat, pow_mul, hpower] at hhighInt
  have htotal : ((z0.add (fromParts false shiftedMiddle)).add
      (fromParts false shiftedHigh)).toInt =
        ((value n.magnitude * value other.magnitude : Nat) : Int) := by
    rw [toInt_add, toInt_add, hvalue0, hmiddleInt, hhighInt, hfirst, hsecond]
    push_cast
    ring
  refine ⟨((z0.add (fromParts false shiftedMiddle)).add (fromParts false shiftedHigh)).withSign
    (n.negative != other.negative), ?_, ?_⟩
  · simp only [mulKaratsuba, hz0, hz2, hmiddle, hshiftedMiddle, hshiftedHigh,
      Option.bind_eq_bind, Option.bind_some, Option.pure_def]
  · rw [toInt_withSign]
    apply toInt_product
    rw [← natAbs_toInt, htotal, Int.natAbs_natCast]

/-! ### Three parts -/

theorem fromU64_magnitude_three : (fromU64 (UInt64.ofNat 3)).magnitude = [3] := by
  decide

theorem exactDivSmall_two {n : BigInt} {half : Int} (hn : n.toInt = 2 * half) :
    ∃ quotient, exactDivSmall n 2 = some quotient ∧ quotient.toInt = half := by
  obtain ⟨quotient, hquotient, hvalue⟩ := shr_spec n 1
  have heven : value n.magnitude % 2 = 0 := by
    have habs := congrArg Int.natAbs hn
    rw [natAbs_toInt, Int.natAbs_mul] at habs
    have htwo : (2 : Int).natAbs = 2 := rfl
    rw [habs, htwo, Nat.mul_mod_right]
  have hbit : (n.magnitude.head?).getD 0 &&& 1 = 0 := by
    apply UInt64.toNat_inj.mp
    have hlimb := getElem?_value n.magnitude 0
    have hone : (1 : UInt64).toNat = 2 ^ 1 - 1 := rfl
    rw [List.head?_eq_getElem?, UInt64.toNat_and, hone, Nat.and_two_pow_sub_one_eq_mod, hlimb,
      pow_zero, Nat.div_one, Nat.mod_mod_of_dvd _ (by decide), heven]
    rfl
  refine ⟨quotient, ?_, ?_⟩
  · rw [exactDivSmall, if_pos rfl, if_pos hbit, hquotient]
  · rw [hvalue, hn, pow_one, Int.mul_tdiv_cancel_left _ (by decide)]

theorem exactDivSmall_three {n : BigInt} {third : Int} (hn : n.toInt = 3 * third) :
    ∃ quotient, exactDivSmall n 3 = some quotient ∧ quotient.toInt = third := by
  have hthree : (fromU64 (UInt64.ofNat 3)).toInt = 3 := by decide
  obtain ⟨quotient, remainder, hdivided, hquotient, hremainder⟩ :=
    @divRemBy_spec (fun _ _ => none) n (fromU64 (UInt64.ofNat 3)) (by rw [hthree]; decide) (by
      rw [fromU64_magnitude_three]
      exact magDivRemBy_one_limb_spec _ n.trimmed (by decide))
  rw [hthree, hn] at hquotient hremainder
  have hzero : remainder.isZero = true := by
    rw [isZero_iff, hremainder, Int.mul_tmod_right]
  refine ⟨quotient, ?_, ?_⟩
  · rw [exactDivSmall, if_neg (by decide), hdivided]
    simp only [Option.bind_some, id_eq, hzero, if_true]
  · rw [hquotient, Int.mul_tdiv_cancel_left _ (by decide)]

theorem evalPositivePoint_spec (c0 c1 c2 : BigInt) {point : Nat} (hpoint : 0 < point)
    (hpoint' : point ≤ 2) :
    ∃ result, evalPositivePoint c0 c1 c2 point = some result ∧ result.toInt =
      ((value c0.magnitude + value c1.magnitude * point +
        value c2.magnitude * (point * point) : Nat) : Int) := by
  unfold evalPositivePoint
  simp only
  generalize hbound : max (max c0.limbLen c1.limbLen) c2.limbLen = bound
  have hvalue0 := (c0.trimmed.length_le_iff bound).mp (by unfold limbLen at hbound; omega)
  have hvalue1 := (c1.trimmed.length_le_iff bound).mp (by unfold limbLen at hbound; omega)
  have hvalue2 := (c2.trimmed.length_le_iff bound).mp (by unfold limbLen at hbound; omega)
  have hsquare : point * point ≤ 2 * 2 := Nat.mul_le_mul hpoint' hpoint'
  have hscaled1 := Nat.mul_le_mul_left (value c1.magnitude) hpoint'
  have hscaled2 := Nat.mul_le_mul_left (value c2.magnitude) hsquare
  have hroom : 7 * radix ^ bound ≤ radix ^ (bound + 2) := by
    rw [Nat.mul_comm, pow_add]
    exact Nat.mul_le_mul_left _ (by decide)
  have hzeros := value_replicate_zero (bound + 2)
  have hlength : (List.replicate (bound + 2) (0 : UInt64)).length = bound + 2 :=
    List.length_replicate
  obtain ⟨first, hfirst, hfirstLength, hfirstValue⟩ :=
    @addScaledMagnitudeAt_spec (List.replicate (bound + 2) 0) c0.magnitude 0 1 (Nat.zero_le _)
      c0.trimmed (by decide) (by
        rw [hzeros, hlength, pow_zero]
        omega)
  rw [hlength] at hfirstLength
  rw [hzeros, pow_zero, Nat.one_mul, Nat.mul_one, Nat.zero_add] at hfirstValue
  obtain ⟨second, hsecond, hsecondLength, hsecondValue⟩ :=
    @addScaledMagnitudeAt_spec first c1.magnitude 0 point (Nat.zero_le _) c1.trimmed hpoint (by
      rw [hfirstValue, hfirstLength, pow_zero]
      omega)
  rw [hfirstLength] at hsecondLength
  rw [hfirstValue, pow_zero, Nat.one_mul] at hsecondValue
  obtain ⟨third, hthird, _, hthirdValue⟩ :=
    @addScaledMagnitudeAt_spec second c2.magnitude 0 (point * point) (Nat.zero_le _) c2.trimmed
      (Nat.mul_pos hpoint hpoint) (by
        rw [hsecondValue, hsecondLength, pow_zero]
        omega)
  rw [hsecondValue, pow_zero, Nat.one_mul] at hthirdValue
  refine ⟨fromParts false (magTrim third), ?_, ?_⟩
  · simp only [hfirst, hsecond, hthird, Option.bind_eq_bind, Option.bind_some, Option.pure_def]
  · rw [toInt_fromParts, signedValue_false, value_magTrim, hthirdValue]

/-- The coefficients of a polynomial of the fourth degree come back from its values. -/
theorem interpolate_spec {r0 r4 p1 pm1 p2 : BigInt} {c0 c1 c2 c3 c4 : Int}
    (hr0 : r0.toInt = c0) (hr4 : r4.toInt = c4) (hp1 : p1.toInt = c0 + c1 + c2 + c3 + c4)
    (hpm1 : pm1.toInt = c0 - c1 + c2 - c3 + c4)
    (hp2 : p2.toInt = c0 + 2 * c1 + 4 * c2 + 8 * c3 + 16 * c4) :
    ∃ coefficients, interpolate r0 r4 p1 pm1 p2 = some coefficients ∧
      coefficients.map toInt = [c0, c1, c2, c3, c4] := by
  obtain ⟨even, heven, hevenValue⟩ := @exactDivSmall_two (p1.add pm1) (c0 + c2 + c4) (by
    rw [toInt_add, hp1, hpm1]
    ring)
  obtain ⟨odd, hodd, hoddValue⟩ := @exactDivSmall_two (p1.sub pm1) (c1 + c3) (by
    rw [toInt_sub, hp1, hpm1]
    ring)
  obtain ⟨r4Times16, hr4Times16, hr4Value⟩ := shl_spec r4 4
  have hr2 : ((even.sub r0).sub r4).toInt = c2 := by
    rw [toInt_sub, toInt_sub, hevenValue, hr0, hr4]
    ring
  obtain ⟨p2Odd, hp2Odd, hp2Value⟩ :=
    @exactDivSmall_two ((p2.sub r0).sub r4Times16) (c1 + 2 * c2 + 4 * c3) (by
      rw [toInt_sub, toInt_sub, hp2, hr0, hr4Value, hr4]
      ring)
  obtain ⟨r2Times2, hr2Times2, hr2Value⟩ := shl_spec ((even.sub r0).sub r4) 1
  obtain ⟨r3, hr3, hr3Value⟩ := @exactDivSmall_three ((p2Odd.sub r2Times2).sub odd) c3 (by
    rw [toInt_sub, toInt_sub, hp2Value, hr2Value, hr2, hoddValue]
    ring)
  refine ⟨[r0, odd.sub r3, (even.sub r0).sub r4, r3, r4], ?_, ?_⟩
  · simp only [interpolate, heven, hodd, hr4Times16, hp2Odd, hr2Times2, hr3, Option.bind_eq_bind,
      Option.bind_some, Option.pure_def]
  · simp only [List.map_cons, List.map_nil, hr0, hr2, hr3Value, hr4, toInt_sub, hoddValue]
    rw [add_sub_cancel_right]

theorem negative_iff (n : BigInt) : n.negative = true ↔ n.toInt < 0 := by
  constructor
  · intro hnegative
    have hpositive : value n.magnitude ≠ 0 := fun hzero =>
      n.signed hnegative (n.trimmed.value_eq_zero_iff.mp hzero)
    rw [toInt, hnegative, signedValue_true]
    omega
  · intro hless
    by_contra hsign
    rw [Bool.not_eq_true] at hsign
    rw [toInt_of_nonneg hsign] at hless
    omega

theorem negative_of_nonneg {n : BigInt} (hn : 0 ≤ n.toInt) : n.negative = false := by
  rw [← Bool.not_eq_true, negative_iff]
  omega

theorem addCoefficients_spec {width power : Nat} {coefficients : List BigInt} {numbers : List Nat}
    {output : Mag} (hnumbers : coefficients.map toInt = numbers.map Nat.cast)
    (hoffsets : ∀ i < coefficients.length, width * (power + i) ≤ output.length)
    (hfits : value output + radix ^ (width * power) * Fourier.evaluate (radix ^ width) numbers <
      radix ^ output.length) :
    ∃ summed, addCoefficients width power coefficients output = some summed ∧
      value summed = value output +
        radix ^ (width * power) * Fourier.evaluate (radix ^ width) numbers := by
  induction coefficients generalizing power numbers output with
  | nil =>
    obtain rfl : numbers = [] := by simpa using hnumbers.symm
    exact ⟨output, rfl, by simp⟩
  | cons coefficient coefficients ih =>
    cases numbers with
    | nil => exact absurd hnumbers (by simp)
    | cons number numbers =>
      rw [List.map_cons, List.map_cons, List.cons.injEq] at hnumbers
      obtain ⟨hnumber, hrest⟩ := hnumbers
      have hsign := negative_of_nonneg (show 0 ≤ coefficient.toInt by
        rw [hnumber]
        exact Int.natCast_nonneg number)
      have hmagnitude : value coefficient.magnitude = number := by
        rw [← natAbs_toInt, hnumber, Int.natAbs_natCast]
      have hplace : radix ^ (width * (power + 1)) = radix ^ (width * power) * radix ^ width := by
        rw [Nat.mul_succ, pow_add]
      have htotal : radix ^ (width * power) * (number +
          radix ^ width * Fourier.evaluate (radix ^ width) numbers) =
            radix ^ (width * power) * number +
              radix ^ (width * (power + 1)) * Fourier.evaluate (radix ^ width) numbers := by
        rw [hplace]
        ring
      rw [Fourier.evaluate_cons, htotal] at hfits ⊢
      obtain ⟨first, hfirst, hlength, hvalue⟩ := @addScaledMagnitudeAt_spec output
        coefficient.magnitude (width * power) 1
        (hoffsets 0 (by simp)) coefficient.trimmed (by decide) (by
          rw [hmagnitude, Nat.mul_one]
          exact Nat.lt_of_le_of_lt (Nat.add_le_add_left (Nat.le_add_right _ _) _) hfits)
      rw [hmagnitude, Nat.mul_one] at hvalue
      obtain ⟨summed, hsummed, hsum⟩ := @ih (power + 1) numbers first hrest (by
          intro i hi
          rw [hlength, Nat.add_right_comm, Nat.add_assoc]
          exact hoffsets (i + 1) (by simpa using hi)) (by
          rw [hvalue, hlength, Nat.add_assoc]
          exact hfits)
      refine ⟨summed, ?_, by rw [hsum, hvalue, Nat.add_assoc]⟩
      rw [addCoefficients, hsign, if_neg (by decide), hfirst, Option.bind_some, hsummed]

theorem toInt_middlePart (width : Nat) (n : BigInt) :
    (middlePart width n).toInt = value ((n.magnitude.take (width * 2)).drop width) := by
  rw [middlePart, toInt_fromParts, signedValue_false]

theorem middlePart_limbLen_le (width : Nat) (n : BigInt) : (middlePart width n).limbLen ≤ width := by
  apply (fromParts_limbLen_le _ _).trans
  rw [List.length_drop, List.length_take]
  omega

theorem value_three_parts (words : Mag) (width : Nat) :
    value words = value (words.take width) +
      radix ^ width * value ((words.take (width * 2)).drop width) +
      radix ^ width * radix ^ width * value (words.drop (width * 2)) := by
  have hwhole := value_split words (width * 2)
  have hfront := value_split (words.take (width * 2)) width
  rw [List.take_take, Nat.min_eq_left (by omega)] at hfront
  have hpower : radix ^ (width * 2) = radix ^ width * radix ^ width := by
    rw [Nat.mul_two, pow_add]
  rw [hfront, hpower] at hwhole
  exact hwhole

theorem point_limbLen_le {result c0 c1 c2 : BigInt} {width point : Nat} (hpoint : point ≤ 2)
    (h0 : c0.limbLen ≤ width) (h1 : c1.limbLen ≤ width) (h2 : c2.limbLen ≤ width)
    (hresult : result.toInt = ((value c0.magnitude + value c1.magnitude * point +
      value c2.magnitude * (point * point) : Nat) : Int)) : result.limbLen ≤ width + 2 := by
  rw [limbLen_le_iff, hresult, Int.natAbs_natCast]
  rw [limbLen_le_iff, natAbs_toInt] at h0 h1 h2
  have hsquare : point * point ≤ 2 * 2 := Nat.mul_le_mul hpoint hpoint
  have hscaled1 := Nat.mul_le_mul_left (value c1.magnitude) hpoint
  have hscaled2 := Nat.mul_le_mul_left (value c2.magnitude) hsquare
  have hroom : 7 * radix ^ width ≤ radix ^ (width + 2) := by
    rw [Nat.mul_comm, pow_add]
    exact Nat.mul_le_mul_left _ (by decide)
  omega

theorem mulToom3_spec {n other : BigInt} {width : Nat}
    (hwidth : (max n.limbLen other.limbLen + 2) / 3 = width)
    (hproduct : Multiplies product (width + 2)) (hshort : width * 2 < min n.limbLen other.limbLen) :
    ∃ result, mulToom3 product n other = some result ∧
      result.toInt = n.toInt * other.toInt := by
  have ha0 := lowPart_limbLen_le width n
  have ha1 := middlePart_limbLen_le width n
  have ha2 : (highPart (width * 2) n).limbLen ≤ width :=
    (highPart_limbLen_le (width * 2) n).trans (by omega)
  have hb0 := lowPart_limbLen_le width other
  have hb1 := middlePart_limbLen_le width other
  have hb2 : (highPart (width * 2) other).limbLen ≤ width :=
    (highPart_limbLen_le (width * 2) other).trans (by omega)
  have hsplit := value_three_parts n.magnitude width
  have hsplit' := value_three_parts other.magnitude width
  have hvalueA0 := natAbs_toInt (lowPart width n)
  have hvalueA1 := natAbs_toInt (middlePart width n)
  have hvalueA2 := natAbs_toInt (highPart (width * 2) n)
  have hvalueB0 := natAbs_toInt (lowPart width other)
  have hvalueB1 := natAbs_toInt (middlePart width other)
  have hvalueB2 := natAbs_toInt (highPart (width * 2) other)
  rw [toInt_lowPart, Int.natAbs_natCast] at hvalueA0 hvalueB0
  rw [toInt_middlePart, Int.natAbs_natCast] at hvalueA1 hvalueB1
  rw [toInt_highPart, Int.natAbs_natCast] at hvalueA2 hvalueB2
  obtain ⟨r0, hr0, hr0Value⟩ := hproduct (lowPart width n) (lowPart width other) (by omega)
    (by omega)
  obtain ⟨r4, hr4, hr4Value⟩ := hproduct (highPart (width * 2) n) (highPart (width * 2) other)
    (by omega) (by omega)
  obtain ⟨left1, hleft1, hleft1Value⟩ := @evalPositivePoint_spec (lowPart width n)
    (middlePart width n) (highPart (width * 2) n) 1 (by decide) (by decide)
  obtain ⟨right1, hright1, hright1Value⟩ := @evalPositivePoint_spec (lowPart width other)
    (middlePart width other) (highPart (width * 2) other) 1 (by decide) (by decide)
  obtain ⟨p1, hp1, hp1Value⟩ := hproduct left1 right1
    (point_limbLen_le (by decide) ha0 ha1 ha2 hleft1Value)
    (point_limbLen_le (by decide) hb0 hb1 hb2 hright1Value)
  obtain ⟨pm1, hpm1, hpm1Value⟩ := hproduct
    (((lowPart width n).sub (middlePart width n)).add (highPart (width * 2) n))
    (((lowPart width other).sub (middlePart width other)).add (highPart (width * 2) other))
    (add_limbLen_le (sub_limbLen_le ha0 ha1) (by omega))
    (add_limbLen_le (sub_limbLen_le hb0 hb1) (by omega))
  obtain ⟨left2, hleft2, hleft2Value⟩ := @evalPositivePoint_spec (lowPart width n)
    (middlePart width n) (highPart (width * 2) n) 2 (by decide) (by decide)
  obtain ⟨right2, hright2, hright2Value⟩ := @evalPositivePoint_spec (lowPart width other)
    (middlePart width other) (highPart (width * 2) other) 2 (by decide) (by decide)
  obtain ⟨p2, hp2, hp2Value⟩ := hproduct left2 right2
    (point_limbLen_le (by decide) ha0 ha1 ha2 hleft2Value)
    (point_limbLen_le (by decide) hb0 hb1 hb2 hright2Value)
  rw [toInt_lowPart, toInt_lowPart] at hr0Value
  rw [toInt_highPart, toInt_highPart] at hr4Value
  rw [hleft1Value, hright1Value, ← hvalueA0, ← hvalueA1, ← hvalueA2, ← hvalueB0, ← hvalueB1,
    ← hvalueB2] at hp1Value
  rw [hleft2Value, hright2Value, ← hvalueA0, ← hvalueA1, ← hvalueA2, ← hvalueB0, ← hvalueB1,
    ← hvalueB2] at hp2Value
  simp only [toInt_add, toInt_sub, toInt_lowPart, toInt_middlePart, toInt_highPart] at hpm1Value
  generalize value (n.magnitude.take width) = x0 at *
  generalize value ((n.magnitude.take (width * 2)).drop width) = x1 at *
  generalize value (n.magnitude.drop (width * 2)) = x2 at *
  generalize value (other.magnitude.take width) = y0 at *
  generalize value ((other.magnitude.take (width * 2)).drop width) = y1 at *
  generalize value (other.magnitude.drop (width * 2)) = y2 at *
  obtain ⟨coefficients, hcoefficients, hnumbers⟩ := @interpolate_spec r0 r4 p1 pm1 p2
    (x0 * y0 : Nat) (x0 * y1 + x1 * y0 : Nat) (x0 * y2 + x1 * y1 + x2 * y0 : Nat)
    (x1 * y2 + x2 * y1 : Nat) (x2 * y2 : Nat) (by rw [hr0Value]; push_cast; ring)
    (by rw [hr4Value]; push_cast; ring) (by rw [hp1Value]; push_cast; ring)
    (by rw [hpm1Value]; push_cast; ring) (by rw [hp2Value]; push_cast; ring)
  have hvalue : Fourier.evaluate (radix ^ width) [x0 * y0, x0 * y1 + x1 * y0,
      x0 * y2 + x1 * y1 + x2 * y0, x1 * y2 + x2 * y1, x2 * y2] =
        value n.magnitude * value other.magnitude := by
    rw [hsplit, hsplit']
    simp only [Fourier.evaluate_cons, Fourier.evaluate_nil]
    ring
  have hfull : value n.magnitude * value other.magnitude < radix ^ (n.limbLen + other.limbLen) := by
    rw [pow_add]
    exact Nat.mul_lt_mul'' (value_lt _) (value_lt _)
  have hzeros := value_replicate_zero (n.limbLen + other.limbLen)
  have hfive : coefficients.length = 5 := by
    have hcount := congrArg List.length hnumbers
    simpa using hcount
  obtain ⟨summed, hsummed, hsum⟩ := @addCoefficients_spec width 0 coefficients
    [x0 * y0, x0 * y1 + x1 * y0, x0 * y2 + x1 * y1 + x2 * y0, x1 * y2 + x2 * y1, x2 * y2]
    (List.replicate (n.limbLen + other.limbLen) 0) (by rw [hnumbers]; rfl) (by
      intro i hi
      rw [List.length_replicate, Nat.zero_add]
      calc width * i ≤ width * 4 := Nat.mul_le_mul_left _ (by omega)
        _ ≤ n.limbLen + other.limbLen := by omega) (by
      rw [hzeros, hvalue, List.length_replicate, Nat.mul_zero, pow_zero, Nat.one_mul, Nat.zero_add]
      exact hfull)
  rw [hzeros, hvalue, Nat.mul_zero, pow_zero, Nat.one_mul, Nat.zero_add] at hsum
  refine ⟨fromParts (n.negative != other.negative) (magTrim summed), ?_, ?_⟩
  · simp only [mulToom3, hwidth, hr0, hr4, hleft1, hright1, hp1, hpm1, hleft2, hright2, hp2,
      hcoefficients, hsummed, Option.bind_eq_bind, Option.bind_some, Option.pure_def]
  · rw [toInt_fromParts]
    exact toInt_product (by rw [value_magTrim, hsum])

theorem mulFast_spec {calls : Nat} {n other : BigInt}
    (hcalls : max n.limbLen other.limbLen < calls) :
    ∃ result, mulFast calls n other = some result ∧ result.toInt = n.toInt * other.toInt := by
  induction calls generalizing n other with
  | zero => exact absurd hcalls (Nat.not_lt_zero _)
  | succ calls ih =>
    have hnested : ∀ bound, bound < max n.limbLen other.limbLen →
        Multiplies (mulFast calls) bound := by
      intro bound hbound a b ha hb
      exact ih (by omega)
    unfold mulFast
    simp only
    split
    · exact mul_spec n other
    · rename_i hschoolbook
      unfold karatsubaThreshold at hschoolbook
      split
      · rename_i hbalanced
        unfold toom3Threshold at hbalanced
        split
        · rename_i length hselected
          obtain ⟨magnitude, hproduct, _, hvalue⟩ := Ntt.product_spec hselected
          refine ⟨_, by rw [hproduct]; rfl, ?_⟩
          rw [toInt_fromParts]
          exact toInt_product hvalue
        · exact mulToom3_spec rfl (hnested _ (by omega)) hbalanced.2
      · have hhalves : ¬(min n.limbLen other.limbLen ≤ max n.limbLen other.limbLen / 2) →
            ∃ result, mulKaratsuba (mulFast calls) (max n.limbLen other.limbLen / 2) n other =
              some result ∧ result.toInt = n.toInt * other.toInt := by
          intro _
          exact mulKaratsuba_spec (hnested (max n.limbLen other.limbLen -
            max n.limbLen other.limbLen / 2 + 1) (by omega)) (by omega) (by omega) (by omega)
        by_cases horder : other.limbLen ≤ n.limbLen
        · rw [if_pos horder, if_pos horder]
          split
          · obtain ⟨magnitude, hproduct, hvalue⟩ := @mulChunked_spec (mulFast calls) n other
              (hnested _ (by omega)) (by omega) (n.negative != other.negative)
            refine ⟨_, hproduct, ?_⟩
            rw [toInt_fromParts]
            exact toInt_product hvalue
          · exact hhalves (by omega)
        · rw [if_neg horder, if_neg horder]
          split
          · obtain ⟨magnitude, hproduct, hvalue⟩ := @mulChunked_spec (mulFast calls) other n
              (hnested _ (by omega)) (by omega) (n.negative != other.negative)
            refine ⟨_, hproduct, ?_⟩
            rw [toInt_fromParts]
            exact toInt_product (by rw [hvalue, Nat.mul_comm])
          · exact hhalves (by omega)

/-- Every product is exact, whichever routes its calls take, and no call fails. -/
theorem mulFastUsing_exact (n other : BigInt) :
    ∃ product, mulFastUsing n other = some product ∧
      (∀ calls, max n.limbLen other.limbLen < calls → mulFast calls n other = some product) ∧
      product.toInt = n.toInt * other.toInt ∧ Trimmed product.magnitude ∧
      (product.negative = true ↔ n.toInt * other.toInt < 0) := by
  obtain ⟨product, hproduct, hvalue⟩ := @mulFast_spec (max n.limbLen other.limbLen + 1) n other
    (Nat.lt_succ_self _)
  refine ⟨product, hproduct, ?_, hvalue, product.trimmed, ?_⟩
  · intro calls hcalls
    obtain ⟨result, hresult, hresultValue⟩ := mulFast_spec hcalls
    rw [hresult, toInt_injective (hresultValue.trans hvalue.symm)]
  · rw [negative_iff, hvalue]

end Purrdf.BigInteger
