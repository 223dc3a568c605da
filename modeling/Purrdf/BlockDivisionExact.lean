import Purrdf.Multiplication
import Purrdf.MultiplicationExact

/-!
# Division by blocks

The divisor is normalized to a width that halves evenly down to the direct base, and the dividend
is divided block by block from the highest one. A block is divided by halves, each estimated from
the high half of the divisor and corrected by the product with the low half.
-/

namespace Purrdf.BigInteger

open Limbs

def baseDivisorLimbs : Nat := 128

def baseDivisionCutoff : Nat := 272

def normalizedDivisorLimbs (limbs : Nat) : Option Nat :=
  if limbs = 0 then none
  else
    let groups := (limbs + baseDivisionCutoff - 1) / baseDivisionCutoff
    let alignment := max baseDivisorLimbs (nextPowerOfTwo groups)
    some ((limbs + alignment - 1) / alignment * alignment)

def copyAt (output : Mag) (offset : Nat) (words : Mag) : Option Mag :=
  if output.length < offset + words.length then none
  else some (output.take offset ++ words ++ output.drop (offset + words.length))

/-- Two words beside each other in a zeroed destination, trimmed. -/
def assemble (length : Nat) (low : Mag) (offset : Nat) (high : Mag) : Option Mag :=
  (copyAt (List.replicate length 0) 0 low).bind fun output =>
    (copyAt output offset high).map magTrim

def magSubChecked (a b : Mag) : Option Mag :=
  if magCmp a b = .lt ∨ (subFrom false a b).2 = true then none else some (magSubInPlace a b)

def estimateBlock (divideHalf : Mag → Mag → Option (Mag × Mag)) (a highDivisor : Mag) (h : Nat) :
    Option (Mag × Mag) :=
  match magCmp (a.drop (2 * h)) highDivisor with
  | .lt => divideHalf (a.drop h) highDivisor
  | .eq => some (List.replicate h 0xFFFFFFFFFFFFFFFF, magAdd ((a.take (2 * h)).drop h) highDivisor)
  | .gt => none

/-- Take the product from what is left, and correct an estimate that is too large. -/
def settle (assembled product b estimate : Mag) : Option (Mag × Mag) :=
  if magCmp assembled product = .lt then
    (magSubChecked product assembled).bind fun deficit =>
      let corrected :=
        if magCmp deficit b = .gt then
          (magSubChecked deficit b).bind fun deficit =>
            (magSubChecked estimate [1]).map fun estimate => (estimate, deficit)
        else some (estimate, deficit)
      corrected.bind fun corrected =>
        if magCmp corrected.2 b = .gt then none
        else
          (magSubChecked corrected.1 [1]).bind fun estimate =>
            (magSubChecked b corrected.2).map fun remainder => (estimate, remainder)
  else (magSubChecked assembled product).map fun remainder => (estimate, remainder)

def div3n2n (divideHalf : Mag → Mag → Option (Mag × Mag)) (a b : Mag) (n : Nat) :
    Option (Mag × Mag) :=
  if magCmp a b = .lt then some ([], a)
  else if b.length < n / 2 then none
  else
    let h := n / 2
    (estimateBlock divideHalf a (b.drop h) h).bind fun estimated =>
      (assemble (h * 3) (a.take h) h estimated.2).bind fun assembled =>
        let estimateValue := BigInt.fromParts false estimated.1
        (mulFastUsing estimateValue (BigInt.fromParts false (b.take h))).bind fun product =>
          (settle assembled product.magnitude b estimateValue.magnitude).bind fun settled =>
            if magCmp settled.2 b ≠ .lt ∨ h < settled.1.length then none
            else some (settled.1, magTrim settled.2)

def div2n1n (n : Nat) (a b : Mag) : Option (Mag × Mag) :=
  if magCmp a b = .lt then some ([], a)
  else if n ≤ baseDivisionCutoff then
    (copyAt (List.replicate (n * 2) 0) 0 a).bind fun dividend =>
      (divideNormalized dividend b n).map fun divided =>
        (magTrim divided.1, magTrim (divided.2.take n))
  else
    let h := n / 2
    (div3n2n (div2n1n (n / 2)) (a.drop h) b n).bind fun high =>
      (assemble (n + h) (a.take h) h high.2).bind fun lowDividend =>
        (div3n2n (div2n1n (n / 2)) lowDividend b n).bind fun low =>
          if h < low.1.length ∨ h < high.1.length then none
          else (assemble n low.1 h high.1).map fun quotient => (quotient, low.2)
termination_by n
decreasing_by all_goals exact Nat.div_lt_self (by simp_all [baseDivisionCutoff]; omega) (by decide)

def divideBlocksFrom (divisor : Mag) (n quotientLength : Nat) :
    Nat → List Mag → Option (Mag × Mag)
  | _, [] => some (List.replicate quotientLength 0, [])
  | blockIndex, block :: blocks =>
    (divideBlocksFrom divisor n quotientLength (blockIndex + 1) blocks).bind fun above =>
      (assemble (above.2.length + n) block n above.2).bind fun combined =>
        (div2n1n n combined divisor).bind fun divided =>
          (if divided.1 = [] then some above.1
            else copyAt above.1 (blockIndex * n) divided.1).map fun quotient =>
              (quotient, divided.2)

def divideBlocks (a b : Mag) : Option (Mag × Mag) :=
  (normalizedDivisorLimbs b.length).bind fun n =>
    if n < b.length then none
    else
      let shift := (n - b.length) * 64 + leadingZeros ((b[b.length - 1]?).getD 0)
      (magShl a shift).bind fun numerator =>
        (magShl b shift).bind fun divisor =>
          if divisor.length ≠ n ∨ ((divisor[n - 1]?).getD 0) >>> 63 ≠ 1 ∨ a.length < b.length then
            none
          else
            (divideBlocksFrom divisor n (a.length - b.length + 1) 0 (chunks n numerator)).bind
              fun divided =>
                (magShrInPlace divided.2 shift).map fun remainder =>
                  (magTrim divided.1, remainder)

def magDivRem (a b : Mag) : Option (Mag × Mag) :=
  magDivRemBy divideBlocks a b

def BigInt.divRem (n other : BigInt) : Option (Option (BigInt × BigInt)) :=
  n.divRemBy divideBlocks other

end Purrdf.BigInteger

/-!
## Division by blocks is exact

A half is estimated at most two too large, so two corrections are enough. Widths halve down to
the direct base, the remainders stay below the divisor, and the digits of every block fit the
quotient.
-/

namespace Purrdf.BigInteger

open Limbs

theorem magSubChecked_spec {a b : Mag} (ha : Trimmed a) (hb : Trimmed b)
    (hle : value b ≤ value a) :
    ∃ out, magSubChecked a b = some out ∧ Trimmed out ∧ value out = value a - value b := by
  have hlength := hb.length_le_of_value_le hle
  have hborrow := subFrom_borrow hlength hle
  have horder : magCmp a b ≠ .lt := fun hcmp =>
    Nat.not_lt_of_le hle ((magCmp_lt_iff ha hb).mp hcmp)
  refine ⟨magSubInPlace a b, ?_, magSubInPlace_trimmed a b, magSubInPlace_value hlength hle⟩
  rw [magSubChecked, if_neg]
  rintro (hless | hout)
  · exact horder hless
  · rw [hborrow] at hout
    exact Bool.false_ne_true hout

theorem copyAt_spec {output words : Mag} {offset : Nat}
    (hfits : offset + words.length ≤ output.length) :
    ∃ copied, copyAt output offset words = some copied ∧ copied.length = output.length ∧
      copied.take offset = output.take offset ∧
      value copied = value (output.take offset) + radix ^ offset *
        (value words + radix ^ words.length * value (output.drop (offset + words.length))) := by
  have hfront : (output.take offset).length = offset := by
    rw [List.length_take]
    omega
  refine ⟨output.take offset ++ words ++ output.drop (offset + words.length), ?_, ?_, ?_, ?_⟩
  · rw [copyAt, if_neg (by omega)]
  · rw [List.length_append, List.length_append, hfront, List.length_drop]
    omega
  · rw [List.append_assoc, List.take_append_of_le_length hfront.ge, List.take_take, Nat.min_self]
  · rw [List.append_assoc, value_append, value_append, hfront]

theorem copyAt_zeros {output words : Mag} {offset : Nat}
    (hfits : offset + words.length ≤ output.length)
    (hzeros : radix ^ (offset + words.length) ∣ value output) :
    ∃ copied, copyAt output offset words = some copied ∧ copied.length = output.length ∧
      value copied = value output + radix ^ offset * value words := by
  obtain ⟨copied, hcopied, hlength, _, hvalue⟩ := copyAt_spec hfits
  obtain ⟨rest, hrest⟩ := hzeros
  refine ⟨copied, hcopied, hlength, ?_⟩
  rw [pow_add, Nat.mul_assoc] at hrest
  rw [hvalue, value_take, value_drop, hrest, Nat.mul_mod_right, pow_add, ← Nat.mul_assoc,
    Nat.mul_div_cancel_left _ (Nat.mul_pos (pow_radix_pos _) (pow_radix_pos _))]
  ring

theorem assemble_spec {length offset : Nat} {low high : Mag} (hlow : low.length ≤ offset)
    (hhigh : offset + high.length ≤ length) :
    ∃ out, assemble length low offset high = some out ∧ Trimmed out ∧
      value out = value low + radix ^ offset * value high := by
  have hzeros : (List.replicate length (0 : UInt64)).length = length := List.length_replicate
  obtain ⟨first, hfirst, hlength, hvalue⟩ := @copyAt_zeros (List.replicate length 0) low 0
    (by rw [hzeros]; omega) (by rw [value_replicate_zero]; exact Nat.dvd_zero _)
  rw [value_replicate_zero, pow_zero, Nat.one_mul, Nat.zero_add] at hvalue
  rw [hzeros] at hlength
  obtain ⟨second, hsecond, _, _, hsecondValue⟩ := @copyAt_spec first high offset (by omega)
  have hsmall : value low < radix ^ offset :=
    (value_lt low).trans_le (Nat.pow_le_pow_right radix_pos hlow)
  have hbeyond : value low / radix ^ (offset + high.length) = 0 := by
    apply Nat.div_eq_of_lt
    exact hsmall.trans_le (Nat.pow_le_pow_right radix_pos (Nat.le_add_right _ _))
  refine ⟨magTrim second, ?_, trimmed_trim _, ?_⟩
  · rw [assemble, hfirst, Option.bind_some, hsecond]
    rfl
  · rw [value_magTrim, hsecondValue, value_take, value_drop, hvalue, hbeyond,
      Nat.mod_eq_of_lt hsmall, Nat.mul_zero, Nat.add_zero]

theorem settle_spec {assembled product b estimate : Mag} (hassembled : Trimmed assembled)
    (hproduct : Trimmed product) (hb : Trimmed b) (hestimate : Trimmed estimate) {dividend : Nat}
    (hdividend : dividend + value product = value estimate * value b + value assembled)
    (hover : value estimate * value b ≤ dividend + 2 * value b)
    (hunder : dividend < (value estimate + 1) * value b) :
    ∃ settled, settle assembled product b estimate = some settled ∧ Trimmed settled.1 ∧
      Trimmed settled.2 ∧ dividend = value settled.1 * value b + value settled.2 ∧
      value settled.2 < value b := by
  have hone : Trimmed [1] := by decide
  have honeValue : value [1] = 1 := by decide
  unfold settle
  by_cases hless : value assembled < value product
  · rw [if_pos ((magCmp_lt_iff hassembled hproduct).mpr hless)]
    obtain ⟨deficit, hdeficit, hdeficitTrimmed, hdeficitValue⟩ :=
      magSubChecked_spec hproduct hassembled hless.le
    have hpositive : 1 ≤ value estimate := by
      by_contra hzero
      rw [Nat.lt_one_iff.mp (Nat.lt_of_not_le hzero), Nat.zero_mul] at hdividend
      omega
    obtain ⟨smaller, hsmaller, hsmallerTrimmed, hsmallerValue⟩ :=
      magSubChecked_spec hestimate hone (by rw [honeValue]; exact hpositive)
    rw [hdeficit, Option.bind_some]
    simp only
    by_cases htwice : value b < value deficit
    · -- the estimate is two too large
      have htwo : 2 ≤ value estimate := by
        by_contra hone'
        have hexact : value estimate = 1 := by omega
        rw [hexact, Nat.one_mul] at hdividend
        omega
      obtain ⟨left, hleft, hleftTrimmed, hleftValue⟩ :=
        magSubChecked_spec hdeficitTrimmed hb htwice.le
      obtain ⟨smallest, hsmallest, hsmallestTrimmed, hsmallestValue⟩ :=
        magSubChecked_spec hsmallerTrimmed hone (by rw [honeValue, hsmallerValue, honeValue]; omega)
      obtain ⟨remainder, hremainder, hremainderTrimmed, hremainderValue⟩ :=
        magSubChecked_spec hb hleftTrimmed (by omega)
      have hfits : magCmp left b ≠ .gt := fun hcmp => by
        have hmore := (magCmp_gt_iff hleftTrimmed hb).mp hcmp
        omega
      rw [if_pos ((magCmp_gt_iff hdeficitTrimmed hb).mpr htwice), hleft, Option.bind_some, hsmaller,
        Option.map_some, Option.bind_some, if_neg hfits, hsmallest, Option.bind_some, hremainder,
        Option.map_some]
      refine ⟨_, rfl, hsmallestTrimmed, hremainderTrimmed, ?_, ?_⟩
      · obtain ⟨rest, hrest⟩ := Nat.exists_eq_add_of_le htwo
        have hcount : value smallest = rest := by omega
        rw [hrest, Nat.add_mul] at hdividend hover
        simp only [hcount]
        omega
      · simp only
        omega
    · obtain ⟨remainder, hremainder, hremainderTrimmed, hremainderValue⟩ :=
        magSubChecked_spec hb hdeficitTrimmed (Nat.le_of_not_lt htwice)
      have hfits : magCmp deficit b ≠ .gt := fun hcmp =>
        htwice ((magCmp_gt_iff hdeficitTrimmed hb).mp hcmp)
      rw [if_neg hfits, Option.bind_some, if_neg hfits, hsmaller, Option.bind_some, hremainder,
        Option.map_some]
      refine ⟨_, rfl, hsmallerTrimmed, hremainderTrimmed, ?_, ?_⟩
      · obtain ⟨rest, hrest⟩ := Nat.exists_eq_add_of_le hpositive
        have hcount : value smaller = rest := by omega
        rw [hrest, Nat.add_mul] at hdividend hover
        simp only [hcount]
        omega
      · simp only
        omega
  · obtain ⟨remainder, hremainder, hremainderTrimmed, hremainderValue⟩ :=
      magSubChecked_spec hassembled hproduct (Nat.le_of_not_lt hless)
    rw [if_neg fun hcmp => hless ((magCmp_lt_iff hassembled hproduct).mp hcmp), hremainder,
      Option.map_some]
    rw [Nat.succ_mul] at hunder
    refine ⟨_, rfl, hestimate, hremainderTrimmed, ?_, ?_⟩ <;>
      · simp only
        omega

/-! ### Halves -/

def DividesWidth (divide : Mag → Mag → Option (Mag × Mag)) (n : Nat) : Prop :=
  ∀ a b, Trimmed a → Trimmed b → b.length = n → radix ^ n ≤ 2 * value b →
    value a < radix ^ n * value b → Divides (divide a b) a b

theorem quotient_length_le {a b : Mag} {quotient remainder : Mag} (hquotient : Trimmed quotient)
    (hvalue : value a = value quotient * value b + value remainder) {n : Nat}
    (hless : value a < radix ^ n * value b) : quotient.length ≤ n := by
  rw [hquotient.length_le_iff]
  by_contra hlarge
  have hmore := Nat.mul_le_mul_right (value b) (Nat.le_of_not_lt hlarge)
  omega

section Halves

variable {divideHalf : Mag → Mag → Option (Mag × Mag)} {h : Nat} {a b : Mag}

theorem half_normalized (hpositive : 0 < h) (hhalf : radix ^ (h * 2) ≤ 2 * value b) :
    radix ^ h ≤ 2 * value (b.drop h) := by
  have hsplit := value_split b h
  have hlow := value_take_lt b h
  obtain ⟨k, hk⟩ : 2 ∣ radix ^ h := by
    apply dvd_pow _ (Nat.ne_of_gt hpositive)
    decide
  rw [Nat.mul_two, pow_add] at hhalf
  by_contra hsmall
  have hbelow : value (b.drop h) + 1 ≤ k := by omega
  have hscaled := Nat.mul_le_mul_left (radix ^ h) hbelow
  have hsquare : radix ^ h * radix ^ h = 2 * (radix ^ h * k) := by
    conv_lhs => rw [hk]
    rw [hk]
    ring
  rw [Nat.mul_succ] at hscaled
  omega

theorem estimateBlock_spec (hdivide : DividesWidth divideHalf h) (hpositive : 0 < h)
    (ha : Trimmed a) (hb : Trimmed b) (hlength : b.length = h * 2)
    (hhalf : radix ^ (h * 2) ≤ 2 * value b) (hless : value a < radix ^ h * value b) :
    ∃ estimated, estimateBlock divideHalf a (b.drop h) h = some estimated ∧
      value a / radix ^ h = value estimated.1 * value (b.drop h) + value estimated.2 ∧
      value estimated.1 < radix ^ h ∧ estimated.2.length ≤ h * 2 ∧
      value a < (value estimated.1 + 1) * value b := by
  have hweight := pow_radix_pos h
  have hsplit := value_split b h
  have hlow := value_take_lt b h
  have hhigh : (b.drop h).length = h := by
    rw [List.length_drop]
    omega
  have hhighTrimmed := hb.drop h
  have hmiddle : value (a.drop h) = value ((a.drop h).take h) +
      radix ^ h * value (a.drop (2 * h)) := by
    have hparts := value_split (a.drop h) h
    rwa [List.drop_drop, ← Nat.two_mul] at hparts
  have hmiddleLow := value_take_lt (a.drop h) h
  have hleading : value a < (value (a.drop h) + 1) * radix ^ h := by
    rw [value_drop, Nat.mul_comm]
    exact Nat.lt_mul_div_succ _ hweight
  have hdivisor : value (b.drop h) * radix ^ h ≤ value b := by
    rw [hsplit, Nat.mul_comm]
    exact Nat.le_add_left _ _
  rw [← value_drop]
  unfold estimateBlock
  rw [magCmp_eq (ha.drop (2 * h)) hhighTrimmed]
  rcases Nat.lt_trichotomy (value (a.drop (2 * h))) (value (b.drop h)) with hlt | heq | hgt
  · rw [compare_lt_iff_lt.mpr hlt]
    have hfits : value (a.drop h) < radix ^ h * value (b.drop h) := by
      have hscaled := Nat.mul_le_mul_left (radix ^ h) hlt
      rw [Nat.mul_succ] at hscaled
      omega
    obtain ⟨estimated, hestimated, hquotientTrimmed, hremainderTrimmed, hvalue, hremainder⟩ :=
      hdivide (a.drop h) (b.drop h) (ha.drop h) hhighTrimmed hhigh
        (half_normalized hpositive hhalf) hfits
    refine ⟨estimated, hestimated, hvalue, ?_, ?_, ?_⟩
    · have hcount := quotient_length_le hquotientTrimmed hvalue hfits
      exact (value_lt _).trans_le (Nat.pow_le_pow_right radix_pos hcount)
    · have hcount := hremainderTrimmed.length_le_of_value_le hremainder.le
      omega
    · calc value a < (value (a.drop h) + 1) * radix ^ h := hleading
        _ ≤ (value estimated.1 + 1) * value (b.drop h) * radix ^ h := by
            apply Nat.mul_le_mul_right
            rw [Nat.succ_mul]
            omega
        _ = (value estimated.1 + 1) * (value (b.drop h) * radix ^ h) := Nat.mul_assoc _ _ _
        _ ≤ (value estimated.1 + 1) * value b := Nat.mul_le_mul_left _ hdivisor
  · rw [compare_eq_iff_eq.mpr heq]
    have hones : ∀ count, value (List.replicate count 0xFFFFFFFFFFFFFFFF) + 1 = radix ^ count := by
      intro count
      induction count with
      | zero => rfl
      | succ count ih =>
        have hlimb : (0xFFFFFFFFFFFFFFFF : UInt64).toNat + 1 = radix := rfl
        rw [List.replicate_succ, value_cons, pow_succ', ← ih, Nat.mul_succ]
        omega
    have hcount := hones h
    refine ⟨_, rfl, ?_, by simp only; omega, ?_, by simp only; rw [hcount]; exact hless⟩
    · have hswap : (a.take (2 * h)).drop h = (a.drop h).take h := by
        rw [List.drop_take, Nat.two_mul, Nat.add_sub_cancel]
      simp only [magAdd_value, hswap]
      rw [hmiddle, heq, ← hcount]
      ring
    · have hsum := magAdd_length_le ((a.take (2 * h)).drop h) (b.drop h)
      have htaken : ((a.take (2 * h)).drop h).length ≤ h := by
        rw [List.length_drop, List.length_take]
        omega
      simp only
      omega
  · exfalso
    have hscaled := Nat.mul_le_mul_left (radix ^ h) hgt
    have hsecond : (value (b.drop h) + 1) * radix ^ h ≤ value (a.drop h) := by
      rw [hmiddle, Nat.mul_comm]
      exact hscaled.trans (Nat.le_add_left _ _)
    have hwhole : value (a.drop h) * radix ^ h ≤ value a := by
      rw [value_drop]
      exact Nat.div_mul_le_self _ _
    have hupper : value b < (value (b.drop h) + 1) * radix ^ h := by
      rw [Nat.mul_comm, Nat.mul_succ]
      omega
    have hchain : radix ^ h * value b < value a := by
      calc radix ^ h * value b < radix ^ h * ((value (b.drop h) + 1) * radix ^ h) :=
            Nat.mul_lt_mul_of_pos_left hupper hweight
        _ ≤ radix ^ h * value (a.drop h) := Nat.mul_le_mul_left _ hsecond
        _ = value (a.drop h) * radix ^ h := Nat.mul_comm _ _
        _ ≤ value a := hwhole
    omega

theorem div3n2n_spec (hdivide : DividesWidth divideHalf h) (hpositive : 0 < h) {n : Nat}
    (hn : n = h * 2) (ha : Trimmed a) (hb : Trimmed b) (hlength : b.length = n)
    (hhalf : radix ^ n ≤ 2 * value b) (hless : value a < radix ^ h * value b) :
    Divides (div3n2n divideHalf a b n) a b := by
  subst hn
  unfold div3n2n
  by_cases hsmall : value a < value b
  · rw [if_pos ((magCmp_lt_iff ha hb).mpr hsmall)]
    exact ⟨_, rfl, trimmed_nil, ha, by simp, hsmall⟩
  · have hhalfWidth : h * 2 / 2 = h := Nat.mul_div_cancel _ (by decide)
    rw [if_neg fun hcmp => hsmall ((magCmp_lt_iff ha hb).mp hcmp), if_neg (by omega)]
    simp only [hhalfWidth]
    obtain ⟨estimated, hestimated, hleading, hbound, hcount, hunder⟩ :=
      estimateBlock_spec hdivide hpositive ha hb hlength hhalf hless
    have hsplit := value_split a h
    have hsplitDivisor := value_split b h
    have hlowDivisor := value_take_lt b h
    have htaken := List.length_take_le h a
    obtain ⟨assembled, hassembled, hassembledTrimmed, hassembledValue⟩ :=
      @assemble_spec (h * 3) h (a.take h) estimated.2 htaken (by omega)
    obtain ⟨product, hproduct, _, hproductValue, hproductTrimmed, _⟩ :=
      mulFastUsing_exact (BigInt.fromParts false estimated.1) (BigInt.fromParts false (b.take h))
    have hproductMagnitude : value product.magnitude = value estimated.1 * value (b.take h) := by
      have habs := congrArg Int.natAbs hproductValue
      rwa [Int.natAbs_mul, BigInt.natAbs_toInt, BigInt.natAbs_toInt, BigInt.natAbs_toInt,
        BigInt.fromParts_magnitude, BigInt.fromParts_magnitude] at habs
    have hestimateValue := BigInt.fromParts_magnitude false estimated.1
    rw [← value_drop] at hleading
    have hdividend : value a + value product.magnitude =
        value estimated.1 * value b + value assembled := by
      rw [hproductMagnitude, hassembledValue, hsplit, hleading, hsplitDivisor]
      ring
    have hover : value estimated.1 * value b ≤ value a + 2 * value b := by
      have hestimate : value estimated.1 * value (b.drop h) ≤ value (a.drop h) := by omega
      have hdividendLower : value (a.drop h) * radix ^ h ≤ value a := by
        rw [value_drop]
        exact Nat.div_mul_le_self _ _
      have hdivisorLower : value (b.drop h) * radix ^ h ≤ value b := by
        rw [value_drop]
        exact Nat.div_mul_le_self _ _
      have hdivisorUpper : value b ≤ (value (b.drop h) + 1) * radix ^ h := by
        rw [Nat.mul_comm, Nat.mul_succ]
        omega
      exact TrialQuotient.estimate_mul_le hestimate hbound.le (half_normalized hpositive hhalf)
        hdividendLower hdivisorLower hdivisorUpper
    obtain ⟨settled, hsettled, hquotientTrimmed, hremainderTrimmed, hvalue, hremainder⟩ :=
      settle_spec hassembledTrimmed hproductTrimmed hb
        (BigInt.fromParts false estimated.1).trimmed (by rw [hestimateValue]; exact hdividend)
        (by rw [hestimateValue]; exact hover) (by rw [hestimateValue]; exact hunder)
    have hfits := quotient_length_le hquotientTrimmed hvalue hless
    have horder := (magCmp_lt_iff hremainderTrimmed hb).mpr hremainder
    rw [hestimated, Option.bind_some, hassembled, Option.bind_some, hproduct, Option.bind_some,
      hsettled, Option.bind_some, if_neg (by rw [horder]; simp; omega)]
    refine ⟨_, rfl, hquotientTrimmed, trimmed_trim _, ?_, ?_⟩
    · simpa using hvalue
    · simpa using hremainder

end Halves

/-- Widths that halve evenly down to the direct base. -/
def Splits (n : Nat) : Prop :=
  ∃ k m, n = 2 ^ k * m ∧ m ≤ baseDivisionCutoff

theorem Splits.half {n : Nat} (hsplits : Splits n) (hlarge : baseDivisionCutoff < n) :
    n = n / 2 * 2 ∧ Splits (n / 2) := by
  obtain ⟨k, m, rfl, hm⟩ := hsplits
  cases k with
  | zero =>
    rw [pow_zero, Nat.one_mul] at hlarge
    omega
  | succ k =>
    have hwhole : 2 ^ (k + 1) * m = 2 ^ k * m * 2 := by ring
    rw [hwhole, Nat.mul_div_cancel _ (by decide)]
    exact ⟨rfl, k, m, rfl, hm⟩

theorem normalizedDivisorLimbs_spec {limbs : Nat} (hlimbs : divisionBlockThreshold ≤ limbs) :
    ∃ n, normalizedDivisorLimbs limbs = some n ∧ limbs ≤ n ∧ Splits n := by
  unfold normalizedDivisorLimbs
  rw [if_neg (by unfold divisionBlockThreshold at hlimbs; omega)]
  simp only
  have hgroups := Nat.le_pow_clog (show 1 < 2 by decide)
    ((limbs + baseDivisionCutoff - 1) / baseDivisionCutoff)
  have hpower : ∃ k, max baseDivisorLimbs
      (nextPowerOfTwo ((limbs + baseDivisionCutoff - 1) / baseDivisionCutoff)) = 2 ^ k ∧
        (limbs + baseDivisionCutoff - 1) / baseDivisionCutoff ≤ 2 ^ k := by
    unfold nextPowerOfTwo
    rcases Nat.le_total baseDivisorLimbs
        (2 ^ Nat.clog 2 ((limbs + baseDivisionCutoff - 1) / baseDivisionCutoff)) with hle | hge
    · exact ⟨_, Nat.max_eq_right hle, hgroups⟩
    · refine ⟨7, Nat.max_eq_left hge, hgroups.trans hge⟩
  obtain ⟨k, hk, hwide⟩ := hpower
  rw [hk]
  have hpositive := Nat.two_pow_pos k
  refine ⟨_, rfl, ?_, k, (limbs + 2 ^ k - 1) / 2 ^ k, Nat.mul_comm _ _, ?_⟩
  · have hsplit := Nat.div_add_mod (limbs + 2 ^ k - 1) (2 ^ k)
    have hmod := Nat.mod_lt (limbs + 2 ^ k - 1) hpositive
    rw [Nat.mul_comm]
    omega
  · rw [← Nat.lt_succ_iff, Nat.div_lt_iff_lt_mul hpositive, Nat.succ_mul]
    have hscaled := Nat.mul_le_mul_left baseDivisionCutoff hwide
    unfold baseDivisionCutoff at *
    omega

theorem div2n1n_spec {n : Nat} (hsplits : Splits n) (htwo : 2 ≤ n) :
    DividesWidth (div2n1n n) n := by
  induction n using Nat.strong_induction_on with
  | h n ih =>
  intro a b ha hb hlength hhalf hless
  unfold div2n1n
  by_cases hsmall : value a < value b
  · rw [if_pos ((magCmp_lt_iff ha hb).mpr hsmall)]
    exact ⟨_, rfl, trimmed_nil, ha, by simp, hsmall⟩
  · rw [if_neg fun hcmp => hsmall ((magCmp_lt_iff ha hb).mp hcmp)]
    have hdivisorLt := value_lt b
    rw [hlength] at hdivisorLt
    have hdivisorPositive : 0 < value b := by
      have hweight := pow_radix_pos n
      omega
    split
    · have hcount : a.length ≤ n * 2 := by
        rw [ha.length_le_iff, Nat.mul_two, pow_add]
        exact hless.trans (Nat.mul_lt_mul_of_pos_left hdivisorLt (pow_radix_pos n))
      obtain ⟨dividend, hdividend, hdividendLength, hdividendValue⟩ :=
        @copyAt_zeros (List.replicate (n * 2) 0) a 0 (by rw [List.length_replicate]; omega)
          (by rw [value_replicate_zero]; exact Nat.dvd_zero _)
      rw [value_replicate_zero, pow_zero, Nat.one_mul, Nat.zero_add] at hdividendValue
      rw [List.length_replicate] at hdividendLength
      obtain ⟨divided, hdivided, _, hleft, hvalue, hremainder⟩ :=
        @divideNormalized_spec dividend b ⟨by omega, by rw [hlength]; exact hhalf⟩ n (by omega) (by
          rw [value_drop, hdividendValue, Nat.div_lt_iff_lt_mul (pow_radix_pos n), Nat.mul_comm]
          exact hless)
      rw [hdividend, Option.bind_some, hdivided, Option.map_some]
      refine ⟨_, rfl, trimmed_trim _, trimmed_trim _, ?_, ?_⟩
      · rw [value_magTrim, value_magTrim, value_take, Nat.mod_eq_of_lt (hremainder.trans hdivisorLt),
          ← hvalue, hdividendValue]
      · rw [value_magTrim, value_take, Nat.mod_eq_of_lt (hremainder.trans hdivisorLt)]
        exact hremainder
    · rename_i hlarge
      obtain ⟨heven, hsplitsHalf⟩ := hsplits.half (Nat.lt_of_not_le hlarge)
      have hdivide := ih (n / 2) (by unfold baseDivisionCutoff at hlarge; omega) hsplitsHalf
        (by unfold baseDivisionCutoff at hlarge; omega)
      have hpositive : 0 < n / 2 := by omega
      generalize n / 2 = h at *
      have hweight := pow_radix_pos h
      have hwide : radix ^ n = radix ^ h * radix ^ h := by
        rw [heven, Nat.mul_two, pow_add]
      have hsplit := value_split a h
      have hlow := value_take_lt a h
      have hhighLess : value (a.drop h) < radix ^ h * value b := by
        rw [value_drop, Nat.div_lt_iff_lt_mul hweight, Nat.mul_right_comm, ← hwide]
        exact hless
      obtain ⟨high, hhigh, hhighQuotient, hhighRemainder, hhighValue, hhighLeft⟩ :=
        div3n2n_spec hdivide hpositive heven (ha.drop h) hb hlength hhalf hhighLess
      have hhighCount := quotient_length_le hhighQuotient hhighValue hhighLess
      have hleftCount := hhighRemainder.length_le_of_value_le hhighLeft.le
      obtain ⟨lowDividend, hlowDividend, hlowTrimmed, hlowValue⟩ :=
        @assemble_spec (n + h) h (a.take h) high.2 (List.length_take_le h a) (by omega)
      have hlowLess : value lowDividend < radix ^ h * value b := by
        have hscaled := Nat.mul_le_mul_left (radix ^ h) hhighLeft
        rw [Nat.mul_succ] at hscaled
        omega
      obtain ⟨low, hlowDivided, hlowQuotient, hlowRemainder, hlowSum, hlowLeft⟩ :=
        div3n2n_spec hdivide hpositive heven hlowTrimmed hb hlength hhalf hlowLess
      have hlowCount := quotient_length_le hlowQuotient hlowSum hlowLess
      obtain ⟨quotient, hquotient, hquotientTrimmed, hquotientValue⟩ :=
        @assemble_spec n h low.1 high.1 hlowCount (by omega)
      simp only [hhigh, Option.bind_some, hlowDividend, hlowDivided]
      rw [if_neg (by omega), hquotient, Option.map_some]
      refine ⟨_, rfl, hquotientTrimmed, hlowRemainder, ?_, hlowLeft⟩
      rw [hquotientValue, hsplit, hhighValue]
      linear_combination hlowSum + hlowValue.symm

theorem divideBlocksFrom_spec {divisor : Mag} {n quotientLength : Nat} (hsplits : Splits n)
    (htwo : 2 ≤ n) (hdivisor : Trimmed divisor) (hlength : divisor.length = n)
    (hhalf : radix ^ n ≤ 2 * value divisor) {blockIndex : Nat} {words : Mag}
    (hfits : radix ^ (blockIndex * n) * (value words / value divisor) < radix ^ quotientLength) :
    ∃ divided, divideBlocksFrom divisor n quotientLength blockIndex (chunks n words) =
        some divided ∧ divided.1.length = quotientLength ∧ Trimmed divided.2 ∧
      value divided.1 = radix ^ (blockIndex * n) * (value words / value divisor) ∧
      value divided.2 = value words % value divisor := by
  have hpositive : 0 < value divisor := by
    have hweight := pow_radix_pos n
    omega
  induction hcount : words.length using Nat.strong_induction_on generalizing words blockIndex with
  | h count ih =>
  by_cases hwords : words = []
  · subst hwords
    refine ⟨(List.replicate quotientLength 0, []), by simp [divideBlocksFrom], by simp,
      trimmed_nil, by simp, by simp⟩
  · have hsome : 0 < words.length := List.length_pos_iff.mpr hwords
    have hsplit := value_split words n
    have hblock := value_take_lt words n
    have hdivmod := Nat.div_add_mod (value (words.drop n)) (value divisor)
    have hleft := Nat.mod_lt (value (words.drop n)) hpositive
    have hplace : radix ^ ((blockIndex + 1) * n) = radix ^ (blockIndex * n) * radix ^ n := by
      rw [Nat.succ_mul, pow_add]
    have hcombinedLess : value (words.take n) + radix ^ n * (value (words.drop n) % value divisor) <
        radix ^ n * value divisor := by
      have hscaled := Nat.mul_le_mul_left (radix ^ n) hleft
      rw [Nat.mul_succ] at hscaled
      omega
    have hwhole : value words = value divisor *
        (radix ^ n * (value (words.drop n) / value divisor)) +
          (value (words.take n) + radix ^ n * (value (words.drop n) % value divisor)) := by
      rw [hsplit]
      linear_combination radix ^ n * hdivmod.symm
    have hquotient : value words / value divisor =
        radix ^ n * (value (words.drop n) / value divisor) +
          (value (words.take n) + radix ^ n * (value (words.drop n) % value divisor)) /
            value divisor := by
      conv_lhs => rw [hwhole]
      rw [Nat.mul_add_div hpositive]
    have hremainder : value words % value divisor =
        (value (words.take n) + radix ^ n * (value (words.drop n) % value divisor)) %
          value divisor := by
      conv_lhs => rw [hwhole]
      rw [Nat.mul_add_mod]
    rw [hquotient, Nat.mul_add, ← Nat.mul_assoc, ← hplace] at hfits ⊢
    rw [hremainder]
    obtain ⟨above, habove, haboveLength, haboveTrimmed, haboveQuotient, haboveRemainder⟩ :=
      @ih (words.drop n).length (by rw [List.length_drop]; omega) (blockIndex + 1) (words.drop n)
        (Nat.lt_of_le_of_lt (Nat.le_add_right _ _) hfits) rfl
    obtain ⟨combined, hcombined, hcombinedTrimmed, hcombinedValue⟩ :=
      @assemble_spec (above.2.length + n) n (words.take n) above.2 (List.length_take_le n words)
        (by omega)
    rw [haboveRemainder] at hcombinedValue
    rw [← hcombinedValue] at hcombinedLess hfits ⊢
    obtain ⟨divided, hdivided, hdigits, hnext, hvalue, hless⟩ :=
      div2n1n_spec hsplits htwo combined divisor hcombinedTrimmed hdivisor hlength hhalf
        hcombinedLess
    have hdigitsValue : value combined / value divisor = value divided.1 := by
      rw [hvalue, Nat.mul_comm, Nat.mul_add_div hpositive, Nat.div_eq_of_lt hless, Nat.add_zero]
    have hnextValue : value combined % value divisor = value divided.2 := by
      rw [hvalue, Nat.mul_comm, Nat.mul_add_mod, Nat.mod_eq_of_lt hless]
    have hdigitsCount := quotient_length_le hdigits hvalue hcombinedLess
    rw [hdigitsValue] at hfits ⊢
    rw [hnextValue]
    have hwritten : ∃ quotient, (if divided.1 = [] then some above.1
        else copyAt above.1 (blockIndex * n) divided.1) = some quotient ∧
          quotient.length = quotientLength ∧
          value quotient = radix ^ ((blockIndex + 1) * n) *
            (value (words.drop n) / value divisor) +
              radix ^ (blockIndex * n) * value divided.1 := by
      by_cases hnone : divided.1 = []
      · exact ⟨above.1, by rw [if_pos hnone], haboveLength, by rw [haboveQuotient, hnone]; simp⟩
      · obtain ⟨k, hk⟩ := Nat.exists_eq_succ_of_ne_zero
          (Nat.ne_of_gt (List.length_pos_iff.mpr hnone))
        have hpower := hdigits.pow_le hk
        have hroom : blockIndex * n + divided.1.length ≤ quotientLength := by
          have hscaled : radix ^ (blockIndex * n + k) < radix ^ quotientLength := by
            rw [pow_add]
            have hmore := Nat.mul_le_mul_left (radix ^ (blockIndex * n)) hpower
            omega
          have hexponent := (Nat.pow_lt_pow_iff_right one_lt_radix).mp hscaled
          omega
        obtain ⟨quotient, hcopied, hcopiedLength, hcopiedValue⟩ :=
          @copyAt_zeros above.1 divided.1 (blockIndex * n) (by omega) (by
            rw [haboveQuotient]
            apply Dvd.dvd.mul_right
            apply Nat.pow_dvd_pow
            rw [Nat.succ_mul]
            omega)
        exact ⟨quotient, by rw [if_neg hnone, hcopied], hcopiedLength.trans haboveLength,
          by rw [hcopiedValue, haboveQuotient]⟩
    obtain ⟨quotient, hquotientSome, hquotientLength, hquotientValue⟩ := hwritten
    refine ⟨(quotient, divided.2), ?_, hquotientLength, hnext, hquotientValue, rfl⟩
    rw [chunks_cons (by omega) hwords, divideBlocksFrom, habove, Option.bind_some, hcombined,
      Option.bind_some, hdivided, Option.bind_some, hquotientSome]
    rfl

theorem divideBlocks_spec {a b : Mag} (ha : Trimmed a) (hb : Trimmed b)
    (hroute : useBlockDivision a.length b.length = true) (hle : value b ≤ value a) :
    Divides (divideBlocks a b) a b := by
  have hcount : b.length ≤ a.length := hb.length_le_of_value_le hle
  have hlarge : divisionBlockThreshold ≤ b.length := by
    unfold useBlockDivision at hroute
    simp only [Bool.and_eq_true, decide_eq_true_eq] at hroute
    exact hroute.1
  have hthreshold : divisionBlockThreshold = 2048 := rfl
  obtain ⟨n, hn, hwide, hsplits⟩ := normalizedDivisorLimbs_spec hlarge
  obtain ⟨top, htop⟩ := @getElem?_of_lt b (b.length - 1) (by omega)
  obtain ⟨hhalf, hfits⟩ := normalizing_shift hb htop
  have hscale : 2 ^ ((n - b.length) * 64 + leadingZeros top) =
      2 ^ leadingZeros top * radix ^ (n - b.length) := by
    rw [radix_pow, ← pow_add, Nat.mul_comm, Nat.add_comm]
  have hwidth : radix ^ n = radix ^ b.length * radix ^ (n - b.length) := by
    rw [← pow_add, Nat.add_sub_cancel' hwide]
  have hpad := pow_radix_pos (n - b.length)
  generalize hshift : (n - b.length) * 64 + leadingZeros top = shift at hscale
  have hpower := Nat.two_pow_pos shift
  obtain ⟨numerator, hnumerator, _, hnumeratorValue⟩ := magShl_spec ha shift
  obtain ⟨divisor, hdivisor, hdivisorTrimmed, hdivisorValue⟩ := magShl_spec hb shift
  have hdivisorHalf : radix ^ n ≤ 2 * value divisor := by
    rw [hdivisorValue, hscale, hwidth, ← Nat.mul_assoc, ← Nat.mul_assoc, Nat.mul_assoc 2]
    exact Nat.mul_le_mul_right _ hhalf
  have hdivisorLt : value divisor < radix ^ n := by
    rw [hdivisorValue, hscale, hwidth, ← Nat.mul_assoc]
    exact Nat.mul_lt_mul_of_pos_right hfits hpad
  have hdivisorLength : divisor.length = n := by
    apply Nat.le_antisymm ((hdivisorTrimmed.length_le_iff n).mpr hdivisorLt)
    by_contra hshort
    have hsmall := (hdivisorTrimmed.length_le_iff (n - 1)).mp (by omega)
    have hstep : radix ^ n = radix ^ (n - 1) * radix := by
      rw [← pow_succ, Nat.sub_add_cancel (by omega)]
    have hradix : 2 * value divisor < radix ^ (n - 1) * radix := by
      calc 2 * value divisor < 2 * radix ^ (n - 1) := by omega
        _ ≤ radix * radix ^ (n - 1) := Nat.mul_le_mul_right _ (by decide)
        _ = radix ^ (n - 1) * radix := Nat.mul_comm _ _
    omega
  have hnormalized : Normalized divisor :=
    ⟨by omega, by rw [hdivisorLength]; exact hdivisorHalf⟩
  have hbit := hnormalized.top_bit
  rw [hdivisorLength] at hbit
  have hquotient : value numerator / value divisor = value a / value b := by
    rw [hnumeratorValue, hdivisorValue, Nat.mul_div_mul_right _ _ hpower]
  have hpositive : 0 < value b := by
    have hweight := pow_radix_pos b.length
    apply Nat.pos_of_ne_zero
    intro hzero
    rw [hzero, Nat.zero_mul] at hhalf
    omega
  obtain ⟨k, hk⟩ : ∃ k, b.length = k + 1 := ⟨b.length - 1, by omega⟩
  obtain ⟨divided, hdivided, _, htrimmed, hquotientValue, hremainderValue⟩ :=
    @divideBlocksFrom_spec divisor n (a.length - b.length + 1) hsplits (by omega) hdivisorTrimmed
      hdivisorLength hdivisorHalf 0 numerator (by
        rw [Nat.zero_mul, pow_zero, Nat.one_mul, hquotient, Nat.div_lt_iff_lt_mul hpositive]
        calc value a < radix ^ a.length := value_lt a
          _ = radix ^ (a.length - b.length + 1) * radix ^ k := by
              rw [← pow_add]
              congr 1
              omega
          _ ≤ radix ^ (a.length - b.length + 1) * value b :=
              Nat.mul_le_mul_left _ (hb.pow_le hk))
  rw [Nat.zero_mul, pow_zero, Nat.one_mul] at hquotientValue
  have hsum := Nat.div_add_mod' (value numerator) (value divisor)
  have hless := Nat.mod_lt (value numerator) (show 0 < value divisor by
    rw [hdivisorValue]
    exact Nat.mul_pos hpositive hpower)
  rw [← hquotientValue, ← hremainderValue, hnumeratorValue, hdivisorValue] at hsum
  rw [← hremainderValue, hdivisorValue] at hless
  obtain ⟨hvalue, hleft⟩ := undo_shift hpower hsum.symm hless
  obtain ⟨remainder, hshifted, hremainderTrimmed, hremainder, _⟩ :=
    magShrInPlace_spec divided.2 shift
  rw [← hremainder] at hvalue hleft
  refine ⟨(magTrim divided.1, remainder), ?_, trimmed_trim _, hremainderTrimmed, ?_, hleft⟩
  · simp only [divideBlocks, hn, Option.bind_some, htop, Option.getD_some, hshift, hnumerator,
      hdivisor, hdivided, hshifted]
    rw [if_neg (by omega), if_neg]
    · rfl
    · rintro (hother | hclear | hshort)
      · exact hother hdivisorLength
      · exact hclear hbit
      · omega
  · rw [value_magTrim]
    exact hvalue

theorem magDivRem_spec {a b : Mag} (ha : Trimmed a) (hb : Trimmed b) (hpositive : b ≠ []) :
    Divides (magDivRem a b) a b :=
  magDivRemBy_spec ha hb hpositive fun hroute hle => divideBlocks_spec ha hb hroute hle

/-- Division is exact on every route, with a truncated quotient. -/
theorem divRem_exact (n other : BigInt) :
    (other.toInt = 0 → n.divRem other = some none) ∧
      (other.toInt ≠ 0 → ∃ quotient remainder,
        n.divRem other = some (some (quotient, remainder)) ∧
          n.toInt = quotient.toInt * other.toInt + remainder.toInt ∧
          |remainder.toInt| < |other.toInt| ∧
          (remainder.toInt = 0 ∨ (remainder.toInt < 0 ↔ n.toInt < 0)) ∧
          Trimmed quotient.magnitude ∧ Trimmed remainder.magnitude) := by
  constructor
  · intro hzero
    rw [BigInt.divRem, BigInt.divRemBy, if_pos ((BigInt.isZero_iff other).mpr hzero)]
  · intro hother
    have hpositive : other.magnitude ≠ [] := by
      intro hnone
      apply hother
      rw [BigInt.toInt, hnone, BigInt.signedValue_nil]
    obtain ⟨quotient, remainder, hdivided, hquotient, hremainder⟩ :=
      divRemBy_spec hother (magDivRem_spec n.trimmed other.trimmed hpositive)
    refine ⟨quotient, remainder, hdivided, ?_, ?_, ?_, quotient.trimmed, remainder.trimmed⟩
    · rw [hquotient, hremainder, Int.tdiv_mul_add_tmod]
    · rw [hremainder, Int.abs_eq_natAbs, Int.abs_eq_natAbs, Int.natAbs_tmod]
      exact_mod_cast Nat.mod_lt _ (Int.natAbs_pos.mpr hother)
    · rw [hremainder]
      rcases Int.lt_or_le n.toInt 0 with hnegative | hnonnegative
      · have hflipped := Int.tmod_nonneg other.toInt (show 0 ≤ -n.toInt by omega)
        rw [Int.neg_tmod] at hflipped
        rcases Int.lt_or_le (n.toInt.tmod other.toInt) 0 with hless | hmore
        · exact Or.inr ⟨fun _ => hnegative, fun _ => hless⟩
        · exact Or.inl (by omega)
      · have hremainderNonneg := Int.tmod_nonneg other.toInt hnonnegative
        refine Or.inr ⟨fun hless => ?_, fun hless => ?_⟩ <;> omega

end Purrdf.BigInteger
