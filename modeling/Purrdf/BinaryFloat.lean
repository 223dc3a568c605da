import Mathlib.Data.Nat.Log
import Mathlib.Tactic.Linarith
import Mathlib.Tactic.Ring

/-!
# Binary interchange formats

A binary floating-point format is its number of exponent bits and of trailing
mantissa bits; a bit pattern is a sign, a biased exponent and a mantissa.
Widening keeps the value of a pattern of a narrower format, and narrowing finds
the pattern of the narrower format that widens to a given one. The two are
inverse, so narrowing answers exactly when the narrower format holds the value.
-/

namespace Purrdf

structure FloatFormat where
  exponentBits : Nat
  mantissaBits : Nat
deriving DecidableEq, Repr

@[ext]
structure FloatFields where
  sign : Nat
  exponent : Nat
  mantissa : Nat
deriving DecidableEq, Repr

namespace FloatFormat

variable (fmt wide narrow : FloatFormat)

def bias : Nat := 2 ^ (fmt.exponentBits - 1) - 1

def topExponent : Nat := 2 ^ fmt.exponentBits - 1

def fields (bits : Nat) : FloatFields where
  sign := bits >>> (fmt.exponentBits + fmt.mantissaBits)
  exponent := (bits >>> fmt.mantissaBits) &&& (2 ^ fmt.exponentBits - 1)
  mantissa := bits &&& (2 ^ fmt.mantissaBits - 1)

def pack (f : FloatFields) : Nat :=
  f.sign <<< (fmt.exponentBits + fmt.mantissaBits) ||| f.exponent <<< fmt.mantissaBits |||
    f.mantissa

structure Fits (f : FloatFields) : Prop where
  sign : f.sign < 2
  exponent : f.exponent < 2 ^ fmt.exponentBits
  mantissa : f.mantissa < 2 ^ fmt.mantissaBits

/-- The fields in `narrow` of the value with these fields in `wide`, when it has
some: infinities and NaNs keep their payload, a normal value its mantissa, and a
value below the normal range becomes a subnormal. -/
def narrowFields (f : FloatFields) : Option FloatFields :=
  let dropped := wide.mantissaBits - narrow.mantissaBits
  if f.exponent = wide.topExponent then
    if f.mantissa &&& (2 ^ dropped - 1) = 0 then
      some ⟨f.sign, narrow.topExponent, f.mantissa >>> dropped⟩
    else none
  else if f.exponent = 0 then
    if f.mantissa = 0 then some ⟨f.sign, 0, 0⟩ else none
  else
    let unbiased : Int := f.exponent - wide.bias
    if 1 - (narrow.bias : Int) ≤ unbiased ∧ unbiased ≤ narrow.bias then
      if f.mantissa &&& (2 ^ dropped - 1) = 0 then
        some ⟨f.sign, (unbiased + narrow.bias).toNat, f.mantissa >>> dropped⟩
      else none
    else if 1 - (narrow.bias : Int) - narrow.mantissaBits ≤ unbiased ∧
        unbiased < 1 - (narrow.bias : Int) then
      let significand := 2 ^ wide.mantissaBits ||| f.mantissa
      let shift :=
        ((wide.mantissaBits : Int) - (unbiased + (narrow.bias - 1 + narrow.mantissaBits))).toNat
      if significand &&& (2 ^ shift - 1) = 0 then some ⟨f.sign, 0, significand >>> shift⟩
      else none
    else none

/-- The fields in `wide` of the value with these fields in `narrow`. A subnormal
is normalized: its leading bit becomes the implicit one. -/
def widenFields (f : FloatFields) : FloatFields :=
  let dropped := wide.mantissaBits - narrow.mantissaBits
  if f.exponent = 0 then
    if f.mantissa = 0 then ⟨f.sign, 0, 0⟩
    else
      let shift := narrow.mantissaBits - f.mantissa.log2
      let normalized := (f.mantissa <<< shift) &&& (2 ^ narrow.mantissaBits - 1)
      ⟨f.sign, wide.bias - narrow.bias + 1 - shift, normalized <<< dropped⟩
  else if f.exponent = narrow.topExponent then
    ⟨f.sign, wide.topExponent, f.mantissa <<< dropped⟩
  else ⟨f.sign, f.exponent + wide.bias - narrow.bias, f.mantissa <<< dropped⟩

/-- Set the quiet bit of a NaN, as a conversion between formats does. -/
def quiet (f : FloatFields) : FloatFields :=
  if f.exponent = fmt.topExponent ∧ f.mantissa ≠ 0 then
    { f with mantissa := f.mantissa ||| 2 ^ (fmt.mantissaBits - 1) }
  else f

/-- A NaN whose quiet bit is clear. -/
def Signaling (f : FloatFields) : Prop :=
  f.exponent = fmt.topExponent ∧ f.mantissa ≠ 0 ∧ f.mantissa < 2 ^ (fmt.mantissaBits - 1)

instance (f : FloatFields) : Decidable (fmt.Signaling f) :=
  inferInstanceAs (Decidable (f.exponent = fmt.topExponent ∧ f.mantissa ≠ 0 ∧
    f.mantissa < 2 ^ (fmt.mantissaBits - 1)))

/-- The narrower format fits in the wider one with its subnormals among the
normal values. -/
structure Narrower : Prop where
  exponentPos : 2 ≤ narrow.exponentBits
  mantissaPos : 0 < narrow.mantissaBits
  mantissa : narrow.mantissaBits ≤ wide.mantissaBits
  exponent : narrow.exponentBits < wide.exponentBits
  range : narrow.bias + narrow.mantissaBits < wide.bias

variable {fmt wide narrow}

/-! ### Fields and patterns -/

theorem Fits.low_lt {f : FloatFields} (h : fmt.Fits f) :
    f.exponent * 2 ^ fmt.mantissaBits + f.mantissa <
      2 ^ (fmt.exponentBits + fmt.mantissaBits) :=
  calc f.exponent * 2 ^ fmt.mantissaBits + f.mantissa
      < f.exponent * 2 ^ fmt.mantissaBits + 2 ^ fmt.mantissaBits :=
        Nat.add_lt_add_left h.mantissa _
    _ = (f.exponent + 1) * 2 ^ fmt.mantissaBits := by ring
    _ ≤ 2 ^ fmt.exponentBits * 2 ^ fmt.mantissaBits := Nat.mul_le_mul_right _ h.exponent
    _ = 2 ^ (fmt.exponentBits + fmt.mantissaBits) := (Nat.pow_add _ _ _).symm

theorem pack_eq {f : FloatFields} (h : fmt.Fits f) :
    fmt.pack f = f.sign * 2 ^ (fmt.exponentBits + fmt.mantissaBits) +
      f.exponent * 2 ^ fmt.mantissaBits + f.mantissa := by
  have hlow := h.low_lt
  unfold pack
  rw [Nat.or_assoc, ← Nat.shiftLeft_add_eq_or_of_lt h.mantissa, Nat.shiftLeft_eq f.exponent,
    ← Nat.shiftLeft_add_eq_or_of_lt hlow, Nat.shiftLeft_eq, Nat.add_assoc]

theorem fields_pack {f : FloatFields} (h : fmt.Fits f) : fmt.fields (fmt.pack f) = f := by
  have hexponent := h.exponent
  have hmantissa := h.mantissa
  have hlow := h.low_lt
  have hsplit : f.sign * 2 ^ (fmt.exponentBits + fmt.mantissaBits) =
      (f.sign * 2 ^ fmt.exponentBits) * 2 ^ fmt.mantissaBits := by
    rw [Nat.pow_add, Nat.mul_assoc]
  have hpos : 0 < 2 ^ fmt.mantissaBits := Nat.two_pow_pos _
  have hpos' : 0 < 2 ^ (fmt.exponentBits + fmt.mantissaBits) := Nat.two_pow_pos _
  rw [pack_eq h]
  ext
  · simp only [fields, Nat.shiftRight_eq_div_pow]
    rw [Nat.add_assoc, Nat.add_comm, Nat.add_mul_div_right _ _ hpos', Nat.div_eq_of_lt hlow,
      Nat.zero_add]
  · simp only [fields, Nat.shiftRight_eq_div_pow, Nat.and_two_pow_sub_one_eq_mod]
    rw [hsplit, ← Nat.add_mul, Nat.add_comm, Nat.add_mul_div_right _ _ hpos,
      Nat.div_eq_of_lt hmantissa, Nat.zero_add, Nat.add_comm, Nat.add_mul_mod_self_right,
      Nat.mod_eq_of_lt hexponent]
  · simp only [fields, Nat.and_two_pow_sub_one_eq_mod]
    rw [hsplit, ← Nat.add_mul, Nat.add_comm, Nat.add_mul_mod_self_right,
      Nat.mod_eq_of_lt hmantissa]

theorem fits_fields {bits : Nat}
    (h : bits < 2 ^ (1 + fmt.exponentBits + fmt.mantissaBits)) : fmt.Fits (fmt.fields bits) := by
  refine ⟨?_, ?_, ?_⟩
  · simp only [fields, Nat.shiftRight_eq_div_pow]
    rw [Nat.div_lt_iff_lt_mul (Nat.two_pow_pos _)]
    rwa [Nat.add_assoc, Nat.pow_add, Nat.pow_one] at h
  · simp only [fields, Nat.and_two_pow_sub_one_eq_mod]
    exact Nat.mod_lt _ (Nat.two_pow_pos _)
  · simp only [fields, Nat.and_two_pow_sub_one_eq_mod]
    exact Nat.mod_lt _ (Nat.two_pow_pos _)

theorem pack_fields {bits : Nat}
    (h : bits < 2 ^ (1 + fmt.exponentBits + fmt.mantissaBits)) :
    fmt.pack (fmt.fields bits) = bits := by
  rw [pack_eq (fits_fields h)]
  simp only [fields, Nat.shiftRight_eq_div_pow, Nat.and_two_pow_sub_one_eq_mod]
  have hlow := Nat.div_add_mod bits (2 ^ fmt.mantissaBits)
  have hhigh := Nat.div_add_mod (bits / 2 ^ fmt.mantissaBits) (2 ^ fmt.exponentBits)
  rw [Nat.div_div_eq_div_mul, ← Nat.pow_add, Nat.add_comm fmt.mantissaBits] at hhigh
  calc bits / 2 ^ (fmt.exponentBits + fmt.mantissaBits) *
          2 ^ (fmt.exponentBits + fmt.mantissaBits) +
        bits / 2 ^ fmt.mantissaBits % 2 ^ fmt.exponentBits * 2 ^ fmt.mantissaBits +
        bits % 2 ^ fmt.mantissaBits
      = 2 ^ fmt.mantissaBits * (2 ^ fmt.exponentBits *
          (bits / 2 ^ (fmt.exponentBits + fmt.mantissaBits)) +
          bits / 2 ^ fmt.mantissaBits % 2 ^ fmt.exponentBits) + bits % 2 ^ fmt.mantissaBits := by
        rw [Nat.pow_add]; ring
    _ = bits := by rw [hhigh, hlow]

theorem pack_lt {f : FloatFields} (h : fmt.Fits f) :
    fmt.pack f < 2 ^ (1 + fmt.exponentBits + fmt.mantissaBits) := by
  have hlow := h.low_lt
  have hsign := Nat.mul_le_mul_right (2 ^ (fmt.exponentBits + fmt.mantissaBits))
    (Nat.le_of_lt_succ h.sign)
  rw [pack_eq h, Nat.add_assoc 1, Nat.pow_add 2 1, Nat.pow_one]
  omega

/-- Shifting the leading bit to position `width` and dropping it. -/
theorem normalized_eq {value lead width : Nat} (hwidth : lead ≤ width) (hlow : 2 ^ lead ≤ value)
    (hhigh : value < 2 ^ (lead + 1)) :
    value * 2 ^ (width - lead) % 2 ^ width + 2 ^ width = value * 2 ^ (width - lead) := by
  have hpow : 2 ^ lead * 2 ^ (width - lead) = 2 ^ width := by
    rw [← Nat.pow_add, Nat.add_sub_cancel' hwidth]
  have hmin : 2 ^ width ≤ value * 2 ^ (width - lead) := by
    rw [← hpow]
    exact Nat.mul_le_mul_right _ hlow
  have hmax : value * 2 ^ (width - lead) < 2 ^ width + 2 ^ width := by
    calc value * 2 ^ (width - lead) < 2 ^ (lead + 1) * 2 ^ (width - lead) :=
          Nat.mul_lt_mul_of_pos_right hhigh (Nat.two_pow_pos _)
      _ = 2 ^ width + 2 ^ width := by rw [Nat.pow_succ, ← hpow]; ring
  rw [Nat.mod_eq_sub_mod hmin, Nat.mod_eq_of_lt (by omega)]
  omega

/-- A significand that ends in `shift` zeros, cut down to its leading bits. -/
theorem significand_div {width shift lead mantissa : Nat} (hwidth : shift + lead = width)
    (hmantissa : mantissa < 2 ^ width) (hzero : (2 ^ width + mantissa) % 2 ^ shift = 0) :
    (2 ^ width + mantissa) / 2 ^ shift * 2 ^ shift = 2 ^ width + mantissa ∧
      2 ^ lead ≤ (2 ^ width + mantissa) / 2 ^ shift ∧
      (2 ^ width + mantissa) / 2 ^ shift < 2 ^ (lead + 1) := by
  have hpow : 2 ^ lead * 2 ^ shift = 2 ^ width := by
    rw [← Nat.pow_add, Nat.add_comm, hwidth]
  refine ⟨Nat.div_mul_cancel (Nat.dvd_of_mod_eq_zero hzero), ?_, ?_⟩
  · rw [Nat.le_div_iff_mul_le (Nat.two_pow_pos _), hpow]
    exact Nat.le_add_right _ _
  · rw [Nat.div_lt_iff_lt_mul (Nat.two_pow_pos _), Nat.pow_succ]
    calc 2 ^ width + mantissa < 2 ^ width + 2 ^ width := Nat.add_lt_add_left hmantissa _
      _ = 2 ^ lead * 2 * 2 ^ shift := by rw [← hpow]; ring

theorem log2_of_bounds {value lead : Nat} (hlow : 2 ^ lead ≤ value)
    (hhigh : value < 2 ^ (lead + 1)) : value.log2 = lead := by
  have hpos : value ≠ 0 := Nat.ne_of_gt (Nat.lt_of_lt_of_le (Nat.two_pow_pos lead) hlow)
  exact (Nat.log2_eq_iff hpos).mpr ⟨hlow, hhigh⟩

/-! ### Narrowing and widening -/

theorem two_pow_pred_mul {n : Nat} (h : 1 ≤ n) : 2 * 2 ^ (n - 1) = 2 ^ n := by
  rw [← Nat.pow_succ']
  congr 1
  omega

theorem Narrower.bias_eq (h : Narrower wide narrow) :
    2 ≤ 2 ^ (narrow.exponentBits - 1) ∧ narrow.topExponent = 2 * narrow.bias + 1 ∧
      1 ≤ narrow.bias ∧ wide.topExponent = 2 * wide.bias + 1 := by
  have hpos := h.exponentPos
  have hlt := h.exponent
  have hnarrow := two_pow_pred_mul (Nat.le_of_succ_le hpos)
  have hwide := two_pow_pred_mul (n := wide.exponentBits) (by omega)
  have htwo : 2 ^ 1 ≤ 2 ^ (narrow.exponentBits - 1) := Nat.pow_le_pow_right (by omega) (by omega)
  have hone := Nat.two_pow_pos (wide.exponentBits - 1)
  unfold topExponent bias
  omega

variable {f g : FloatFields}

theorem widen_narrow (hn : Narrower wide narrow) (hf : wide.Fits f)
    (h : narrowFields wide narrow f = some g) :
    narrow.Fits g ∧ widenFields wide narrow g = f := by
  obtain ⟨_, htop, hbias, htop'⟩ := hn.bias_eq
  have hmantissa := hn.mantissa
  have hrange := hn.range
  have hpow : 2 ^ narrow.mantissaBits * 2 ^ (wide.mantissaBits - narrow.mantissaBits) =
      2 ^ wide.mantissaBits := by
    rw [← Nat.pow_add, Nat.add_sub_cancel' hmantissa]
  have hnarrowTop : narrow.topExponent < 2 ^ narrow.exponentBits :=
    Nat.sub_lt (Nat.two_pow_pos _) Nat.one_pos
  have hcut : f.mantissa % 2 ^ (wide.mantissaBits - narrow.mantissaBits) = 0 →
      f.mantissa / 2 ^ (wide.mantissaBits - narrow.mantissaBits) < 2 ^ narrow.mantissaBits ∧
      f.mantissa / 2 ^ (wide.mantissaBits - narrow.mantissaBits) *
        2 ^ (wide.mantissaBits - narrow.mantissaBits) = f.mantissa := by
    intro hzero
    refine ⟨?_, Nat.div_mul_cancel (Nat.dvd_of_mod_eq_zero hzero)⟩
    rw [Nat.div_lt_iff_lt_mul (Nat.two_pow_pos _), hpow]
    exact hf.mantissa
  unfold narrowFields at h
  simp only [Nat.and_two_pow_sub_one_eq_mod, Nat.shiftRight_eq_div_pow] at h
  split at h
  · next hexponent =>
      split at h
      · next hzero =>
          cases h
          obtain ⟨hlt, hback⟩ := hcut hzero
          refine ⟨⟨hf.sign, hnarrowTop, hlt⟩, ?_⟩
          have hne : narrow.topExponent ≠ 0 := by omega
          ext <;> simp [widenFields, hne, Nat.shiftLeft_eq, hback, hexponent]
      · cases h
  · next hexponent =>
  split at h
  · next hzero =>
      split at h
      · next hmant =>
          cases h
          refine ⟨⟨hf.sign, Nat.two_pow_pos _, Nat.two_pow_pos _⟩, ?_⟩
          ext <;> simp [widenFields, hzero, hmant]
      · cases h
  · next hpositive =>
  split at h
  · next hnormal =>
      split at h
      · next hzero =>
          cases h
          obtain ⟨hlt, hback⟩ := hcut hzero
          have hvalue : ((f.exponent : Int) - wide.bias + narrow.bias).toNat + wide.bias =
              f.exponent + narrow.bias := by omega
          have hne : ((f.exponent : Int) - wide.bias + narrow.bias).toNat ≠ 0 := by omega
          have hnetop : ((f.exponent : Int) - wide.bias + narrow.bias).toNat ≠
              narrow.topExponent := by omega
          refine ⟨⟨hf.sign, ?_, hlt⟩, ?_⟩
          · dsimp only
            omega
          · unfold widenFields
            rw [if_neg hne, if_neg hnetop]
            ext
            · rfl
            · dsimp only
              omega
            · simpa [Nat.shiftLeft_eq] using hback
      · cases h
  split at h
  · next hnormal hsubnormal =>
      obtain ⟨lead, hlead⟩ : ∃ lead, f.exponent + narrow.bias + narrow.mantissaBits =
          wide.bias + 1 + lead := ⟨f.exponent + narrow.bias + narrow.mantissaBits -
            (wide.bias + 1), by omega⟩
      have hshift : ((wide.mantissaBits : Int) - ((f.exponent : Int) - wide.bias +
          (narrow.bias - 1 + narrow.mantissaBits))).toNat = wide.mantissaBits - lead := by omega
      have hor : 2 ^ wide.mantissaBits ||| f.mantissa = 2 ^ wide.mantissaBits + f.mantissa := by
        have := Nat.two_pow_add_eq_or_of_lt hf.mantissa 1
        rw [Nat.mul_one] at this
        exact this.symm
      rw [hshift, hor] at h
      split at h
      · next hzero =>
          cases h
          have hwidth : wide.mantissaBits - lead + lead = wide.mantissaBits := by omega
          obtain ⟨hback, hlow, hhigh⟩ := significand_div hwidth hf.mantissa hzero
          generalize (2 ^ wide.mantissaBits + f.mantissa) / 2 ^ (wide.mantissaBits - lead) = value
            at hback hlow hhigh
          have hlog := log2_of_bounds hlow hhigh
          have hne : value ≠ 0 := Nat.ne_of_gt (Nat.lt_of_lt_of_le (Nat.two_pow_pos lead) hlow)
          have hnorm := normalized_eq (show lead ≤ narrow.mantissaBits by omega) hlow hhigh
          refine ⟨⟨hf.sign, Nat.two_pow_pos _, ?_⟩, ?_⟩
          · exact Nat.lt_of_lt_of_le hhigh (Nat.pow_le_pow_right (by omega) (by omega))
          · unfold widenFields
            rw [if_pos rfl, if_neg hne]
            simp only [hlog, Nat.shiftLeft_eq, Nat.and_two_pow_sub_one_eq_mod]
            ext
            · rfl
            · dsimp only
              omega
            · dsimp only
              have hsum : (value * 2 ^ (narrow.mantissaBits - lead) % 2 ^ narrow.mantissaBits) *
                  2 ^ (wide.mantissaBits - narrow.mantissaBits) + 2 ^ wide.mantissaBits =
                  f.mantissa + 2 ^ wide.mantissaBits := by
                rw [← hpow, ← Nat.add_mul, hnorm, Nat.mul_assoc, ← Nat.pow_add, hpow,
                  show narrow.mantissaBits - lead + (wide.mantissaBits - narrow.mantissaBits) =
                    wide.mantissaBits - lead by omega, hback, Nat.add_comm]
              omega
      · cases h
  · cases h

theorem narrow_widen (hn : Narrower wide narrow) (hg : narrow.Fits g) :
    wide.Fits (widenFields wide narrow g) ∧
      narrowFields wide narrow (widenFields wide narrow g) = some g := by
  obtain ⟨_, htop, hbias, htop'⟩ := hn.bias_eq
  have hmantissa := hn.mantissa
  have hrange := hn.range
  have hpow : 2 ^ narrow.mantissaBits * 2 ^ (wide.mantissaBits - narrow.mantissaBits) =
      2 ^ wide.mantissaBits := by
    rw [← Nat.pow_add, Nat.add_sub_cancel' hmantissa]
  have hwideTop : wide.topExponent < 2 ^ wide.exponentBits :=
    Nat.sub_lt (Nat.two_pow_pos _) Nat.one_pos
  have hpad : ∀ mantissa, mantissa < 2 ^ narrow.mantissaBits →
      mantissa * 2 ^ (wide.mantissaBits - narrow.mantissaBits) < 2 ^ wide.mantissaBits := by
    intro mantissa hlt
    rw [← hpow]
    exact Nat.mul_lt_mul_of_pos_right hlt (Nat.two_pow_pos _)
  have hsize : g.exponent ≤ narrow.topExponent := Nat.le_sub_one_of_lt hg.exponent
  unfold widenFields
  simp only [Nat.shiftLeft_eq, Nat.and_two_pow_sub_one_eq_mod]
  split
  · next hzero =>
      split
      · next hmant =>
          refine ⟨⟨hg.sign, Nat.two_pow_pos _, Nat.two_pow_pos _⟩, ?_⟩
          have hne : (0 : Nat) ≠ wide.topExponent := by omega
          unfold narrowFields
          simp only [if_neg hne, if_true, Option.some.injEq]
          ext
          · rfl
          · exact hzero.symm
          · exact hmant.symm
      · next hmant =>
          obtain ⟨hlow, hhigh⟩ := (Nat.log2_eq_iff hmant).mp rfl
          have hlead : g.mantissa.log2 < narrow.mantissaBits :=
            (Nat.log2_lt hmant).mpr hg.mantissa
          have hnorm := normalized_eq (Nat.le_of_lt hlead) hlow hhigh
          obtain ⟨shift, hshift⟩ : ∃ shift, narrow.mantissaBits - g.mantissa.log2 = shift :=
            ⟨_, rfl⟩
          rw [hshift] at hnorm ⊢
          have hlt := Nat.mod_lt (g.mantissa * 2 ^ shift) (Nat.two_pow_pos narrow.mantissaBits)
          refine ⟨⟨hg.sign, ?_, hpad _ hlt⟩, ?_⟩
          · dsimp only
            omega
          · have htopne : wide.bias - narrow.bias + 1 - shift ≠ wide.topExponent := by omega
            have hpositive : wide.bias - narrow.bias + 1 - shift ≠ 0 := by omega
            have hvalue : ((wide.bias - narrow.bias + 1 - shift : Nat) : Int) - wide.bias =
                1 - (narrow.bias : Int) - shift := by omega
            have hcut : ((wide.mantissaBits : Int) - (1 - (narrow.bias : Int) - shift +
                (narrow.bias - 1 + narrow.mantissaBits))).toNat =
                shift + (wide.mantissaBits - narrow.mantissaBits) := by omega
            have hor : 2 ^ wide.mantissaBits ||| g.mantissa * 2 ^ shift %
                2 ^ narrow.mantissaBits * 2 ^ (wide.mantissaBits - narrow.mantissaBits) =
                g.mantissa * 2 ^ (shift + (wide.mantissaBits - narrow.mantissaBits)) := by
              have hadd := Nat.two_pow_add_eq_or_of_lt (hpad _ hlt) 1
              rw [Nat.mul_one] at hadd
              rw [← hadd, ← hpow, ← Nat.add_mul, Nat.add_comm, hnorm, Nat.mul_assoc,
                ← Nat.pow_add]
            unfold narrowFields
            simp only [if_neg htopne, if_neg hpositive, hvalue, hcut, hor,
              Nat.and_two_pow_sub_one_eq_mod, Nat.shiftRight_eq_div_pow, Nat.mul_mod_left,
              Nat.mul_div_cancel _ (Nat.two_pow_pos _), if_true]
            rw [if_neg (by omega), if_pos (by omega), Option.some.injEq]
            ext
            · rfl
            · exact hzero.symm
            · rfl
  · next hpositive =>
  split
  · next hexponent =>
      refine ⟨⟨hg.sign, hwideTop, hpad _ hg.mantissa⟩, ?_⟩
      unfold narrowFields
      simp only [if_true, Nat.and_two_pow_sub_one_eq_mod, Nat.shiftRight_eq_div_pow,
        Nat.mul_mod_left, Nat.mul_div_cancel _ (Nat.two_pow_pos _), Option.some.injEq]
      ext
      · rfl
      · exact hexponent.symm
      · rfl
  · next hexponent =>
      refine ⟨⟨hg.sign, ?_, hpad _ hg.mantissa⟩, ?_⟩
      · dsimp only
        omega
      · have htopne : g.exponent + wide.bias - narrow.bias ≠ wide.topExponent := by omega
        have hne : g.exponent + wide.bias - narrow.bias ≠ 0 := by omega
        have hvalue : ((g.exponent + wide.bias - narrow.bias : Nat) : Int) - wide.bias =
            g.exponent - narrow.bias := by omega
        unfold narrowFields
        simp only [if_neg htopne, if_neg hne, hvalue, Nat.and_two_pow_sub_one_eq_mod,
          Nat.shiftRight_eq_div_pow, Nat.mul_mod_left,
          Nat.mul_div_cancel _ (Nat.two_pow_pos _), if_true]
        rw [if_pos (by omega), Option.some.injEq]
        ext
        · rfl
        · dsimp only
          omega
        · rfl

theorem quiet_eq (hf : fmt.Fits f) (hpos : 0 < fmt.mantissaBits) (h : ¬ fmt.Signaling f) :
    fmt.quiet f = f := by
  unfold quiet
  split
  · next hnan =>
      have hquiet : 2 ^ (fmt.mantissaBits - 1) ≤ f.mantissa := by
        by_contra hlow
        exact h ⟨hnan.1, hnan.2, Nat.lt_of_not_le hlow⟩
      have hrest : f.mantissa - 2 ^ (fmt.mantissaBits - 1) < 2 ^ (fmt.mantissaBits - 1) := by
        have hmantissa := hf.mantissa
        have hdouble := two_pow_pred_mul hpos
        omega
      have hor := Nat.two_pow_add_eq_or_of_lt hrest 1
      rw [Nat.mul_one, Nat.add_sub_cancel' hquiet] at hor
      have hset : f.mantissa ||| 2 ^ (fmt.mantissaBits - 1) = f.mantissa := by
        rw [hor, Nat.or_comm, ← Nat.or_assoc, Nat.or_self]
      rw [hset]
  · rfl

theorem signaling_widen (hn : Narrower wide narrow) (hg : narrow.Fits g) :
    wide.Signaling (widenFields wide narrow g) ↔ narrow.Signaling g := by
  obtain ⟨_, htop, hbias, htop'⟩ := hn.bias_eq
  have hmantissa := hn.mantissa
  have hpos := hn.mantissaPos
  have hrange := hn.range
  have hsize : g.exponent ≤ narrow.topExponent := Nat.le_sub_one_of_lt hg.exponent
  have hexponent : (widenFields wide narrow g).exponent = wide.topExponent ↔
      g.exponent = narrow.topExponent := by
    unfold widenFields
    split
    · split <;> dsimp only <;> omega
    · split <;> dsimp only <;> omega
  unfold Signaling
  rw [hexponent]
  refine and_congr_right fun htopg => ?_
  have hne : g.exponent ≠ 0 := by omega
  have hwiden : (widenFields wide narrow g).mantissa =
      g.mantissa * 2 ^ (wide.mantissaBits - narrow.mantissaBits) := by
    unfold widenFields
    rw [if_neg hne, if_pos htopg, Nat.shiftLeft_eq]
  have hhalf : 2 ^ (wide.mantissaBits - 1) =
      2 ^ (narrow.mantissaBits - 1) * 2 ^ (wide.mantissaBits - narrow.mantissaBits) := by
    rw [← Nat.pow_add]
    congr 1
    omega
  have hscale : 0 < 2 ^ (wide.mantissaBits - narrow.mantissaBits) := Nat.two_pow_pos _
  rw [hwiden, hhalf, Nat.mul_lt_mul_right hscale]
  exact and_congr_left fun _ => Nat.mul_ne_zero_iff.trans (and_iff_left hscale.ne')

/-! ### Bit patterns of two formats -/

variable (wide narrow)

def narrowBits (bits : Nat) : Option Nat :=
  (narrowFields wide narrow (wide.fields bits)).map narrow.pack

def widenBits (bits : Nat) : Nat :=
  wide.pack (widenFields wide narrow (narrow.fields bits))

def convertBits (bits : Nat) : Nat :=
  wide.pack (wide.quiet (widenFields wide narrow (narrow.fields bits)))

variable {wide narrow} {bits pattern : Nat}

theorem narrowBits_lt (hn : Narrower wide narrow)
    (hbits : bits < 2 ^ (1 + wide.exponentBits + wide.mantissaBits))
    (h : narrowBits wide narrow bits = some pattern) :
    pattern < 2 ^ (1 + narrow.exponentBits + narrow.mantissaBits) := by
  obtain ⟨g, hg, rfl⟩ := Option.map_eq_some_iff.mp h
  exact pack_lt (widen_narrow hn (fits_fields hbits) hg).1

theorem widenBits_lt (hn : Narrower wide narrow)
    (hpattern : pattern < 2 ^ (1 + narrow.exponentBits + narrow.mantissaBits)) :
    widenBits wide narrow pattern < 2 ^ (1 + wide.exponentBits + wide.mantissaBits) :=
  pack_lt (narrow_widen hn (fits_fields hpattern)).1

theorem narrowBits_iff (hn : Narrower wide narrow)
    (hbits : bits < 2 ^ (1 + wide.exponentBits + wide.mantissaBits))
    (hpattern : pattern < 2 ^ (1 + narrow.exponentBits + narrow.mantissaBits)) :
    narrowBits wide narrow bits = some pattern ↔ widenBits wide narrow pattern = bits := by
  constructor
  · intro h
    obtain ⟨g, hg, rfl⟩ := Option.map_eq_some_iff.mp h
    obtain ⟨hfits, hwiden⟩ := widen_narrow hn (fits_fields hbits) hg
    unfold widenBits
    rw [fields_pack hfits, hwiden, pack_fields hbits]
  · intro h
    obtain ⟨hfits, hnarrow⟩ := narrow_widen hn (fits_fields hpattern)
    subst h
    unfold narrowBits widenBits
    rw [fields_pack hfits, hnarrow, Option.map_some, pack_fields hpattern]

theorem convertBits_eq (hn : Narrower wide narrow)
    (hpattern : pattern < 2 ^ (1 + narrow.exponentBits + narrow.mantissaBits))
    (h : ¬ narrow.Signaling (narrow.fields pattern)) :
    convertBits wide narrow pattern = widenBits wide narrow pattern := by
  have hpos : 0 < wide.mantissaBits := Nat.lt_of_lt_of_le hn.mantissaPos hn.mantissa
  have hfits := fits_fields hpattern
  unfold convertBits widenBits
  rw [quiet_eq (narrow_widen hn hfits).1 hpos (mt (signaling_widen hn hfits).mp h)]

end FloatFormat

end Purrdf
