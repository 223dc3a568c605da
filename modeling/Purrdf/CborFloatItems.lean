import Purrdf.CborRoundTrip

/-!
# Float items

A float item is read for the value of its width. Every item but one kind is written again as it
was read, and every value but one kind is read as it was written: a binary32 NaN whose quiet bit is
clear is quieted by the conversion on the way in, and nothing quiets it on the way out.
-/

namespace Purrdf

namespace FloatFormat

variable {fmt wide narrow : FloatFormat} {f g : FloatFields}

theorem quiet_signaling (h : fmt.Signaling f) :
    fmt.quiet f = { f with mantissa := f.mantissa + 2 ^ (fmt.mantissaBits - 1) } := by
  have hor := Nat.two_pow_add_eq_or_of_lt h.2.2 1
  rw [Nat.mul_one] at hor
  rw [quiet, if_pos ⟨h.1, h.2.1⟩, Nat.or_comm, ← hor, Nat.add_comm]

theorem quiet_fits (hf : fmt.Fits f) (hpos : 0 < fmt.mantissaBits) : fmt.Fits (fmt.quiet f) := by
  by_cases h : fmt.Signaling f
  · have hdouble := two_pow_pred_mul hpos
    have hlow := h.2.2
    rw [quiet_signaling h]
    refine ⟨hf.sign, hf.exponent, ?_⟩
    dsimp only
    omega
  · rwa [quiet_eq hf hpos h]

theorem not_signaling_quiet (fmt : FloatFormat) (hpos : 0 < fmt.mantissaBits) (hf : fmt.Fits f) :
    ¬ fmt.Signaling (fmt.quiet f) := by
  by_cases h : fmt.Signaling f
  · rw [quiet_signaling h]
    intro hquiet
    have hlow := hquiet.2.2
    dsimp only at hlow
    omega
  · rwa [quiet_eq hf hpos h]

theorem widen_top (hn : Narrower wide narrow) (h : g.exponent = narrow.topExponent) :
    widenFields wide narrow g = ⟨g.sign, wide.topExponent,
      g.mantissa * 2 ^ (wide.mantissaBits - narrow.mantissaBits)⟩ := by
  obtain ⟨_, htop, hbias, _⟩ := hn.bias_eq
  have hne : g.exponent ≠ 0 := by omega
  rw [widenFields, if_neg hne, if_pos h, Nat.shiftLeft_eq]

theorem quiet_widen (hn : Narrower wide narrow) (hg : narrow.Fits g) :
    wide.quiet (widenFields wide narrow g) = widenFields wide narrow (narrow.quiet g) := by
  have hpos := Nat.lt_of_lt_of_le hn.mantissaPos hn.mantissa
  by_cases h : narrow.Signaling g
  · have hwide := (signaling_widen hn hg).mpr h
    have hhalf : 2 ^ (wide.mantissaBits - 1) =
        2 ^ (narrow.mantissaBits - 1) * 2 ^ (wide.mantissaBits - narrow.mantissaBits) := by
      have hmantissa := hn.mantissa
      have hnarrow := hn.mantissaPos
      rw [← Nat.pow_add]
      congr 1
      omega
    have hquieted := widen_top (g := { g with mantissa := g.mantissa +
      2 ^ (narrow.mantissaBits - 1) }) hn h.1
    rw [quiet_signaling hwide, quiet_signaling h, hquieted, widen_top hn h.1, hhalf, Nat.add_mul]
  · rw [quiet_eq (narrow_widen hn hg).1 hpos (mt (signaling_widen hn hg).mp h),
      quiet_eq hg hn.mantissaPos h]

theorem narrow_top (h : f.exponent = wide.topExponent) : narrowFields wide narrow f = none ↔
    f.mantissa % 2 ^ (wide.mantissaBits - narrow.mantissaBits) ≠ 0 := by
  unfold narrowFields
  rw [if_pos h, Nat.and_two_pow_sub_one_eq_mod]
  split
  · rename_i hzero
    simp [hzero]
  · rename_i hsome
    simp [hsome]

end FloatFormat

namespace Cbor

open FloatFormat ByteCursor
open CborHead (argumentWidth)

/-- An item of major type 7 with a float behind its head. -/
inductive FloatItem where
  | half (bits : UInt16)
  | single (bits : UInt32)
  | double (bits : UInt64)

namespace FloatItem

def bytes : FloatItem → List UInt8
  | half bits => 0xf9 :: beBytes 2 bits.toNat
  | single bits => 0xfa :: beBytes 4 bits.toNat
  | double bits => 0xfb :: beBytes 8 bits.toNat

def value : FloatItem → UInt64
  | half bits => f16ToF64 bits
  | single bits => f32ToF64 bits
  | double bits => bits

/-- The item of a binary32 NaN whose quiet bit is clear and whose payload takes that width. -/
def Quieted : FloatItem → Prop
  | single bits => SignalingSingle bits ∧ (binary32.fields bits.toNat).mantissa % 2 ^ 13 ≠ 0
  | _ => False

end FloatItem

/-- A NaN whose quiet bit is clear and whose payload fits binary32 and not binary16. -/
def Quieted (value : UInt64) : Prop :=
  binary64.Signaling (binary64.fields value.toNat) ∧
    (binary64.fields value.toNat).mantissa % 2 ^ 29 = 0 ∧
    (binary64.fields value.toNat).mantissa % 2 ^ 42 ≠ 0

/-! ### Conversions -/

def quietSingle (single : UInt32) : UInt32 :=
  UInt32.ofNat (binary32.pack (binary32.quiet (binary32.fields single.toNat)))

theorem single_fits (single : UInt32) : binary32.Fits (binary32.fields single.toNat) :=
  fits_fields single.toNat_lt

theorem fields_quietSingle (single : UInt32) :
    binary32.fields (quietSingle single).toNat =
      binary32.quiet (binary32.fields single.toNat) := by
  have hfits := quiet_fits (single_fits single) (by decide)
  rw [quietSingle, UInt32.toNat_ofNat_of_lt' (pack_lt hfits), fields_pack hfits]

theorem not_signaling_quietSingle (single : UInt32) : ¬ SignalingSingle (quietSingle single) := by
  rw [SignalingSingle, fields_quietSingle]
  exact not_signaling_quiet binary32 (by decide) (single_fits single)

theorem f32ToF64_quietSingle (single : UInt32) :
    f32ToF64 (quietSingle single) = f32ToF64 single := by
  have hfits := single_fits single
  have hquiet := quiet_fits hfits (show 0 < binary32.mantissaBits by decide)
  have hagain := quiet_eq hquiet (by decide) (not_signaling_quiet binary32 (by decide) hfits)
  unfold f32ToF64 convertBits
  rw [fields_quietSingle, quiet_widen narrower32 hquiet, hagain, quiet_widen narrower32 hfits]

theorem f32Bits_f32ToF64 (single : UInt32) :
    f32Bits (f32ToF64 single) = some (quietSingle single) :=
  (f32Bits_iff _ (not_signaling_quietSingle single)).mpr (f32ToF64_quietSingle single)

/-! ### Values that are lost -/

theorem double_fits (value : UInt64) : binary64.Fits (binary64.fields value.toNat) :=
  fits_fields value.toNat_lt

theorem f16Bits_none {value : UInt64}
    (htop : (binary64.fields value.toNat).exponent = binary64.topExponent) :
    f16Bits value = none ↔ (binary64.fields value.toNat).mantissa % 2 ^ 42 ≠ 0 := by
  unfold f16Bits narrowBits
  rw [Option.map_eq_none_iff, Option.map_eq_none_iff]
  exact narrow_top htop

theorem f32Bits_none {value : UInt64}
    (htop : (binary64.fields value.toNat).exponent = binary64.topExponent) :
    f32Bits value = none ↔ (binary64.fields value.toNat).mantissa % 2 ^ 29 ≠ 0 := by
  unfold f32Bits narrowBits
  rw [Option.map_eq_none_iff, Option.map_eq_none_iff]
  exact narrow_top htop

theorem signaling_f32Bits {value : UInt64} {single : UInt32} (h : f32Bits value = some single) :
    SignalingSingle single ↔ binary64.Signaling (binary64.fields value.toNat) := by
  obtain ⟨pattern, hpattern, hsame⟩ := Option.map_eq_some_iff.mp h
  obtain ⟨g, hnarrow, hpack⟩ := Option.map_eq_some_iff.mp hpattern
  obtain ⟨hfits, hwiden⟩ := widen_narrow narrower32 (double_fits value) hnarrow
  have hfields : binary32.fields single.toNat = g := by
    rw [← hsame, ← hpack, UInt32.toNat_ofNat_of_lt' (pack_lt hfits), fields_pack hfits]
  rw [SignalingSingle, hfields, ← hwiden]
  exact (signaling_widen narrower32 hfits).symm

theorem quieted_iff (value : UInt64) : Quieted value ↔ WrittenSignaling value := by
  constructor
  · rintro ⟨hsignaling, hsingle, hhalf⟩
    refine ⟨(f16Bits_none hsignaling.1).mpr hhalf, ?_⟩
    cases hbits : f32Bits value with
    | none => exact absurd hsingle ((f32Bits_none hsignaling.1).mp hbits)
    | some single => exact ⟨single, rfl, (signaling_f32Bits hbits).mpr hsignaling⟩
  · rintro ⟨hhalf, single, hsingle, hsignaling⟩
    have hvalue := (signaling_f32Bits hsingle).mp hsignaling
    refine ⟨hvalue, ?_, (f16Bits_none hvalue.1).mp hhalf⟩
    by_contra hne
    rw [(f32Bits_none hvalue.1).mpr hne] at hsingle
    cases hsingle

theorem quieted_single (single : UInt32) : (FloatItem.single single).Quieted ↔
    SignalingSingle single ∧ f16Bits (f32ToF64 single) = none := by
  unfold FloatItem.Quieted
  refine and_congr_right fun hsignaling => ?_
  have hfits := single_fits single
  have hquiet : binary64.fields (f32ToF64 single).toNat =
      ⟨(binary32.fields single.toNat).sign, 2047,
        ((binary32.fields single.toNat).mantissa + 2 ^ 22) * 2 ^ 29⟩ := by
    have hwide := (narrow_widen narrower32 (quiet_fits hfits (by decide))).1
    have hlimit : binary64.pack (widenFields binary64 binary32
        (binary32.quiet (binary32.fields single.toNat))) < 2 ^ 64 := pack_lt hwide
    unfold f32ToF64 convertBits
    rw [quiet_widen narrower32 hfits, UInt64.toNat_ofNat_of_lt' hlimit, fields_pack hwide,
      quiet_signaling hsignaling]
    exact widen_top narrower32 hsignaling.1
  rw [f16Bits_none (by rw [hquiet]; rfl), hquiet]
  dsimp only
  have hsplit : (2 : Nat) ^ 42 = 2 ^ 13 * 2 ^ 29 := by decide
  rw [hsplit, Nat.mul_mod_mul_right]
  omega

/-! ### Reading and writing items -/

namespace FloatItem

/-- The low bits of an item's first byte, the width of its argument, and the argument. -/
def info : FloatItem → UInt8
  | half _ => 25
  | single _ => 26
  | double _ => 27

def width : FloatItem → Nat
  | half _ => 2
  | single _ => 4
  | double _ => 8

def argument : FloatItem → UInt64
  | half bits => bits.toUInt64
  | single bits => bits.toUInt64
  | double bits => bits

theorem bytes_eq (item : FloatItem) :
    item.bytes = ((7 : UInt8) <<< 5 ||| item.info) :: beBytes item.width item.argument.toNat := by
  cases item with
  | half bits =>
    simp only [bytes, info, width, argument, UInt16.toNat_toUInt64]
    rfl
  | single bits =>
    simp only [bytes, info, width, argument, UInt32.toNat_toUInt64]
    rfl
  | double bits =>
    simp only [bytes, info, width, argument]
    rfl

theorem argument_fits (item : FloatItem) : item.argument.toNat < 256 ^ item.width := by
  cases item with
  | half bits => simpa [argument, width] using bits.toNat_lt
  | single bits => simpa [argument, width] using bits.toNat_lt
  | double bits => exact bits.toNat_lt

theorem floatOf_argument (item : FloatItem) :
    floatOf item.info item.argument = (item.value, item.bytes.length) := by
  cases item with
  | half bits => simp [floatOf, info, argument, value, bytes, beBytes_length]
  | single bits => simp [floatOf, info, argument, value, bytes, beBytes_length]
  | double bits => simp [floatOf, info, argument, value, bytes, beBytes_length]

theorem head_facts (item : FloatItem) : ((7 : UInt8) <<< 5 ||| item.info) &&& 31 = item.info ∧
    ((7 : UInt8) <<< 5 ||| item.info) >>> 5 = 7 ∧ ((7 : UInt8) <<< 5 ||| item.info) ≠ 0xff := by
  cases item <;> simp only [info] <;> decide

theorem simpleOrFloat_item (item : FloatItem) (start : Nat) (deterministic : Bool) :
    simpleOrFloat ((7 : UInt8) <<< 5 ||| item.info) item.argument start deterministic =
      if deterministic ∧ item.bytes.length ≠ (floatItem item.value).length then
        .error ⟨.notDeterministic "a float must use its shortest exact form", start⟩
      else .ok (.float item.value) := by
  have hlow := item.head_facts.1
  have hlong : item.info ≠ 20 ∧ item.info ≠ 21 ∧ item.info ≠ 22 ∧ ¬ item.info ≤ 23 ∧
      item.info ≠ 24 := by
    cases item <;> simp only [info] <;> decide
  unfold simpleOrFloat
  simp only [hlow, if_neg hlong.1, if_neg hlong.2.1, if_neg hlong.2.2.1, if_neg hlong.2.2.2.1,
    if_neg hlong.2.2.2.2, floatOf_argument]

theorem decodeItem_item (item : FloatItem) (limits : Limits) (deterministic : Bool) :
    ∃ next, next.pos = item.bytes.length ∧ decodeItem ⟨item.bytes, 0⟩ limits deterministic =
      if deterministic ∧ item.bytes.length ≠ (floatItem item.value).length then
        .error ⟨.notDeterministic "a float must use its shortest exact form", 0⟩
      else .ok (.float item.value, next) := by
  have hwidth : argumentWidth item.info = some item.width := by
    cases item <;> rfl
  obtain ⟨hlow, hmajor, hbreak⟩ := item.head_facts
  have hrest : ByteCursor.rest ⟨item.bytes, 0⟩ = ((7 : UInt8) <<< 5 ||| item.info) ::
      (beBytes item.width item.argument.toNat ++ []) := by
    rw [List.append_nil, ← bytes_eq]
    rfl
  have hargument : ∀ middle next,
      Took middle (beBytes item.width item.argument.toNat) next →
        Cbor.argument middle ((7 : UInt8) <<< 5 ||| item.info) 0 deterministic =
          .ok (some item.argument, next) := by
    intro middle next htail
    exact argument_wide (by rwa [hlow]) item.argument_fits (.inl hmajor) htail
  have hhead : ∃ next, Took ⟨item.bytes, 0⟩ (((7 : UInt8) <<< 5 ||| item.info) ::
      beBytes item.width item.argument.toNat) next ∧ next.rest = [] ∧
        readItem limits deterministic [] ⟨item.bytes, 0⟩ = readBody limits deterministic [] next
          ((7 : UInt8) <<< 5 ||| item.info) (some item.argument) 0 :=
    readItem_head hrest hbreak hargument
  obtain ⟨next, htook, -, hread⟩ := hhead
  refine ⟨next, ?_, ?_⟩
  · rw [← bytes_eq] at htook
    exact htook.pos_eq.trans (Nat.zero_add _)
  · have hbody := item.simpleOrFloat_item 0 deterministic
    have hseven : readBody limits deterministic [] next ((7 : UInt8) <<< 5 ||| item.info)
        (some item.argument) 0 =
          if deterministic ∧ item.bytes.length ≠ (floatItem item.value).length then
            .error ⟨.notDeterministic "a float must use its shortest exact form", 0⟩
          else .ok (.item (.float item.value) 0 [] next) := by
      have hne : (7 : UInt8) ≠ 0 ∧ (7 : UInt8) ≠ 1 ∧ ¬ ((7 : UInt8) = 2 ∨ (7 : UInt8) = 3) := by
        decide
      unfold readBody
      simp only [hmajor, if_neg hne.1, if_neg hne.2.1, if_neg hne.2.2, if_true]
      rw [hbody]
      by_cases hrefused : deterministic ∧ item.bytes.length ≠ (floatItem item.value).length
      · simp only [if_pos hrefused]
      · simp only [if_neg hrefused]
    rw [decodeItem_eq, decodeFrom_eq, turn, hread, hseven]
    by_cases hrefused : deterministic ∧ item.bytes.length ≠ (floatItem item.value).length
    · rw [if_pos hrefused, if_pos hrefused]
    · rw [if_neg hrefused, if_neg hrefused]
      rfl

theorem decode_item (item : FloatItem) (limits : Limits) :
    decode item.bytes limits = .ok (.float item.value) := by
  obtain ⟨next, hend, hread⟩ := item.decodeItem_item limits false
  rw [if_neg (by simp)] at hread
  rw [decode, decodePrefix, hread]
  dsimp only
  rw [if_pos hend]

theorem accepted_iff (item : FloatItem) (limits : Limits) :
    (∃ value, decodeDeterministic item.bytes limits = .ok value) ↔
      (floatItem item.value).length = item.bytes.length := by
  obtain ⟨next, hend, hread⟩ := item.decodeItem_item limits true
  rw [decodeDeterministic, hread]
  by_cases hsame : item.bytes.length = (floatItem item.value).length
  · rw [if_neg (by simp [hsame])]
    dsimp only
    rw [if_pos hend]
    exact ⟨fun _ => hsame.symm, fun _ => ⟨_, rfl⟩⟩
  · rw [if_pos ⟨rfl, hsame⟩]
    refine ⟨?_, fun hlength => absurd hlength.symm hsame⟩
    rintro ⟨value, hvalue⟩
    cases hvalue

end FloatItem

theorem floatItem_eq (value : UInt64) : ∃ item : FloatItem, floatItem value = item.bytes ∧
    (∀ bits, item = .half bits ↔ f16Bits value = some bits) ∧
    (∀ bits, item = .single bits ↔ f16Bits value = none ∧ f32Bits value = some bits) ∧
    (∀ bits, item = .double bits ↔
      f16Bits value = none ∧ f32Bits value = none ∧ value = bits) := by
  unfold floatItem
  cases hhalf : f16Bits value with
  | some half => exact ⟨.half half, rfl, by simp, by simp, by simp⟩
  | none =>
    cases hsingle : f32Bits value with
    | some single => exact ⟨.single single, rfl, by simp, by simp, by simp⟩
    | none => exact ⟨.double value, rfl, by simp, by simp, by simp⟩

theorem FloatItem.bytes_inj {item other : FloatItem} (hsame : item.bytes = other.bytes) :
    item = other := by
  have hvalues : ∀ width low high, low < 256 ^ width → high < 256 ^ width →
      beBytes width low = beBytes width high → low = high := by
    intro width low high hlow hhigh hbytes
    rw [← beValue_beBytes_of_lt hlow, hbytes, beValue_beBytes_of_lt hhigh]
  cases item with
  | half bits =>
    cases other with
    | half others =>
      have htail := (List.cons.inj hsame).2
      rw [UInt16.toNat_inj.mp (hvalues 2 _ _ bits.toNat_lt others.toNat_lt htail)]
    | single | double => exact absurd (List.cons.inj hsame).1 (by decide)
  | single bits =>
    cases other with
    | single others =>
      have htail := (List.cons.inj hsame).2
      rw [UInt32.toNat_inj.mp (hvalues 4 _ _ bits.toNat_lt others.toNat_lt htail)]
    | half | double => exact absurd (List.cons.inj hsame).1 (by decide)
  | double bits =>
    cases other with
    | double others =>
      have htail := (List.cons.inj hsame).2
      rw [UInt64.toNat_inj.mp (hvalues 8 _ _ bits.toNat_lt others.toNat_lt htail)]
    | half | single => exact absurd (List.cons.inj hsame).1 (by decide)

/-! ### The codec -/

def Survives (limits : Limits) (value : UInt64) : Prop :=
  decode (floatItem value) limits = .ok (.float value)

/-- Each shorter width is taken exactly when an item of that width, and none of a still shorter
one, is read as the value. -/
def Shortest (limits : Limits) (value : UInt64) : Prop :=
  ((∃ bits, floatItem value = (FloatItem.half bits).bytes) ↔
    ∃ bits, decode (FloatItem.half bits).bytes limits = .ok (.float value)) ∧
  ((∃ bits, floatItem value = (FloatItem.single bits).bytes) ↔
    (¬ ∃ bits, decode (FloatItem.half bits).bytes limits = .ok (.float value)) ∧
      ∃ bits, decode (FloatItem.single bits).bytes limits = .ok (.float value))

/-- An item is accepted in deterministic mode exactly when its value is written as that item. -/
def ReadsExactly (limits : Limits) (item : FloatItem) : Prop :=
  (∃ value, decodeDeterministic item.bytes limits = .ok value) ↔
    ∃ value, decode item.bytes limits = .ok value ∧ encode value = some item.bytes

theorem reads_float_iff (item : FloatItem) (limits : Limits) (value : UInt64) :
    decode item.bytes limits = .ok (.float value) ↔ item.value = value := by
  rw [item.decode_item]
  simp

theorem encode_float (value : UInt64) : encode (.float value) = some (floatItem value) := by
  rw [encode_eq, Value.encoding_scalar rfl]

theorem half_reads_iff (value : UInt64) (limits : Limits) :
    (∃ bits, decode (FloatItem.half bits).bytes limits = .ok (.float value)) ↔
      ∃ bits, f16Bits value = some bits := by
  simp only [reads_float_iff, f16Bits_iff]
  rfl

theorem single_reads_iff (value : UInt64) (limits : Limits) :
    (∃ bits, decode (FloatItem.single bits).bytes limits = .ok (.float value)) ↔
      ∃ bits, f32Bits value = some bits ∧ ¬ SignalingSingle bits := by
  simp only [reads_float_iff]
  constructor
  · rintro ⟨bits, rfl⟩
    exact ⟨quietSingle bits, f32Bits_f32ToF64 bits, not_signaling_quietSingle bits⟩
  · rintro ⟨bits, hbits, hquiet⟩
    exact ⟨bits, (f32Bits_iff value hquiet).mp hbits⟩

theorem survives_iff (limits : Limits) (value : UInt64) :
    Survives limits value ↔ ¬ Quieted value := by
  obtain ⟨item, hitem, hhalf, hsingle, hdouble⟩ := floatItem_eq value
  rw [Survives, hitem, reads_float_iff, quieted_iff]
  cases item with
  | half bits =>
    have hbits := (hhalf bits).mp rfl
    refine iff_of_true ((f16Bits_iff value bits).mp hbits) ?_
    rintro ⟨hnone, -⟩
    rw [hbits] at hnone
    cases hnone
  | single bits =>
    obtain ⟨hnone, hbits⟩ := (hsingle bits).mp rfl
    constructor
    · rintro hvalue ⟨-, other, hother, hsignaling⟩
      rw [← show f32ToF64 bits = value from hvalue, Option.mem_def, f32Bits_f32ToF64] at hother
      rw [← Option.some.inj hother] at hsignaling
      exact not_signaling_quietSingle bits hsignaling
    · intro hwritten
      refine (f32Bits_iff value ?_).mp hbits
      exact fun hsignaling => hwritten ⟨hnone, bits, hbits, hsignaling⟩
  | double bits =>
    obtain ⟨-, hnone, hvalue⟩ := (hdouble bits).mp rfl
    refine iff_of_true hvalue.symm ?_
    rintro ⟨-, other, hother, -⟩
    rw [hnone] at hother
    cases hother

theorem shortest_iff (limits : Limits) (value : UInt64) :
    Shortest limits value ↔ ¬ Quieted value := by
  obtain ⟨item, hitem, hhalf, hsingle, hdouble⟩ := floatItem_eq value
  have hhalves : (∃ bits, floatItem value = (FloatItem.half bits).bytes) ↔
      ∃ bits, f16Bits value = some bits := by
    simp only [← hhalf, hitem]
    exact exists_congr fun bits => ⟨FloatItem.bytes_inj, congrArg FloatItem.bytes⟩
  have hsingles : (∃ bits, floatItem value = (FloatItem.single bits).bytes) ↔
      f16Bits value = none ∧ ∃ bits, f32Bits value = some bits := by
    rw [← exists_and_left]
    simp only [← hsingle, hitem]
    exact exists_congr fun bits => ⟨FloatItem.bytes_inj, congrArg FloatItem.bytes⟩
  have hnone : (¬ ∃ bits, f16Bits value = some bits) ↔ f16Bits value = none := by
    rw [Option.eq_none_iff_forall_ne_some]
    simp
  rw [Shortest, half_reads_iff, single_reads_iff, hhalves, hsingles, hnone, quieted_iff]
  rw [and_iff_right Iff.rfl]
  constructor
  · rintro hwidth ⟨hhalfNone, bits, hbits, hsignaling⟩
    obtain ⟨-, other, hother, hquiet⟩ := hwidth.mp ⟨hhalfNone, bits, hbits⟩
    rw [Option.mem_def, hother] at hbits
    rw [← Option.some.inj hbits] at hsignaling
    exact hquiet hsignaling
  · intro hwritten
    refine and_congr_right fun hhalfNone => exists_congr fun bits => ?_
    refine ⟨fun hbits => ⟨hbits, ?_⟩, fun hbits => hbits.1⟩
    exact fun hsignaling => hwritten ⟨hhalfNone, bits, hbits, hsignaling⟩

theorem readsExactly_iff (limits : Limits) (item : FloatItem) :
    ReadsExactly limits item ↔ ¬ item.Quieted := by
  have hwritten : (∃ value, decode item.bytes limits = .ok value ∧
      encode value = some item.bytes) ↔ floatItem item.value = item.bytes := by
    rw [item.decode_item]
    constructor
    · rintro ⟨value, hvalue, hencode⟩
      obtain rfl := Except.ok.inj hvalue
      rw [encode_float] at hencode
      exact Option.some.inj hencode
    · intro hsame
      exact ⟨_, rfl, by rw [encode_float, hsame]⟩
  rw [ReadsExactly, item.accepted_iff, hwritten]
  obtain ⟨other, hother, hhalf, hsingle, hdouble⟩ := floatItem_eq item.value
  rw [hother]
  cases item with
  | half bits =>
    have hbits : f16Bits (FloatItem.half bits).value = some bits := (f16Bits_iff _ _).mpr rfl
    rw [(hhalf bits).mpr hbits]
    exact iff_of_true (iff_of_true rfl rfl) id
  | single bits =>
    have hbits : f32Bits (FloatItem.single bits).value = some (quietSingle bits) :=
      f32Bits_f32ToF64 bits
    rw [quieted_single]
    cases hvalue : f16Bits (FloatItem.single bits).value with
    | some half =>
      rw [(hhalf half).mpr hvalue]
      refine iff_of_true ⟨fun hlength => ?_, fun hsame => ?_⟩ ?_
      · exact absurd hlength (by simp [FloatItem.bytes])
      · exact absurd (List.cons.inj hsame).1 (by decide)
      · rintro ⟨-, hnone⟩
        exact absurd (hvalue.symm.trans hnone) (by simp)
    | none =>
      rw [(hsingle _).mpr ⟨hvalue, hbits⟩]
      have hlength : (FloatItem.single (quietSingle bits)).bytes.length =
          (FloatItem.single bits).bytes.length := by
        simp [FloatItem.bytes]
      rw [iff_true_left hlength]
      constructor
      · rintro hsame ⟨hsignaling, -⟩
        have hquiet : quietSingle bits = bits := by
          simpa using FloatItem.bytes_inj hsame
        exact not_signaling_quietSingle bits (by rwa [hquiet])
      · intro hlost
        have hquiet : ¬ SignalingSingle bits := fun hsignaling => hlost ⟨hsignaling, hvalue⟩
        have hback : f32Bits (FloatItem.single bits).value = some bits :=
          (f32Bits_iff _ hquiet).mpr rfl
        rw [Option.some.inj (hbits.symm.trans hback)]
  | double bits =>
    refine iff_of_true ⟨fun hlength => ?_, fun hsame => by rw [hsame]⟩ id
    cases other with
    | half | single => exact absurd hlength (by simp [FloatItem.bytes])
    | double others => rw [← ((hdouble others).mp rfl).2.2]; rfl

/-- A float survives the codec, in the shortest form that does, unless it is a NaN whose quiet bit
is clear and whose payload fits binary32 only; and float items are accepted in deterministic mode
as they are written, but for those of such NaNs. -/
theorem float_items_exact (limits : Limits) :
    (∀ value, Survives limits value ↔ ¬ Quieted value) ∧
      (∀ value, Shortest limits value ↔ ¬ Quieted value) ∧
      ∀ item, ReadsExactly limits item ↔ ¬ item.Quieted :=
  ⟨survives_iff limits, shortest_iff limits, readsExactly_iff limits⟩

/-- The least payload that only binary32 takes: its item is read for another value, and is
accepted though that value is written otherwise. -/
theorem signaling_nan_lost :
    ¬ Survives ⟨0⟩ 0x7ff0000020000000 ∧ ¬ Shortest ⟨0⟩ 0x7ff0000020000000 ∧
      ¬ ReadsExactly ⟨0⟩ (.single 0x7f800001) := by
  have hquieted : Quieted 0x7ff0000020000000 := by
    rw [quieted_iff]
    decide +kernel
  have hwritten : floatItem 0x7ff0000020000000 = [0xfa, 0x7f, 0x80, 0, 1] := by decide +kernel
  have hread : decode [0xfa, 0x7f, 0x80, 0, 1] ⟨0⟩ = .ok (.float 0x7ff8000020000000) := rfl
  have haccepted : decodeDeterministic [0xfa, 0x7f, 0x80, 0, 1] ⟨0⟩ =
      .ok (.float 0x7ff8000020000000) := rfl
  have hagain : floatItem 0x7ff8000020000000 = [0xfa, 0x7f, 0xc0, 0, 1] := by decide +kernel
  refine ⟨?_, fun hshortest => (shortest_iff _ _).mp hshortest hquieted, ?_⟩
  · intro hsurvives
    rw [Survives, hwritten, hread] at hsurvives
    exact absurd hsurvives (by simp)
  · intro hexact
    obtain ⟨value, hvalue, hencode⟩ := hexact.mp ⟨_, haccepted⟩
    obtain rfl := Except.ok.inj (hread.symm.trans hvalue)
    rw [encode_float, hagain] at hencode
    exact absurd hencode (by decide)

end Cbor

end Purrdf
