import Mathlib.Tactic.Linarith
import Mathlib.Tactic.Ring
import Purrdf.ByteOrder

/-!
# CBOR item heads

The head of a CBOR data item is a major type and an argument, written by
`head::encode` in its shortest form and read back by `head::read_argument`.
Every commitment preimage of the repository is a sequence of such heads and
byte runs, so the fact that a head can be peeled off the front of a byte string
in exactly one way is what makes those preimages injective.
-/

namespace Purrdf.CborHead

def UNSIGNED : UInt8 := 0
def BYTES : UInt8 := 2
/-- Major type 3: a UTF-8 text string. -/
def TEXT : UInt8 := 3
def ARRAY : UInt8 := 4
def MAP : UInt8 := 5
/-- Major type 6: a tag number and the tagged item. -/
def TAG : UInt8 := 6
/-- Major type 7: simple values and floats. -/
def SIMPLE : UInt8 := 7

/-- The head of `major` with `argument`, in the shortest form. -/
def encode (major : UInt8) (argument : UInt64) : List UInt8 :=
  let lead := major <<< 5
  let be := beBytes 8 argument.toNat
  if argument < 24 then [lead ||| argument.toUInt8]
  else if argument ≤ 0xff then [lead ||| 0x18, argument.toUInt8]
  else if argument ≤ 0xffff then (lead ||| 0x19) :: be.drop 6
  else if argument ≤ 0xffffffff then (lead ||| 0x1a) :: be.drop 4
  else (lead ||| 0x1b) :: be

def writeBytes (bytes : List UInt8) : List UInt8 :=
  encode BYTES (UInt64.ofNat bytes.length) ++ bytes

/-- A definite text string: its head, then its UTF-8 bytes. -/
def writeText (text : List UInt8) : List UInt8 :=
  encode TEXT (UInt64.ofNat text.length) ++ text

/-- The number of argument bytes that follow an initial byte with these low
five bits, when they are not the argument themselves. -/
def argumentWidth (info : UInt8) : Option Nat :=
  if info = 24 then some 1
  else if info = 25 then some 2
  else if info = 26 then some 4
  else if info = 27 then some 8
  else none

/-- One step of the argument reader: the accumulator moved up one byte, with
the next byte below it. -/
def shiftIn (value : UInt64) (byte : UInt8) : UInt64 := value <<< 8 ||| byte.toUInt64

/-- Read one definite head of major type `major` from the front of `input`: its
argument and what follows it. -/
def readArgument (input : List UInt8) (major : UInt8) : Option (UInt64 × List UInt8) :=
  match input with
  | [] => none
  | initial :: tail =>
    if initial >>> 5 ≠ major then none
    else
      let info := initial &&& 31
      if info ≤ 23 then some (info.toUInt64, tail)
      else
        match argumentWidth info with
        | none => none
        | some width =>
          if tail.length < width then none
          else
            some ((tail.take width).foldl shiftIn 0, tail.drop width)

/-- The top three bits of an initial byte are its major type and the low five
its information. -/
theorem initial_split :
    ∀ major : Fin 8, ∀ info : Fin 32,
      ((UInt8.ofNat major.val <<< 5 ||| UInt8.ofNat info.val) >>> 5 = UInt8.ofNat major.val) ∧
      ((UInt8.ofNat major.val <<< 5 ||| UInt8.ofNat info.val) &&& 31 =
        UInt8.ofNat info.val) := by
  decide

theorem initial_major {major info : UInt8} (hmajor : major < 8) (hinfo : info < 32) :
    (major <<< 5 ||| info) >>> 5 = major := by
  have h := (initial_split ⟨major.toNat, UInt8.lt_iff_toNat_lt.mp hmajor⟩
    ⟨info.toNat, UInt8.lt_iff_toNat_lt.mp hinfo⟩).1
  simpa using h

theorem initial_info {major info : UInt8} (hmajor : major < 8) (hinfo : info < 32) :
    (major <<< 5 ||| info) &&& 31 = info := by
  have h := (initial_split ⟨major.toNat, UInt8.lt_iff_toNat_lt.mp hmajor⟩
    ⟨info.toNat, UInt8.lt_iff_toNat_lt.mp hinfo⟩).2
  simpa using h

theorem shiftIn_toNat (value : UInt64) (byte : UInt8) (hfit : value.toNat < 2 ^ 56) :
    (shiftIn value byte).toNat = value.toNat * 256 + byte.toNat := by
  have hbyte : byte.toNat < 2 ^ 8 := byte.toNat_lt
  have hshift : value.toNat <<< 8 < 2 ^ 64 := by rw [Nat.shiftLeft_eq]; omega
  simp only [shiftIn, UInt64.toNat_or, UInt64.toNat_shiftLeft, UInt8.toNat_toUInt64]
  rw [show (8 : UInt64).toNat % 64 = 8 from rfl, Nat.mod_eq_of_lt hshift,
    ← Nat.shiftLeft_add_eq_or_of_lt hbyte, Nat.shiftLeft_eq]

/-- Folding big-endian bytes into an accumulator appends their value below it,
as long as the result fits in 64 bits. -/
theorem foldl_shiftIn (bytes : List UInt8) (value : UInt64)
    (hfit : value.toNat * 256 ^ bytes.length + beValue bytes < 2 ^ 64) :
    (bytes.foldl shiftIn value).toNat =
      value.toNat * 256 ^ bytes.length + beValue bytes := by
  induction bytes generalizing value with
  | nil => simp [beValue, leValue]
  | cons byte bytes ih =>
    rw [beValue_cons, List.length_cons, Nat.pow_succ'] at hfit
    have hpos : 0 < 256 ^ bytes.length := Nat.pow_pos (by decide)
    have hvalue : value.toNat < 2 ^ 56 := by nlinarith
    have hstep := shiftIn_toNat value byte hvalue
    rw [List.foldl_cons, ih _ (by rw [hstep]; linarith), hstep, beValue_cons,
      List.length_cons, Nat.pow_succ']
    ring

/-! ### Peeling a head off -/

theorem readArgument_short {major : UInt8} (hmajor : major < 8) {argument : UInt64}
    (hargument : argument < 24) (rest : List UInt8) :
    readArgument ((major <<< 5 ||| argument.toUInt8) :: rest) major =
      some (argument, rest) := by
  have hnat : argument.toNat < 24 := UInt64.lt_iff_toNat_lt.mp hargument
  have hbyte : argument.toUInt8.toNat = argument.toNat := by
    rw [UInt64.toNat_toUInt8]; omega
  have hinfo : argument.toUInt8 < 32 := by
    rw [UInt8.lt_iff_toNat_lt, hbyte]; exact Nat.lt_trans hnat (by decide)
  have hsmall : argument.toUInt8 ≤ 23 := by
    rw [UInt8.le_iff_toNat_le, hbyte]; exact Nat.le_of_lt_succ hnat
  have hback : argument.toUInt8.toUInt64 = argument := by
    apply UInt64.toNat_inj.mp
    rw [UInt8.toNat_toUInt64, hbyte]
  simp only [readArgument, initial_major hmajor hinfo, initial_info hmajor hinfo, hsmall,
    hback, ne_eq, not_true, if_false, if_true]

theorem readArgument_wide {major : UInt8} (hmajor : major < 8) (info : UInt8)
    (hinfo : info < 32) (hlong : ¬ info ≤ 23) {width : Nat} (hwidth : argumentWidth info = some width)
    {argument : UInt64} (hfit : argument.toNat < 256 ^ width)
    (rest : List UInt8) :
    readArgument ((major <<< 5 ||| info) :: (beBytes width argument.toNat ++ rest)) major =
      some (argument, rest) := by
  have htake : (beBytes width argument.toNat ++ rest).take width =
      beBytes width argument.toNat := by
    rw [List.take_append_of_le_length (by simp), List.take_of_length_le (by simp)]
  have hdrop : (beBytes width argument.toNat ++ rest).drop width = rest := by
    rw [List.drop_append_of_le_length (by simp), List.drop_of_length_le (by simp),
      List.nil_append]
  have hvalue : beValue (beBytes width argument.toNat) = argument.toNat :=
    beValue_beBytes_of_lt hfit
  have hfold : (beBytes width argument.toNat).foldl shiftIn 0 = argument := by
    apply UInt64.toNat_inj.mp
    have h64 : argument.toNat < 2 ^ 64 := argument.toNat_lt
    rw [foldl_shiftIn _ _ (by rw [hvalue]; simpa using h64), hvalue]
    simp
  have hlength : ¬ (beBytes width argument.toNat ++ rest).length < width := by simp
  simp only [readArgument, initial_major hmajor hinfo, initial_info hmajor hinfo, hlong,
    hwidth, hlength, htake, hdrop, hfold, ne_eq, not_true, if_false]

/-- A head reads back as the argument it was written with, leaving exactly what
followed it. -/
theorem readArgument_encode {major : UInt8} (hmajor : major < 8) (argument : UInt64)
    (rest : List UInt8) :
    readArgument (encode major argument ++ rest) major = some (argument, rest) := by
  have h64 : argument.toNat < 2 ^ 64 := argument.toNat_lt
  unfold encode
  by_cases h24 : argument < 24
  · simpa only [h24, if_true, List.singleton_append] using readArgument_short hmajor h24 rest
  by_cases hff : argument ≤ 0xff
  · have hfit : argument.toNat < 256 ^ 1 := by
      have := UInt64.le_iff_toNat_le.mp hff
      exact Nat.lt_succ_of_le this
    have hone : beBytes 1 argument.toNat = [argument.toUInt8] := by
      simp only [beBytes, leBytes, List.reverse_cons, List.reverse_nil, List.nil_append]
      congr 1
    have h := readArgument_wide hmajor 0x18 (by decide) (by decide) rfl
      hfit rest
    rw [hone] at h
    simpa only [h24, hff, if_false, if_true, List.cons_append, List.nil_append] using h
  by_cases hffff : argument ≤ 0xffff
  · have hfit : argument.toNat < 256 ^ 2 := by
      have := UInt64.le_iff_toNat_le.mp hffff
      exact Nat.lt_succ_of_le this
    have h := readArgument_wide hmajor 0x19 (by decide) (by decide) rfl
      hfit rest
    simpa only [h24, hff, hffff, if_false, if_true, beBytes_drop 2 6,
      List.cons_append] using h
  by_cases hffffffff : argument ≤ 0xffffffff
  · have hfit : argument.toNat < 256 ^ 4 := by
      have := UInt64.le_iff_toNat_le.mp hffffffff
      exact Nat.lt_succ_of_le this
    have h := readArgument_wide hmajor 0x1a (by decide) (by decide) rfl
      hfit rest
    simpa only [h24, hff, hffff, hffffffff, if_false, if_true, beBytes_drop 4 4,
      List.cons_append] using h
  · have h := readArgument_wide hmajor 0x1b (by decide) (by decide)
      (show argumentWidth 0x1b = some 8 from rfl) h64 rest
    simpa only [h24, hff, hffff, hffffffff, if_false, List.cons_append] using h

/-- Two byte strings that open with heads of one major type agree only when the
arguments and the remainders agree. -/
theorem encode_append_inj {major : UInt8} (hmajor : major < 8) {left right : UInt64}
    {restLeft restRight : List UInt8}
    (heq : encode major left ++ restLeft = encode major right ++ restRight) :
    left = right ∧ restLeft = restRight := by
  have hleft := readArgument_encode hmajor left restLeft
  rw [heq, readArgument_encode hmajor right restRight] at hleft
  simpa [eq_comm] using hleft

/-- A framed byte string is peeled off the front in one way, as long as its
length fits the 64-bit head. -/
theorem writeBytes_append_inj {left right restLeft restRight : List UInt8}
    (hleft : left.length < 2 ^ 64) (hright : right.length < 2 ^ 64)
    (heq : writeBytes left ++ restLeft = writeBytes right ++ restRight) :
    left = right ∧ restLeft = restRight := by
  simp only [writeBytes, List.append_assoc] at heq
  obtain ⟨hlength, hrest⟩ := encode_append_inj (by decide) heq
  have hnat : left.length = right.length := by
    have h := congrArg UInt64.toNat hlength
    rwa [UInt64.toNat_ofNat_of_lt' hleft, UInt64.toNat_ofNat_of_lt' hright] at h
  exact List.append_inj hrest hnat

end Purrdf.CborHead
