import Mathlib.Data.Nat.Log
import Mathlib.Data.Nat.Bitwise
import Purrdf.ByteOrder

/-!
# Bit-packed integers

The fixed-width integer array of the pack codecs, its borrowed reader, and what the two
hold: the values are the digits of one number, least significant first.
-/

namespace Purrdf.PackBits

inductive PackBitsError where
  | truncated (needed found : Nat)
  | malformed (reason : String)
deriving DecidableEq, Repr

/-- How a reader fails: it refuses its input, or it panics on an overflow or an index out
of range. -/
inductive PackFault where
  | refused (error : PackBitsError)
  | panicked
deriving DecidableEq, Repr

def bitsFor (maxValue : UInt64) : Nat := if maxValue = 0 then 0 else maxValue.toNat.log2 + 1

def maskForWidth (width : Nat) : UInt64 :=
  if width = 0 then 0 else if width = 64 then 0xFFFFFFFFFFFFFFFF
  else (1 <<< UInt64.ofNat width) - 1

def divCeil (value divisor : Nat) : Nat := (value + divisor - 1) / divisor

structure IntVector where
  width : Nat
  len : Nat
  words : List UInt64
deriving DecidableEq, Repr

namespace IntVector

def withWidth (width : Nat) : IntVector := ⟨width, 0, []⟩

def resized (words : List UInt64) (needed : Nat) : List UInt64 :=
  words ++ List.replicate (needed - words.length) 0

def push (vector : IntVector) (value : UInt64) : IntVector :=
  if vector.width = 0 then { vector with len := vector.len + 1 }
  else
    let bitPos := vector.len * vector.width
    let wordIndex := bitPos / 64
    let bitOffset := bitPos % 64
    let words := resized vector.words (divCeil (bitPos + vector.width) 64)
    let words := words.modify wordIndex (· ||| value <<< UInt64.ofNat bitOffset)
    let words :=
      if 64 < bitOffset + vector.width then
        words.modify (wordIndex + 1) (· ||| value >>> UInt64.ofNat (64 - bitOffset))
      else words
    { vector with words := words, len := vector.len + 1 }

/-- The little-endian backing bytes, with the padding of the last word. -/
def packedBytes (vector : IntVector) : List UInt8 :=
  vector.words.flatMap fun word => leBytes 8 word.toNat

def toBytes (vector : IntVector) : List UInt8 :=
  leBytes 8 vector.len ++ leBytes 4 vector.width ++ vector.packedBytes

end IntVector

/-- A little-endian field of `width` bytes at a position. -/
def readLe (bytes : List UInt8) (pos width : Nat) : Option Nat :=
  if pos + width ≤ bytes.length then some (leValue ((bytes.drop pos).take width)) else none

structure IntVectorRef where
  width : Nat
  len : Nat
  words : List UInt8
deriving DecidableEq, Repr

namespace IntVectorRef

/-- Parse a framed vector. Sizes are machine words: the bit count and the end of the words
overflow beyond them. -/
def fromBytes (bytes : List UInt8) : Except PackFault IntVectorRef :=
  match readLe bytes 0 8 with
  | none => .error (.refused (.truncated 8 bytes.length))
  | some len =>
    match readLe bytes 8 4 with
    | none => .error (.refused (.truncated 12 bytes.length))
    | some width =>
      if 64 < width then .error (.refused (.malformed "int_vector: width exceeds 64"))
      else if 2 ^ 64 ≤ len * width then .error .panicked
      else
        let wordsBytesLen := divCeil (len * width) 64 * 8
        let stop := 12 + wordsBytesLen
        if 2 ^ 64 ≤ stop then .error .panicked
        else if bytes.length < stop then .error (.refused (.truncated stop bytes.length))
        else .ok ⟨width, len, (bytes.drop 12).take wordsBytesLen⟩

def word (vector : IntVectorRef) (index : Nat) : UInt64 :=
  UInt64.ofNat (leValue ((vector.words.drop (index * 8)).take 8))

def get (vector : IntVectorRef) (i : Nat) : UInt64 :=
  if vector.width = 0 then 0
  else
    let bitPos := i * vector.width
    let wordIndex := bitPos / 64
    let bitOffset := bitPos % 64
    let value := vector.word wordIndex >>> UInt64.ofNat bitOffset
    let value :=
      if 64 < bitOffset + vector.width then
        value ||| vector.word (wordIndex + 1) <<< UInt64.ofNat (64 - bitOffset)
      else value
    value &&& maskForWidth vector.width

end IntVectorRef

/-- The number whose digits in base `2 ^ width` are the values, least significant first. -/
def packValue (width : Nat) : List Nat → Nat
  | [] => 0
  | value :: values => value + 2 ^ width * packValue width values

theorem packValue_append (width : Nat) (left right : List Nat) :
    packValue width (left ++ right) =
      packValue width left + 2 ^ (width * left.length) * packValue width right := by
  induction left with
  | nil => simp [packValue]
  | cons value left ih =>
    have power : width * (left.length + 1) = width + width * left.length := by ring
    rw [List.cons_append, packValue, packValue, ih, List.length_cons, power, Nat.pow_add]
    ring

theorem packValue_lt {width : Nat} {values : List Nat}
    (fits : ∀ value ∈ values, value < 2 ^ width) :
    packValue width values < 2 ^ (width * values.length) := by
  induction values with
  | nil => simp [packValue]
  | cons value values ih =>
    have head := fits value List.mem_cons_self
    have tail := ih fun other member => fits other (List.mem_cons_of_mem _ member)
    rw [packValue, List.length_cons, Nat.mul_add, Nat.mul_one, Nat.pow_add]
    have room : 2 ^ width * (packValue width values + 1) ≤
        2 ^ width * 2 ^ (width * values.length) := Nat.mul_le_mul_left _ tail
    rw [Nat.mul_add, Nat.mul_comm (2 ^ width) (2 ^ (width * values.length))] at room
    omega

theorem packValue_digit {width : Nat} {values : List Nat}
    (fits : ∀ value ∈ values, value < 2 ^ width) {index value : Nat}
    (at_index : values[index]? = some value) :
    packValue width values / 2 ^ (width * index) % 2 ^ width = value := by
  obtain ⟨bound, same⟩ := List.getElem?_eq_some_iff.mp at_index
  have split : values = values.take index ++ value :: values.drop (index + 1) := by
    rw [← same, ← List.drop_eq_getElem_cons bound, List.take_append_drop]
  have length : (values.take index).length = index := by
    rw [List.length_take]
    omega
  have low : packValue width (values.take index) < 2 ^ (width * index) := by
    have := @packValue_lt width (values.take index)
      fun other member => fits other (List.mem_of_mem_take member)
    rw [length] at this
    exact this
  rw [split, packValue_append, length, Nat.add_mul_div_left _ _ (Nat.two_pow_pos _),
    Nat.div_eq_of_lt low, Nat.zero_add, packValue, Nat.add_mul_mod_self_left]
  exact Nat.mod_eq_of_lt (fits value (List.mem_of_getElem? at_index))

/-! ### Bytes and words -/

theorem leValue_take (bytes : List UInt8) (count : Nat) :
    leValue (bytes.take count) = leValue bytes % 256 ^ count := by
  by_cases short : count ≤ bytes.length
  · have length : (bytes.take count).length = count := by
      rw [List.length_take]
      omega
    have split := leValue_append (bytes.take count) (bytes.drop count)
    rw [List.take_append_drop, length] at split
    rw [split, Nat.add_mul_mod_self_left, Nat.mod_eq_of_lt]
    have := leValue_lt (bytes.take count)
    rw [length] at this
    exact this
  · rw [List.take_of_length_le (by omega), Nat.mod_eq_of_lt]
    exact Nat.lt_of_lt_of_le (leValue_lt bytes) (Nat.pow_le_pow_right (by omega) (by omega))

theorem leValue_drop (bytes : List UInt8) (count : Nat) :
    leValue (bytes.drop count) = leValue bytes / 256 ^ count := by
  by_cases short : count ≤ bytes.length
  · have length : (bytes.take count).length = count := by
      rw [List.length_take]
      omega
    have split := leValue_append (bytes.take count) (bytes.drop count)
    have low := leValue_lt (bytes.take count)
    rw [List.take_append_drop, length] at split
    rw [length] at low
    rw [split, Nat.add_mul_div_left _ _ (Nat.pow_pos (by omega)), Nat.div_eq_of_lt low,
      Nat.zero_add]
  · rw [List.drop_eq_nil_of_le (by omega), Nat.div_eq_of_lt]
    · rfl
    · exact Nat.lt_of_lt_of_le (leValue_lt bytes) (Nat.pow_le_pow_right (by omega) (by omega))

/-- The number a list of words spells, least significant first. -/
def wordsValue (words : List UInt64) : Nat := packValue 64 (words.map UInt64.toNat)

theorem wordsValue_cons (word : UInt64) (words : List UInt64) :
    wordsValue (word :: words) = word.toNat + 2 ^ 64 * wordsValue words := rfl

theorem wordsValue_resized (words : List UInt64) (needed : Nat) :
    wordsValue (IntVector.resized words needed) = wordsValue words := by
  have zeros : ∀ count, wordsValue (List.replicate count 0) = 0 := by
    intro count
    induction count with
    | zero => rfl
    | succ count ih =>
      rw [List.replicate_succ, wordsValue_cons, ih]
      rfl
  rw [IntVector.resized, wordsValue, List.map_append, packValue_append]
  have tail := zeros (needed - words.length)
  rw [wordsValue] at tail
  rw [tail, Nat.mul_zero, Nat.add_zero]
  rfl

theorem word_toNat {words : List UInt64} {index : Nat} {word : UInt64}
    (at_index : words[index]? = some word) :
    word.toNat = wordsValue words / 2 ^ (64 * index) % 2 ^ 64 := by
  symm
  apply packValue_digit
  · intro value member
    obtain ⟨other, -, rfl⟩ := List.mem_map.mp member
    exact other.toNat_lt
  · rw [List.getElem?_map, at_index, Option.map_some]

theorem wordsValue_modify {words : List UInt64} {index : Nat} {word : UInt64}
    (f : UInt64 → UInt64) (at_index : words[index]? = some word) :
    wordsValue (words.modify index f) + 2 ^ (64 * index) * word.toNat =
      wordsValue words + 2 ^ (64 * index) * (f word).toNat := by
  induction words generalizing index with
  | nil => cases at_index
  | cons first words ih =>
    cases index with
    | zero =>
      cases at_index
      rw [List.modify_zero_cons, wordsValue_cons, wordsValue_cons]
      ring
    | succ index =>
      rw [List.getElem?_cons_succ] at at_index
      have rest := ih at_index
      have power : 64 * (index + 1) = 64 + 64 * index := by ring
      rw [List.modify_succ_cons, wordsValue_cons, wordsValue_cons, power, Nat.pow_add]
      calc first.toNat + 2 ^ 64 * wordsValue (words.modify index f) +
            2 ^ 64 * 2 ^ (64 * index) * word.toNat
          = first.toNat + 2 ^ 64 * (wordsValue (words.modify index f) +
            2 ^ (64 * index) * word.toNat) := by ring
        _ = first.toNat + 2 ^ 64 * (wordsValue words + 2 ^ (64 * index) * (f word).toNat) := by
            rw [rest]
        _ = first.toNat + 2 ^ 64 * wordsValue words +
            2 ^ 64 * 2 ^ (64 * index) * (f word).toNat := by ring

theorem toNat_shiftLeft_small {value : UInt64} {shift : Nat} (small : shift < 64) :
    (value <<< UInt64.ofNat shift).toNat = value.toNat * 2 ^ shift % 2 ^ 64 := by
  have shiftNat : (UInt64.ofNat shift).toNat = shift :=
    UInt64.toNat_ofNat_of_lt' (small.trans (by decide))
  rw [UInt64.toNat_shiftLeft, shiftNat, Nat.mod_eq_of_lt small, Nat.shiftLeft_eq]

theorem toNat_shiftRight_small {value : UInt64} {shift : Nat} (small : shift < 64) :
    (value >>> UInt64.ofNat shift).toNat = value.toNat / 2 ^ shift := by
  have shiftNat : (UInt64.ofNat shift).toNat = shift :=
    UInt64.toNat_ofNat_of_lt' (small.trans (by decide))
  rw [UInt64.toNat_shiftRight, shiftNat, Nat.mod_eq_of_lt small, Nat.shiftRight_eq_div_pow]

theorem shift_split (value : Nat) {shift : Nat} (small : shift ≤ 64) :
    value * 2 ^ shift % 2 ^ 64 + 2 ^ 64 * (value / 2 ^ (64 - shift)) = value * 2 ^ shift := by
  have whole : 2 ^ 64 = 2 ^ (64 - shift) * 2 ^ shift := by
    rw [← Nat.pow_add]
    congr 1
    omega
  have quotient : value * 2 ^ shift / 2 ^ 64 = value / 2 ^ (64 - shift) := by
    rw [whole, Nat.mul_div_mul_right _ _ (Nat.two_pow_pos _)]
  rw [← quotient]
  exact Nat.mod_add_div _ _

theorem or_shiftLeft {word value : UInt64} {shift : Nat} (small : shift < 64)
    (below : word.toNat < 2 ^ shift) :
    (word ||| value <<< UInt64.ofNat shift).toNat =
      word.toNat + value.toNat * 2 ^ shift % 2 ^ 64 := by
  have whole : 2 ^ 64 = 2 ^ (64 - shift) * 2 ^ shift := by
    rw [← Nat.pow_add]
    congr 1
    omega
  rw [UInt64.toNat_or, toNat_shiftLeft_small small, whole, Nat.mul_mod_mul_right, Nat.or_comm,
    ← Nat.shiftLeft_eq, ← Nat.shiftLeft_add_eq_or_of_lt below, Nat.add_comm]

theorem divCeil_spec (value : Nat) {divisor : Nat} (positive : 0 < divisor) :
    value ≤ divisor * divCeil value divisor ∧
      divisor * divCeil value divisor < value + divisor := by
  rw [divCeil]
  have split := Nat.div_add_mod (value + divisor - 1) divisor
  have bound := Nat.mod_lt (value + divisor - 1) positive
  omega

/-- What a vector built by `push` holds. -/
structure Packed (vector : IntVector) (width : Nat) (values : List UInt64) : Prop where
  width_eq : vector.width = width
  len_eq : vector.len = values.length
  count : vector.words.length = divCeil (values.length * width) 64
  value_eq : wordsValue vector.words = packValue width (values.map UInt64.toNat)

theorem Packed.push {vector : IntVector} {width : Nat} {values : List UInt64}
    (packed : Packed vector width values) (narrow : width ≤ 64)
    (fits : ∀ value ∈ values, value.toNat < 2 ^ width) {value : UInt64}
    (small : value.toNat < 2 ^ width) : Packed (vector.push value) width (values ++ [value]) := by
  have digits : packValue width ((values ++ [value]).map UInt64.toNat) =
      packValue width (values.map UInt64.toNat) + 2 ^ (values.length * width) * value.toNat := by
    rw [List.map_append, packValue_append, List.length_map, Nat.mul_comm width]
    simp [packValue]
  have total : (values ++ [value]).length = values.length + 1 := by simp
  by_cases empty : width = 0
  · -- Nothing is stored for values that take no bits.
    have none : value.toNat = 0 := by
      rw [empty] at small
      omega
    have vectorWidth : vector.width = 0 := packed.width_eq.trans empty
    rw [IntVector.push, if_pos vectorWidth]
    constructor
    · exact packed.width_eq
    · rw [total, ← packed.len_eq]
    · rw [empty, Nat.mul_zero]
      have count := packed.count
      rw [empty, Nat.mul_zero] at count
      exact count
    · rw [digits, none, Nat.mul_zero, Nat.add_zero]
      exact packed.value_eq
  · have vectorWidth : vector.width ≠ 0 := by
      rw [packed.width_eq]
      exact empty
    have below : wordsValue vector.words < 2 ^ (values.length * width) := by
      rw [packed.value_eq, Nat.mul_comm]
      have bound := @packValue_lt width (values.map UInt64.toNat) (by
        intro other member
        obtain ⟨stored, stored_mem, rfl⟩ := List.mem_map.mp member
        exact fits stored stored_mem)
      rw [List.length_map] at bound
      exact bound
    rw [IntVector.push, if_neg vectorWidth, packed.width_eq, packed.len_eq]
    obtain ⟨bitPos, bitPos_eq⟩ : ∃ bitPos, values.length * width = bitPos := ⟨_, rfl⟩
    obtain ⟨index, index_eq⟩ : ∃ index, bitPos / 64 = index := ⟨_, rfl⟩
    obtain ⟨offset, offset_eq⟩ : ∃ offset, bitPos % 64 = offset := ⟨_, rfl⟩
    have split : bitPos = 64 * index + offset := by omega
    have offsetLt : offset < 64 := by omega
    obtain ⟨enough, -⟩ := divCeil_spec (bitPos + width) (show 0 < 64 by decide)
    have before := divCeil_spec bitPos (show 0 < 64 by decide)
    obtain ⟨needed, needed_eq⟩ : ∃ needed, divCeil (bitPos + width) 64 = needed := ⟨_, rfl⟩
    have count := packed.count
    rw [bitPos_eq] at below count digits ⊢
    rw [needed_eq] at enough
    simp only [index_eq, offset_eq, needed_eq]
    obtain ⟨words, words_eq⟩ : ∃ words, IntVector.resized vector.words needed = words := ⟨_, rfl⟩
    have length : words.length = needed := by
      rw [← words_eq, IntVector.resized, List.length_append, List.length_replicate, count]
      omega
    have value_eq : wordsValue words = wordsValue vector.words := by
      rw [← words_eq, wordsValue_resized]
    rw [words_eq]
    have inside : index < words.length := by omega
    have at_index := List.getElem?_eq_getElem inside
    generalize words[index] = word at at_index
    have wordSmall : word.toNat < 2 ^ offset := by
      have quotient : wordsValue words / 2 ^ (64 * index) < 2 ^ offset := by
        rw [Nat.div_lt_iff_lt_mul (Nat.two_pow_pos _), ← Nat.pow_add, value_eq, Nat.add_comm offset,
          ← split]
        exact below
      rw [word_toNat at_index]
      exact Nat.lt_of_le_of_lt (Nat.mod_le _ _) quotient
    have low := wordsValue_modify (fun word => word ||| value <<< UInt64.ofNat offset) at_index
    rw [or_shiftLeft offsetLt wordSmall, Nat.mul_add] at low
    have lowValue : wordsValue (words.modify index fun word => word ||| value <<< UInt64.ofNat offset) =
        wordsValue vector.words + 2 ^ (64 * index) * (value.toNat * 2 ^ offset % 2 ^ 64) := by
      rw [← value_eq]
      omega
    constructor
    · rfl
    · exact total.symm
    · rw [total, Nat.add_mul, Nat.one_mul, bitPos_eq, needed_eq]
      split
      · rw [List.length_modify, List.length_modify, length]
      · rw [List.length_modify, length]
    · rw [digits, ← packed.value_eq, split, Nat.pow_add, Nat.mul_assoc, Nat.mul_comm (2 ^ offset)]
      split
      · -- The high bits of a value that straddles a word open the next one.
        rename_i straddles
        have inside' : index + 1 < (words.modify index
            fun word => word ||| value <<< UInt64.ofNat offset).length := by
          rw [List.length_modify]
          omega
        have at_next := List.getElem?_eq_getElem inside'
        generalize (words.modify index
          fun word => word ||| value <<< UInt64.ofNat offset)[index + 1] = next at at_next
        have nextZero : next = 0 := by
          have fresh : wordsValue words / 2 ^ (64 * (index + 1)) = 0 := by
            apply Nat.div_eq_of_lt
            rw [value_eq]
            apply Nat.lt_of_lt_of_le below
            exact Nat.pow_le_pow_right (by omega) (by omega)
          have at_next' : words[index + 1]? = some next := by simpa using at_next
          have none := word_toNat at_next'
          rw [fresh, Nat.zero_mod] at none
          exact UInt64.toNat_inj.mp none
        have high := wordsValue_modify
          (fun word => word ||| value >>> UInt64.ofNat (64 - offset)) at_next
        subst nextZero
        rw [UInt64.zero_or, toNat_shiftRight_small (by omega), UInt64.toNat_zero, Nat.mul_zero,
          Nat.add_zero, lowValue] at high
        have power : 64 * (index + 1) = 64 * index + 64 := by ring
        rw [high, power, Nat.pow_add, Nat.mul_assoc, Nat.add_assoc, ← Nat.mul_add,
          shift_split _ (Nat.le_of_lt offsetLt)]
      · rename_i within
        have unsplit : value.toNat * 2 ^ offset < 2 ^ 64 := by
          have product : value.toNat * 2 ^ offset < 2 ^ width * 2 ^ offset :=
            Nat.mul_lt_mul_of_pos_right small (Nat.two_pow_pos _)
          rw [← Nat.pow_add] at product
          exact Nat.lt_of_lt_of_le product (Nat.pow_le_pow_right (by omega) (by omega))
        rw [lowValue, Nat.mod_eq_of_lt unsplit]

theorem Packed.foldl {width : Nat} (narrow : width ≤ 64) (added : List UInt64) :
    ∀ {vector : IntVector} {values : List UInt64}, Packed vector width values →
      (∀ value ∈ values ++ added, value.toNat < 2 ^ width) →
      Packed (added.foldl IntVector.push vector) width (values ++ added) := by
  induction added with
  | nil =>
    intro vector values packed _
    rw [List.append_nil]
    exact packed
  | cons value added ih =>
    intro vector values packed fits
    have next := packed.push narrow
      (fun other member => fits other (List.mem_append_left _ member)) (fits value (by simp))
    have assoc : values ++ value :: added = (values ++ [value]) ++ added := by simp
    rw [List.foldl_cons, assoc]
    apply ih next
    rw [← assoc]
    exact fits

theorem maskForWidth_and {width : Nat} (value : UInt64) (narrow : width ≤ 64) :
    (value &&& maskForWidth width).toNat = value.toNat % 2 ^ width := by
  have mask : (maskForWidth width).toNat = 2 ^ width - 1 := by
    rw [maskForWidth]
    split
    · rename_i empty
      rw [empty]
      rfl
    · split
      · rename_i full
        rw [full]
        rfl
      · have small : width < 64 := by omega
        have positive := Nat.two_pow_pos width
        have shifted : ((1 : UInt64) <<< UInt64.ofNat width).toNat = 2 ^ width := by
          rw [toNat_shiftLeft_small small, UInt64.toNat_one, Nat.one_mul, Nat.mod_eq_of_lt]
          exact Nat.pow_lt_pow_right (by omega) small
        rw [UInt64.toNat_sub_of_le, shifted, UInt64.toNat_one]
        rw [UInt64.le_iff_toNat_le, shifted]
        exact positive
  rw [UInt64.toNat_and, mask, Nat.and_two_pow_sub_one_eq_mod]

end Purrdf.PackBits
