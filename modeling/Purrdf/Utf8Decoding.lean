import Mathlib.Data.List.Basic

/-!
# Boundaries in UTF-8

Bytes that encode scalar values, one after another. A cut before a byte that can begin a scalar
value leaves UTF-8 on both sides.
-/

namespace Purrdf.Utf8

def encode (chars : List Char) : List UInt8 :=
  chars.flatMap String.utf8EncodeChar

def IsUtf8 (bytes : List UInt8) : Prop :=
  ∃ chars, bytes = encode chars

theorem encode_cons (char : Char) (chars : List Char) :
    encode (char :: chars) = String.utf8EncodeChar char ++ encode chars :=
  rfl

theorem encode_append (first second : List Char) :
    encode (first ++ second) = encode first ++ encode second :=
  List.flatMap_append

theorem IsUtf8.append {first second : List UInt8} (left : IsUtf8 first) (right : IsUtf8 second) :
    IsUtf8 (first ++ second) := by
  obtain ⟨chars, rfl⟩ := left
  obtain ⟨more, rfl⟩ := right
  exact ⟨chars ++ more, (encode_append chars more).symm⟩

theorem starts_iff (char : Char) {before : List UInt8} {byte : UInt8} {after : List UInt8}
    (split : String.utf8EncodeChar char = before ++ byte :: after) :
    byte.IsUTF8FirstByte ↔ before = [] := by
  have inside : before.length < (String.utf8EncodeChar char).length := by
    rw [split, List.length_append, List.length_cons]
    omega
  have here : (String.utf8EncodeChar char)[before.length] = byte := by
    simp [split]
  have first : (String.utf8EncodeChar char)[before.length].IsUTF8FirstByte ↔ before.length = 0 :=
    UInt8.isUTF8FirstByte_getElem_utf8EncodeChar
  rw [here, List.length_eq_zero_iff] at first
  exact first

theorem IsUtf8.starts {byte : UInt8} {bytes : List UInt8} (valid : IsUtf8 (byte :: bytes)) :
    byte.IsUTF8FirstByte := by
  obtain ⟨chars, same⟩ := valid
  cases chars with
  | nil => exact absurd same (by simp [encode])
  | cons char chars =>
    rw [encode_cons] at same
    cases encoded : String.utf8EncodeChar char with
    | nil => exact absurd encoded String.utf8EncodeChar_ne_nil
    | cons first rest =>
      rw [encoded, List.cons_append, List.cons.injEq] at same
      have whole : String.utf8EncodeChar char = [] ++ first :: rest := encoded
      rw [same.1]
      exact (starts_iff char whole).mpr rfl

theorem IsUtf8.cut {before after : List UInt8} {byte : UInt8}
    (valid : IsUtf8 (before ++ byte :: after)) (starts : byte.IsUTF8FirstByte) :
    IsUtf8 before ∧ IsUtf8 (byte :: after) := by
  obtain ⟨chars, same⟩ := valid
  induction chars generalizing before with
  | nil => exact absurd same (by simp [encode])
  | cons char chars ih =>
    rw [encode_cons, List.append_eq_append_iff] at same
    rcases same with ⟨rest, encoded, tail⟩ | ⟨rest, encoded, tail⟩
    · cases rest with
      | nil =>
        rw [List.append_nil] at encoded
        refine ⟨⟨[char], ?_⟩, ⟨chars, tail⟩⟩
        rw [← encoded, encode_cons]
        exact (List.append_nil _).symm
      | cons first rest =>
        -- a cut inside a scalar value is a cut before it
        rw [List.cons_append, List.cons.injEq] at tail
        rw [← tail.1] at encoded
        have none := (starts_iff char encoded).mp starts
        subst none
        refine ⟨⟨[], rfl⟩, ⟨char :: chars, ?_⟩⟩
        rw [encode_cons, encoded, tail.2]
        rfl
    · obtain ⟨front, back⟩ := ih tail.symm
      refine ⟨?_, back⟩
      rw [encoded]
      exact IsUtf8.append ⟨[char], (List.append_nil _).symm⟩ front

theorem first_unique {left right : Char} {rest more : List UInt8}
    (same : String.utf8EncodeChar left ++ rest = String.utf8EncodeChar right ++ more) :
    left = right := by
  have here := ByteArray.utf8DecodeChar?_utf8EncodeChar_append (b := rest.toByteArray) (c := left)
  have there := ByteArray.utf8DecodeChar?_utf8EncodeChar_append (b := more.toByteArray) (c := right)
  rw [← List.toByteArray_append, same, List.toByteArray_append, there] at here
  exact (Option.some.inj here).symm

theorem IsUtf8.rest {before after : List UInt8} (whole : IsUtf8 (before ++ after))
    (front : IsUtf8 before) : IsUtf8 after := by
  obtain ⟨chars, rfl⟩ := front
  obtain ⟨all, same⟩ := whole
  induction chars generalizing all with
  | nil => exact ⟨all, same⟩
  | cons char chars ih =>
    cases all with
    | nil =>
      have none := congrArg List.length same
      have some := Char.utf8Size_pos char
      rw [encode_cons, List.length_append, List.length_append,
        String.length_utf8EncodeChar] at none
      change _ = 0 at none
      omega
    | cons other all =>
      rw [encode_cons, encode_cons, List.append_assoc] at same
      have first := first_unique same
      rw [first] at same
      exact ih all (List.append_cancel_left same)

end Purrdf.Utf8

/-!
## Reading UTF-8

The scalar values at the front of some bytes, as many as are UTF-8. Bytes below `0x80` are scalar
values of their own, and no other scalar value has such a byte.
-/

namespace Purrdf.Utf8

def firstChar (bytes : List UInt8) : Option Char :=
  bytes.toByteArray.utf8DecodeChar? 0

theorem firstChar_length {bytes : List UInt8} {char : Char} (first : firstChar bytes = some char) :
    char.utf8Size ≤ bytes.length := by
  have inside := ByteArray.le_size_of_utf8DecodeChar?_eq_some first
  simpa using inside

/-- The scalar values of the longest prefix that is UTF-8. -/
def decode (bytes : List UInt8) : List Char :=
  match _first : firstChar bytes with
  | none => []
  | some char => char :: decode (bytes.drop char.utf8Size)
termination_by bytes.length
decreasing_by
  have inside := firstChar_length _first
  have size := Char.utf8Size_pos char
  simp only [List.length_drop]
  omega

@[simp] theorem encode_nil : encode [] = [] := rfl

theorem firstChar_encode (char : Char) (rest : List UInt8) :
    firstChar (String.utf8EncodeChar char ++ rest) = some char := by
  unfold firstChar
  rw [List.toByteArray_append]
  exact ByteArray.utf8DecodeChar?_utf8EncodeChar_append

theorem firstChar_nil : firstChar [] = none := by
  cases first : firstChar [] with
  | none => rfl
  | some char =>
    have inside := firstChar_length first
    have size := Char.utf8Size_pos char
    simp only [List.length_nil] at inside
    omega

theorem decode_encode (chars : List Char) : decode (encode chars) = chars := by
  induction chars with
  | nil =>
    rw [decode]
    split
    · rfl
    · rename_i char first
      rw [encode_nil, firstChar_nil] at first
      exact absurd first (by simp)
  | cons char chars ih =>
    rw [decode, encode_cons]
    split
    · rename_i first
      rw [firstChar_encode] at first
      exact absurd first (by simp)
    · rename_i other first
      rw [firstChar_encode] at first
      obtain rfl := Option.some.inj first
      rw [← String.length_utf8EncodeChar, List.drop_left, ih]

theorem encode_injective {first second : List Char} (same : encode first = encode second) :
    first = second := by
  rw [← decode_encode first, same, decode_encode]

/-! ### Bytes below `0x80` -/

/-- The scalar value of a byte below `0x80`. -/
def asciiChar (byte : UInt8) : Char := Char.ofNat byte.toNat

theorem encode_asciiChar {byte : UInt8} (ascii : byte < 0x80) :
    String.utf8EncodeChar (asciiChar byte) = [byte] := by
  have small : byte.toNat < 128 := ascii
  have value : (asciiChar byte).val.toNat = byte.toNat := by
    unfold asciiChar
    rw [Char.ofNat, dif_pos (Or.inl (by omega))]
    rfl
  unfold String.utf8EncodeChar
  rw [value]
  have short : byte.toNat ≤ 0x7f := by omega
  simp [short]

theorem firstChar_ascii {byte : UInt8} (ascii : byte < 0x80) (rest : List UInt8) :
    firstChar (byte :: rest) = some (asciiChar byte) := by
  have first := firstChar_encode (asciiChar byte) rest
  rwa [encode_asciiChar ascii] at first

theorem isUtf8_nil : IsUtf8 [] := ⟨[], rfl⟩

theorem isUtf8_encode (chars : List Char) : IsUtf8 (encode chars) := ⟨chars, rfl⟩

theorem isUtf8_ascii {byte : UInt8} (ascii : byte < 0x80) : IsUtf8 [byte] :=
  ⟨[asciiChar byte], by simp [encode, encode_asciiChar ascii]⟩

private theorem high_byte (value offset : Nat) (high : 128 ≤ offset) (fits : offset + value < 256) :
    ¬UInt8.ofNat (value + offset) < 0x80 := by
  rw [UInt8.lt_iff_toNat_lt, UInt8.toNat_ofNat']
  simp only [UInt8.reduceToNat]
  omega

/-- A scalar value is one byte below `0x80`, or has none. -/
theorem utf8EncodeChar_ascii_or (char : Char) :
    (∃ byte, byte < 0x80 ∧ String.utf8EncodeChar char = [byte]) ∨
      ∀ byte ∈ String.utf8EncodeChar char, ¬byte < 0x80 := by
  unfold String.utf8EncodeChar
  by_cases small : char.val.toNat ≤ 0x7f
  · left
    refine ⟨UInt8.ofNat char.val.toNat, ?_, if_pos small⟩
    rw [UInt8.lt_iff_toNat_lt, UInt8.toNat_ofNat']
    simp only [UInt8.reduceToNat]
    omega
  · right
    intro byte mem
    rw [if_neg small] at mem
    split at mem
    · rcases List.mem_pair.mp mem with rfl | rfl
      · exact high_byte _ 0xc0 (by omega) (by omega)
      · exact high_byte _ 0x80 (by omega) (by omega)
    · split at mem
      · simp only [List.mem_cons, List.not_mem_nil, or_false] at mem
        rcases mem with rfl | rfl | rfl
        · exact high_byte _ 0xe0 (by omega) (by omega)
        · exact high_byte _ 0x80 (by omega) (by omega)
        · exact high_byte _ 0x80 (by omega) (by omega)
      · simp only [List.mem_cons, List.not_mem_nil, or_false] at mem
        rcases mem with rfl | rfl | rfl | rfl
        · exact high_byte _ 0xf0 (by omega) (by omega)
        · exact high_byte _ 0x80 (by omega) (by omega)
        · exact high_byte _ 0x80 (by omega) (by omega)
        · exact high_byte _ 0x80 (by omega) (by omega)

end Purrdf.Utf8
