import Purrdf.CompactEncoding
import Purrdf.CompactReader

/-!
# Reading compact values back

What the writer writes for a header or a leaf is read back by the reader of its kind, at
any offset whose end fits a machine word and whatever follows. A list's header is read
where its elements follow, of which each takes at least a byte.
-/

namespace Purrdf.Compact

open PackBits (writeVarint zigzagEncode readVarint_writeVarint zigzagDecode_zigzagEncode)
open CompactWriter (headerBytes sub_toInt)
open Exec ByteCursor

theorem nibbles {high : Nat} {low : UInt8} (hhigh : high < 16) (hlow : low < 16) :
    (UInt8.ofNat high <<< 4 ||| low) &&& 0x0f = low ∧
      ((UInt8.ofNat high <<< 4 ||| low) >>> 4) = UInt8.ofNat high := by
  have hall : ∀ high low : Fin 16,
      (UInt8.ofNat high <<< 4 ||| UInt8.ofNat low) &&& 0x0f = UInt8.ofNat low ∧
        ((UInt8.ofNat high <<< 4 ||| UInt8.ofNat low) >>> 4) = UInt8.ofNat high := by
    decide
  have hhere := hall ⟨high, hhigh⟩ ⟨low.toNat, UInt8.lt_iff_toNat_lt.mp hlow⟩
  simpa using hhere

theorem small_delta {delta : Int16} (hlow : 1 ≤ delta) (hhigh : delta ≤ 15) :
    ∃ count < 16, count ≠ 0 ∧ delta.toUInt16.toUInt8 = UInt8.ofNat count ∧
      (UInt8.ofNat count).toUInt16.toInt16 = delta := by
  have hall : ∀ count : Fin 16, (Int16.ofNat count).toUInt16.toUInt8 = UInt8.ofNat count ∧
      (UInt8.ofNat count).toUInt16.toInt16 = Int16.ofNat count := by decide
  have hlow : 1 ≤ delta.toInt := Int16.le_iff_toInt_le.mp hlow
  have hhigh : delta.toInt ≤ 15 := Int16.le_iff_toInt_le.mp hhigh
  obtain ⟨count, hcount⟩ := Int.eq_ofNat_of_zero_le (Int.le_trans (by decide) hlow)
  have hdelta : delta = Int16.ofNat count := by
    apply Int16.toInt_inj.mp
    rw [Int16.toInt_ofNat_of_lt (by omega), hcount]
  obtain ⟨hbyte, hback⟩ := hall ⟨count, by omega⟩
  exact ⟨count, by omega, by omega, hdelta ▸ hbyte, hdelta ▸ hback⟩

/-! ### Bytes and integers -/

namespace CompactReader

variable {pos : Nat} {α : Type}

theorem readU8_reads (context : String) (byte : UInt8) : Reads (readU8 context) pos [byte] byte := by
  intro source after hwithin hpos hrest _
  have hhead : source.bytes[source.pos]? = some byte := by
    rw [← List.head?_drop]
    exact congrArg List.head? hrest
  simp [readU8, hhead]

theorem take_reads {len : UInt64} {bytes : List UInt8} (hlen : len.toNat = bytes.length)
    (hfits : pos + bytes.length < 2 ^ 64) (context : String) :
    Reads (take len context) pos bytes bytes := by
  intro source after hwithin hpos hrest _
  have hinside : source.pos + bytes.length ≤ source.bytes.length := by
    have hlength := congrArg List.length hrest
    rw [length_rest, List.length_append] at hlength
    unfold Within at hwithin
    omega
  have hfront : source.rest.take bytes.length = bytes := by
    rw [hrest, List.take_left]
  rw [hpos] at hinside
  simp only [take, hlen, hpos, hfront]
  rw [if_neg (by omega), if_pos hinside]

theorem readUnsigned_reads (context : String) (value : UInt64) :
    Reads (readUnsigned context) pos (writeVarint value) value := by
  intro source after hwithin hpos hrest _
  simp only [readUnsigned, readVarint_writeVarint hrest]
  rfl

theorem readSigned_reads (context : String) (value : Int64) :
    Reads (readSigned context) pos (writeVarint (zigzagEncode value)) value := by
  apply (readUnsigned_reads context (zigzagEncode value)).bind_pure
  rw [zigzagDecode_zigzagEncode]
  exact reads_pure

theorem binaryValue_reads {value : List UInt8}
    (hfits : pos + (binaryBytes value).length < 2 ^ 64) :
    Reads binaryValue pos (binaryBytes value) value := by
  unfold binaryBytes at hfits ⊢
  rw [List.length_append] at hfits
  have hlen : (UInt64.ofNat value.length).toNat = value.length :=
    UInt64.toNat_ofNat_of_lt' (show _ < 2 ^ 64 by omega)
  exact (readUnsigned_reads _ _).bind (take_reads hlen (by omega) _)

theorem fromUtf8_reads (context : String) (text : List Char) :
    Reads (fromUtf8 (Utf8.encode text) context) pos [] text := by
  rw [fromUtf8, Utf8.decode_encode, if_pos rfl]
  exact reads_pure

theorem readCollectionLen_reads (context : String) {len : Nat} (hlen : len < 2 ^ 64) :
    ReadsBefore len (readCollectionLen context) pos (writeVarint (UInt64.ofNat len)) len := by
  have hvalue : (UInt64.ofNat len).toNat = len := UInt64.toNat_ofNat_of_lt' hlen
  apply ((readUnsigned_reads context (UInt64.ofNat len)).before len).bind_pure
  apply reads_get_bind
  intro source hwithin hpos hroom
  unfold Within at hwithin
  rw [length_rest] at hroom
  rw [hvalue, if_neg (by omega), if_neg (by simp at hroom; omega)]
  exact reads_pure

/-! ### Headers -/

theorem validateType_reads {valueType : UInt8} (hvalid : valueType ≤ TYPE_STRUCT) :
    Reads (validateType valueType) pos [] () := by
  rw [validateType, if_pos hvalid]
  exact reads_pure

theorem expectType_reads (id : Int16) (expected : UInt8) (context : String) :
    Reads (expectType ⟨id, expected⟩ expected context) pos [] () := by
  rw [expectType, if_pos rfl]
  exact reads_pure

def Typed (valueType : UInt8) : Prop := valueType ≠ TYPE_STOP ∧ valueType ≤ TYPE_STRUCT

instance {valueType : UInt8} : Decidable (Typed valueType) := inferInstanceAs (Decidable (_ ∧ _))

theorem Typed.lt {valueType : UInt8} (h : Typed valueType) : valueType < 16 :=
  UInt8.lt_of_le_of_lt h.2 (by decide)

theorem listHeader_reads {len : Nat} {elementType : UInt8} (htyped : Typed elementType)
    (hlen : len < 2 ^ 64) :
    ReadsBefore len listHeader pos (listHeaderBytes len elementType) (len, elementType) := by
  unfold listHeaderBytes
  by_cases hshort : len < 15
  · obtain ⟨hlow, hhigh⟩ := nibbles (Nat.lt_trans hshort (by decide)) htyped.lt
    rw [if_pos hshort]
    apply ((readU8_reads _ _).before len).bind_pure
    dsimp only
    rw [hlow, hhigh, if_neg htyped.1]
    have hnibble : (UInt8.ofNat len).toNat = len :=
      UInt8.toNat_ofNat_of_lt' (show _ < 256 by omega)
    rw [hnibble, if_neg (by omega)]
    exact (validateType_reads htyped.2).bind_nil reads_pure
  · obtain ⟨hlow, hhigh⟩ := nibbles (show 15 < 16 by decide) htyped.lt
    have hfifteen : (0xf0 : UInt8) = UInt8.ofNat 15 <<< 4 := rfl
    rw [if_neg hshort, hfifteen]
    apply (readU8_reads _ _).bind
    dsimp only
    rw [hlow, hhigh, if_neg htyped.1]
    apply (validateType_reads htyped.2).bind_nil
    exact (readCollectionLen_reads _ hlen).bind_pure reads_pure

theorem toInt16?_toInt64 (id : Int16) : toInt16? id.toInt64 = some id := by simp [toInt16?]

theorem toInt32?_toInt64 (value : Int32) : toInt32? value.toInt64 = some value := by
  simp [toInt32?]

theorem nextField_reads {previous id : Int16} {fieldType : UInt8} (hprevious : 0 ≤ previous)
    (hid : 0 < id) (htyped : Typed fieldType) :
    Reads (nextField ⟨previous, false⟩) pos (headerBytes previous id fieldType)
      (some ⟨id, fieldType⟩, ⟨id, false⟩) := by
  unfold headerBytes
  dsimp only
  split
  · next hsmall =>
      obtain ⟨count, hcount, hnonzero, hbyte, hback⟩ := small_delta hsmall.1 hsmall.2
      obtain ⟨hlow, hhigh⟩ := nibbles hcount htyped.lt
      have hdelta : id - previous ≠ 0 := by
        intro hzero
        rw [hzero] at hsmall
        exact absurd hsmall.1 (by decide)
      have hsum : previous + (id - previous) = id := by
        rw [Int16.add_comm, Int16.sub_add_cancel]
      rw [nextField, if_neg Bool.false_ne_true, hbyte]
      apply (readU8_reads _ _).bind_pure
      dsimp only
      rw [hlow, if_neg htyped.1, fieldId]
      rw [hhigh, hback, if_neg hdelta, hsum, if_pos (by rw [sub_toInt hprevious hid]; omega)]
      apply (validateType_reads htyped.2).bind_nil
      apply Reads.bind_nil reads_pure
      rw [if_neg (Int16.not_le.mpr hid)]
      exact reads_pure
  · have hnibble := nibbles (show 0 < 16 by decide) htyped.lt
    have hzero : UInt8.ofNat 0 <<< 4 ||| fieldType = fieldType := UInt8.zero_or
    rw [hzero] at hnibble
    obtain ⟨hlow, hhigh⟩ := hnibble
    rw [nextField, if_neg Bool.false_ne_true]
    apply (readU8_reads _ fieldType).bind
    dsimp only
    rw [hlow, if_neg htyped.1, fieldId]
    rw [hhigh, if_pos (by decide)]
    apply (validateType_reads htyped.2).bind_nil
    apply ReadsBefore.bind_pure
    · apply (readSigned_reads _ id.toInt64).bind_pure
      rw [toInt16?_toInt64]
      exact reads_pure
    · rw [if_neg (Int16.not_le.mpr hid)]
      exact reads_pure

theorem nextField_stop (previous : Int16) :
    Reads (nextField ⟨previous, false⟩) pos [TYPE_STOP] (none, ⟨previous, true⟩) := by
  rw [nextField, if_neg Bool.false_ne_true]
  apply (readU8_reads _ TYPE_STOP).bind_pure
  exact reads_pure

/-! ### Lists -/

theorem length_le_flatten {pieces : List (List UInt8)} (h : ∀ piece ∈ pieces, 0 < piece.length) :
    pieces.length ≤ pieces.flatten.length := by
  induction pieces with
  | nil => exact Nat.le_refl 0
  | cons piece pieces ih =>
    have hfirst := h piece List.mem_cons_self
    have hrest := ih fun other hother => h other (List.mem_cons_of_mem _ hother)
    simp only [List.length_cons, List.flatten_cons, List.length_append]
    omega

theorem list_reads {header : CompactReader (Nat × UInt8)} {next : Nat × UInt8 → CompactReader α}
    {elementType : UInt8} {pieces : List (List UInt8)} {result : α}
    (hpieces : ∀ piece ∈ pieces, 0 < piece.length)
    (hfits : pos + (listBytes elementType pieces).length < 2 ^ 64)
    (hheader : pieces.length < 2 ^ 64 → ReadsBefore pieces.length header pos
      (listHeaderBytes pieces.length elementType) (pieces.length, elementType))
    (hnext : Reads (next (pieces.length, elementType))
      (pos + (listHeaderBytes pieces.length elementType).length) pieces.flatten result) :
    Reads (header >>= next) pos (listBytes elementType pieces) result := by
  have hcount := length_le_flatten hpieces
  unfold listBytes at hfits ⊢
  rw [List.length_append] at hfits
  exact (hheader (by omega)).bind hnext (by omega)

theorem readListHeader_reads (id : Int16) {len : Nat} {elementType : UInt8}
    (htyped : Typed elementType) (hlen : len < 2 ^ 64) :
    ReadsBefore len (readListHeader ⟨id, TYPE_LIST⟩) pos (listHeaderBytes len elementType)
      (len, elementType) :=
  (expectType_reads id TYPE_LIST _).bind_nil (listHeader_reads htyped hlen)

theorem readElements_reads {elementType : UInt8} {element : CompactReader α}
    {encode : α → List UInt8} {values : List α} (context : String) (id : Int16) (htyped : Typed elementType)
    (hencode : ∀ value, 0 < (encode value).length)
    (helement : ∀ value pos, pos + (encode value).length < 2 ^ 64 →
      Reads element pos (encode value) value)
    (hfits : pos + (listBytes elementType (values.map encode)).length < 2 ^ 64) :
    Reads (readElements context elementType element ⟨id, TYPE_LIST⟩) pos
      (listBytes elementType (values.map encode)) values := by
  have hpieces : ∀ piece ∈ values.map encode, 0 < piece.length := by
    simpa using fun value _ => hencode value
  apply list_reads hpieces hfits (readListHeader_reads id htyped)
  dsimp only
  rw [if_pos rfl, List.length_map, ← List.flatMap_def]
  have hsize : pos + (listHeaderBytes values.length elementType).length +
      (values.flatMap encode).length ≤ 2 ^ 64 - 1 := by
    rw [listBytes, List.length_append, List.length_map, ← List.flatMap_def] at hfits
    omega
  exact reads_replicate (fun value _ pos hpos => helement value pos (by omega)) hsize

theorem length_writeVarint_pos (value : UInt64) : 0 < (writeVarint value).length := by
  unfold writeVarint PackBits.writeVarintLoop
  dsimp only
  split
  · exact Nat.zero_lt_succ _
  · exact Nat.zero_lt_succ _

theorem length_binaryBytes_pos (value : List UInt8) : 0 < (binaryBytes value).length := by
  rw [binaryBytes, List.length_append]
  exact Nat.lt_of_lt_of_le (length_writeVarint_pos _) (Nat.le_add_right _ _)

end CompactReader

/-! ### Leaves -/

/-- What a caller reads a field as. -/
inductive LeafKind where
  | i32 | i64 | bool | binary | string
  | listI32 | listI64 | listBool | listBinary | listString

def Leaf.kind : Leaf → LeafKind
  | i32 _ => .i32
  | i64 _ => .i64
  | bool _ => .bool
  | binary _ => .binary
  | string _ => .string
  | listI32 _ => .listI32
  | listI64 _ => .listI64
  | listBool _ => .listBool
  | listBinary _ => .listBinary
  | listString _ => .listString

namespace CompactReader

def readBoolByte : CompactReader Bool := do
  let byte ← readU8 "compact value"
  if byte = TYPE_BOOL_TRUE then pure true
  else if byte = TYPE_BOOL_FALSE then pure false
  else refuse (.compact "compact bool" (.elementType byte TYPE_BOOL_TRUE))

end CompactReader

open CompactReader

def LeafKind.read (field : CompactField) : LeafKind → CompactReader Leaf
  | .i32 => do return .i32 (← readI32 field)
  | .i64 => do return .i64 (← readI64 field)
  | .bool => do return .bool (← readBool field)
  | .binary => do return .binary (← readBinary field)
  | .string => do return .string (← readString field)
  | .listI32 => do return .listI32 (← readListI32 field)
  | .listI64 => do
      return .listI64 (← readElements "compact i64 list" TYPE_I64 (readSigned "compact i64") field)
  | .listBool => do
      return .listBool (← readElements "compact bool list" TYPE_BOOL_TRUE readBoolByte field)
  | .listBinary => do
      return .listBinary (← readElements "compact binary list" TYPE_BINARY binaryValue field)
  | .listString => do return .listString (← readListStrings field)

theorem readI32_reads {pos : Nat} (id : Int16) (value : Int32) :
    Reads (readI32 ⟨id, TYPE_I32⟩) pos (i32Bytes value) value := by
  apply (expectType_reads id TYPE_I32 _).bind_nil
  apply (readSigned_reads _ value.toInt64).bind_pure
  rw [toInt32?_toInt64]
  exact reads_pure

theorem readBinary_reads {pos : Nat} (id : Int16) {value : List UInt8}
    (hfits : pos + (binaryBytes value).length < 2 ^ 64) :
    Reads (readBinary ⟨id, TYPE_BINARY⟩) pos (binaryBytes value) value :=
  (expectType_reads id TYPE_BINARY _).bind_nil (binaryValue_reads hfits)

theorem Leaf.reads {pos : Nat} (id : Int16) (payload : Leaf)
    (hfits : pos + payload.body.length < 2 ^ 64) :
    Reads (payload.kind.read ⟨id, payload.fieldType⟩) pos payload.body payload := by
  cases payload with
  | i32 value => exact (readI32_reads id value).bind_pure reads_pure
  | i64 value =>
    have hread : Reads (readI64 ⟨id, TYPE_I64⟩) pos (i64Bytes value) value :=
      (expectType_reads id TYPE_I64 _).bind_nil (readSigned_reads _ value)
    exact hread.bind_pure reads_pure
  | bool value => cases value <;> exact reads_pure
  | binary value => exact (readBinary_reads id hfits).bind_pure reads_pure
  | string value =>
    have hread : Reads (readString ⟨id, TYPE_BINARY⟩) pos (binaryBytes (Utf8.encode value)) value :=
      (readBinary_reads id hfits).bind_pure (fromUtf8_reads _ value)
    exact hread.bind_pure reads_pure
  | listI32 values =>
    have hread : Reads (readListI32 ⟨id, TYPE_LIST⟩) pos (listBytes TYPE_I32 (values.map i32Bytes))
        values := by
      apply readElements_reads _ id (by decide) (fun _ => length_writeVarint_pos _) _ hfits
      intro value pos _
      apply (readSigned_reads _ value.toInt64).bind_pure
      rw [toInt32?_toInt64]
      exact reads_pure
    exact hread.bind_pure reads_pure
  | listI64 values =>
    have hread := readElements_reads "compact i64 list" id (by decide)
      (fun _ => length_writeVarint_pos _)
      (fun value _ _ => readSigned_reads "compact i64" value) hfits
    exact hread.bind_pure reads_pure
  | listBool values =>
    have hread : Reads (readElements "compact bool list" TYPE_BOOL_TRUE readBoolByte ⟨id, TYPE_LIST⟩)
        pos (listBytes TYPE_BOOL_TRUE (values.map fun value => [boolByte value])) values := by
      refine readElements_reads _ id (by decide) (fun _ => Nat.zero_lt_succ _) ?_ hfits
      intro value pos _
      apply (readU8_reads _ _).bind_pure
      cases value <;> exact reads_pure
    exact hread.bind_pure reads_pure
  | listBinary values =>
    have hread := readElements_reads "compact binary list" id (by decide) length_binaryBytes_pos
      (fun _ _ hpos => binaryValue_reads hpos) hfits
    exact hread.bind_pure reads_pure
  | listString values =>
    have hread : Reads (readListStrings ⟨id, TYPE_LIST⟩) pos
        (listBytes TYPE_BINARY (values.map fun value => binaryBytes (Utf8.encode value))) values := by
      apply readElements_reads _ id (by decide) (fun _ => length_binaryBytes_pos _) _ hfits
      intro value pos hpos
      exact (binaryValue_reads hpos).bind_pure (fromUtf8_reads _ value)
    exact hread.bind_pure reads_pure

end Purrdf.Compact
