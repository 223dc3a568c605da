import Purrdf.ByteCursor
import Purrdf.CompactEncoding

/-!
# The Thrift compact reader

Fields are read one by one, each by the function for its type or skipped. A skipped
value is passed over by its type alone, at most 64 values deep. A `usize` has 64 bits,
so every length fits one.
-/

namespace Purrdf.Compact

open PackBits (PackBitsError readVarint zigzagDecode)
open Exec

/-- What is wrong with compact metadata. -/
inductive CompactReason where
  | stopDelta (header : UInt8)
  | fieldIdRange (value : Int64)
  | fieldDelta (previous delta : Int16)
  | nonpositiveFieldId (id : Int16)
  | integerRange (value : Int64)
  | booleanType (id : Int16) (fieldType : UInt8)
  | utf8
  | elementType (actual expected : UInt8)
  | stopValue
  | stopElement
  | varint (offset : Nat) (cause : PackBitsError)
  | byteRange (offset : Nat) (length : UInt64)
  | fieldType (id : Int16) (actual expected : UInt8)
deriving DecidableEq

inductive ColumnarError where
  | compact (context : String) (reason : CompactReason)
  | truncated (context : String) (needed available : Nat)
  | unsupported (context : String) (value : UInt8)
  | limitExceeded (context : String) (value maximum : Nat)
deriving DecidableEq

/-- How a call fails to return a value: by an error, by a panic, or by not returning. -/
inductive Fault where
  | refused (error : ColumnarError)
  | panicked
  | unfinished
deriving DecidableEq

structure CompactField where
  id : Int16
  fieldType : UInt8
deriving DecidableEq

structure StructState where
  lastField : Int16
  stopped : Bool
deriving DecidableEq

def StructState.start : StructState := ⟨0, false⟩

abbrev CompactReader (α : Type) := Exec Fault ByteCursor α

namespace CompactReader

variable {α : Type}

def refuse (error : ColumnarError) : CompactReader α := stop (.refused error)

/-! ### Bytes -/

def readU8 (context : String) : CompactReader UInt8 := fun source =>
  match source.bytes[source.pos]? with
  | some byte => (.ok byte, source.advance 1)
  | none => (.error (.refused (.truncated context (source.pos + 1) source.bytes.length)), source)

def take (len : UInt64) (context : String) : CompactReader (List UInt8) := fun source =>
  if 2 ^ 64 ≤ source.pos + len.toNat then
    (.error (.refused (.compact context (.byteRange source.pos len))), source)
  else if source.pos + len.toNat ≤ source.bytes.length then
    (.ok (source.rest.take len.toNat), source.advance len.toNat)
  else
    (.error (.refused (.truncated context (source.pos + len.toNat) source.bytes.length)), source)

def refusedVarint (source : ByteCursor) : PackBitsError → Nat
  | .truncated _ _ => source.bytes.length - source.pos
  | .malformed _ => 10

def readUnsigned (context : String) : CompactReader UInt64 := fun source =>
  match readVarint source.bytes source.pos with
  | .ok (value, pos) => (.ok value, { source with pos := pos })
  | .error cause =>
    (.error (.refused (.compact context (.varint source.pos cause))),
      source.advance (refusedVarint source cause))

def readSigned (context : String) : CompactReader Int64 := do
  let value ← readUnsigned context
  pure (zigzagDecode value)

def readCollectionLen (context : String) : CompactReader Nat := do
  let len ← readUnsigned context
  let source ← get
  if source.bytes.length < source.pos then stop .panicked
  else if source.bytes.length - source.pos < len.toNat then
    refuse (.truncated context len.toNat (source.bytes.length - source.pos))
  else pure len.toNat

def binaryValue : CompactReader (List UInt8) := do
  let len ← readUnsigned "compact binary length"
  take len "compact binary"

/-! ### Types and headers -/

def validateType (valueType : UInt8) : CompactReader Unit :=
  if valueType ≤ TYPE_STRUCT then pure () else refuse (.unsupported "compact type" valueType)

def expectType (field : CompactField) (expected : UInt8) (context : String) : CompactReader Unit :=
  if field.fieldType = expected then pure ()
  else refuse (.compact context (.fieldType field.id field.fieldType expected))

def listHeader : CompactReader (Nat × UInt8) := do
  let header ← readU8 "compact list header"
  let elementType := header &&& 0x0f
  validateType elementType
  if elementType = TYPE_STOP then refuse (.compact "compact list header" .stopElement)
  else
    let shortLen := (header >>> 4).toNat
    if shortLen = 15 then do
      let len ← readCollectionLen "compact list"
      pure (len, elementType)
    else pure (shortLen, elementType)

/-- `i16::try_from` and `i32::try_from`. -/
def toInt16? (value : Int64) : Option Int16 :=
  if value.toInt16.toInt64 = value then some value.toInt16 else none

def toInt32? (value : Int64) : Option Int32 :=
  if value.toInt32.toInt64 = value then some value.toInt32 else none

/-- The id of a field: a delta to the last one, or the long form after a delta of zero. -/
def fieldId (lastField : Int16) (header : UInt8) : CompactReader Int16 :=
  let delta := (header >>> 4).toUInt16.toInt16
  if delta = 0 then do
    let raw ← readSigned "compact field id"
    match toInt16? raw with
    | some id => pure id
    | none => refuse (.compact "compact field id" (.fieldIdRange raw))
  else if (lastField + delta).toInt = lastField.toInt + delta.toInt then pure (lastField + delta)
  else refuse (.compact "compact field id" (.fieldDelta lastField delta))

/-- The next field of a struct, or `none` at its stop byte, and the state after it. -/
def nextField (state : StructState) : CompactReader (Option CompactField × StructState) :=
  if state.stopped then pure (none, state)
  else do
    let header ← readU8 "compact field header"
    let fieldType := header &&& 0x0f
    if fieldType = TYPE_STOP then
      if header = TYPE_STOP then pure (none, { state with stopped := true })
      else refuse (.compact "compact field header" (.stopDelta header))
    else do
      validateType fieldType
      let id ← fieldId state.lastField header
      if id ≤ 0 then refuse (.compact "compact field id" (.nonpositiveFieldId id))
      else pure (some ⟨id, fieldType⟩, { state with lastField := id })

/-! ### Values -/

def readI32 (field : CompactField) : CompactReader Int32 := do
  expectType field TYPE_I32 "compact i32"
  let value ← readSigned "compact i32"
  match toInt32? value with
  | some value => pure value
  | none => refuse (.compact "compact i32" (.integerRange value))

def readI64 (field : CompactField) : CompactReader Int64 := do
  expectType field TYPE_I64 "compact i64"
  readSigned "compact i64"

def readBool (field : CompactField) : CompactReader Bool :=
  if field.fieldType = TYPE_BOOL_TRUE then pure true
  else if field.fieldType = TYPE_BOOL_FALSE then pure false
  else refuse (.compact "compact bool" (.booleanType field.id field.fieldType))

def readBinary (field : CompactField) : CompactReader (List UInt8) := do
  expectType field TYPE_BINARY "compact binary"
  binaryValue

def fromUtf8 (bytes : List UInt8) (context : String) : CompactReader (List Char) :=
  if Utf8.encode (Utf8.decode bytes) = bytes then pure (Utf8.decode bytes)
  else refuse (.compact context .utf8)

def readString (field : CompactField) : CompactReader (List Char) := do
  let bytes ← readBinary field
  fromUtf8 bytes "compact string"

def expectStruct (field : CompactField) : CompactReader StructState := do
  expectType field TYPE_STRUCT "compact struct"
  pure .start

def readListHeader (field : CompactField) : CompactReader (Nat × UInt8) := do
  expectType field TYPE_LIST "compact list"
  listHeader

def readElements (context : String) (expected : UInt8) (element : CompactReader α)
    (field : CompactField) : CompactReader (List α) := do
  let (len, elementType) ← readListHeader field
  if elementType = expected then replicate element len
  else refuse (.compact context (.elementType elementType expected))

def readListI32 : CompactField → CompactReader (List Int32) :=
  readElements "compact i32 list" TYPE_I32 do
    let value ← readSigned "compact list i32"
    match toInt32? value with
    | some value => pure value
    | none => refuse (.compact "compact list i32" (.integerRange value))

def readListStrings : CompactField → CompactReader (List (List Char)) :=
  readElements "compact string list" TYPE_BINARY do
    let value ← binaryValue
    fromUtf8 value "compact string list"

/-! ### Skipping -/

def MAX_SKIP_DEPTH : Nat := 64

def isBool (fieldType : UInt8) : Bool := fieldType = TYPE_BOOL_TRUE || fieldType = TYPE_BOOL_FALSE

/-- The fields of a struct up to its stop byte, each passed over by `skip`. A field takes
at least a byte, so the fuel bounds their number. -/
def skipFields (skip : UInt8 → CompactReader Unit) : Nat → StructState → CompactReader Unit
  | 0, _ => stop .unfinished
  | fuel + 1, state => do
      let (field, state) ← nextField state
      match field with
      | none => pure ()
      | some field =>
        if isBool field.fieldType then skipFields skip fuel state
        else do
          skip field.fieldType
          skipFields skip fuel state

/-- A value of a type, `levels` short of the depth limit. -/
def skipValue : Nat → UInt8 → CompactReader Unit
  | 0, _ => refuse (.limitExceeded "compact nesting depth" MAX_SKIP_DEPTH MAX_SKIP_DEPTH)
  | levels + 1, valueType =>
    if isBool valueType ∨ valueType = TYPE_I8 then do
      let _ ← readU8 "compact value"
      pure ()
    else if valueType = TYPE_I16 ∨ valueType = TYPE_I32 ∨ valueType = TYPE_I64 then do
      let _ ← readUnsigned "compact integer"
      pure ()
    else if valueType = TYPE_DOUBLE then do
      let _ ← take 8 "compact double"
      pure ()
    else if valueType = TYPE_BINARY then do
      let _ ← binaryValue
      pure ()
    else if valueType = TYPE_LIST ∨ valueType = TYPE_SET then do
      let (len, elementType) ← listHeader
      times (skipValue levels elementType) len
    else if valueType = TYPE_MAP then do
      let len ← readCollectionLen "compact map"
      if 0 < len then do
        let types ← readU8 "compact map types"
        let keyType := types >>> 4
        let valueType := types &&& 0x0f
        validateType keyType
        validateType valueType
        times (do
          skipValue levels keyType
          skipValue levels valueType) len
      else pure ()
    else if valueType = TYPE_STRUCT then do
      let source ← get
      skipFields (skipValue levels) (source.rest.length + 1) .start
    else if valueType = TYPE_STOP then refuse (.compact "compact value" .stopValue)
    -- `unreachable!`: types are validated
    else stop .panicked

def skipField (field : CompactField) : CompactReader Unit :=
  if isBool field.fieldType then pure () else skipValue MAX_SKIP_DEPTH field.fieldType

end CompactReader

end Purrdf.Compact
