import Purrdf.PackVarint
import Purrdf.Utf8Decoding

/-!
# The Thrift compact writer

A field is a header, its id and type, and a value. The id is written as a delta
to the last one of the same struct where it fits four bits, and a boolean is its
field's type, except in a list, where it takes a byte. The writer panics where a
header is written outside of a struct or an id is out of reach of the last one.
-/

namespace Purrdf.Compact

open PackBits (writeVarint zigzagEncode)

def TYPE_STOP : UInt8 := 0
def TYPE_BOOL_TRUE : UInt8 := 1
def TYPE_BOOL_FALSE : UInt8 := 2
def TYPE_I8 : UInt8 := 3
def TYPE_I16 : UInt8 := 4
def TYPE_I32 : UInt8 := 5
def TYPE_I64 : UInt8 := 6
def TYPE_DOUBLE : UInt8 := 7
def TYPE_BINARY : UInt8 := 8
def TYPE_LIST : UInt8 := 9
def TYPE_SET : UInt8 := 10
def TYPE_MAP : UInt8 := 11
def TYPE_STRUCT : UInt8 := 12

structure CompactWriter where
  bytes : List UInt8
  lastFields : List Int16

abbrev Build := CompactWriter → Option CompactWriter

namespace CompactWriter

def push (writer : CompactWriter) (bytes : List UInt8) : CompactWriter :=
  { writer with bytes := writer.bytes ++ bytes }

def writeStruct (build : Build) (writer : CompactWriter) : Option CompactWriter := do
  let built ← build { writer with lastFields := 0 :: writer.lastFields }
  match built.lastFields with
  | [] => none
  | _ :: outer => some { bytes := built.bytes ++ [TYPE_STOP], lastFields := outer }

def headerBytes (previous id : Int16) (fieldType : UInt8) : List UInt8 :=
  let delta := id - previous
  if 1 ≤ delta ∧ delta ≤ 15 then [delta.toUInt16.toUInt8 <<< 4 ||| fieldType]
  else fieldType :: writeVarint (zigzagEncode id.toInt64)

def fieldHeader (id : Int16) (fieldType : UInt8) (writer : CompactWriter) :
    Option CompactWriter :=
  match writer.lastFields with
  | [] => none
  | previous :: outer =>
    -- the difference of two ids may be no `i16`
    if (id - previous).toInt = id.toInt - previous.toInt then
      some { bytes := writer.bytes ++ headerBytes previous id fieldType, lastFields := id :: outer }
    else none

def binaryValue (value : List UInt8) (writer : CompactWriter) : CompactWriter :=
  (writer.push (writeVarint (UInt64.ofNat value.length))).push value

def i32Value (value : Int32) (writer : CompactWriter) : CompactWriter :=
  writer.push (writeVarint (zigzagEncode value.toInt64))

def i64Value (value : Int64) (writer : CompactWriter) : CompactWriter :=
  writer.push (writeVarint (zigzagEncode value))

def boolValue (value : Bool) (writer : CompactWriter) : CompactWriter :=
  writer.push [if value then TYPE_BOOL_TRUE else TYPE_BOOL_FALSE]

def listHeader (len : Nat) (elementType : UInt8) (writer : CompactWriter) : CompactWriter :=
  if len < 15 then writer.push [UInt8.ofNat len <<< 4 ||| elementType]
  else (writer.push [0xf0 ||| elementType]).push (writeVarint (UInt64.ofNat len))

def i32Field (id : Int16) (value : Int32) : Build := fun writer =>
  (writer.fieldHeader id TYPE_I32).map (i32Value value)

def i64Field (id : Int16) (value : Int64) : Build := fun writer =>
  (writer.fieldHeader id TYPE_I64).map (i64Value value)

def boolField (id : Int16) (value : Bool) : Build := fun writer =>
  writer.fieldHeader id (if value then TYPE_BOOL_TRUE else TYPE_BOOL_FALSE)

def binaryField (id : Int16) (value : List UInt8) : Build := fun writer =>
  (writer.fieldHeader id TYPE_BINARY).map (binaryValue value)

def stringField (id : Int16) (value : List Char) : Build := binaryField id (Utf8.encode value)

def structField (id : Int16) (build : Build) : Build := fun writer => do
  let writer ← writer.fieldHeader id TYPE_STRUCT
  writeStruct build writer

/-- A list of values that hold no struct, each written by `write`. -/
def listField {α : Type} (elementType : UInt8) (write : α → CompactWriter → CompactWriter)
    (id : Int16) (values : List α) : Build := fun writer => do
  let writer ← writer.fieldHeader id TYPE_LIST
  some (values.foldl (fun writer value => write value writer)
    (writer.listHeader values.length elementType))

def listI32Field : Int16 → List Int32 → Build := listField TYPE_I32 i32Value

def listI64Field : Int16 → List Int64 → Build := listField TYPE_I64 i64Value

def listBoolField : Int16 → List Bool → Build := listField TYPE_BOOL_TRUE boolValue

def listBinaryField : Int16 → List (List UInt8) → Build := listField TYPE_BINARY binaryValue

def listStringField : Int16 → List (List Char) → Build :=
  listField TYPE_BINARY fun value => binaryValue (Utf8.encode value)

def listStructField {α : Type} (id : Int16) (values : List α) (write : α → Build) : Build :=
  fun writer => do
    let writer ← writer.fieldHeader id TYPE_LIST
    values.foldlM (fun writer value => writeStruct (write value) writer)
      (writer.listHeader values.length TYPE_STRUCT)

def root (build : Build) : Option (List UInt8) :=
  (writeStruct build ⟨[], []⟩).map CompactWriter.bytes

end CompactWriter

/-! ### Trees of fields -/

/-- A value that holds no struct. -/
inductive Leaf where
  | i32 (value : Int32)
  | i64 (value : Int64)
  | bool (value : Bool)
  | binary (value : List UInt8)
  | string (value : List Char)
  | listI32 (values : List Int32)
  | listI64 (values : List Int64)
  | listBool (values : List Bool)
  | listBinary (values : List (List UInt8))
  | listString (values : List (List Char))
deriving DecidableEq

mutual

inductive Node (leaf mark : Type) where
  | leaf (payload : leaf)
  | struct (fields : Fields leaf mark)
  | listStruct (items : Items leaf mark)

/-- The fields of a struct in order, each with its id and a mark. -/
inductive Fields (leaf mark : Type) where
  | nil
  | cons (id : Int16) (note : mark) (value : Node leaf mark) (others : Fields leaf mark)

/-- The structs of a list. -/
inductive Items (leaf mark : Type) where
  | nil
  | cons (first : Fields leaf mark) (others : Items leaf mark)

end

variable {mark : Type}

open CompactWriter

def Leaf.write (id : Int16) : Leaf → Build
  | i32 value => i32Field id value
  | i64 value => i64Field id value
  | bool value => boolField id value
  | binary value => binaryField id value
  | string value => stringField id value
  | listI32 values => listI32Field id values
  | listI64 values => listI64Field id values
  | listBool values => listBoolField id values
  | listBinary values => listBinaryField id values
  | listString values => listStringField id values

mutual

def Node.write (id : Int16) : Node Leaf mark → Build
  | .leaf payload => payload.write id
  | .struct fields => structField id fields.write
  | .listStruct items => listStructField id items.builds fun build => build

def Fields.write : Fields Leaf mark → Build
  | .nil => some
  | .cons id _ value others => fun writer => (value.write id writer).bind others.write

def Items.builds : Items Leaf mark → List Build
  | .nil => []
  | .cons first others => first.write :: others.builds

end

mutual

def Node.Positive : Node Leaf mark → Prop
  | .leaf _ => True
  | .struct fields => fields.Positive
  | .listStruct items => items.Positive

def Fields.Positive : Fields Leaf mark → Prop
  | .nil => True
  | .cons id _ value others => 0 < id ∧ value.Positive ∧ others.Positive

def Items.Positive : Items Leaf mark → Prop
  | .nil => True
  | .cons first others => first.Positive ∧ others.Positive

end

end Purrdf.Compact

/-!
## What the compact writer writes

The bytes of a tree by recursion over it, and that the writer's calls on a tree with
positive ids write them without a panic.
-/

namespace Purrdf.Compact

open PackBits (writeVarint zigzagEncode)
open CompactWriter

variable {mark : Type}

def i32Bytes (value : Int32) : List UInt8 := writeVarint (zigzagEncode value.toInt64)

def i64Bytes (value : Int64) : List UInt8 := writeVarint (zigzagEncode value)

def boolByte (value : Bool) : UInt8 := if value then TYPE_BOOL_TRUE else TYPE_BOOL_FALSE

def binaryBytes (value : List UInt8) : List UInt8 :=
  writeVarint (UInt64.ofNat value.length) ++ value

def listHeaderBytes (len : Nat) (elementType : UInt8) : List UInt8 :=
  if len < 15 then [UInt8.ofNat len <<< 4 ||| elementType]
  else (0xf0 ||| elementType) :: writeVarint (UInt64.ofNat len)

def listBytes (elementType : UInt8) (pieces : List (List UInt8)) : List UInt8 :=
  listHeaderBytes pieces.length elementType ++ pieces.flatten

namespace Leaf

def fieldType : Leaf → UInt8
  | i32 _ => TYPE_I32
  | i64 _ => TYPE_I64
  | bool value => boolByte value
  | binary _ | string _ => TYPE_BINARY
  | listI32 _ | listI64 _ | listBool _ | listBinary _ | listString _ => TYPE_LIST

def body : Leaf → List UInt8
  | i32 value => i32Bytes value
  | i64 value => i64Bytes value
  | bool _ => []
  | binary value => binaryBytes value
  | string value => binaryBytes (Utf8.encode value)
  | listI32 values => listBytes TYPE_I32 (values.map i32Bytes)
  | listI64 values => listBytes TYPE_I64 (values.map i64Bytes)
  | listBool values => listBytes TYPE_BOOL_TRUE (values.map fun value => [boolByte value])
  | listBinary values => listBytes TYPE_BINARY (values.map binaryBytes)
  | listString values => listBytes TYPE_BINARY (values.map fun value => binaryBytes (Utf8.encode value))

end Leaf

def Node.fieldType : Node Leaf mark → UInt8
  | .leaf payload => payload.fieldType
  | .struct _ => TYPE_STRUCT
  | .listStruct _ => TYPE_LIST

mutual

def Node.body : Node Leaf mark → List UInt8
  | .leaf payload => payload.body
  | .struct fields => fields.body 0
  | .listStruct items => listBytes TYPE_STRUCT items.bodies

/-- The fields after one with the id `previous`, and the stop byte. -/
def Fields.body (previous : Int16) : Fields Leaf mark → List UInt8
  | .nil => [TYPE_STOP]
  | .cons id _ value others =>
    headerBytes previous id value.fieldType ++ (value.body ++ others.body id)

def Items.bodies : Items Leaf mark → List (List UInt8)
  | .nil => []
  | .cons first others => first.body 0 :: others.bodies

end

/-! ### The writer writes them -/

namespace CompactWriter

variable {writer : CompactWriter} {bytes : List UInt8} {previous id : Int16}
  {outer : List Int16}

@[simp] theorem push_push (writer : CompactWriter) (first second : List UInt8) :
    (writer.push first).push second = writer.push (first ++ second) := by
  simp [push]

theorem binaryValue_eq (value : List UInt8) :
    binaryValue value writer = writer.push (binaryBytes value) := by
  simp [binaryValue, binaryBytes]

theorem listHeader_eq (len : Nat) (elementType : UInt8) :
    writer.listHeader len elementType = writer.push (listHeaderBytes len elementType) := by
  unfold listHeader listHeaderBytes
  split
  · rfl
  · exact push_push writer _ _

theorem sub_toInt (hprevious : 0 ≤ previous) (hid : 0 < id) :
    (id - previous).toInt = id.toInt - previous.toInt := by
  have hlow : 0 ≤ previous.toInt := Int16.le_iff_toInt_le.mp hprevious
  have hpositive : 0 < id.toInt := Int16.lt_iff_toInt_lt.mp hid
  have hfirst := previous.toInt_lt
  have hsecond := id.toInt_lt
  rw [Int16.toInt_sub]
  exact Int.bmod_eq_of_le (by omega) (by omega)

theorem fieldHeader_eq (hprevious : 0 ≤ previous) (hid : 0 < id) (fieldType : UInt8) :
    fieldHeader id fieldType ⟨bytes, previous :: outer⟩ =
      some ⟨bytes ++ headerBytes previous id fieldType, id :: outer⟩ := by
  simp [fieldHeader, sub_toInt hprevious hid]

theorem foldl_push {α : Type} {write : α → CompactWriter → CompactWriter}
    {encode : α → List UInt8} (hwrite : ∀ value writer, write value writer = writer.push (encode value))
    (values : List α) (writer : CompactWriter) :
    values.foldl (fun writer value => write value writer) writer =
      writer.push (values.map encode).flatten := by
  induction values generalizing writer with
  | nil => simp [push]
  | cons value values ih =>
    rw [List.foldl_cons, ih, hwrite, push_push]
    rfl

theorem listField_eq {α : Type} {elementType : UInt8} {write : α → CompactWriter → CompactWriter}
    {encode : α → List UInt8} (hwrite : ∀ value writer, write value writer = writer.push (encode value))
    (hprevious : 0 ≤ previous) (hid : 0 < id) (values : List α) :
    listField elementType write id values ⟨bytes, previous :: outer⟩ =
      some ⟨bytes ++ headerBytes previous id TYPE_LIST ++
        listBytes elementType (values.map encode), id :: outer⟩ := by
  simp [listField, fieldHeader_eq hprevious hid, listHeader_eq, foldl_push hwrite, listBytes, push]

end CompactWriter

section

variable {bytes : List UInt8} {previous id : Int16} {outer : List Int16}

theorem Leaf.write_eq (hprevious : 0 ≤ previous) (hid : 0 < id) (payload : Leaf) :
    payload.write id ⟨bytes, previous :: outer⟩ =
      some ⟨bytes ++ headerBytes previous id payload.fieldType ++ payload.body, id :: outer⟩ := by
  cases payload with
  | i32 value => simp [write, i32Field, fieldHeader_eq hprevious hid, fieldType, body, i32Value, i32Bytes, push]
  | i64 value => simp [write, i64Field, fieldHeader_eq hprevious hid, fieldType, body, i64Value, i64Bytes, push]
  | bool value => simp [write, boolField, fieldHeader_eq hprevious hid, fieldType, body, boolByte]
  | binary value =>
    simp [write, binaryField, fieldHeader_eq hprevious hid, fieldType, body, binaryValue_eq, push]
  | string value =>
    simp [write, stringField, binaryField, fieldHeader_eq hprevious hid, fieldType, body,
      binaryValue_eq, push]
  | listI32 values => exact listField_eq (fun _ _ => rfl) hprevious hid values
  | listI64 values => exact listField_eq (fun _ _ => rfl) hprevious hid values
  | listBool values => exact listField_eq (fun _ _ => rfl) hprevious hid values
  | listBinary values =>
    exact listField_eq (fun value _ => binaryValue_eq value) hprevious hid values
  | listString values =>
    exact listField_eq (fun value _ => binaryValue_eq (Utf8.encode value)) hprevious hid values

theorem writeStruct_eq {build : Build} {written : List UInt8} {last : Int16} {writer : CompactWriter}
    (h : build ⟨writer.bytes, 0 :: writer.lastFields⟩ =
      some ⟨writer.bytes ++ written, last :: writer.lastFields⟩) :
    writeStruct build writer = some (writer.push (written ++ [TYPE_STOP])) := by
  simp [writeStruct, h, push]

theorem Items.length_builds : ∀ items : Items Leaf mark, items.builds.length = items.bodies.length
  | .nil => rfl
  | .cons _ others => congrArg (· + 1) others.length_builds

mutual

theorem Node.write_eq (bytes : List UInt8) (outer : List Int16) {previous id : Int16}
    (hprevious : 0 ≤ previous) (hid : 0 < id) : ∀ {value : Node Leaf mark}, value.Positive →
    value.write id ⟨bytes, previous :: outer⟩ =
      some ⟨bytes ++ headerBytes previous id value.fieldType ++ value.body, id :: outer⟩
  | .leaf payload, _ => payload.write_eq hprevious hid
  | .struct fields, h => by
    obtain ⟨last, written, hwrite, hbody⟩ :=
      Fields.write_eq (bytes ++ headerBytes previous id TYPE_STRUCT) (id :: outer)
        (Int16.le_refl 0) h
    rw [Node.write, structField, fieldHeader_eq hprevious hid]
    simp only [Option.bind_eq_bind, Option.bind_some]
    rw [writeStruct_eq hwrite, Node.body, hbody]
    rfl
  | .listStruct items, h => by
    rw [Node.write, listStructField, fieldHeader_eq hprevious hid]
    simp only [Option.bind_eq_bind, Option.bind_some]
    rw [listHeader_eq, Items.write_eq h, Node.body, listBytes, Items.length_builds]
    simp [push, Node.fieldType]

theorem Fields.write_eq (bytes : List UInt8) (outer : List Int16) {previous : Int16}
    (hprevious : 0 ≤ previous) : ∀ {fields : Fields Leaf mark}, fields.Positive →
    ∃ last written, fields.write ⟨bytes, previous :: outer⟩ =
      some ⟨bytes ++ written, last :: outer⟩ ∧ fields.body previous = written ++ [TYPE_STOP]
  | .nil, _ => ⟨previous, [], by simp [Fields.write], rfl⟩
  | .cons id note value others, ⟨hid, hvalue, hothers⟩ => by
    have hfield := Node.write_eq bytes outer hprevious hid hvalue
    obtain ⟨last, written, hwrite, hbody⟩ :=
      Fields.write_eq (bytes ++ headerBytes previous id value.fieldType ++ value.body) outer
        (Int16.le_of_lt hid) hothers
    refine ⟨last, headerBytes previous id value.fieldType ++ (value.body ++ written), ?_, ?_⟩
    · rw [Fields.write]
      simp only [hfield, Option.bind_some, hwrite]
      simp
    · rw [Fields.body, hbody]
      simp

theorem Items.write_eq {writer : CompactWriter} : ∀ {items : Items Leaf mark}, items.Positive →
    items.builds.foldlM (fun writer build => writeStruct build writer) writer =
      some (writer.push items.bodies.flatten)
  | .nil, _ => by simp [Items.builds, Items.bodies, push]
  | .cons first others, ⟨hfirst, hothers⟩ => by
    obtain ⟨last, written, hwrite, hbody⟩ :=
      Fields.write_eq writer.bytes writer.lastFields (Int16.le_refl 0) hfirst
    rw [Items.builds, List.foldlM_cons, writeStruct_eq hwrite]
    simp only [Option.bind_eq_bind, Option.bind_some]
    rw [Items.write_eq hothers, Items.bodies, push_push, ← hbody, List.flatten_cons]

end

end

theorem root_write {fields : Fields Leaf mark} (h : fields.Positive) :
    root fields.write = some (fields.body 0) := by
  obtain ⟨last, written, hwrite, hbody⟩ := Fields.write_eq [] [] (Int16.le_refl 0) h
  rw [root, writeStruct_eq hwrite, hbody]
  rfl

end Purrdf.Compact
