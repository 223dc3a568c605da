import Purrdf.CompactReader
import Purrdf.CompactReading

/-!
# The compact reader never panics

On any bytes, from any position inside them, every call returns or refuses: no loop runs
out, no subtraction underflows, and no type that was not validated is met. A call leaves
the reader inside the bytes also where it refuses.
-/

namespace Purrdf.Compact.CompactReader

open PackBits (readVarint_ok readVarint_malformed)
open Exec ByteCursor

variable {source : ByteCursor} {α : Type}

def Refused (fault : Fault) : Prop := ∃ error, fault = .refused error

abbrev Safe (source : ByteCursor) (reader : CompactReader α) : Prop :=
  Advances Refused source reader fun _ _ => True

theorem refuse_advances {error : ColumnarError} {post : α → Nat → Prop} :
    Advances Refused source (refuse error) post := advances_stop ⟨error, rfl⟩

/-! ### Bytes -/

theorem readU8_advances (context : String) :
    Advances Refused source (readU8 context) fun _ count => count = 1 := by
  intro hwithin
  unfold readU8
  split
  · next byte hbyte =>
      obtain ⟨hlt, -⟩ := List.getElem?_eq_some_iff.mp hbyte
      exact ⟨1, by simp; omega, rfl, rfl⟩
  · exact ⟨0, Nat.zero_le _, rfl, _, rfl⟩

theorem take_safe (len : UInt64) (context : String) : Safe source (take len context) := by
  intro hwithin
  unfold take
  split
  · exact ⟨0, Nat.zero_le _, rfl, _, rfl⟩
  · split
    · exact ⟨len.toNat, by simp; omega, rfl, trivial⟩
    · exact ⟨0, Nat.zero_le _, rfl, _, rfl⟩

theorem readUnsigned_safe (context : String) : Safe source (readUnsigned context) := by
  intro hwithin
  unfold readUnsigned
  split
  · next value pos hread =>
      obtain ⟨hforward, hinside⟩ := readVarint_ok hread
      refine ⟨pos - source.pos, by simp; omega, ?_, trivial⟩
      simp [advance, Nat.add_sub_cancel' (Nat.le_of_lt hforward)]
  · next cause hread =>
      refine ⟨refusedVarint source cause, ?_, rfl, _, rfl⟩
      cases cause with
      | truncated needed found => simp [refusedVarint]
      | malformed rule =>
        have hten := readVarint_malformed hwithin hread
        simp [refusedVarint]
        omega

theorem readSigned_safe (context : String) : Safe source (readSigned context) :=
  (readUnsigned_safe context).then fun _ _ _ _ => advances_pure trivial

theorem readCollectionLen_safe (context : String) : Safe source (readCollectionLen context) := by
  unfold readCollectionLen
  apply (readUnsigned_safe context).then
  intro len _ _ source
  apply advances_get_bind
  intro hwithin
  rw [if_neg (Nat.not_lt.mpr hwithin)]
  split
  · exact refuse_advances
  · exact advances_pure trivial

theorem binaryValue_safe : Safe source binaryValue :=
  (readUnsigned_safe _).then fun len _ _ _ => take_safe len _

/-! ### Types and headers -/

theorem validateType_advances (valueType : UInt8) :
    Advances Refused source (validateType valueType) fun _ _ => valueType ≤ TYPE_STRUCT := by
  unfold validateType
  split
  · next hvalid => exact advances_pure hvalid
  · exact refuse_advances

theorem expectType_safe (field : CompactField) (expected : UInt8) (context : String) :
    Safe source (expectType field expected context) := by
  unfold expectType
  split
  · exact advances_pure trivial
  · exact refuse_advances

theorem listHeader_advances :
    Advances Refused source listHeader fun header _ => header.2 ≤ TYPE_STRUCT := by
  unfold listHeader
  apply (readU8_advances _).then
  intro header _ _ source
  apply (validateType_advances _).then
  intro _ _ hvalid source
  split
  · exact refuse_advances
  · dsimp only
    split
    · exact (readCollectionLen_safe _).then fun _ _ _ _ => advances_pure hvalid
    · exact advances_pure hvalid

theorem fieldId_safe (lastField : Int16) (header : UInt8) : Safe source (fieldId lastField header) := by
  unfold fieldId
  dsimp only
  split
  · apply (readSigned_safe _).then
    intro raw _ _ source
    cases toInt16? raw with
    | some id => exact advances_pure trivial
    | none => exact refuse_advances
  · split
    · exact advances_pure trivial
    · exact refuse_advances

/-- A field that is read took a byte at least, and its type is a known one. -/
def Issued (field : Option CompactField) (count : Nat) : Prop :=
  ∀ issued, field = some issued → 0 < count ∧ issued.fieldType ≤ TYPE_STRUCT ∧ 0 < issued.id

theorem nextField_advances (state : StructState) :
    Advances Refused source (nextField state) fun next count => Issued next.1 count := by
  unfold nextField
  split
  · exact advances_pure nofun
  · apply (readU8_advances _).bind
    intro header count _ hcount
    dsimp only
    split
    · split
      · exact advances_pure nofun
      · exact refuse_advances
    · apply (validateType_advances _).bind
      intro _ _ _ hvalid
      apply (fieldId_safe _ _).bind
      intro id _ _ _
      split
      · exact refuse_advances
      · next hpositive =>
          apply advances_pure
          intro issued hissued
          cases hissued
          exact ⟨by omega, hvalid, Int16.not_le.mp hpositive⟩

/-! ### Values -/

theorem readI32_safe (field : CompactField) : Safe source (readI32 field) := by
  apply (expectType_safe field _ _).then
  intro _ _ _ source
  apply (readSigned_safe _).then
  intro value _ _ source
  cases toInt32? value with
  | some value => exact advances_pure trivial
  | none => exact refuse_advances

theorem readI64_safe (field : CompactField) : Safe source (readI64 field) :=
  (expectType_safe field _ _).then fun _ _ _ _ => readSigned_safe _

theorem readBool_safe (field : CompactField) : Safe source (readBool field) := by
  unfold readBool
  split
  · exact advances_pure trivial
  · split
    · exact advances_pure trivial
    · exact refuse_advances

theorem readBinary_safe (field : CompactField) : Safe source (readBinary field) :=
  (expectType_safe field _ _).then fun _ _ _ _ => binaryValue_safe

theorem fromUtf8_safe (bytes : List UInt8) (context : String) :
    Safe source (fromUtf8 bytes context) := by
  unfold fromUtf8
  split
  · exact advances_pure trivial
  · exact refuse_advances

theorem readString_safe (field : CompactField) : Safe source (readString field) :=
  (readBinary_safe field).then fun bytes _ _ _ => fromUtf8_safe bytes _

theorem expectStruct_safe (field : CompactField) : Safe source (expectStruct field) :=
  (expectType_safe field _ _).then fun _ _ _ _ => advances_pure trivial

theorem readListHeader_safe (field : CompactField) : Safe source (readListHeader field) :=
  (expectType_safe field _ _).then fun _ _ _ _ => listHeader_advances.mono fun _ _ _ => trivial

theorem readElements_safe {context : String} {expected : UInt8} {element : CompactReader α}
    (helement : ∀ source, Safe source element) (field : CompactField) :
    Safe source (readElements context expected element field) := by
  apply (readListHeader_safe field).then
  intro header _ _ source
  dsimp only
  split
  · exact advances_replicate helement header.1 source
  · exact refuse_advances

theorem readListI32_safe (field : CompactField) : Safe source (readListI32 field) := by
  apply readElements_safe
  intro source
  apply (readSigned_safe _).then
  intro value _ _ source
  cases toInt32? value with
  | some value => exact advances_pure trivial
  | none => exact refuse_advances

theorem readListStrings_safe (field : CompactField) : Safe source (readListStrings field) :=
  readElements_safe (fun _ => binaryValue_safe.then fun bytes _ _ _ => fromUtf8_safe bytes _) field

theorem skipFields_safe {skip : UInt8 → CompactReader Unit}
    (hskip : ∀ valueType ≤ TYPE_STRUCT, ∀ source, Safe source (skip valueType)) (fuel : Nat)
    (state : StructState) (hfuel : source.rest.length < fuel) :
    Safe source (skipFields skip fuel state) := by
  induction fuel generalizing source state with
  | zero => omega
  | succ fuel ih =>
    unfold skipFields
    apply (nextField_advances state).bind
    rintro ⟨field, state⟩ count hcount hissued
    cases field with
    | none => exact advances_pure trivial
    | some field =>
      obtain ⟨hforward, htype, -⟩ := hissued field rfl
      have hless : (source.advance count).rest.length < fuel := by
        rw [length_rest_advance]
        omega
      dsimp only
      split
      · exact ih state hless
      · apply (hskip field.fieldType htype _).bind
        intro _ more _ _
        apply ih state
        rw [length_rest_advance]
        omega

theorem valid_types {valueType : UInt8} (hvalid : valueType ≤ TYPE_STRUCT) :
    (isBool valueType ∨ valueType = TYPE_I8) ∨
      (valueType = TYPE_I16 ∨ valueType = TYPE_I32 ∨ valueType = TYPE_I64) ∨
      valueType = TYPE_DOUBLE ∨ valueType = TYPE_BINARY ∨
      (valueType = TYPE_LIST ∨ valueType = TYPE_SET) ∨ valueType = TYPE_MAP ∨
      valueType = TYPE_STRUCT ∨ valueType = TYPE_STOP := by
  have hall : ∀ low : Fin 13, (isBool (UInt8.ofNat low) ∨ UInt8.ofNat low = TYPE_I8) ∨
      (UInt8.ofNat low = TYPE_I16 ∨ UInt8.ofNat low = TYPE_I32 ∨ UInt8.ofNat low = TYPE_I64) ∨
      UInt8.ofNat low = TYPE_DOUBLE ∨ UInt8.ofNat low = TYPE_BINARY ∨
      (UInt8.ofNat low = TYPE_LIST ∨ UInt8.ofNat low = TYPE_SET) ∨ UInt8.ofNat low = TYPE_MAP ∨
      UInt8.ofNat low = TYPE_STRUCT ∨ UInt8.ofNat low = TYPE_STOP := by decide
  have hlow : valueType.toNat < 13 := Nat.lt_succ_of_le hvalid
  have hhere := hall ⟨valueType.toNat, hlow⟩
  simpa using hhere

theorem skipValue_safe (levels : Nat) {valueType : UInt8} (hvalid : valueType ≤ TYPE_STRUCT) :
    Safe source (skipValue levels valueType) := by
  induction levels generalizing source valueType with
  | zero => exact refuse_advances
  | succ levels ih =>
    unfold skipValue
    split
    · exact (readU8_advances _).then fun _ _ _ _ => advances_pure trivial
    split
    · exact (readUnsigned_safe _).then fun _ _ _ _ => advances_pure trivial
    split
    · exact (take_safe _ _).then fun _ _ _ _ => advances_pure trivial
    split
    · exact binaryValue_safe.then fun _ _ _ _ => advances_pure trivial
    split
    · apply listHeader_advances.then
      intro header _ helement source
      exact advances_times (fun _ => ih helement) header.1 source
    split
    · apply (readCollectionLen_safe _).then
      intro len _ _ source
      split
      · apply (readU8_advances _).then
        intro types _ _ source
        apply (validateType_advances _).then
        intro _ _ hkey source
        apply (validateType_advances _).then
        intro _ _ hvalue source
        exact advances_times (fun _ => (ih hkey).then fun _ _ _ _ => ih hvalue) len source
      · exact advances_pure trivial
    split
    · apply advances_get_bind
      intro _
      exact skipFields_safe (fun _ htype _ => ih htype) _ _ (Nat.lt_succ_self _)
    split
    · exact refuse_advances
    · -- every valid type was tried
      rcases valid_types hvalid with h | h | h | h | h | h | h | h <;> contradiction

theorem skipField_safe {field : CompactField} (hvalid : field.fieldType ≤ TYPE_STRUCT) :
    Safe source (skipField field) := by
  unfold skipField
  split
  · exact advances_pure trivial
  · exact skipValue_safe MAX_SKIP_DEPTH hvalid

end Purrdf.Compact.CompactReader

/-!
## Reading and skipping trees

A reader that takes some fields by the functions for their kinds and skips the others
returns the fields it read, and stands behind every field where one that reads them all
does. A skipped value may nest 63 values, where the elements of a list count as values.
-/

namespace Purrdf.Compact

open PackBits (writeVarint zigzagEncode)
open CompactWriter (headerBytes)
open CompactReader Exec ByteCursor

variable {mark : Type} {pos : Nat}

/-! ### How deep values nest -/

def Leaf.height : Leaf → Nat
  | listI32 values => min 1 values.length
  | listI64 values => min 1 values.length
  | listBool values => min 1 values.length
  | listBinary values => min 1 values.length
  | listString values => min 1 values.length
  | _ => 0

def Node.isBool : Node Leaf mark → Bool
  | .leaf (.bool _) => true
  | _ => false

mutual

/-- How many values are met below a value on the way to the deepest one. -/
def Node.height : Node Leaf mark → Nat
  | .leaf payload => payload.height
  | .struct fields => fields.height
  | .listStruct items => items.height

def Fields.height : Fields Leaf mark → Nat
  | .nil => 0
  | .cons _ _ value others => max (if value.isBool then 0 else value.height + 1) others.height

def Items.height : Items Leaf mark → Nat
  | .nil => 0
  | .cons first others => max (first.height + 1) others.height

end

/-! ### Skipping a value -/

theorem Leaf.fieldType_typed (payload : Leaf) : Typed payload.fieldType := by
  cases payload with
  | bool value => cases value <;> exact (by decide)
  | i32 value => exact (by decide : Typed TYPE_I32)
  | i64 value => exact (by decide : Typed TYPE_I64)
  | binary value => exact (by decide : Typed TYPE_BINARY)
  | string value => exact (by decide : Typed TYPE_BINARY)
  | _ => exact (by decide : Typed TYPE_LIST)

theorem Node.fieldType_typed (value : Node Leaf mark) : Typed value.fieldType := by
  cases value with
  | leaf payload => exact payload.fieldType_typed
  | struct fields => exact (by decide : Typed TYPE_STRUCT)
  | listStruct items => exact (by decide : Typed TYPE_LIST)

theorem skipList_reads {levels : Nat} {elementType : UInt8} {pieces : List (List UInt8)}
    (htyped : Typed elementType) (hpieces : ∀ piece ∈ pieces, 0 < piece.length)
    (hskip : ∀ piece ∈ pieces, ∀ pos, pos + piece.length < 2 ^ 64 →
      Reads (skipValue levels elementType) pos piece ())
    (hfits : pos + (listBytes elementType pieces).length < 2 ^ 64) :
    Reads (skipValue (levels + 1) TYPE_LIST) pos (listBytes elementType pieces) () := by
  have hsize : pos + (listHeaderBytes pieces.length elementType).length + pieces.flatten.length ≤
      2 ^ 64 - 1 := by
    rw [listBytes, List.length_append] at hfits
    omega
  have helements := reads_times (fun piece hpiece pos hpos => hskip piece hpiece pos (by omega)) hsize
  exact list_reads hpieces hfits (listHeader_reads htyped) helements

theorem skipUnsigned_reads {valueType : UInt8} (levels : Nat) (value : UInt64)
    (htype : valueType = TYPE_I32 ∨ valueType = TYPE_I64) :
    Reads (skipValue (levels + 1) valueType) pos (writeVarint value) () := by
  rcases htype with rfl | rfl <;> exact (readUnsigned_reads _ value).bind_pure reads_pure

theorem skipBinary_reads (levels : Nat) {value : List UInt8}
    (hfits : pos + (binaryBytes value).length < 2 ^ 64) :
    Reads (skipValue (levels + 1) TYPE_BINARY) pos (binaryBytes value) () :=
  (binaryValue_reads hfits).bind_pure reads_pure

theorem skipBool_reads (levels : Nat) (value : Bool) :
    Reads (skipValue (levels + 1) TYPE_BOOL_TRUE) pos [boolByte value] () :=
  (readU8_reads _ _).bind_pure reads_pure

theorem skipLeaves_reads {α : Type} {levels : Nat} {elementType : UInt8} {encode : α → List UInt8}
    {values : List α} (htyped : Typed elementType) (hencode : ∀ value, 0 < (encode value).length)
    (hlevels : min 1 values.length < levels + 1)
    (hskip : ∀ value levels pos, pos + (encode value).length < 2 ^ 64 →
      Reads (skipValue (levels + 1) elementType) pos (encode value) ())
    (hfits : pos + (listBytes elementType (values.map encode)).length < 2 ^ 64) :
    Reads (skipValue (levels + 1) TYPE_LIST) pos (listBytes elementType (values.map encode)) () := by
  apply skipList_reads htyped (by simpa using fun value _ => hencode value) _ hfits
  intro piece hpiece pos hpos
  obtain ⟨value, hvalue, rfl⟩ := List.mem_map.mp hpiece
  have hsome := List.length_pos_of_mem hvalue
  obtain ⟨below, rfl⟩ : ∃ below, levels = below + 1 := ⟨levels - 1, by omega⟩
  exact hskip value below pos hpos

theorem Leaf.skip_reads {levels : Nat} (payload : Leaf) (hbool : isBool payload.fieldType = false)
    (hlevels : payload.height < levels) (hfits : pos + payload.body.length < 2 ^ 64) :
    Reads (skipValue levels payload.fieldType) pos payload.body () := by
  obtain ⟨levels, rfl⟩ : ∃ below, levels = below + 1 := ⟨levels - 1, by omega⟩
  cases payload with
  | i32 value => exact skipUnsigned_reads levels _ (Or.inl rfl)
  | i64 value => exact skipUnsigned_reads levels _ (Or.inr rfl)
  | bool value => cases value <;> cases hbool
  | binary value => exact skipBinary_reads levels hfits
  | string value => exact skipBinary_reads levels hfits
  | listI32 values =>
    exact skipLeaves_reads (by decide) (fun _ => length_writeVarint_pos _) hlevels
      (fun _ levels _ _ => skipUnsigned_reads levels _ (Or.inl rfl)) hfits
  | listI64 values =>
    exact skipLeaves_reads (by decide) (fun _ => length_writeVarint_pos _) hlevels
      (fun _ levels _ _ => skipUnsigned_reads levels _ (Or.inr rfl)) hfits
  | listBool values =>
    refine skipLeaves_reads (by decide) (fun _ => Nat.zero_lt_succ _) hlevels ?_ hfits
    exact fun value levels _ _ => skipBool_reads levels value
  | listBinary values =>
    exact skipLeaves_reads (by decide) length_binaryBytes_pos hlevels
      (fun _ levels _ hpos => skipBinary_reads levels hpos) hfits
  | listString values =>
    exact skipLeaves_reads (by decide) (fun _ => length_binaryBytes_pos _) hlevels
      (fun _ levels _ hpos => skipBinary_reads levels hpos) hfits

theorem Node.isBool_fieldType (value : Node Leaf mark) :
    CompactReader.isBool value.fieldType = value.isBool := by
  cases value with
  | leaf payload =>
    cases payload with
    | bool value => cases value <;> rfl
    | _ => rfl
  | _ => rfl

theorem length_headerBytes_pos (previous id : Int16) (fieldType : UInt8) :
    0 < (headerBytes previous id fieldType).length := by
  unfold headerBytes
  dsimp only
  split
  · exact Nat.one_pos
  · exact Nat.zero_lt_succ _

theorem Fields.length_body_pos (previous : Int16) (fields : Fields Leaf mark) :
    0 < (fields.body previous).length := by
  cases fields with
  | nil => exact Nat.one_pos
  | cons id note value others =>
    rw [Fields.body, List.length_append]
    exact Nat.add_pos_left (length_headerBytes_pos _ _ _) _

theorem Items.length_bodies_pos : ∀ (items : Items Leaf mark),
    ∀ piece ∈ items.bodies, 0 < piece.length
  | .nil => nofun
  | .cons first others => by
    intro piece hpiece
    rcases List.mem_cons.mp hpiece with rfl | hother
    · exact first.length_body_pos 0
    · exact others.length_bodies_pos piece hother

theorem skipStruct_reads {levels : Nat} {body : List UInt8}
    (h : ∀ fuel, body.length ≤ fuel → Reads (skipFields (skipValue levels) fuel .start) pos body ()) :
    Reads (skipValue (levels + 1) TYPE_STRUCT) pos body () :=
  reads_get_bind fun source _ _ hroom => h (source.rest.length + 1) (by omega)

theorem Node.body_of_isBool {value : Node Leaf mark} (h : value.isBool = true) : value.body = [] := by
  cases value with
  | leaf payload =>
    cases payload with
    | bool value => rfl
    | _ => cases h
  | _ => cases h

mutual

theorem Node.skip_reads : ∀ (value : Node Leaf mark) {levels pos : Nat}, value.Positive →
    value.isBool = false → value.height < levels → pos + value.body.length < 2 ^ 64 →
    Reads (skipValue levels value.fieldType) pos value.body ()
  | .leaf payload, _, _, _, hbool, hlevels, hfits =>
    payload.skip_reads ((Node.leaf payload : Node Leaf mark).isBool_fieldType.trans hbool) hlevels hfits
  | .struct fields, _ + 1, _, hpositive, _, hlevels, hfits =>
    skipStruct_reads fun _ hfuel =>
      fields.skip_reads (Int16.le_refl 0) hpositive (Nat.le_of_lt_succ hlevels) hfuel hfits
  | .listStruct items, _ + 1, _, hpositive, _, hlevels, hfits =>
    skipList_reads (by decide) items.length_bodies_pos
      (items.skip_reads hpositive (Nat.le_of_lt_succ hlevels)) hfits

theorem Fields.skip_reads : ∀ (fields : Fields Leaf mark) {levels fuel pos : Nat} {previous : Int16},
    0 ≤ previous → fields.Positive → fields.height ≤ levels →
    (fields.body previous).length ≤ fuel → pos + (fields.body previous).length < 2 ^ 64 →
    Reads (skipFields (skipValue levels) fuel ⟨previous, false⟩) pos (fields.body previous) ()
  | .nil, _, _ + 1, _, previous, _, _, _, _, _ => (nextField_stop previous).bind_pure reads_pure
  | .cons id note value others, levels, fuel, pos, previous, hprevious, ⟨hid, hvalue, hothers⟩,
      hheight, hfuel, hfits => by
      have hnext := others.length_body_pos id
      rw [Fields.body, List.length_append, List.length_append] at hfuel hfits
      obtain ⟨fuel, rfl⟩ : ∃ below, fuel = below + 1 := ⟨fuel - 1, by omega⟩
      have hheader := length_headerBytes_pos previous id value.fieldType
      rw [Fields.height] at hheight
      rw [Fields.body, skipFields]
      apply (nextField_reads hprevious hid value.fieldType_typed).bind
      dsimp only
      rw [value.isBool_fieldType]
      cases hbool : value.isBool with
      | true =>
        rw [value.body_of_isBool hbool] at hfuel hfits ⊢
        apply others.skip_reads (Int16.le_of_lt hid) hothers
        · omega
        · simp at hfuel; omega
        · simp at hfits ⊢; omega
      | false =>
        rw [hbool] at hheight
        have hdeep : value.height < levels := by
          simp at hheight
          omega
        apply Reads.bind (value.skip_reads hvalue hbool hdeep (by omega))
        apply others.skip_reads (Int16.le_of_lt hid) hothers
        · omega
        · omega
        · omega

theorem Items.skip_reads : ∀ (items : Items Leaf mark) {levels : Nat}, items.Positive →
    items.height ≤ levels → ∀ piece ∈ items.bodies, ∀ pos, pos + piece.length < 2 ^ 64 →
      Reads (skipValue levels TYPE_STRUCT) pos piece ()
  | .nil, _, _, _ => nofun
  | .cons first others, levels, ⟨hfirst, hothers⟩, hheight => by
    rw [Items.height] at hheight
    intro piece hpiece pos hfits
    rcases List.mem_cons.mp hpiece with rfl | hother
    · obtain ⟨levels, rfl⟩ : ∃ below, levels = below + 1 := ⟨levels - 1, by omega⟩
      apply skipStruct_reads
      intro fuel hfuel
      exact first.skip_reads (Int16.le_refl 0) hfirst (by omega) hfuel hfits
    · exact others.skip_reads hothers (by omega) piece hother pos hfits

end

/-! ### Reading a tree -/

mutual

/-- What a caller reads of a tree: the fields in order, of which it skips the marked ones.
The ids are the ones it expects and are not used. -/
def Node.plan : Node Leaf Bool → Node LeafKind Bool
  | .leaf payload => .leaf payload.kind
  | .struct fields => .struct fields.plan
  | .listStruct items => .listStruct items.plan

def Fields.plan : Fields Leaf Bool → Fields LeafKind Bool
  | .nil => .nil
  | .cons id skipped value others => .cons id skipped value.plan others.plan

def Items.plan : Items Leaf Bool → Items LeafKind Bool
  | .nil => .nil
  | .cons first others => .cons first.plan others.plan

end

def Items.count {leaf : Type} : Items leaf mark → Nat
  | .nil => 0
  | .cons _ others => others.count + 1

def unlessSkipped (skipped : Bool) (field : CompactField)
    (read : CompactReader (Node (Option Leaf) Nat)) : CompactReader (Node (Option Leaf) Nat) :=
  if skipped then do
    skipField field
    pure (.leaf none)
  else read

mutual

/-- Reading by a plan: what is read, `none` for a skipped field, and the position behind
every field. A caller unwraps the fields it expects. -/
def Node.read (field : CompactField) : Node LeafKind Bool → CompactReader (Node (Option Leaf) Nat)
  | .leaf kind => do
      let payload ← kind.read field
      pure (.leaf (some payload))
  | .struct fields => do
      let state ← expectStruct field
      let seen ← fields.read state
      pure (.struct seen)
  | .listStruct items => do
      let (len, elementType) ← readListHeader field
      if elementType = TYPE_STRUCT ∧ len = items.count then do
        let seen ← items.read
        pure (.listStruct seen)
      else stop .panicked

def Fields.read (state : StructState) :
    Fields LeafKind Bool → CompactReader (Fields (Option Leaf) Nat)
  | .nil => do
      let (field, _) ← nextField state
      if field.isSome then stop .panicked else pure .nil
  | .cons _ skipped plan others => do
      let (field, state) ← nextField state
      match field with
      | none => stop .panicked
      | some field =>
        let seen ← unlessSkipped skipped field (plan.read field)
        let source ← get
        let rest ← others.read state
        pure (.cons field.id source.pos seen rest)

def Items.read : Items LeafKind Bool → CompactReader (Items (Option Leaf) Nat)
  | .nil => pure .nil
  | .cons first others => do
      let seen ← first.read .start
      let rest ← others.read
      pure (.cons seen rest)

end

mutual

/-- The tree as its reader is to see it from an offset on: every value but the skipped
ones, and behind every field the position that the bytes before it add up to. -/
def Node.seen (pos : Nat) : Node Leaf Bool → Node (Option Leaf) Nat
  | .leaf payload => .leaf (some payload)
  | .struct fields => .struct (fields.seen 0 pos)
  | .listStruct items =>
    .listStruct (items.seen (pos + (listHeaderBytes items.count TYPE_STRUCT).length))

def Fields.seen (previous : Int16) (pos : Nat) : Fields Leaf Bool → Fields (Option Leaf) Nat
  | .nil => .nil
  | .cons id skipped value others =>
    let start := pos + (headerBytes previous id value.fieldType).length
    let behind := start + value.body.length
    .cons id behind (if skipped then .leaf none else value.seen start) (others.seen id behind)

def Items.seen (pos : Nat) : Items Leaf Bool → Items (Option Leaf) Nat
  | .nil => .nil
  | .cons first others => .cons (first.seen 0 pos) (others.seen (pos + (first.body 0).length))

end

mutual

/-- Every field that is skipped nests at most 63 values. -/
def Node.Shallow : Node Leaf Bool → Prop
  | .leaf _ => True
  | .struct fields => fields.Shallow
  | .listStruct items => items.Shallow

def Fields.Shallow : Fields Leaf Bool → Prop
  | .nil => True
  | .cons _ skipped value others =>
    (if skipped then value.height < MAX_SKIP_DEPTH else value.Shallow) ∧ others.Shallow

def Items.Shallow : Items Leaf Bool → Prop
  | .nil => True
  | .cons first others => first.Shallow ∧ others.Shallow

end

theorem Items.count_plan : ∀ items : Items Leaf Bool, items.plan.count = items.count
  | .nil => rfl
  | .cons _ others => congrArg (· + 1) others.count_plan

theorem Items.length_bodies : ∀ items : Items Leaf Bool, items.bodies.length = items.count
  | .nil => rfl
  | .cons _ others => congrArg (· + 1) others.length_bodies

theorem skipField_reads (id : Int16) {value : Node Leaf Bool} (hpositive : value.Positive)
    (hshallow : value.height < MAX_SKIP_DEPTH) (hfits : pos + value.body.length < 2 ^ 64) :
    Reads (skipField ⟨id, value.fieldType⟩) pos value.body () := by
  rw [skipField, value.isBool_fieldType]
  cases hbool : value.isBool with
  | true =>
    rw [value.body_of_isBool hbool]
    exact reads_pure
  | false => exact value.skip_reads hpositive hbool hshallow hfits

mutual

theorem Node.read_reads : ∀ (value : Node Leaf Bool) {id : Int16} {pos : Nat}, value.Positive →
    value.Shallow → pos + value.body.length < 2 ^ 64 →
    Reads (value.plan.read ⟨id, value.fieldType⟩) pos value.body (value.seen pos)
  | .leaf payload, id, _, _, _, hfits => (payload.reads id hfits).bind_pure reads_pure
  | .struct fields, id, pos, hpositive, hshallow, hfits => by
    have hstate : Reads (expectStruct ⟨id, TYPE_STRUCT⟩) pos [] .start :=
      (expectType_reads id TYPE_STRUCT _).bind_nil reads_pure
    apply hstate.bind_nil
    exact (fields.read_reads (Int16.le_refl 0) hpositive hshallow hfits).bind_pure reads_pure
  | .listStruct items, id, pos, hpositive, hshallow, hfits => by
    apply list_reads items.length_bodies_pos hfits
    · exact readListHeader_reads id (by decide)
    · dsimp only
      rw [if_pos ⟨rfl, by rw [items.length_bodies, items.count_plan]⟩]
      rw [Node.body, listBytes, List.length_append] at hfits
      rw [Node.seen, ← items.length_bodies]
      exact (items.read_reads hpositive hshallow (by omega)).bind_pure reads_pure

theorem Fields.read_reads : ∀ (fields : Fields Leaf Bool) {previous : Int16} {pos : Nat},
    0 ≤ previous → fields.Positive → fields.Shallow → pos + (fields.body previous).length < 2 ^ 64 →
    Reads (fields.plan.read ⟨previous, false⟩) pos (fields.body previous) (fields.seen previous pos)
  | .nil, previous, _, _, _, _, _ => (nextField_stop previous).bind_pure reads_pure
  | .cons id skipped value others, previous, pos, hprevious, ⟨hid, hvalue, hothers⟩,
      ⟨hshallow, hrest⟩, hfits => by
      rw [Fields.body, List.length_append, List.length_append] at hfits
      rw [Fields.body, Fields.plan, Fields.read]
      apply (nextField_reads hprevious hid value.fieldType_typed).bind
      have hread : Reads (unlessSkipped skipped ⟨id, value.fieldType⟩
            (value.plan.read ⟨id, value.fieldType⟩))
          (pos + (headerBytes previous id value.fieldType).length) value.body
          (if skipped then .leaf none
            else value.seen (pos + (headerBytes previous id value.fieldType).length)) := by
        cases skipped with
        | true => exact (skipField_reads id hvalue hshallow (by omega)).bind_pure reads_pure
        | false => exact value.read_reads hvalue hshallow (by omega)
      apply hread.bind
      apply reads_get_bind
      intro source _ hsource _
      rw [hsource]
      exact (others.read_reads (Int16.le_of_lt hid) hothers hrest (by omega)).bind_pure reads_pure

theorem Items.read_reads : ∀ (items : Items Leaf Bool) {pos : Nat}, items.Positive → items.Shallow →
    pos + items.bodies.flatten.length < 2 ^ 64 →
    Reads items.plan.read pos items.bodies.flatten (items.seen pos)
  | .nil, _, _, _, _ => reads_pure
  | .cons first others, pos, ⟨hfirst, hothers⟩, ⟨hshallow, hrest⟩, hfits => by
    rw [Items.bodies, List.flatten_cons, List.length_append] at hfits
    rw [Items.bodies, List.flatten_cons]
    apply (first.read_reads (Int16.le_refl 0) hfirst hshallow (by omega)).bind
    exact (others.read_reads hothers hrest (by omega)).bind_pure reads_pure

end

/-! ### In sync -/

def Returned (field : CompactField) : Prop :=
  ∃ (source : ByteCursor) (state next : StructState), source.Within ∧
    (nextField state source).1 = .ok (some field, next)

theorem Returned.fieldType_le {field : CompactField} (h : Returned field) :
    field.fieldType ≤ TYPE_STRUCT := by
  obtain ⟨source, state, next, hwithin, hrun⟩ := h
  obtain ⟨count, -, -, hsettles⟩ := nextField_advances state hwithin
  rw [hrun] at hsettles
  exact (hsettles field rfl).2.1

/-- A tree with positive ids is written without a panic. Whatever fields of it are skipped,
each nesting at most 63 values, it is read back, with the same positions behind its fields
and nothing left. And on any bytes, from any position, every call returns or refuses. -/
theorem in_sync :
    (∀ tree : Fields Leaf Bool, tree.Positive → ∃ bytes, CompactWriter.root tree.write = some bytes ∧
      (tree.Shallow → bytes.length < 2 ^ 64 →
        tree.plan.read .start ⟨bytes, 0⟩ = (.ok (tree.seen 0 0), ⟨bytes, bytes.length⟩))) ∧
    ∀ source : ByteCursor, (∀ state, CompactReader.Safe source (nextField state)) ∧
      ∀ field, Returned field →
        CompactReader.Safe source (readI32 field) ∧ CompactReader.Safe source (readI64 field) ∧
        CompactReader.Safe source (readBool field) ∧ CompactReader.Safe source (readBinary field) ∧
        CompactReader.Safe source (readString field) ∧
        CompactReader.Safe source (expectStruct field) ∧
        CompactReader.Safe source (readListHeader field) ∧
        CompactReader.Safe source (readListI32 field) ∧
        CompactReader.Safe source (readListStrings field) ∧
        CompactReader.Safe source (skipField field) := by
  refine ⟨?_, ?_⟩
  · intro tree hpositive
    refine ⟨tree.body 0, root_write hpositive, ?_⟩
    intro hshallow hfits
    have hread : Reads (tree.plan.read .start) 0 _ _ :=
      tree.read_reads (Int16.le_refl 0) hpositive hshallow (by omega)
    have hrun := hread ⟨tree.body 0, 0⟩ [] (Nat.zero_le _) rfl (List.append_nil _).symm (Nat.zero_le _)
    rw [hrun, advance, Nat.zero_add]
  · intro source
    refine ⟨fun state => (nextField_advances state).mono fun _ _ _ => trivial, ?_⟩
    intro field hreturned
    exact ⟨readI32_safe field, readI64_safe field, readBool_safe field, readBinary_safe field,
      readString_safe field, expectStruct_safe field, readListHeader_safe field,
      readListI32_safe field, readListStrings_safe field, skipField_safe hreturned.fieldType_le⟩

/-- A number, a struct that is skipped, and a list under an id in its long form. -/
def sample : Fields Leaf Bool :=
  .cons 1 false (.leaf (.i32 (-17)))
    (.cons 3 true
      (.struct (.cons 1 false (.leaf (.bool true))
        (.cons 2 false (.leaf (.listString [['a'], []])) .nil)))
      (.cons 21 false (.leaf (.listI32 [0, 3, -9])) .nil))

theorem in_sync_sample :
    ∃ bytes, CompactWriter.root sample.write = some bytes ∧
      sample.plan.read .start ⟨bytes, 0⟩ = (.ok (sample.seen 0 0), ⟨bytes, bytes.length⟩) := by
  have hpositive : sample.Positive := by
    refine ⟨by decide, trivial, by decide, ⟨by decide, trivial, by decide, trivial, trivial⟩,
      by decide, trivial, trivial⟩
  obtain ⟨bytes, hwrite, hread⟩ := in_sync.1 sample hpositive
  have hbytes : sample.body 0 = bytes := Option.some.inj ((root_write hpositive).symm.trans hwrite)
  have hshallow : sample.Shallow :=
    ⟨trivial, show 2 < MAX_SKIP_DEPTH by decide, trivial, trivial⟩
  refine ⟨bytes, hwrite, hread hshallow ?_⟩
  rw [← hbytes]
  decide

/-! ### Lists count twice -/

mutual

def Node.depth : Node Leaf mark → Nat
  | .leaf _ => 0
  | .struct fields => fields.depth + 1
  | .listStruct items => items.depth

def Fields.depth : Fields Leaf mark → Nat
  | .nil => 0
  | .cons _ _ value others => max value.depth others.depth

def Items.depth : Items Leaf mark → Nat
  | .nil => 0
  | .cons first others => max (first.depth + 1) others.depth

end

def nested : Nat → Fields Leaf Bool
  | 0 => .nil
  | levels + 1 => .cons 1 true (.listStruct (.cons (nested levels) .nil)) .nil

theorem nested_positive (levels : Nat) : (nested levels).Positive := by
  induction levels with
  | zero => trivial
  | succ levels ih => exact ⟨by decide, ⟨ih, trivial⟩, trivial⟩

def faultOf {α : Type} : Except Fault α → Option Fault
  | .ok _ => none
  | .error fault => some fault

/-- The structs of lists nest 33 deep and the outermost list cannot be skipped. -/
theorem lists_too_deep :
    ∃ tree : Fields Leaf Bool, tree.Positive ∧ tree.depth ≤ 60 ∧
      ∃ bytes, CompactWriter.root tree.write = some bytes ∧ bytes.length < 2 ^ 64 ∧
        faultOf (tree.plan.read .start ⟨bytes, 0⟩).1 =
          some (.refused (.limitExceeded "compact nesting depth" 64 64)) := by
  refine ⟨nested 33, nested_positive 33, by decide +kernel, (nested 33).body 0,
    root_write (nested_positive 33), by decide +kernel, ?_⟩
  decide +kernel

end Purrdf.Compact
