import Mathlib.Data.List.Sort
import Purrdf.BinaryFloat
import Purrdf.ByteOrder
import Purrdf.CborHead
import Purrdf.Utf8Decoding

/-!
# CBOR floats

A float is a binary64 bit pattern. It is written as the shortest item that holds
it exactly: binary16, binary32 or binary64, the widths compared bit for bit. A
binary16 item is widened by the decoder's own arithmetic and a binary32 item by
the machine's conversion, which quiets a NaN.
-/

namespace Purrdf.Cbor

open FloatFormat

def binary16 : FloatFormat := ⟨5, 10⟩

def binary32 : FloatFormat := ⟨8, 23⟩

def binary64 : FloatFormat := ⟨11, 52⟩

/-- The binary16 bit pattern that is exactly `value`, when there is one. -/
def f16Bits (value : UInt64) : Option UInt16 :=
  (narrowBits binary64 binary16 value.toNat).map UInt16.ofNat

/-- The binary32 bit pattern that is exactly `value`, when there is one. -/
def f32Bits (value : UInt64) : Option UInt32 :=
  (narrowBits binary64 binary32 value.toNat).map UInt32.ofNat

def f16ToF64 (half : UInt16) : UInt64 :=
  UInt64.ofNat (widenBits binary64 binary16 half.toNat)

/-- `f64::from` of a binary32 bit pattern. -/
def f32ToF64 (single : UInt32) : UInt64 :=
  UInt64.ofNat (convertBits binary64 binary32 single.toNat)

/-- The shortest float item that is exactly `value`. -/
def floatItem (value : UInt64) : List UInt8 :=
  match f16Bits value with
  | some half => 0xf9 :: beBytes 2 half.toNat
  | none =>
    match f32Bits value with
    | some single => 0xfa :: beBytes 4 single.toNat
    | none => 0xfb :: beBytes 8 value.toNat

/-- A binary32 NaN whose quiet bit is clear. -/
def SignalingSingle (single : UInt32) : Prop :=
  binary32.Signaling (binary32.fields single.toNat)

def WrittenSignaling (value : UInt64) : Prop :=
  f16Bits value = none ∧ ∃ single ∈ f32Bits value, SignalingSingle single

instance (single : UInt32) : Decidable (SignalingSingle single) :=
  inferInstanceAs (Decidable (binary32.Signaling (binary32.fields single.toNat)))

instance (value : UInt64) : Decidable (WrittenSignaling value) :=
  inferInstanceAs (Decidable (f16Bits value = none ∧
    ∃ single ∈ f32Bits value, SignalingSingle single))

theorem narrower16 : Narrower binary64 binary16 := by
  constructor <;> decide

theorem narrower32 : Narrower binary64 binary32 := by
  constructor <;> decide

theorem f16Bits_iff (value : UInt64) (half : UInt16) :
    f16Bits value = some half ↔ f16ToF64 half = value := by
  have hvalue : value.toNat < 2 ^ 64 := value.toNat_lt
  have hhalf : half.toNat < 2 ^ 16 := half.toNat_lt
  have hiff := narrowBits_iff narrower16 hvalue hhalf
  have hwiden := widenBits_lt narrower16 hhalf
  unfold f16Bits f16ToF64
  rw [← UInt64.toNat_inj, UInt64.toNat_ofNat_of_lt' hwiden, ← hiff, Option.map_eq_some_iff]
  constructor
  · intro ⟨pattern, hpattern, hsame⟩
    have hlt := narrowBits_lt narrower16 hvalue hpattern
    rw [hpattern, ← hsame, UInt16.toNat_ofNat_of_lt' hlt]
  · intro h
    exact ⟨half.toNat, h, UInt16.ofNat_toNat⟩

theorem f32Bits_iff (value : UInt64) {single : UInt32} (hquiet : ¬ SignalingSingle single) :
    f32Bits value = some single ↔ f32ToF64 single = value := by
  have hvalue : value.toNat < 2 ^ 64 := value.toNat_lt
  have hsingle : single.toNat < 2 ^ 32 := single.toNat_lt
  have hiff := narrowBits_iff narrower32 hvalue hsingle
  have hwiden := widenBits_lt narrower32 hsingle
  unfold f32Bits f32ToF64
  rw [convertBits_eq narrower32 hsingle hquiet, ← UInt64.toNat_inj,
    UInt64.toNat_ofNat_of_lt' hwiden, ← hiff, Option.map_eq_some_iff]
  constructor
  · intro ⟨pattern, hpattern, hsame⟩
    have hlt := narrowBits_lt narrower32 hvalue hpattern
    rw [hpattern, ← hsame, UInt32.toNat_ofNat_of_lt' hlt]
  · intro h
    exact ⟨single.toNat, h, UInt32.ofNat_toNat⟩

end Purrdf.Cbor

/-!
## The CBOR data model

A data item, its encoding with its entries as they stand, and the same item with
the entries of every map in the order of their keys' bytes. The canonical
encoding of an item is the encoding of its sorted form.
-/

namespace Purrdf.Cbor

open CborHead

/-- An integer in the range CBOR major types 0 and 1 carry. -/
structure Integer where
  get : Int
  min : -2 ^ 64 ≤ get
  max : get ≤ 2 ^ 64 - 1
deriving DecidableEq

def Integer.head (integer : Integer) : UInt8 × UInt64 :=
  if 0 ≤ integer.get then (0, UInt64.ofNat integer.get.toNat)
  else (1, UInt64.ofNat (-1 - integer.get).toNat)

def Integer.unsigned (argument : UInt64) : Integer where
  get := argument.toNat
  min := by omega
  max := by have := argument.toNat_lt; omega

def Integer.negative (argument : UInt64) : Integer where
  get := -1 - argument.toNat
  min := by have := argument.toNat_lt; omega
  max := by omega

theorem Integer.head_unsigned (argument : UInt64) :
    (Integer.unsigned argument).head = (0, argument) := by
  simp [Integer.head, Integer.unsigned]

theorem Integer.head_negative (argument : UInt64) :
    (Integer.negative argument).head = (1, argument) := by
  have hneg : ¬ (0 : Int) ≤ -1 - argument.toNat := by omega
  unfold Integer.head Integer.negative
  rw [if_neg hneg]
  congr 1
  simp

theorem Integer.head_cases (integer : Integer) :
    (∃ argument, integer.head = (0, argument) ∧ Integer.unsigned argument = integer) ∨
      ∃ argument, integer.head = (1, argument) ∧ Integer.negative argument = integer := by
  obtain ⟨value, hmin, hmax⟩ := integer
  by_cases h : 0 ≤ value
  · left
    refine ⟨UInt64.ofNat value.toNat, by simp [Integer.head, h], ?_⟩
    have hlt : value.toNat < 2 ^ 64 := by omega
    simp only [Integer.unsigned, UInt64.toNat_ofNat_of_lt' hlt, Integer.mk.injEq]
    omega
  · right
    refine ⟨UInt64.ofNat (-1 - value).toNat, by simp [Integer.head, h], ?_⟩
    have hlt : (-1 - value).toNat < 2 ^ 64 := by omega
    simp only [Integer.negative, UInt64.toNat_ofNat_of_lt' hlt, Integer.mk.injEq]
    omega

/-- A CBOR data item. -/
inductive Value where
  | integer (integer : Integer)
  | bytes (bytes : List UInt8)
  | float (float : UInt64)
  | text (text : List Char)
  | bool (value : Bool)
  | null
  | simple (simple : UInt8)
  | tag (tag : UInt64) (item : Value)
  | array (items : List Value)
  | map (entries : List (Value × Value))

/-- The encoding of a value that owns no value; `none` for a container. -/
def writeScalar : Value → Option (List UInt8)
  | .integer integer => some (encode integer.head.1 integer.head.2)
  | .bytes bytes => some (writeBytes bytes)
  | .text text => some (writeText (Utf8.encode text))
  | .float float => some (floatItem float)
  | .bool false => some [0xf4]
  | .bool true => some [0xf5]
  | .null => some [0xf6]
  | .simple simple => some (encode SIMPLE simple.toUInt64)
  | .tag _ _ | .array _ | .map _ => none

namespace Value

theorem induct {motive : Value → Prop}
    (scalar : ∀ value bytes, writeScalar value = some bytes → motive value)
    (tag : ∀ tag item, motive item → motive (.tag tag item))
    (array : ∀ items, (∀ item ∈ items, motive item) → motive (.array items))
    (map : ∀ entries, (∀ entry ∈ entries, motive entry.1 ∧ motive entry.2) →
      motive (.map entries)) : ∀ value, motive value
  | .integer _ => scalar _ _ rfl
  | .bytes _ => scalar _ _ rfl
  | .float _ => scalar _ _ rfl
  | .text _ => scalar _ _ rfl
  | .bool false => scalar _ _ rfl
  | .bool true => scalar _ _ rfl
  | .null => scalar _ _ rfl
  | .simple _ => scalar _ _ rfl
  | .tag number item => tag number item (induct scalar tag array map item)
  | .array items => array items fun item hitem => by
    have hsize := List.sizeOf_lt_of_mem hitem
    exact induct scalar tag array map item
  | .map entries => map entries fun entry hentry => by
    have hsize := List.sizeOf_lt_of_mem hentry
    obtain ⟨key, value⟩ := entry
    exact ⟨induct scalar tag array map key, induct scalar tag array map value⟩
termination_by value => sizeOf value
decreasing_by all_goals grind [Value.tag.sizeOf_spec, Value.array.sizeOf_spec, Value.map.sizeOf_spec]

/-! ### The encoding of an item -/

mutual

def encoding : Value → List UInt8
  | .tag number item => encode TAG number ++ item.encoding
  | .array items => encode ARRAY (UInt64.ofNat items.length) ++ itemsEncoding items
  | .map entries => encode MAP (UInt64.ofNat entries.length) ++ entriesEncoding entries
  | value => (writeScalar value).getD []

def itemsEncoding : List Value → List UInt8
  | [] => []
  | item :: items => item.encoding ++ itemsEncoding items

def entriesEncoding : List (Value × Value) → List UInt8
  | [] => []
  | (key, value) :: entries => key.encoding ++ (value.encoding ++ entriesEncoding entries)

end

def entryEncoding (entry : Value × Value) : List UInt8 :=
  entry.1.encoding ++ entry.2.encoding

theorem encoding_scalar {value : Value} {bytes : List UInt8}
    (h : writeScalar value = some bytes) : value.encoding = bytes := by
  cases value with
  | tag | array | map => cases h
  | bool value => cases value <;> exact Option.some.inj h
  | integer | bytes | float | text | null | simple => exact Option.some.inj h

theorem itemsEncoding_eq (items : List Value) :
    itemsEncoding items = items.flatMap encoding := by
  induction items with
  | nil => rfl
  | cons item items ih => simp [itemsEncoding, ih]

theorem entriesEncoding_eq (entries : List (Value × Value)) :
    entriesEncoding entries = entries.flatMap entryEncoding := by
  induction entries with
  | nil => rfl
  | cons entry entries ih => simp [entriesEncoding, entryEncoding, ih]

@[simp] theorem encoding_tag (number : UInt64) (item : Value) :
    (Value.tag number item).encoding = encode TAG number ++ item.encoding := rfl

@[simp] theorem encoding_array (items : List Value) :
    (Value.array items).encoding =
      encode ARRAY (UInt64.ofNat items.length) ++ items.flatMap encoding := by
  rw [← itemsEncoding_eq]
  rfl

@[simp] theorem encoding_map (entries : List (Value × Value)) :
    (Value.map entries).encoding =
      encode MAP (UInt64.ofNat entries.length) ++ entries.flatMap entryEncoding := by
  rw [← entriesEncoding_eq]
  rfl

/-! ### Items with their entries in key order -/

/-- Entries in the order of their keys' bytes, equal keys in the order they stand. -/
def sortEntries (entries : List (Value × Value)) : List (Value × Value) :=
  entries.insertionSort fun a b => a.1.encoding ≤ b.1.encoding

mutual

/-- The item with the entries of every map, those inside keys too, in the order
of their keys' bytes. -/
def sorted : Value → Value
  | .tag number item => .tag number item.sorted
  | .array items => .array (itemsSorted items)
  | .map entries => .map (sortEntries (entriesSorted entries))
  | value => value

def itemsSorted : List Value → List Value
  | [] => []
  | item :: items => item.sorted :: itemsSorted items

def entriesSorted : List (Value × Value) → List (Value × Value)
  | [] => []
  | (key, value) :: entries => (key.sorted, value.sorted) :: entriesSorted entries

end

def entrySorted (entry : Value × Value) : Value × Value :=
  (entry.1.sorted, entry.2.sorted)

theorem sorted_scalar {value : Value} {bytes : List UInt8}
    (h : writeScalar value = some bytes) : value.sorted = value := by
  cases value with
  | tag | array | map => cases h
  | _ => rfl

theorem itemsSorted_eq (items : List Value) : itemsSorted items = items.map sorted := by
  induction items with
  | nil => rfl
  | cons item items ih => simp [itemsSorted, ih]

theorem entriesSorted_eq (entries : List (Value × Value)) :
    entriesSorted entries = entries.map entrySorted := by
  induction entries with
  | nil => rfl
  | cons entry entries ih => simp [entriesSorted, entrySorted, ih]

@[simp] theorem sorted_tag (number : UInt64) (item : Value) :
    (Value.tag number item).sorted = .tag number item.sorted := rfl

@[simp] theorem sorted_array (items : List Value) :
    (Value.array items).sorted = .array (items.map sorted) := by
  rw [← itemsSorted_eq]
  rfl

@[simp] theorem sorted_map (entries : List (Value × Value)) :
    (Value.map entries).sorted = .map (sortEntries (entries.map entrySorted)) := by
  rw [← entriesSorted_eq]
  rfl

theorem perm_sortEntries (entries : List (Value × Value)) :
    List.Perm (sortEntries entries) entries :=
  List.perm_insertionSort _ _

theorem pairwise_sortEntries (entries : List (Value × Value)) :
    (sortEntries entries).Pairwise fun a b => a.1.encoding ≤ b.1.encoding := by
  have : Std.Total fun a b : Value × Value => a.1.encoding ≤ b.1.encoding :=
    ⟨fun a b => Std.le_total⟩
  have : IsTrans (Value × Value) fun a b => a.1.encoding ≤ b.1.encoding :=
    ⟨fun a b c => Std.le_trans⟩
  exact List.pairwise_insertionSort _ _

theorem mem_sortEntries {entry : Value × Value} {entries : List (Value × Value)} :
    entry ∈ sortEntries entries ↔ entry ∈ entries :=
  (perm_sortEntries entries).mem_iff

/-! ### Properties of every item inside an item -/

inductive Everywhere (p : Value → Prop) : Value → Prop
  | scalar {value bytes} : writeScalar value = some bytes → p value → Everywhere p value
  | tag {number item} : p (.tag number item) → Everywhere p item →
      Everywhere p (.tag number item)
  | array {items} : p (.array items) → (∀ item ∈ items, Everywhere p item) →
      Everywhere p (.array items)
  | map {entries} : p (.map entries) → (∀ entry ∈ entries, Everywhere p entry.1) →
      (∀ entry ∈ entries, Everywhere p entry.2) → Everywhere p (.map entries)

variable {p q : Value → Prop}

theorem Everywhere.here {value : Value} (h : value.Everywhere p) : p value := by
  cases h <;> assumption

theorem Everywhere.item {number : UInt64} {item : Value}
    (h : (Value.tag number item).Everywhere p) : item.Everywhere p := by
  cases h with
  | scalar hscalar => cases hscalar
  | tag _ h => exact h

theorem Everywhere.items {items : List Value} (h : (Value.array items).Everywhere p) :
    ∀ item ∈ items, item.Everywhere p := by
  cases h with
  | scalar hscalar => cases hscalar
  | array _ h => exact h

theorem Everywhere.entries {entries : List (Value × Value)}
    (h : (Value.map entries).Everywhere p) :
    ∀ entry ∈ entries, entry.1.Everywhere p ∧ entry.2.Everywhere p := by
  cases h with
  | scalar hscalar => cases hscalar
  | map _ hkeys hvalues => exact fun entry hentry => ⟨hkeys entry hentry, hvalues entry hentry⟩

theorem Everywhere.sorted {value : Value} (h : value.Everywhere p)
    (hscalar : ∀ value bytes, writeScalar value = some bytes → p value → q value)
    (htag : ∀ number item, p (.tag number item) → q (.tag number item.sorted))
    (harray : ∀ items, p (.array items) → q (.array (items.map Value.sorted)))
    (hmap : ∀ entries, p (.map entries) → q (.map (sortEntries (entries.map entrySorted)))) :
    value.sorted.Everywhere q := by
  induction h with
  | scalar hnone hp =>
    rw [sorted_scalar hnone]
    exact .scalar hnone (hscalar _ _ hnone hp)
  | tag hp _ ih => exact .tag (htag _ _ hp) ih
  | array hp _ ih =>
    rw [sorted_array]
    refine .array (harray _ hp) fun item hitem => ?_
    obtain ⟨inner, hinner, rfl⟩ := List.mem_map.mp hitem
    exact ih inner hinner
  | map hp _ _ ihkeys ihvalues =>
    rw [sorted_map]
    refine .map (hmap _ hp) (fun entry hentry => ?_) fun entry hentry => ?_
    · obtain ⟨inner, hinner, rfl⟩ := List.mem_map.mp (mem_sortEntries.mp hentry)
      exact ihkeys inner hinner
    · obtain ⟨inner, hinner, rfl⟩ := List.mem_map.mp (mem_sortEntries.mp hentry)
      exact ihvalues inner hinner

def KeysAscending : Value → Prop
  | .map entries => (entries.map fun entry => entry.1.encoding).IsChain (· < ·)
  | _ => True

abbrev Ordered (value : Value) : Prop := value.Everywhere KeysAscending

theorem sorted_of_ordered {value : Value} (h : value.Ordered) : value.sorted = value := by
  induction h with
  | scalar hscalar _ => exact sorted_scalar hscalar
  | tag _ _ ih => rw [sorted_tag, ih]
  | array _ _ ih => rw [sorted_array, List.map_congr_left ih, List.map_id']
  | map hkeys _ _ ihkeys ihvalues =>
    have hsame : ∀ entry ∈ _, entrySorted entry = entry := fun entry hentry =>
      Prod.ext (ihkeys entry hentry) (ihvalues entry hentry)
    rw [sorted_map, List.map_congr_left hsame, List.map_id']
    have hpairwise := List.pairwise_map.mp hkeys.pairwise
    exact congrArg Value.map (hpairwise.imp Std.le_of_lt).insertionSort_eq

/-! ### Nesting -/

mutual

/-- How many arrays, maps and tags are open at once where the item nests deepest. -/
def depth : Value → Nat
  | .tag _ item => item.depth + 1
  | .array items => itemsDepth items + 1
  | .map entries => entriesDepth entries + 1
  | _ => 0

def itemsDepth : List Value → Nat
  | [] => 0
  | item :: items => max item.depth (itemsDepth items)

def entriesDepth : List (Value × Value) → Nat
  | [] => 0
  | (key, value) :: entries => max (max key.depth value.depth) (entriesDepth entries)

end

theorem itemsDepth_le {items : List Value} {bound : Nat} :
    itemsDepth items ≤ bound ↔ ∀ item ∈ items, item.depth ≤ bound := by
  induction items with
  | nil => simp [itemsDepth]
  | cons item items ih => simp [itemsDepth, ih]

theorem entriesDepth_le {entries : List (Value × Value)} {bound : Nat} :
    entriesDepth entries ≤ bound ↔
      ∀ entry ∈ entries, entry.1.depth ≤ bound ∧ entry.2.depth ≤ bound := by
  induction entries with
  | nil => simp [entriesDepth]
  | cons entry entries ih => simp [entriesDepth, ih, and_assoc]

theorem depth_sorted (value : Value) : value.sorted.depth ≤ value.depth := by
  induction value using induct with
  | scalar value bytes hscalar => rw [sorted_scalar hscalar]
  | tag number item ih => exact Nat.succ_le_succ ih
  | array items ih =>
    rw [sorted_array]
    refine Nat.succ_le_succ (itemsDepth_le.mpr fun item hitem => ?_)
    obtain ⟨source, hsource, rfl⟩ := List.mem_map.mp hitem
    exact (ih source hsource).trans (itemsDepth_le.mp le_rfl source hsource)
  | map entries ih =>
    rw [sorted_map]
    refine Nat.succ_le_succ (entriesDepth_le.mpr fun entry hentry => ?_)
    obtain ⟨source, hsource, rfl⟩ := List.mem_map.mp (mem_sortEntries.mp hentry)
    have hbound := entriesDepth_le.mp le_rfl source hsource
    exact ⟨(ih source hsource).1.trans hbound.1, (ih source hsource).2.trans hbound.2⟩

end Value

end Purrdf.Cbor
