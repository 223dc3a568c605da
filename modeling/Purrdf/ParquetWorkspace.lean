import Purrdf.PackVarint

/-!
# The workspace of the value encodings

Errors, the limits every growing buffer is checked against, and the reads that consume a
body. An encoder here can only fail by exceeding a limit, and a reader that stands before
what a writer wrote reads it back.
-/

namespace Purrdf.Parquet

open PackBits

inductive PhysicalType where
  | int64
  | byteArray
deriving DecidableEq, Repr

inductive EncodingReason where
  | packed (cause : PackBitsError)
  | deltaLayout (block miniblocks : UInt64)
  | valueCount (declared expected : Nat)
  | bitWidth (width maximum : Nat)
  | dictionaryIndex (index entries : Nat)
  | missingDictionary
  | dictionaryValue (position : Nat)
  | length (value : Int64)
  | prefixLength (length : Int64) (previous : Nat)
  | integerRange (value : Int64) (bits : Nat)
  | physical (encoding : Int) (physical : PhysicalType)
  | dictionaryPhysical (page dictionary : PhysicalType)
deriving DecidableEq, Repr

inductive ValueBodyReason where
  | encoding (reason : EncodingReason)
  | varint (offset : Nat) (cause : PackBitsError)
  | invalidRun (length remaining : Nat)
  | offsetOverflow (offset length : Nat)
  | trailingValues (offset available : Nat)
  | negativeLength (length : Int)
deriving DecidableEq, Repr

inductive ColumnarError where
  | valueBody (context : String) (reason : ValueBodyReason)
  | limitExceeded (context : String) (value maximum : Nat)
  | truncated (context : String) (needed available : Nat)
  | storageOverflow
deriving DecidableEq, Repr

inductive ColumnarFault where
  | refused (error : ColumnarError)
  | panicked
deriving DecidableEq, Repr

/-- Allocation is taken to succeed, so a call fails by refusing or by panicking. -/
abbrev Outcome (α : Type) := Except ColumnarFault α

def maxBytes : Nat := 2 ^ 31 - 1
def block : Nat := 128
def miniblockCount : Nat := 4
def mini : Nat := block / miniblockCount

def valueBody {α : Type} (reason : ValueBodyReason) : Outcome α :=
  .error (.refused (.valueBody "physical value encoding" reason))

def refusal {α : Type} (reason : EncodingReason) : Outcome α := valueBody (.encoding reason)

def limit {α : Type} (context : String) (value maximum : Nat) : Outcome α :=
  .error (.refused (.limitExceeded context value maximum))

def add (a b : Nat) : Outcome Nat :=
  if a + b < 2 ^ 64 then .ok (a + b) else valueBody (.offsetOverflow a b)

/-- Room for more elements, each charged a number of bytes against the limit. -/
def reserveCharged (len additional charge : Nat) : Outcome Unit := do
  let needed ← add len additional
  if maxBytes / charge < needed then limit "value encoding workspace" needed (maxBytes / charge)
  else return ()

def reserve (len additional size : Nat) : Outcome Unit := reserveCharged len additional (max size 1)

def append (out bytes : List UInt8) : Outcome (List UInt8) := do
  let stop ← add out.length bytes.length
  if maxBytes < stop then limit "decoded or encoded value bytes" stop maxBytes
  else do
    reserve out.length bytes.length 1
    return out ++ bytes

def take (bytes : List UInt8) (pos len : Nat) : Outcome (List UInt8 × Nat) := do
  let stop ← add pos len
  if stop ≤ bytes.length then return ((bytes.drop pos).take len, stop)
  else .error (.refused (.truncated "physical value encoding" stop bytes.length))

def varint (bytes : List UInt8) (pos : Nat) : Outcome (UInt64 × Nat) :=
  match readVarint bytes pos with
  | .ok found => .ok found
  | .error cause => valueBody (.varint pos cause)

def finish (pos : Nat) (bytes : List UInt8) : Outcome Unit :=
  if pos ≠ bytes.length then valueBody (.trailingValues pos bytes.length) else return ()

/-! ### Outcomes that only a limit can spoil -/

def ColumnarFault.IsLimit (fault : ColumnarFault) : Prop :=
  ∃ context value maximum, fault = .refused (.limitExceeded context value maximum)

def Yields {α : Type} (outcome : Outcome α) (post : α → Prop) : Prop :=
  match outcome with
  | .ok value => post value
  | .error fault => fault.IsLimit

theorem Yields.pure {α : Type} {value : α} {post : α → Prop} (holds : post value) :
    Yields (.ok value) post := holds

theorem Yields.limit {α : Type} (context : String) (value maximum : Nat) (post : α → Prop) :
    Yields (limit context value maximum) post := ⟨context, value, maximum, rfl⟩

theorem Yields.bind {α β : Type} {outcome : Outcome α} {next : α → Outcome β}
    {middle : α → Prop} {post : β → Prop} (first : Yields outcome middle)
    (rest : ∀ value, middle value → Yields (next value) post) : Yields (outcome >>= next) post := by
  cases outcome with
  | ok value => exact rest value first
  | error fault => exact first

theorem Yields.mono {α : Type} {outcome : Outcome α} {post weaker : α → Prop}
    (strong : Yields outcome post) (implies : ∀ value, post value → weaker value) :
    Yields outcome weaker := by
  cases outcome with
  | ok value => exact implies value strong
  | error fault => exact strong

theorem bind_ok {α β : Type} {outcome : Outcome α} {next : α → Outcome β} {result : β}
    (ran : outcome >>= next = .ok result) :
    ∃ value, outcome = .ok value ∧ next value = .ok result := by
  cases outcome with
  | ok value => exact ⟨value, rfl, ran⟩
  | error fault => cases ran

def Stands (bytes : List UInt8) (pos : Nat) (rest : List UInt8) : Prop :=
  ∃ before, bytes = before ++ rest ∧ before.length = pos

theorem Stands.start (bytes : List UInt8) : Stands bytes 0 bytes := ⟨[], rfl, rfl⟩

theorem Stands.drop {bytes rest : List UInt8} {pos : Nat} (stands : Stands bytes pos rest) :
    bytes.drop pos = rest := by
  obtain ⟨before, whole, length⟩ := stands
  rw [whole, ← length, List.drop_left]

theorem Stands.length {bytes rest : List UInt8} {pos : Nat} (stands : Stands bytes pos rest) :
    bytes.length = pos + rest.length := by
  obtain ⟨before, whole, length⟩ := stands
  rw [whole, List.length_append, length]

theorem Stands.advance {bytes chunk rest : List UInt8} {pos : Nat}
    (stands : Stands bytes pos (chunk ++ rest)) : Stands bytes (pos + chunk.length) rest := by
  obtain ⟨before, whole, length⟩ := stands
  exists before ++ chunk
  constructor
  · rw [whole, List.append_assoc]
  · rw [List.length_append, length]

end Purrdf.Parquet
