import Purrdf.ParquetWorkspace

/-!
# Bit-packed runs

The miniblocks and packed groups of the value encodings, written by the shared integer
array without its frame and read back through the frame of its borrowed reader.
-/

namespace Purrdf.Parquet

open PackBits

def packedBytesLen (values width : Nat) : Outcome Nat :=
  if values * width < 2 ^ 64 ∧ divCeil (values * width) 8 ≤ maxBytes then
    return divCeil (values * width) 8
  else limit "packed values" (2 ^ 64 - 1) maxBytes

/-- The first wanted values of a packed run that stores a given number of them. -/
def unpack (bytes : List UInt8) (width stored wanted : Nat) : Outcome (List UInt64) :=
  if width = 0 then return List.replicate wanted 0
  else do
    let rounded ← add bytes.length 7
    let padded := rounded / 8 * 8
    let needed ← add 12 padded
    reserve 0 needed 1
    let framed := leBytes 8 stored ++ leBytes 4 width ++ bytes ++
      List.replicate (padded - bytes.length) 0
    match IntVectorRef.fromBytes framed with
    | .error (.refused cause) => refusal (.packed cause)
    | .error .panicked => .error .panicked
    | .ok packed => return (List.range wanted).map packed.get

def packBits (width : Nat) (values : List UInt64) : List UInt8 :=
  (values.foldl IntVector.push (.withWidth width)).packedBytes.take
    (divCeil (values.length * width) 8)

/-! ### What a packed run holds -/

end Purrdf.Parquet

/-!
## Delta-packed integers

Blocks of 128 wrapping differences over a minimum, in four miniblocks of their own widths.
The 32-bit reading, for lengths and prefixes, redoes the arithmetic in its own width.
-/

namespace Purrdf.Parquet

open PackBits

def minimumOf : List Int64 → Int64
  | [] => 0
  | delta :: deltas => deltas.foldl min delta

def adjustments (minimum : Int64) (chunk : List Int64) : List UInt64 :=
  chunk.map fun delta => (delta - minimum).toUInt64

def miniWidth (minimum : Int64) (chunk : List Int64) : Nat :=
  bitsFor ((adjustments minimum chunk).foldl max 0)

def checkedHeader (bits : Nat) (value : Int64) : Outcome Int64 :=
  if bits = 32 ∧ ¬(-2 ^ 31 ≤ value.toInt ∧ value.toInt < 2 ^ 31) then
    refusal (.integerRange value bits)
  else return value

def restore (bits : Nat) (minimum previous : Int64) (adjustment : UInt64) : Int64 :=
  if bits = 32 then
    (previous.toInt32 + (minimum.toInt32 + adjustment.toUInt32.toInt32)).toInt64
  else previous + minimum + adjustment.toInt64

def decodeMinis (bytes : List UInt8) (count bits miniLen : Nat) (first minimum : Int64) :
    List UInt8 → List Int64 → Nat → Outcome (List Int64 × Nat)
  | [], values, pos => return (values, pos)
  | width :: widths, values, pos =>
    if values.length = count then return (values, pos)
    else if bits < width.toNat then refusal (.bitWidth width.toNat bits)
    else do
      let length ← packedBytesLen miniLen width.toNat
      let (packed, pos) ← take bytes pos length
      let wanted := min miniLen (count - values.length)
      let unpacked ← unpack packed width.toNat miniLen wanted
      let values := unpacked.foldl (fun values adjustment =>
        values ++ [restore bits minimum (values.getLastD first) adjustment]) values
      decodeMinis bytes count bits miniLen first minimum widths values pos

def decodeBlocks (bytes : List UInt8) (count bits miniblocks miniLen : Nat) (first : Int64) :
    Nat → List Int64 → Nat → Outcome (List Int64 × Nat)
  | 0, values, pos => return (values, pos)
  | fuel + 1, values, pos =>
    if count ≤ values.length then return (values, pos)
    else do
      let (header, pos) ← varint bytes pos
      let minimum ← checkedHeader bits (zigzagDecode header)
      let (widths, pos) ← take bytes pos miniblocks
      let (values, pos) ← decodeMinis bytes count bits miniLen first minimum widths values pos
      decodeBlocks bytes count bits miniblocks miniLen first fuel values pos

/-- The integers at the start of a body, with the position after them. A block adds a value
at least, so the count is fuel enough. -/
def decodeIntegers (bytes : List UInt8) (count bits : Nat) : Outcome (List Int64 × Nat) := do
  let (block, pos) ← varint bytes 0
  let (miniblocks, pos) ← varint bytes pos
  if block = 0 ∨ block % 128 ≠ 0 ∨ miniblocks = 0 ∨ block % miniblocks ≠ 0 ∨
      block / miniblocks % 32 ≠ 0 then refusal (.deltaLayout block miniblocks)
  else do
    let (declared, pos) ← varint bytes pos
    if declared.toNat ≠ count then refusal (.valueCount declared.toNat count)
    else if maxBytes / 8 < count then limit "delta integer workspace" count (maxBytes / 8)
    else do
      let (header, pos) ← varint bytes pos
      let first ← checkedHeader bits (zigzagDecode header)
      reserve 0 count 8
      let values := if count = 0 then [] else [first]
      decodeBlocks bytes count bits miniblocks.toNat (block / miniblocks).toNat first count
        values pos

/-! ### Differences and their restoration -/

end Purrdf.Parquet
