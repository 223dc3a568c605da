import Purrdf.CommonPrefix
import Purrdf.ParquetBlocks
import Purrdf.ParquetPlain

/-!
# Delta encodings of pages

The delta encodings of both physical types, with byte arrays as lengths and bytes or as
prefixes shared with the value before and suffixes.
-/

namespace Purrdf.Parquet

open PackBits Deflate

def length (value : Int64) : Outcome Nat :=
  if 0 ≤ value.toInt ∧ value.toInt < 2 ^ 31 then return value.toInt.toNat
  else refusal (.length value)

/-- Rebuild the byte arrays from prefix and suffix lengths. The previous value is a range
of what is rebuilt so far. -/
def decodeEntries (bytes : List UInt8) :
    List (Int64 × Int64) → List UInt8 → Nat × Nat → Nat → Outcome (List UInt8 × Nat)
  | [], out, _, pos => return (out, pos)
  | (shared, suffix) :: entries, out, previous, pos =>
    let available := previous.2 - previous.1
    if shared.toInt < 0 ∨ available < shared.toInt.toNat then
      refusal (.prefixLength shared available)
    else do
      let suffixLen ← length suffix
      let (suffix, pos) ← take bytes pos suffixLen
      let shared := shared.toInt.toNat
      let total ← add shared suffix.length
      if maxBytes < total then limit "BYTE_ARRAY length" total maxBytes
      else do
        let body ← add out.length 4
        let stop ← add body total
        if maxBytes < stop then limit "decoded PLAIN byte arrays" stop maxBytes
        else do
          reserve out.length (stop - out.length) 1
          let start := out.length + 4
          let out := out ++ leBytes 4 total ++ (out.drop previous.1).take shared ++ suffix
          decodeEntries bytes entries out (start, out.length) pos

def withPrefixes : Option (List Int64) → List Int64 → List (Int64 × Int64)
  | none, lengths => lengths.map fun suffix => (0, suffix)
  | some prefixes, lengths => prefixes.zip lengths

def decodeBytes (bytes : List UInt8) (count : Nat) (prefixes : Option (List Int64)) :
    Outcome (List UInt8) := do
  let (lengths, pos) ← decodeIntegers bytes count 32
  let (out, pos) ← decodeEntries bytes (withPrefixes prefixes lengths) [] (0, 0) pos
  finish pos bytes
  return out

/-! ### Byte arrays -/

/-- Values as prefixes shared with the value before and suffixes. -/
inductive Shares : List UInt8 → List (List UInt8) → List (Nat × List UInt8) → Prop where
  | nil (previous : List UInt8) : Shares previous [] []
  | cons {previous value : List UInt8} {values : List (List UInt8)} {shared : Nat}
      {coded : List (Nat × List UInt8)} (agree : Agree previous value shared)
      (rest : Shares value values coded) :
      Shares previous (value :: values) ((shared, value.drop shared) :: coded)

theorem Shares.short {previous : List UInt8} {values : List (List UInt8)}
    {coded : List (Nat × List UInt8)} (shares : Shares previous values coded)
    (short : ∀ value ∈ values, value.length < 2 ^ 31) :
    coded.length = values.length ∧
      ∀ entry ∈ coded, entry.1 < 2 ^ 31 ∧ entry.2.length < 2 ^ 31 := by
  induction shares with
  | nil previous =>
    constructor
    · rfl
    · intro entry member
      cases member
  | @cons previous value values shared coded agree rest ih =>
    have first := short value List.mem_cons_self
    obtain ⟨count, all⟩ := ih fun other member => short other (List.mem_cons_of_mem _ member)
    constructor
    · rw [List.length_cons, List.length_cons, count]
    · intro entry member
      rcases List.mem_cons.mp member with rfl | member
      · have inside := agree.right
        dsimp only
        rw [List.length_drop]
        omega
      · exact all entry member

/-! ### Byte array pages -/

variable {plain : List UInt8} {values : List (List UInt8)}

end Purrdf.Parquet
