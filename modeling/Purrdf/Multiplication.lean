import Purrdf.Division
import Purrdf.Ntt

/-!
# Products

Schoolbook products of small factors, pieces of a long one, two halves, three parts, and the exact
transform. The product that a route uses for its own parts is a parameter, with which `mulFast`
closes the loop.
-/

namespace Purrdf.BigInteger

open Limbs

def karatsubaThreshold : Nat := 32

def toom3Threshold : Nat := 1024

def propagate : Nat → Mag → Option Mag
  | carry, [] => if carry = 0 then some [] else none
  | carry, slot :: output =>
    if carry = 0 then some (slot :: output)
    else
      let sum := slot.toNat + carry
      (propagate (sum / radix) output).map (UInt64.ofNat sum :: ·)

def addScaledFrom (factor : Nat) : Nat → Mag → Mag → Option Mag
  | carry, output, [] => propagate carry output
  | carry, slot :: output, word :: words =>
    let sum := slot.toNat + word.toNat * factor + carry
    (addScaledFrom factor (sum / radix) output words).map (UInt64.ofNat sum :: ·)
  | _, [], _ :: _ => none

def addScaledMagnitudeAt (output : Mag) (offset : Nat) (words : Mag) (factor : Nat) : Option Mag :=
  if output.length < offset + words.length then none
  else (addScaledFrom factor 0 (output.drop offset) words).map (output.take offset ++ ·)

def mulPieces (product : BigInt → BigInt → Option BigInt) (short : BigInt) :
    Nat → List Mag → Mag → Option Mag
  | _, [], output => some output
  | pieceIndex, words :: pieces, output =>
    (product (BigInt.fromParts false words) short.abs).bind fun piece =>
      (addScaledMagnitudeAt output (pieceIndex * short.limbLen) piece.magnitude 1).bind
        (mulPieces product short (pieceIndex + 1) pieces)

def mulChunked (product : BigInt → BigInt → Option BigInt) (long short : BigInt) (negative : Bool) :
    Option BigInt :=
  (mulPieces product short 0 (chunks short.limbLen long.magnitude)
    (List.replicate (long.limbLen + short.limbLen + 1) 0)).map fun output =>
      BigInt.fromParts negative (magTrim output)

def lowPart (split : Nat) (n : BigInt) : BigInt :=
  BigInt.fromParts false (n.magnitude.take split)

def highPart (split : Nat) (n : BigInt) : BigInt :=
  BigInt.fromParts false (n.magnitude.drop split)

def mulKaratsuba (product : BigInt → BigInt → Option BigInt) (split : Nat) (n other : BigInt) :
    Option BigInt := do
  let a0 := lowPart split n
  let a1 := highPart split n
  let b0 := lowPart split other
  let b1 := highPart split other
  let z0 ← product a0 b0
  let z2 ← product a1 b1
  let middleProduct ← product (a0.add a1) (b0.add b1)
  let z1 := (middleProduct.sub z0).sub z2
  let shift := split * 64
  let shiftedMiddle ← magShl z1.magnitude shift
  let shiftedHigh ← magShl z2.magnitude (shift * 2)
  let lower := z0.add (BigInt.fromParts false shiftedMiddle)
  let magnitude := lower.add (BigInt.fromParts false shiftedHigh)
  return magnitude.withSign (n.negative != other.negative)

/-! ### Three parts -/

def evalPositivePoint (c0 c1 c2 : BigInt) (point : Nat) : Option BigInt := do
  let length := max (max c0.limbLen c1.limbLen) c2.limbLen + 2
  let output ← addScaledMagnitudeAt (List.replicate length 0) 0 c0.magnitude 1
  let output ← addScaledMagnitudeAt output 0 c1.magnitude point
  let output ← addScaledMagnitudeAt output 0 c2.magnitude (point * point)
  return BigInt.fromParts false (magTrim output)

/-- Exact division by two or three. Neither divisor reaches the block route of the division. -/
def exactDivSmall (n : BigInt) (divisor : Nat) : Option BigInt :=
  if divisor = 2 then
    if ((n.magnitude.head?).getD 0) &&& 1 = 0 then n.shr 1 else none
  else
    ((n.divRemBy (fun _ _ => none) (BigInt.fromU64 (UInt64.ofNat divisor))).bind id).bind
      fun divided => if divided.2.isZero then some divided.1 else none

def middlePart (width : Nat) (n : BigInt) : BigInt :=
  BigInt.fromParts false ((n.magnitude.take (width * 2)).drop width)

def addCoefficients (width : Nat) : Nat → List BigInt → Mag → Option Mag
  | _, [], output => some output
  | power, coefficient :: coefficients, output =>
    if coefficient.negative then none
    else
      (addScaledMagnitudeAt output (width * power) coefficient.magnitude 1).bind
        (addCoefficients width (power + 1) coefficients)

/-- The coefficients of the product of two chunked factors, from five of its values. -/
def interpolate (r0 r4 p1 pm1 p2 : BigInt) : Option (List BigInt) := do
  let even ← exactDivSmall (p1.add pm1) 2
  let odd ← exactDivSmall (p1.sub pm1) 2
  let r2 := (even.sub r0).sub r4
  let r4Times16 ← r4.shl 4
  let p2Odd ← exactDivSmall ((p2.sub r0).sub r4Times16) 2
  let r2Times2 ← r2.shl 1
  let r3 ← exactDivSmall ((p2Odd.sub r2Times2).sub odd) 3
  let r1 := odd.sub r3
  return [r0, r1, r2, r3, r4]

def mulToom3 (product : BigInt → BigInt → Option BigInt) (n other : BigInt) : Option BigInt := do
  let width := (max n.limbLen other.limbLen + 2) / 3
  let a0 := lowPart width n
  let a1 := middlePart width n
  let a2 := highPart (width * 2) n
  let b0 := lowPart width other
  let b1 := middlePart width other
  let b2 := highPart (width * 2) other
  let r0 ← product a0 b0
  let r4 ← product a2 b2
  let left1 ← evalPositivePoint a0 a1 a2 1
  let right1 ← evalPositivePoint b0 b1 b2 1
  let p1 ← product left1 right1
  let pm1 ← product ((a0.sub a1).add a2) ((b0.sub b1).add b2)
  let left2 ← evalPositivePoint a0 a1 a2 2
  let right2 ← evalPositivePoint b0 b1 b2 2
  let p2 ← product left2 right2
  let coefficients ← interpolate r0 r4 p1 pm1 p2
  let output ← addCoefficients width 0 coefficients
    (List.replicate (n.limbLen + other.limbLen) 0)
  return BigInt.fromParts (n.negative != other.negative) (magTrim output)

def mulFast : Nat → BigInt → BigInt → Option BigInt
  | 0, _, _ => none
  | calls + 1, n, other =>
    let shorter := min n.limbLen other.limbLen
    let longer := max n.limbLen other.limbLen
    if shorter < karatsubaThreshold then n.mul other
    else if toom3Threshold ≤ shorter ∧ (longer + 2) / 3 * 2 < shorter then
      match Ntt.selectedLength n.limbLen other.limbLen with
      | some length =>
        (Ntt.product n.magnitude other.magnitude length).map
          (BigInt.fromParts (n.negative != other.negative))
      | none => mulToom3 (mulFast calls) n other
    else
      let long := if other.limbLen ≤ n.limbLen then n else other
      let short := if other.limbLen ≤ n.limbLen then other else n
      if short.limbLen ≤ longer / 2 then
        mulChunked (mulFast calls) long short (n.negative != other.negative)
      else mulKaratsuba (mulFast calls) (longer / 2) n other

/-- The product. Nested calls have shorter factors. -/
def mulFastUsing (n other : BigInt) : Option BigInt :=
  mulFast (max n.limbLen other.limbLen + 1) n other

end Purrdf.BigInteger
