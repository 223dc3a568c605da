import Purrdf.Magnitude

/-!
# The exact transform

Radix-`2^16` convolution over `2^64 - 2^32 + 1`. A failure is an index outside its slice, a
coefficient that overflows its word, or a carry out of the result.
-/

namespace Purrdf.BigInteger.Ntt

open Limbs

def threshold : Nat := 32768

def modulus : UInt64 := 0xFFFFFFFF00000001

def fold : UInt64 := 0xFFFFFFFF

def generator : UInt64 := 7

def maxLength : Nat := 2 ^ 32

def selectedLength (a b : Nat) : Option Nat :=
  if a < threshold ∨ b < threshold then none
  else if min a b ≤ (max a b + 2) / 3 * 2 then none
  else
    let length := nextPowerOfTwo ((a + b) * 4)
    if maxLength < length then none else some length

/-! ### The field -/

def add (a b : UInt64) : UInt64 :=
  let sum := a + b
  let sum := if radix ≤ a.toNat + b.toNat then sum + fold else sum
  if modulus ≤ sum then sum - modulus else sum

def subtract (a b : UInt64) : UInt64 :=
  let difference := a - b
  if a < b then difference - fold else difference

def multiply (a b : UInt64) : UInt64 :=
  let product := a.toNat * b.toNat
  let high := UInt64.ofNat (product / radix)
  let difference := UInt64.ofNat product - high >>> 32
  let low := if UInt64.ofNat product < high >>> 32 then difference - fold else difference
  add low ((high &&& fold) * fold)

def powerFrom (result value : UInt64) (exponent : Nat) : UInt64 :=
  if exponent = 0 then result
  else
    powerFrom (if exponent % 2 ≠ 0 then multiply result value else result)
      (if exponent / 2 ≠ 0 then multiply value value else value) (exponent / 2)
termination_by exponent
decreasing_by omega

def power (value : UInt64) (exponent : Nat) : UInt64 :=
  powerFrom 1 value exponent

/-! ### The transform -/

def nextReversed (bit reversed : Nat) : Nat :=
  if reversed &&& bit ≠ 0 then nextReversed (bit / 2) (reversed ^^^ bit) else reversed ^^^ bit
termination_by bit
decreasing_by
  have hbit : bit ≠ 0 := by
    rintro rfl
    simp_all
  omega

def swap (words : List UInt64) (i j : Nat) : Option (List UInt64) :=
  match words[i]?, words[j]? with
  | some x, some y => some ((words.set i y).set j x)
  | _, _ => none

def permuteFrom : Nat → Nat → Nat → List UInt64 → Option (List UInt64)
  | 0, _, _, words => some words
  | count + 1, index, reversed, words =>
    let reversed := nextReversed (words.length / 2) reversed
    (if index < reversed then swap words index reversed else some words).bind
      (permuteFrom count (index + 1) reversed)

def butterflyBlock (root : UInt64) :
    UInt64 → List UInt64 → List UInt64 → List UInt64 × List UInt64
  | factor, even :: left, odd :: right =>
    let value := multiply odd factor
    let rest := butterflyBlock root (multiply factor root) left right
    (add even value :: rest.1, subtract even value :: rest.2)
  | _, left, right => (left, right)

def stageBlocks (width : Nat) (root : UInt64) (words : List UInt64) : List UInt64 :=
  if width = 0 ∨ words.length < width then words
  else
    let block := butterflyBlock root 1 (words.take (width / 2))
      ((words.take width).drop (width / 2))
    block.1 ++ block.2 ++ stageBlocks width root (words.drop width)
termination_by words.length
decreasing_by
  simp only [List.length_drop]
  omega

def stagesFrom (generator : UInt64) : Nat → Nat → List UInt64 → List UInt64
  | 0, _, words => words
  | count + 1, stage, words =>
    let root := power generator ((modulus.toNat - 1) / 2 ^ stage)
    stagesFrom generator count (stage + 1) (stageBlocks (2 ^ stage) root words)

def transform (words : List UInt64) (inverse : Bool) : Option (List UInt64) :=
  (permuteFrom (words.length - 1) 1 0 words).map fun permuted =>
    let root := if inverse then power generator (modulus.toNat - 2) else generator
    let transformed := stagesFrom root (lowZeros 64 words.length) 1 permuted
    if inverse then
      let reciprocal := power (UInt64.ofNat words.length) (modulus.toNat - 2)
      transformed.map (multiply · reciprocal)
    else transformed

/-! ### The product -/

def digitsOf (word : UInt64) : List UInt64 :=
  [word &&& 0xFFFF, word >>> 16 &&& 0xFFFF, word >>> 32 &&& 0xFFFF, word >>> 48 &&& 0xFFFF]

def spread (words : Mag) (length : Nat) : List UInt64 :=
  let digits := (words.take (length / 4)).flatMap digitsOf
  digits ++ List.replicate (length - digits.length) 0

def gatherWord : UInt64 → UInt64 → Nat → List UInt64 → Option (UInt64 × UInt64)
  | word, carry, _, [] => some (word, carry)
  | word, carry, part, coefficient :: digits =>
    if coefficient.toNat + carry.toNat < radix then
      let value := coefficient + carry
      gatherWord (word ||| (value &&& 0xFFFF) <<< UInt64.ofNat (part * 16)) (value >>> 16)
        (part + 1) digits
    else none

def gather : Nat → UInt64 → List UInt64 → Option (List UInt64 × UInt64)
  | 0, carry, _ => some ([], carry)
  | count + 1, carry, coefficients =>
    if coefficients.length < 4 then some (List.replicate (count + 1) 0, carry)
    else
      (gatherWord 0 carry 0 (coefficients.take 4)).bind fun gathered =>
        (gather count gathered.2 (coefficients.drop 4)).map fun rest =>
          (gathered.1 :: rest.1, rest.2)

def product (a b : Mag) (length : Nat) : Option Mag :=
  (transform (spread a length) false).bind fun left =>
    (transform (spread b length) false).bind fun right =>
      (transform (List.zipWith multiply left right) true).bind fun coefficients =>
        (gather (a.length + b.length) 0 coefficients).bind fun gathered =>
          if gathered.2 ≠ 0 then none else some (magTrim gathered.1)

end Purrdf.BigInteger.Ntt
