import Mathlib.Data.Int.Bitwise
import Mathlib.Data.ZMod.Basic

/-!
# The lattice field transforms

The 256-coefficient transforms of two fields, in place over a bit-reversed table of root powers.
Which coefficients a turn of their loops meets depends on no coefficient.
-/

namespace Purrdf.Lattice

abbrev Poly := Vector Int 256

structure Params where
  modulus : Nat
  root : Nat
  minLength : Nat
  reverseBits : Nat
  inverseScale : Nat
deriving DecidableEq, Repr

def dsa : Params :=
  ⟨8380417, 1753, 1, 8, 8347681⟩

def kem : Params :=
  ⟨3329, 17, 2, 7, 3303⟩

/-- A result that must fit 32 bits. -/
def i32 (value : Int) : Option Int :=
  if -2 ^ 31 ≤ value ∧ value < 2 ^ 31 then some value else none

/-- A result that must fit 64 bits. -/
def u64 (value : Nat) : Option Nat :=
  if value < 2 ^ 64 then some value else none

def asU64 (value : Int) : Nat :=
  (value % 2 ^ 64).toNat

def asI32 (value : Nat) : Int :=
  Int.bmod value (2 ^ 32)

/-! ### Roots -/

/-- The eight bits of an index, the other way round. -/
def reverseByte (index : Nat) : Nat :=
  (List.range 8).foldl (fun reversed bit => 2 * reversed + index / 2 ^ bit % 2) 0

variable (params : Params)

def Params.bitReverse (index : Nat) : Nat :=
  reverseByte index >>> (8 - params.reverseBits)

def Params.rootPowerFrom : Nat → Nat → Nat → Nat → Nat
  | 0, _, value, _ => value
  | turns + 1, exponent, value, base =>
    if exponent = 0 then value
    else
      let value := if exponent % 2 = 1 then value * base % params.modulus else value
      Params.rootPowerFrom turns (exponent / 2) value (base * base % params.modulus)

def Params.rootPower (exponent : Nat) : Nat :=
  params.rootPowerFrom 16 exponent 1 params.root

def Params.zeta (index : Nat) : Nat :=
  params.rootPower (params.bitReverse index)

def Params.zetas : Poly :=
  Vector.ofFn fun index => (params.zeta index : Int)

/-! ### Arithmetic -/

def Params.borrow (value : Int) : Int :=
  Int.land (value >>> (31 : Nat)) params.modulus

def Params.add (a b : Int) : Option Int := do
  let sum ← i32 (a + b)
  let sum ← i32 (sum - params.modulus)
  i32 (sum + params.borrow sum)

def Params.sub (a b : Int) : Option Int := do
  let difference ← i32 (a - b)
  i32 (difference + params.borrow difference)

def Params.mul (a b : Int) : Option Int := do
  let product ← u64 (asU64 a * asU64 b)
  return asI32 (product % params.modulus)

def Params.canonical (value : Int) : Option Int :=
  i32 (value + params.borrow value)

/-! ### Loops -/

def store (poly : Poly) (place : Nat) (value : Int) : Option Poly :=
  if h : place < 256 then some (poly.set place value h) else none

def inPlace (operation : Nat → Int → Option Int) (poly : Poly) : Option Poly :=
  (List.range 256).foldlM (fun poly place => do
    let value ← poly[place]?
    let value ← operation place value
    store poly place value) poly

structure Turn where
  index : Nat
  offset : Nat
  length : Nat
deriving DecidableEq, Repr

def lengthsDown (minLength length : Nat) : List Nat :=
  if _h : 0 < length ∧ minLength ≤ length then
    length :: lengthsDown minLength (length / 2)
  else []
termination_by length

def lengthsUp (length : Nat) : List Nat :=
  if _h : 0 < length ∧ length < 256 then length :: lengthsUp (2 * length) else []
termination_by 256 - length

def blocks (length : Nat) : List (Nat × Nat) :=
  (List.range ((256 + 2 * length - 1) / (2 * length))).map fun block =>
    (block * (2 * length), length)

def turnsOf (index start length : Nat) : List Turn :=
  (List.range length).map fun t => ⟨index, start + t, length⟩

/-- The table is read upwards from its second entry, one entry for each block. -/
def Params.nttTurns : List Turn :=
  (((lengthsDown params.minLength 128).flatMap blocks).zipIdx 1).flatMap fun entry =>
    turnsOf entry.2 entry.1.1 entry.1.2

def Params.inverseTurns : List Turn :=
  (((lengthsUp params.minLength).flatMap blocks).zipIdx 1).flatMap fun entry =>
    turnsOf (256 / params.minLength - entry.2) entry.1.1 entry.1.2

def Params.nttTurn (poly : Poly) (turn : Turn) : Option Poly := do
  let root ← params.zetas[turn.index]?
  let right ← poly[turn.offset + turn.length]?
  let product ← params.mul root right
  let left ← poly[turn.offset]?
  let sum ← params.add left product
  let poly ← store poly turn.offset sum
  let difference ← params.sub left product
  store poly (turn.offset + turn.length) difference

def Params.inverseTurn (poly : Poly) (turn : Turn) : Option Poly := do
  let root ← params.zetas[turn.index]?
  let left ← poly[turn.offset]?
  let right ← poly[turn.offset + turn.length]?
  let sum ← params.add left right
  let poly ← store poly turn.offset sum
  let difference ← params.sub right left
  let product ← params.mul root difference
  store poly (turn.offset + turn.length) product

def Params.ntt (poly : Poly) : Option Poly := do
  let poly ← inPlace (fun _ => params.canonical) poly
  params.nttTurns.foldlM params.nttTurn poly

def Params.inverse (poly : Poly) : Option Poly := do
  let poly ← params.inverseTurns.foldlM params.inverseTurn poly
  inPlace (fun _ value => params.mul value params.inverseScale) poly

/-! ### Products of transforms -/

/-- The product in a field that splits: coefficient by coefficient. -/
def Params.pointwise (left right : Poly) : Option Poly :=
  inPlace (fun place a => do
    let b ← right[place]?
    params.mul a b) left

def quadraticRoot (index : Nat) : Nat :=
  kem.rootPower (2 * kem.bitReverse index + 1)

def quadraticRoots : Vector Int 128 :=
  Vector.ofFn fun index => (quadraticRoot index : Int)

def accumulatePair (a b : Poly) (out : Poly) (index : Nat) : Option Poly := do
  let gamma ← quadraticRoots[index]?
  let place := 2 * index
  let a₀ ← a[place]?
  let b₀ ← b[place]?
  let a₁ ← a[place + 1]?
  let b₁ ← b[place + 1]?
  let even ← kem.mul a₀ b₀
  let top ← kem.mul a₁ b₁
  let outer ← kem.mul a₀ b₁
  let inner ← kem.mul a₁ b₀
  let first ← out[place]?
  let folded ← kem.mul top gamma
  let low ← kem.add even folded
  let low ← kem.add first low
  let out ← store out place low
  let second ← out[place + 1]?
  let high ← kem.add outer inner
  let high ← kem.add second high
  store out (place + 1) high

def accumulateProduct (out a b : Poly) : Option Poly :=
  (List.range 128).foldlM (accumulatePair a b) out

end Purrdf.Lattice
