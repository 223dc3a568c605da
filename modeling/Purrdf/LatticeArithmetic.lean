import Purrdf.Lattice
import Purrdf.RemainderTree

/-!
# The root tables

The entries of a table stand at the nodes of a remainder tree: each one is a square root of what
its parent splits off, and a level read backwards holds the negated inverses.
-/

namespace Purrdf.Lattice

variable (params : Params)

/-- What a node's block is a remainder by: `X ^ length` minus this number. -/
def Params.node (index : Nat) : Nat :=
  if index = 1 then params.modulus - 1
  else if index % 2 = 0 then params.zeta (index / 2)
  else params.modulus - params.zeta (index / 2)

/-- The facts about the constants that the transforms need. -/
structure Sound (levels : Nat) : Prop where
  size : 2 ^ levels * params.minLength = 256
  some : 1 < params.modulus
  small : params.modulus < 2 ^ 30
  square : ∀ index < 2 ^ levels, 0 < index →
    params.zeta index * params.zeta index % params.modulus = params.node index % params.modulus
  mirror : ∀ level < levels, ∀ block < 2 ^ level,
    (params.zeta (2 ^ level + block) * params.zeta (2 ^ (level + 1) - 1 - block) + 1) %
      params.modulus = 0
  reduced : params.inverseScale < params.modulus
  scale : params.inverseScale * 2 ^ levels % params.modulus = 1

set_option maxRecDepth 4000 in
theorem dsa_sound : Sound dsa 8 := by
  constructor <;> decide +kernel

theorem kem_sound : Sound kem 7 := by
  constructor <;> decide +kernel

theorem quadraticRoot_eq :
    ∀ index < 128, quadraticRoot index % 3329 = kem.node (128 + index) % 3329 := by
  decide +kernel

end Purrdf.Lattice

/-!
## The branch-free arithmetic

Sums, differences and products of reduced coefficients are reduced, and nothing overflows.
-/

namespace Purrdf.Lattice

variable {params : Params} {levels : Nat}

def InRange (params : Params) (value : Int) : Prop :=
  0 ≤ value ∧ value < params.modulus

def residue (params : Params) (value : Int) : ZMod params.modulus :=
  value

/-- A computation gives the reduced coefficient of a residue. -/
def Yields (params : Params) (result : Option Int) (value : ZMod params.modulus) : Prop :=
  ∃ c, result = some c ∧ InRange params c ∧ residue params c = value

theorem i32_eq (value : Int) (hlow : -2 ^ 31 ≤ value) (hhigh : value < 2 ^ 31) :
    i32 value = some value :=
  if_pos ⟨hlow, hhigh⟩

theorem u64_eq {value : Nat} (hvalue : value < 2 ^ 64) : u64 value = some value :=
  if_pos hvalue

theorem borrow_eq {value : Int} (hlow : -2 ^ 31 ≤ value) (hhigh : value < 2 ^ 31) :
    params.borrow value = if value < 0 then (params.modulus : Int) else 0 := by
  unfold Params.borrow
  rw [Int.shiftRight_eq_div_pow]
  split
  · have hsign : value / ((2 ^ 31 : Nat) : Int) = -1 := by omega
    rw [hsign]
    change ((params.modulus.ldiff 0 : Nat) : Int) = params.modulus
    simp [Nat.ldiff]
  · have hsign : value / ((2 ^ 31 : Nat) : Int) = 0 := by omega
    rw [hsign]
    change ((0 &&& params.modulus : Nat) : Int) = 0
    simp

theorem Sound.small_cast (hsound : Sound params levels) : (params.modulus : Int) < 2 ^ 30 := by
  exact_mod_cast hsound.small

theorem canonical_spec (hsound : Sound params levels) (value : Int)
    (hlow : -(params.modulus : Int) ≤ value) (hhigh : value < params.modulus) :
    Yields params (i32 (value + params.borrow value)) (residue params value) := by
  have hsmall := hsound.small_cast
  rw [borrow_eq (by omega) (by omega)]
  split
  · refine ⟨_, i32_eq _ (by omega) (by omega), ⟨by omega, by omega⟩, ?_⟩
    simp [residue]
  · refine ⟨_, i32_eq _ (by omega) (by omega), ⟨by omega, by omega⟩, ?_⟩
    simp [residue]

theorem add_spec (hsound : Sound params levels) {a b : Int} (ha : InRange params a)
    (hb : InRange params b) :
    Yields params (params.add a b) (residue params a + residue params b) := by
  obtain ⟨ha, ha'⟩ := ha
  obtain ⟨hb, hb'⟩ := hb
  have hsmall := hsound.small_cast
  have hspec := canonical_spec hsound (a + b - params.modulus) (by omega) (by omega)
  simp only [Params.add, i32_eq (a + b) (by omega) (by omega), Option.bind_eq_bind,
    Option.bind_some, i32_eq (a + b - params.modulus) (by omega) (by omega)]
  simpa [residue] using hspec

theorem sub_spec (hsound : Sound params levels) {a b : Int} (ha : InRange params a)
    (hb : InRange params b) :
    Yields params (params.sub a b) (residue params a - residue params b) := by
  obtain ⟨ha, ha'⟩ := ha
  obtain ⟨hb, hb'⟩ := hb
  have hsmall := hsound.small_cast
  have hspec := canonical_spec hsound (a - b) (by omega) (by omega)
  rw [Params.sub, i32_eq _ (by omega) (by omega), Option.bind_eq_bind, Option.bind_some]
  simpa [residue] using hspec

theorem mul_spec (hsound : Sound params levels) {a b : Int} (ha : InRange params a)
    (hb : InRange params b) :
    Yields params (params.mul a b) (residue params a * residue params b) := by
  obtain ⟨left, rfl⟩ := Int.eq_ofNat_of_zero_le ha.1
  obtain ⟨right, rfl⟩ := Int.eq_ofNat_of_zero_le hb.1
  have hleft : left < params.modulus := by exact_mod_cast ha.2
  have hright : right < params.modulus := by exact_mod_cast hb.2
  have hsmall := hsound.small
  have hword : ∀ word < params.modulus, asU64 word = word := by
    intro word hbound
    unfold asU64
    omega
  have hproduct : left * right < 2 ^ 64 := by
    calc left * right ≤ 2 ^ 30 * 2 ^ 30 := Nat.mul_le_mul (by omega) (by omega)
      _ < 2 ^ 64 := by decide
  have hmod : left * right % params.modulus < params.modulus := Nat.mod_lt _ (by omega)
  have hvalue : asI32 (left * right % params.modulus) =
      ((left * right % params.modulus : Nat) : Int) := by
    unfold asI32
    rw [Int.bmod_eq_of_le_mul_two]
    · omega
    · omega
  refine ⟨asI32 (left * right % params.modulus), ?_, ⟨?_, ?_⟩, ?_⟩
  · rw [Params.mul, hword left hleft, hword right hright, u64_eq hproduct]
    rfl
  · rw [hvalue]
    exact Int.natCast_nonneg _
  · rw [hvalue]
    exact_mod_cast hmod
  · rw [hvalue]
    simp [residue]

theorem rootPowerFrom_lt (hsome : 1 < params.modulus) (turns exponent base : Nat) {value : Nat}
    (hvalue : value < params.modulus) :
    params.rootPowerFrom turns exponent value base < params.modulus := by
  induction turns generalizing exponent value base with
  | zero => exact hvalue
  | succ turns ih =>
    rw [Params.rootPowerFrom]
    split
    · exact hvalue
    · apply ih
      split
      · exact Nat.mod_lt _ (by omega)
      · exact hvalue

theorem rootPower_inRange (hsound : Sound params levels) (exponent : Nat) :
    InRange params (params.rootPower exponent) :=
  ⟨Int.natCast_nonneg _, by exact_mod_cast rootPowerFrom_lt hsound.some _ _ _ hsound.some⟩

end Purrdf.Lattice
