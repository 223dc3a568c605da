import Mathlib.Algebra.GroupWithZero.Nat
import Mathlib.Logic.Relation
import Mathlib.Data.Set.Finite.Basic
import Mathlib.Order.WellFounded

/-!
# Powers of a relation

`Power r k` is the `k`-fold composition of a relation with itself. A union of consecutive
powers that stops growing has stopped for good, an open union of powers is the closure of its
first level, and the power of a doubled exponent is the composition of two equal powers.
-/

namespace Purrdf.RelationPowers

open Relation

variable {α : Type} {r : α → α → Prop} {x y z : α}

/-- The pairs that `k` steps of `r` connect. -/
def Power (r : α → α → Prop) : Nat → α → α → Prop
  | 0 => Eq
  | k + 1 => Comp (Power r k) r

theorem power_one : Power r 1 x y ↔ r x y := by
  constructor
  · rintro ⟨mid, rfl, step⟩
    exact step
  · intro step
    exact ⟨x, rfl, step⟩

theorem power_add {j k : Nat} : Power r (j + k) x y ↔ ∃ mid, Power r j x mid ∧ Power r k mid y := by
  induction k generalizing y with
  | zero =>
    constructor
    · intro steps
      exact ⟨y, steps, rfl⟩
    · rintro ⟨mid, steps, rfl⟩
      exact steps
  | succ k ih =>
    constructor
    · rintro ⟨last, steps, step⟩
      obtain ⟨mid, first, second⟩ := ih.mp steps
      exact ⟨mid, first, last, second, step⟩
    · rintro ⟨mid, first, last, second, step⟩
      exact ⟨last, ih.mpr ⟨mid, first, second⟩, step⟩

theorem power_two_pow_succ {bit : Nat} :
    Power r (2 ^ (bit + 1)) x y ↔ ∃ mid, Power r (2 ^ bit) x mid ∧ Power r (2 ^ bit) mid y := by
  rw [Nat.pow_succ, Nat.mul_two]
  exact power_add

theorem power_flip {k : Nat} : Power (flip r) k x y ↔ Power r k y x := by
  induction k generalizing y with
  | zero => exact eq_comm
  | succ k ih =>
    constructor
    · rintro ⟨mid, steps, step⟩
      rw [Nat.add_comm]
      exact power_add.mpr ⟨mid, power_one.mpr step, ih.mp steps⟩
    · intro steps
      rw [Nat.add_comm] at steps
      obtain ⟨mid, step, steps⟩ := power_add.mp steps
      have last : r y mid := power_one.mp step
      exact ⟨mid, ih.mpr steps, last⟩

theorem exists_power_iff_reflTransGen : (∃ k, Power r k x y) ↔ ReflTransGen r x y := by
  constructor
  · rintro ⟨k, steps⟩
    induction k generalizing y with
    | zero => exact steps ▸ .refl
    | succ k ih =>
      obtain ⟨mid, steps, step⟩ := steps
      exact (ih steps).tail step
  · intro steps
    induction steps with
    | refl => exact ⟨0, rfl⟩
    | tail _ step ih =>
      obtain ⟨k, steps⟩ := ih
      exact ⟨k + 1, _, steps, step⟩

/-- The union of the powers from `n` on is the first of them and what is reached from it. -/
theorem power_from {n : Nat} : (∃ k, n ≤ k ∧ Power r k x y) ↔
    ∃ mid, Power r n x mid ∧ (mid = y ∨ TransGen r mid y) := by
  constructor
  · rintro ⟨k, order, steps⟩
    obtain ⟨rest, rfl⟩ := Nat.exists_eq_add_of_le order
    obtain ⟨mid, first, second⟩ := power_add.mp steps
    refine ⟨mid, first, ?_⟩
    rcases reflTransGen_iff_eq_or_transGen.mp (exists_power_iff_reflTransGen.mp ⟨rest, second⟩)
      with same | more
    · exact .inl same.symm
    · exact .inr more
  · rintro ⟨mid, first, rest⟩
    have more : ReflTransGen r mid y := by
      rcases rest with rfl | more
      · exact .refl
      · exact more.to_reflTransGen
    obtain ⟨k, second⟩ := exists_power_iff_reflTransGen.mpr more
    exact ⟨n + k, Nat.le_add_right n k, power_add.mpr ⟨mid, first, second⟩⟩

/-- A power that adds nothing to the powers before it, from some power on, ends their growth. -/
theorem power_settled {n k : Nat}
    (settled : ∀ y, Power r k x y → ∃ j, n ≤ j ∧ j < k ∧ Power r j x y) {later : Nat}
    (after : k ≤ later) (steps : Power r later x y) : ∃ j, n ≤ j ∧ j < k ∧ Power r j x y := by
  induction later generalizing y with
  | zero =>
    have same : k = 0 := Nat.le_zero.mp after
    exact settled y (same ▸ steps)
  | succ later ih =>
    rcases Nat.eq_or_lt_of_le after with same | before
    · exact settled y (same ▸ steps)
    · obtain ⟨mid, steps, step⟩ := steps
      obtain ⟨j, low, high, steps⟩ := ih (Nat.lt_succ_iff.mp before) steps
      rcases Nat.eq_or_lt_of_le (Nat.succ_le_of_lt high) with last | inside
      · exact settled y (last ▸ ⟨mid, steps, step⟩)
      · exact ⟨j + 1, Nat.le_succ_of_le low, inside, mid, steps, step⟩

def Composed : List (α → α → Prop) → α → α → Prop
  | [] => Eq
  | first :: rest => Comp first (Composed rest)

def United (relations : List (α → α → Prop)) (x y : α) : Prop :=
  ∃ r ∈ relations, r x y

theorem composed_append {relations more : List (α → α → Prop)} :
    Composed (relations ++ more) x y ↔ ∃ mid, Composed relations x mid ∧ Composed more mid y := by
  induction relations generalizing x with
  | nil =>
    constructor
    · intro steps
      exact ⟨x, rfl, steps⟩
    · rintro ⟨_, rfl, steps⟩
      exact steps
  | cons first rest ih =>
    constructor
    · rintro ⟨next, step, steps⟩
      obtain ⟨mid, left, right⟩ := ih.mp steps
      exact ⟨mid, ⟨next, step, left⟩, right⟩
    · rintro ⟨mid, ⟨next, step, left⟩, right⟩
      exact ⟨next, step, ih.mpr ⟨mid, left, right⟩⟩

theorem composed_flip {relations : List (α → α → Prop)} :
    Composed (relations.map flip).reverse x y ↔ Composed relations y x := by
  induction relations generalizing x y with
  | nil => exact eq_comm
  | cons first rest ih =>
    rw [List.map_cons, List.reverse_cons, composed_append]
    constructor
    · rintro ⟨mid, steps, last, step, rfl⟩
      exact ⟨mid, step, ih.mp steps⟩
    · rintro ⟨mid, step, steps⟩
      exact ⟨mid, ih.mpr steps, y, step, rfl⟩

/-! ### Relations that move inside a set -/

/-- A step that leaves its start stays inside `u`. -/
def Local (u : Set α) (r : α → α → Prop) : Prop :=
  ∀ x y, r x y → x = y ∨ x ∈ u ∧ y ∈ u

namespace Local

variable {u : Set α} {r' : α → α → Prop}

theorem flip (inside : Local u r) : Local u (flip r) := by
  intro x y step
  rcases inside y x step with same | ⟨left, right⟩
  · exact .inl same.symm
  · exact .inr ⟨right, left⟩

theorem comp (inside : Local u r) (inside' : Local u r') : Local u (Comp r r') := by
  rintro x y ⟨mid, first, second⟩
  rcases inside x mid first with rfl | ⟨left, middle⟩
  · exact inside' x y second
  · rcases inside' mid y second with rfl | ⟨_, right⟩
    · exact .inr ⟨left, middle⟩
    · exact .inr ⟨left, right⟩

theorem power (inside : Local u r) (k : Nat) : Local u (Power r k) := by
  induction k with
  | zero =>
    intro x y same
    exact .inl same
  | succ k ih => exact ih.comp inside

theorem reflTransGen (inside : Local u r) : Local u (ReflTransGen r) := by
  intro x y steps
  obtain ⟨k, steps⟩ := exists_power_iff_reflTransGen.mpr steps
  exact inside.power k x y steps

theorem transGen (inside : Local u r) : Local u (TransGen r) := by
  intro x y steps
  exact inside.reflTransGen x y steps.to_reflTransGen

theorem composed {relations : List (α → α → Prop)} (inside : ∀ r ∈ relations, Local u r) :
    Local u (Composed relations) := by
  induction relations with
  | nil =>
    intro x y same
    exact .inl same
  | cons first rest ih =>
    have here := inside first List.mem_cons_self
    exact here.comp (ih fun r member => inside r (List.mem_cons_of_mem first member))

end Local

end Purrdf.RelationPowers
