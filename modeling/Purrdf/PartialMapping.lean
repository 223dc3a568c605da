import Mathlib.Data.List.Perm.Basic

/-!
# Partial mappings and their nested-loop join

A solution mapping gives some variables a value. Two mappings join when no variable has two
different values in them, and the joined mapping takes each value from the first that has one. The
join of two bags tries every pair.
-/

namespace Purrdf.PartialMapping

variable {V T : Type}

/-- No variable with a value in both has two different ones. -/
def Agree (first second : V → Option T) : Prop :=
  ∀ v x y, first v = some x → second v = some y → x = y

/-- Every value of `small` is a value of `large`. -/
def Extends (large small : V → Option T) : Prop := ∀ v x, small v = some x → large v = some x

variable {α β : Type}

end Purrdf.PartialMapping
