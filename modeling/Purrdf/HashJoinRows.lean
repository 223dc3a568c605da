import Mathlib.Data.List.Forall2
import Purrdf.JoinIndex
import Purrdf.PartialMapping

/-!
# The hash join

Every left row probes the index of the right side and emits its merged matches. One lane stops
before the row that a cell ceiling forbids; the other runs chunks of left rows and concatenates
their rows in order.
-/

namespace Purrdf.HashJoin

variable {Id Atom V : Type} [DecidableEq Id] [DecidableEq Atom] [DecidableEq V]

def fillCell (rightToOut : List Nat) (row : Row Id) (entry : Cell Id × Nat) :
    Option (Row Id) := do
  let output ← rightToOut[entry.2]?
  let current ← row[output]?
  if current.isNone then return row.set output entry.1 else return row

def mergeAdmitted (left right : Row Id) (leftLen : Nat) (rightToOut : List Nat) (width : Nat) :
    Option (Row Id) := do
  guard (leftLen ≤ width ∧ left.length = leftLen)
  let row := left ++ (List.replicate width none).drop leftLen
  right.zipIdx.foldlM (fillCell rightToOut) row

/-! ### The two lanes -/

structure Stopped (Id : Type) where
  rows : List (Row Id)
  observed : Nat

/-- A lane may stop early; `none` beneath is a panic. -/
abbrev Lane (Id α : Type) := ExceptT (Stopped Id) Option α

structure JoinPlan (Id Atom : Type) where
  leftLen : Nat
  outLen : Nat
  rightToOut : List Nat
  shared : List (Nat × Nat)
  keyed : JoinIndex Id Atom
  wild : List Nat
  rightRows : List (Row Id)

namespace JoinPlan

def merged (plan : JoinPlan Id Atom) (left right : Row Id) : Option (Row Id) :=
  mergeAdmitted left right plan.leftLen plan.rightToOut plan.outLen

end JoinPlan

def Lane.finish (lane : Lane Id (List (Row Id))) : Option (List (Row Id) × Option Nat) := do
  match ← lane.run with
  | .ok rows => return (rows, none)
  | .error stopped => return (stopped.rows, some stopped.observed)

end Purrdf.HashJoin

/-!
## The rows of a hash join

A left row meets its partners by one of three routes, and each partner by exactly one of them. The
bounded lane returns a prefix of the rows that the free lane returns.
-/

namespace Purrdf.HashJoin

open PartialMapping

variable {Id Atom V : Type} [DecidableEq Id] [DecidableEq Atom] [DecidableEq V]

/-! ### The partners of a left row -/

section
variable {α σ : Type} {m : Type → Type} [Monad m]

end

def filled (rightToOut : List Nat) (row : Row Id) (entries : List (Cell Id × Nat))
    (output : Nat) : Cell Id :=
  (cellAt row output).or
    (entries.findSome? fun entry => if rightToOut[entry.2]? = some output then entry.1 else none)

end Purrdf.HashJoin
