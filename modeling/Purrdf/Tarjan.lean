import Mathlib.Algebra.GroupWithZero.Nat
import Mathlib.Logic.Function.Basic
import Mathlib.Logic.Relation

/-!
# Strongly connected components

Tarjan's walk without recursion. A work frame is a node and the rest of its edges;
a finished node hands its low link to the frame below it, and a component is cut off
the stack down to its root. Arrays over the node space are functions, and an unset
index is `none`. The walk takes at most two turns for each node and one more.
-/

namespace Purrdf.Graph

abbrev Adjacency := List (List Nat)

inductive GraphError where
  | invalidEdge (source target : Nat)
deriving DecidableEq

def Adjacency.edges (adjacency : Adjacency) (node : Nat) : List Nat := adjacency.getD node []

def validateRow (len source : Nat) : List Nat → Except GraphError Unit
  | [] => .ok ()
  | target :: rest =>
    if len ≤ target then .error (.invalidEdge source target) else validateRow len source rest

def validateRows (len : Nat) : Nat → List (List Nat) → Except GraphError Unit
  | _, [] => .ok ()
  | source, row :: rows =>
    match validateRow len source row with
    | .error refusal => .error refusal
    | .ok () => validateRows len (source + 1) rows

def validateAdjacency (adjacency : Adjacency) : Except GraphError Unit :=
  validateRows adjacency.length 0 adjacency

/-! ### The walk -/

/-- The state of the walk; the stacks have their tops first. `emitted` are the components
handed out so far, in order, each with its root first. -/
structure Walk where
  index : Nat → Option Nat
  low : Nat → Nat
  onStack : Nat → Bool
  stack : List Nat
  nextIndex : Nat
  work : List (Nat × List Nat)
  emitted : List (List Nat)

namespace Walk

def start : Walk where
  index _ := none
  low _ := 0
  onStack _ := false
  stack := []
  nextIndex := 0
  work := []
  emitted := []

def enter (edges : Nat → List Nat) (node : Nat) (walk : Walk) : Walk where
  index := Function.update walk.index node (some walk.nextIndex)
  low := Function.update walk.low node walk.nextIndex
  onStack := Function.update walk.onStack node true
  stack := node :: walk.stack
  nextIndex := walk.nextIndex + 1
  work := (node, edges node) :: walk.work
  emitted := walk.emitted

/-- The low link after the edges of a frame up to the first to an unvisited child, and that
child with the edges after it. -/
def scan (walk : Walk) : Nat → List Nat → Nat × Option (Nat × List Nat)
  | low, [] => (low, none)
  | low, child :: rest =>
    match walk.index child with
    | none => (low, some (child, rest))
    | some index => walk.scan (if walk.onStack child then min low index else low) rest

def cut (node : Nat) : List Nat → List Nat × List Nat
  | [] => ([], [])
  | top :: below =>
    if top = node then ([top], below)
    else
      let (component, rest) := cut node below
      (top :: component, rest)

/-- The low links once a finished node has handed its own to the frame below. -/
def handOver (node : Nat) (walk : Walk) : List (Nat × List Nat) → Nat → Nat
  | [] => walk.low
  | (parent, _) :: _ => Function.update walk.low parent (min (walk.low parent) (walk.low node))

/-- Close the frame of a finished node above `frames`. -/
def finish (node : Nat) (frames : List (Nat × List Nat)) (walk : Walk) : Walk :=
  let low := walk.handOver node frames
  if some (low node) = walk.index node then
    let (component, below) := cut node walk.stack
    { walk with
      low := low
      work := frames
      onStack := component.foldl (fun onStack member => Function.update onStack member false)
        walk.onStack
      stack := below
      emitted := walk.emitted ++ [component.reverse] }
  else { walk with low := low, work := frames }

def entered (edges : Nat → List Nat) (walk : Walk) : Option Nat → Walk
  | some node => walk.enter edges node
  | none => walk

/-- A turn of the loop: where it goes on and what it enters then, or `none` where no frame
is left. -/
def turn (edges : Nat → List Nat) (pending : Option Nat) (walk : Walk) :
    Walk × Option (Option Nat) :=
  let walk := walk.entered edges pending
  match walk.work with
  | [] => (walk, none)
  | (node, rest) :: frames =>
    match walk.scan (walk.low node) rest with
    | (low, some (child, rest)) =>
      ({ walk with low := Function.update walk.low node low, work := (node, rest) :: frames },
        some (some child))
    | (low, none) =>
      (finish node frames { walk with low := Function.update walk.low node low },
        some none)

/-- Turns until no frame is left, or `none` out of fuel. -/
def run (edges : Nat → List Nat) : Nat → Option Nat → Walk → Option Walk
  | 0, _, _ => none
  | fuel + 1, pending, walk =>
    match walk.turn edges pending with
    | (walk, none) => some walk
    | (walk, some pending) => run edges fuel pending walk

def roots (edges : Nat → List Nat) (fuel : Nat) : List Nat → Walk → Option Walk
  | [], walk => some walk
  | root :: rest, walk =>
    match walk.index root with
    | some _ => roots edges fuel rest walk
    | none =>
      match walk.run edges fuel (some root) with
      | none => none
      | some walk => roots edges fuel rest walk

end Walk

/-- The components in the order they are emitted, each with its root first. -/
def tarjan (adjacency : Adjacency) : Option (List (List Nat)) :=
  (Walk.start.roots adjacency.edges (2 * adjacency.length + 1) (List.range adjacency.length)).map
    Walk.emitted

def tarjanScc (adjacency : Adjacency) : Except GraphError (Option (List (List Nat))) :=
  match validateAdjacency adjacency with
  | .error refusal => .error refusal
  | .ok () => .ok ((tarjan adjacency).map fun components => components.map List.reverse)

def number (indexed : List Nat × Nat) (component : List Nat) : List Nat × Nat :=
  (component.foldl (fun index member => index.set member indexed.2) indexed.1, indexed.2 + 1)

def sccComponentIndex (adjacency : Adjacency) : Except GraphError (Option (List Nat)) :=
  match validateAdjacency adjacency with
  | .error refusal => .error refusal
  | .ok () =>
    .ok ((tarjan adjacency).map fun components =>
      (components.foldl number (List.replicate adjacency.length (2 ^ 64 - 1), 0)).1)

example : sccComponentIndex [[1], [0, 2], []] = .ok (some [1, 1, 0]) := rfl

end Purrdf.Graph
