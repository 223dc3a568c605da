import Purrdf.TermShift

/-!
# Unification over the term arena

Triangular substitutions, the unification core shared by the plain and the
order-sorted entry points, and the materialization of a substitution. A
metavariable's value is stored at its home depth, outside every binder: `whnf`
lifts it to the depth it is unfolded at and `bindMeta` lowers a candidate.

Recursion that follows bindings takes fuel; running out of it is a fault of its
own, never an answer.
-/

namespace Purrdf

open MetaTerm

variable {ρ : Type}

/-! ### Substitutions -/

/-- Bindings and declared sorts, indexed by metavariable and grown on demand. -/
structure Subst where
  bindings : List (Option NodeId) := []
  metaSort : List (Option NodeId) := []
deriving DecidableEq, Repr

namespace Subst

/-- Grow both lists to hold `slot`. -/
def ensure (s : Subst) (slot : Nat) : Except Fault Subst :=
  if slot + 1 < 2 ^ 64 then
    .ok {
      bindings := s.bindings ++ List.replicate (slot + 1 - s.bindings.length) none
      metaSort := s.metaSort ++ List.replicate (slot + 1 - s.metaSort.length) none
    }
  else .error .sizeOverflow

def bind (s : Subst) (metaId : MetaId) (node : NodeId) : Except Fault Subst := do
  let grown ← s.ensure metaId
  pure { grown with bindings := grown.bindings.set metaId (some node) }

def get (s : Subst) (metaId : MetaId) : Option NodeId := s.bindings[metaId]?.join

def declareMetaSort (s : Subst) (metaId : MetaId) (sort : NodeId) : Except Fault Subst := do
  let grown ← s.ensure metaId
  pure { grown with metaSort := grown.metaSort.set metaId (some sort) }

def sortOfMeta (s : Subst) (metaId : MetaId) : Option NodeId := s.metaSort[metaId]?.join

def isBound (s : Subst) (metaId : MetaId) : Bool := (s.get metaId).isSome

def resolve (dag : TermDag ρ) (s : Subst) : Nat → NodeId → Except Fault NodeId
  | 0, _ => .error .fuel
  | fuel + 1, current => do
      match ← dag.data current with
      | .metaVar metaId =>
        match s.get metaId with
        | some next => resolve dag s fuel next
        | none => pure current
      | _ => pure current

end Subst

/-- The outcome of a unification attempt. -/
inductive Unified where
  | ok
  | clash (left right : NodeId)
  | occurs (metaId : MetaId) (inNode : NodeId)
deriving DecidableEq, Repr

/-! ### Sorts -/

structure SortOrder where
  up : List (NodeId × List NodeId) := []
  sorts : List NodeId := []
deriving DecidableEq, Repr

namespace SortOrder

def leq (order : SortOrder) (a b : NodeId) : Bool :=
  a == b || (order.up.lookup a).any fun supers => supers.contains b

/-- The greatest lower bound of two sorts, when exactly one named sort is one. -/
def meet (order : SortOrder) (a b : NodeId) : Option NodeId :=
  let candidates := order.sorts.filter fun x => order.leq x a && order.leq x b
  let maximal := candidates.filter fun c => candidates.all fun x => order.leq x c
  match maximal with
  | [single] => some single
  | _ => none

end SortOrder

structure SortContext where
  order : SortOrder := {}
  termSorts : List (NodeId × NodeId) := []
  opResultSort : List (NodeId × NodeId) := []
deriving DecidableEq, Repr

def SortContext.sortOf (ctx : SortContext) (fuel : Nat) (dag : TermDag ρ) (s : Subst)
    (node : NodeId) : Except Fault (Option NodeId) := do
  let resolved ← s.resolve dag fuel node
  match ← dag.data resolved with
  | .rdf _ | .leaf _ | .free _ => pure (ctx.termSorts.lookup resolved)
  | .app op _ => pure (ctx.opResultSort.lookup op)
  | .metaVar metaId => pure (s.sortOfMeta metaId)
  | .bound _ _ | .binder _ _ _ => pure none

/-- `Iterator::any` for a fallible test: the first `true` ends the search. -/
def anyNode (test : NodeId → Except Fault Bool) : List NodeId → Except Fault Bool
  | [] => pure false
  | node :: nodes => do
      if ← test node then pure true else anyNode test nodes

/-- Whether the metavariable occurs in the node, following bindings. The cached
set answers alone when it lists no bound metavariable; it is sorted, so the
binary search in it is membership. -/
def occursThrough (s : Subst) (dag : TermDag ρ) (metaId : MetaId) :
    Nat → NodeId → Except Fault Bool
  | 0, _ => .error .fuel
  | fuel + 1, node => do
      let cached ← dag.freeMetaOf node
      if cached.all fun free => !s.isBound free then pure (cached.contains metaId)
      else
        match ← dag.data node with
        | .metaVar other =>
          if other = metaId then pure true
          else
            match s.get other with
            | some bound => occursThrough s dag metaId fuel bound
            | none => pure false
        | .app op args => do
            if ← occursThrough s dag metaId fuel op then pure true
            else anyNode (fun arg => occursThrough s dag metaId fuel arg) args
        | .binder op sorts body => do
            if ← occursThrough s dag metaId fuel op then pure true
            else if ← anyNode (fun sort => occursThrough s dag metaId fuel sort) sorts then
              pure true
            else occursThrough s dag metaId fuel body
        | .rdf _ | .leaf _ | .free _ | .bound _ _ => pure false

section

variable [DecidableEq ρ]

/-! ### The unification core -/

abbrev UnifyState (ρ : Type) := TermDag ρ × Subst

/-- Resolve a node through the substitution, lifting the solution of a
metavariable from its home depth to `depth`. -/
def whnf (fuel : Nat) (node : NodeId) (depth : UInt32) :
    Exec Fault (UnifyState ρ) NodeId := do
  let (dag, s) ← Exec.get
  let data ← Exec.lift (dag.data node)
  let resolved ← Exec.lift (s.resolve dag fuel node)
  let target ← Exec.lift (dag.data resolved)
  match data, target with
  | .metaVar _, .metaVar _ => pure resolved
  | .metaVar _, _ => Exec.onFst (shift resolved depth)
  | _, _ => pure resolved

/-- What the sort discipline says of binding `metaId` to `lowered`: a clash, or
the sort to carry over to the metavariable it is bound to. -/
def sortVerdict (ctx : SortContext) (fuel : Nat) (dag : TermDag ρ) (s : Subst)
    (metaId : MetaId) (lowered : NodeId) : Except Fault (Option (Option (MetaId × NodeId))) := do
  match ← dag.data lowered with
  | .metaVar other =>
    match s.sortOfMeta metaId, s.sortOfMeta other with
    | some mine, some theirs =>
      match ctx.order.meet mine theirs with
      | some glb => pure (some (some (other, glb)))
      | none => pure none
    | some mine, none => pure (some (some (other, mine)))
    | none, some theirs => pure (some (some (other, theirs)))
    | none, none => pure (some none)
  | _ => do
      let theirs ← ctx.sortOf fuel dag s lowered
      match s.sortOfMeta metaId, theirs with
      | some mine, some theirs =>
        if ctx.order.leq theirs mine then pure (some none) else pure none
      | _, _ => pure (some none)

/-- Bind the metavariable of `metaNode` to `t`, both met at `depth`, or say why
it cannot be bound. -/
def bindMeta (fuel : Nat) (metaId : MetaId) (metaNode t : NodeId) (depth : UInt32)
    (ctx : Option SortContext) : Exec Fault (UnifyState ρ) Unified := do
  let (dag, s) ← Exec.get
  let data ← Exec.lift (dag.data t)
  if data = .metaVar metaId then pure .ok
  else
    let occurring ← Exec.lift (occursThrough s dag metaId fuel t)
    if occurring then pure (.occurs metaId t)
    else
      match ← Exec.onFst (shiftDown t depth) with
      | none => pure (.clash metaNode t)
      | some lowered =>
        let (dag, s) ← Exec.get
        let verdict ← Exec.lift (
          match ctx with
          | none => .ok (some none)
          | some ctx => sortVerdict ctx fuel dag s metaId lowered)
        match verdict with
        | none => pure (.clash metaNode t)
        | some carried =>
          let bound ← Exec.lift (s.bind metaId lowered)
          let declared ← Exec.lift (
            match carried with
            | none => .ok bound
            | some (other, glb) => bound.declareMetaSort other glb)
          Exec.set (dag, declared)
          pure .ok

def unifyPairs (unify : NodeId → NodeId → Exec Fault (UnifyState ρ) Unified) :
    List (NodeId × NodeId) → Exec Fault (UnifyState ρ) Unified
  | [] => pure .ok
  | (a, b) :: pairs => do
      match ← unify a b with
      | .ok => unifyPairs unify pairs
      | failed => pure failed

def unifySpine (unify : NodeId → NodeId → Exec Fault (UnifyState ρ) Unified) (opA opB : NodeId)
    (childrenA childrenB : List NodeId) : Exec Fault (UnifyState ρ) Unified := do
  match ← unify opA opB with
  | .ok => unifyPairs unify (childrenA.zip childrenB)
  | failed => pure failed

def unifyApps (unify : NodeId → NodeId → Exec Fault (UnifyState ρ) Unified) (a b : NodeId)
    (opA : NodeId) (argsA : List NodeId) (opB : NodeId) (argsB : List NodeId) :
    Exec Fault (UnifyState ρ) Unified :=
  if opA ≠ opB ∨ argsA.length ≠ argsB.length then pure (.clash a b)
  else unifySpine unify opA opB argsA argsB

def unifyBinders (unify : UInt32 → NodeId → NodeId → Exec Fault (UnifyState ρ) Unified)
    (depth : UInt32) (a b : NodeId) (opA : NodeId) (sortsA : List NodeId) (bodyA : NodeId)
    (opB : NodeId) (sortsB : List NodeId) (bodyB : NodeId) :
    Exec Fault (UnifyState ρ) Unified :=
  if opA ≠ opB ∨ sortsA.length ≠ sortsB.length then pure (.clash a b)
  else do
    match ← unifySpine (unify depth) opA opB sortsA sortsB with
    | .ok => do
        let under ← Exec.lift (succDepth depth)
        unify under bodyA bodyB
    | failed => pure failed

def unifyShapes (ctx : Option SortContext) (fuel : Nat)
    (unify : UInt32 → NodeId → NodeId → Exec Fault (UnifyState ρ) Unified) (depth : UInt32)
    (a b : NodeId) : Exec Fault (UnifyState ρ) Unified :=
  if a = b then pure .ok
  else do
    let (dag, _) ← Exec.get
    let dataA ← Exec.lift (dag.data a)
    let dataB ← Exec.lift (dag.data b)
    match dataA, dataB with
    | .metaVar metaId, _ => bindMeta fuel metaId a b depth ctx
    | _, .metaVar metaId => bindMeta fuel metaId b a depth ctx
    | .app opA argsA, .app opB argsB => unifyApps (unify depth) a b opA argsA opB argsB
    | .binder opA sortsA bodyA, .binder opB sortsB bodyB =>
      unifyBinders unify depth a b opA sortsA bodyA opB sortsB bodyB
    | _, _ => pure (.clash a b)

/-- The shared recursive core of `unify` and `unifySorted`. -/
def unifyAt (ctx : Option SortContext) :
    Nat → UInt32 → NodeId → NodeId → Exec Fault (UnifyState ρ) Unified
  | 0, _, _, _ => .stop .fuel
  | fuel + 1, depth, a, b => do
      let a ← whnf fuel a depth
      let b ← whnf fuel b depth
      unifyShapes ctx fuel (fun depth x y => unifyAt ctx fuel depth x y) depth a b

/-- Run the core from depth 0; any outcome but success restores the substitution. -/
def unifyWith (ctx : Option SortContext) (fuel : Nat) (a b : NodeId) :
    Exec Fault (UnifyState ρ) Unified := fun state =>
  match unifyAt ctx fuel 0 a b state with
  | (.ok .ok, reached) => (.ok .ok, reached)
  | (outcome, reached) => (outcome, (reached.1, state.2))

def unify (fuel : Nat) (a b : NodeId) : Exec Fault (UnifyState ρ) Unified :=
  unifyWith none fuel a b

/-- The recursive core of `apply`. -/
def applyAt (s : Subst) :
    Nat → NodeId → UInt32 → Exec Fault (TermDag ρ × Memo NodeId) NodeId
  | 0, _, _ => .stop .fuel
  | fuel + 1, node, depth => do
      let (dag, memo) ← Exec.get
      match memo.lookup (node, depth) with
      | some cached => pure cached
      | none =>
        let result ← (do
          match ← Exec.lift (dag.data node) with
          | .rdf _ | .leaf _ | .free _ | .bound _ _ => pure node
          | .metaVar _ =>
            let resolved ← Exec.lift (s.resolve dag fuel node)
            if resolved = node then pure node
            else
              let shifted ← Exec.onFst (shift resolved depth)
              applyAt s fuel shifted depth
          | .app op args =>
            let newOp ← applyAt s fuel op depth
            let newArgs ← Exec.traverse (fun arg => applyAt s fuel arg depth) args
            Exec.onFst (internApp newOp newArgs)
          | .binder op sorts body =>
            let newOp ← applyAt s fuel op depth
            let newSorts ← Exec.traverse (fun sort => applyAt s fuel sort depth) sorts
            let under ← Exec.lift (succDepth depth)
            let newBody ← applyAt s fuel body under
            Exec.onFst (internBinder newOp newSorts newBody))
        remember node depth result
        pure result

/-- Re-intern the node with every bound metavariable replaced by its solution. -/
def apply (s : Subst) (fuel : Nat) (node : NodeId) : Exec Fault (TermDag ρ) NodeId :=
  Exec.withScratch [] (applyAt s fuel node 0)

end

end Purrdf
