import Purrdf.PathContext
import Purrdf.ResumableFrames

/-!
# The reach machine

`reach` answers which nodes an op's relation reaches from a node. Every operator is one kind of
frame, which holds the loop state its computation has between two sub-requests: it is stepped
with the value of the frame it last called, and calls another or returns. A call carries the
frame its request is made into.
-/

namespace Purrdf.Path

open Frames

variable {I E : Type} [LinearOrder I] [RowEvidence E] [DecidableEq E]

/-- What one frame hands back to the frame beneath it. -/
inductive Value (I E : Type) [LinearOrder I] where
  | reach (set : PathSet I E)
  | built (set : PathSet I E)
  /-- One frontier level, or `none` when a governor stopped the walk inside it. -/
  | level (level : Option (PathSet I E))

namespace Value

def intoReach : Value I E → Option (PathSet I E)
  | reach set => some set
  | built _ | level _ => none

def intoSet : Value I E → Option (PathSet I E)
  | reach set | built set => some set
  | level _ => none

def intoLevel : Value I E → Option (Option (PathSet I E))
  | level found => some found
  | reach _ | built _ => none

end Value

/-! ### Frames -/

/-- `addsNode` marks `?` and `*`, which add the node itself. -/
structure ReachFrame (I : Type) where
  op : Nat
  node : I
  forward : Bool
  addsNode : Bool

/-- The frontier after `k` elements, `pos` of its nodes stepped through the next one. -/
structure SequenceFrame (I E : Type) [LinearOrder I] where
  op : Nat
  forward : Bool
  k : Nat
  frontier : PathSet I E
  pos : Nat
  next : PathSet I E

structure AlternativeFrame (I E : Type) [LinearOrder I] where
  op : Nat
  node : I
  forward : Bool
  i : Nat
  out : PathSet I E

/-- The closure of `inner` from every seed. `frontier` is a stack, its top first. -/
structure ClosureFrame (I E : Type) [LinearOrder I] where
  inner : Nat
  forward : Bool
  seeds : PathSet I E
  seeded : Nat
  walking : Bool
  frontier : List I
  visited : Finset I
  pending : FastMap I E
  expanded : Option I
  result : PathSet I E

inductive RangePhase where
  | start
  | linear
  | binary
  | accumulate
  | tail
deriving DecidableEq, Repr

/-- `remaining` is the part of `min` the binary prefix has not applied yet, `bit` the power its
lowest bit denotes, `level` the level `current` stands at during accumulation. -/
structure RangeFrame (I E : Type) [LinearOrder I] where
  inner : Nat
  node : I
  forward : Bool
  min : Nat
  max : Option Nat
  current : PathSet I E
  out : PathSet I E
  left : Nat
  remaining : Nat
  bit : Nat
  level : Nat
  powers : Option PowerMemoOwner
  phase : RangePhase

structure StepLevelFrame (I E : Type) [LinearOrder I] where
  inner : Nat
  forward : Bool
  current : PathSet I E
  pos : Nat
  next : PathSet I E

structure ApplyPowerFrame (I E : Type) [LinearOrder I] where
  inner : Nat
  forward : Bool
  bit : Nat
  current : PathSet I E
  pos : Nat
  out : PathSet I E
  powers : PowerMemoOwner

inductive PowerPhase (I E : Type) [LinearOrder I] where
  | start
  | base
  | first
  /-- Composing the second half from each node of the first. -/
  | mids (mids : PathSet I E) (pos : Nat)

structure PowerReachFrame (I E : Type) [LinearOrder I] where
  inner : Nat
  node : I
  forward : Bool
  bit : Nat
  powers : PowerMemoOwner
  phase : PowerPhase I E
  out : Option (PathSet I E)

inductive Frame (I E : Type) [LinearOrder I] where
  | reach (frame : ReachFrame I)
  | sequence (frame : SequenceFrame I E)
  | alternative (frame : AlternativeFrame I E)
  | closure (frame : ClosureFrame I E)
  | range (frame : RangeFrame I E)
  | stepLevel (frame : StepLevelFrame I E)
  | applyPower (frame : ApplyPowerFrame I E)
  | powerReach (frame : PowerReachFrame I E)

def ReachFrame.new (op : Nat) (node : I) (forward : Bool) : ReachFrame I :=
  ⟨op, node, forward, false⟩

def SequenceFrame.new (op : Nat) (node : I) (forward : Bool) : SequenceFrame I E :=
  ⟨op, forward, 0, .fromIter [node], 0, ∅⟩

def AlternativeFrame.new (op : Nat) (node : I) (forward : Bool) : AlternativeFrame I E :=
  ⟨op, node, forward, 0, ∅⟩

def ClosureFrame.new (inner : Nat) (seeds : PathSet I E) (forward : Bool) : ClosureFrame I E :=
  ⟨inner, forward, seeds, 0, false, [], ∅, ∅, none, ∅⟩

def RangeFrame.new (inner : Nat) (node : I) (forward : Bool) (min : Nat) (max : Option Nat) :
    RangeFrame I E :=
  ⟨inner, node, forward, min, max, ∅, ∅, 0, 0, 0, 0, none, .start⟩

def StepLevelFrame.new (inner : Nat) (current : PathSet I E) (forward : Bool) :
    StepLevelFrame I E :=
  ⟨inner, forward, current, 0, ∅⟩

def ApplyPowerFrame.new (inner : Nat) (current : PathSet I E) (forward : Bool) (bit : Nat)
    (powers : PowerMemoOwner) : ApplyPowerFrame I E :=
  ⟨inner, forward, bit, current, 0, ∅, powers⟩

def PowerReachFrame.new (inner : Nat) (node : I) (forward : Bool) (bit : Nat)
    (powers : PowerMemoOwner) : PowerReachFrame I E :=
  ⟨inner, node, forward, bit, powers, .start, none⟩

/-- One step of a frame: what it asks, itself, and the shared state. `none` is a panic. -/
abbrev Turn (I E : Type) [LinearOrder I] :=
  Option (Step (Frame I E) (Value I E) × Frame I E × PathState I E)

def calls (callee frame : Frame I E) (state : PathState I E) : Turn I E :=
  some (.call callee, frame, state)

def returns (value : Value I E) (frame : Frame I E) (state : PathState I E) : Turn I E :=
  some (.ret value, frame, state)

def elementsOf (program : PathProgram I) (op : Nat) : Option (List Nat) :=
  match program.ops[op]? with
  | some (.sequence elements) | some (.alternative elements) => some elements
  | _ => none

/-! ### Requests -/

/-- Follow every `^` into the direction flag. `fuel` bounds the ops followed; an op names only
later ones. -/
def resolveReverse (ops : List (PathOp I)) : Nat → Nat → Bool → Option (Nat × Bool)
  | 0, _, _ => none
  | fuel + 1, op, forward =>
    match ops[op]? with
    | none => none
    | some (.reverse inner) => resolveReverse ops fuel inner (!forward)
    | some _ => some (op, forward)

namespace ReachFrame

variable (ctx : PathCtx I E) (frame : ReachFrame I)

def key : Nat × I × Bool := (frame.op, frame.node, frame.forward)

/-- Return `set`, memoized unless the execution was stopped. -/
def finish (set : PathSet I E) (state : PathState I E) : Turn I E :=
  match ctx.stopped state with
  | (true, state) => returns (.reach set) (.reach frame) state
  | (false, state) =>
    returns (.reach set) (.reach frame)
      { state with reachCache := state.reachCache.insert frame.key set }

/-- The answer of a leaf, or the request an operator makes first. -/
def enter (op : PathOp I) (state : PathState I E) : Turn I E :=
  match op with
  | .predicate predicate =>
    let (set, state) := ctx.stepPredicate predicate frame.node frame.forward state
    frame.finish ctx set state
  | .negated sets =>
    let (set, state) := ctx.stepNegated sets frame.node frame.forward state
    frame.finish ctx set state
  | .wildcard ns =>
    let (set, state) := ctx.stepWildcard ns frame.node frame.forward state
    frame.finish ctx set state
  | .sequence _ =>
    calls (.sequence (.new frame.op frame.node frame.forward)) (.reach frame) state
  | .alternative _ =>
    calls (.alternative (.new frame.op frame.node frame.forward)) (.reach frame) state
  | .zeroOrOne inner =>
    calls (.reach (.new inner frame.node frame.forward)) (.reach { frame with addsNode := true })
      state
  | .zeroOrMore inner =>
    calls (.closure (.new inner (.fromIter [frame.node]) frame.forward))
      (.reach { frame with addsNode := true }) state
  | .oneOrMore inner =>
    calls (.closure (.new inner (.fromIter [frame.node]) frame.forward)) (.reach frame) state
  | .range inner min max =>
    calls (.range (.new inner frame.node frame.forward min max)) (.reach frame) state
  | .reverse _ => none

def step (returned : Option (Value I E)) (state : PathState I E) : Turn I E :=
  match returned with
  | some value => do
    let set ← value.intoSet
    frame.finish ctx (if frame.addsNode then set.insert frame.node else set) state
  | none =>
    match ctx.stopped state with
    | (true, state) => returns (.reach ∅) (.reach frame) state
    | (false, state) => do
      let ops := ctx.program.ops
      let (op, forward) ← resolveReverse ops ops.length frame.op frame.forward
      let frame := { frame with op, forward }
      match state.reachCache.lookup frame.key with
      | some cached => returns (.reach cached) (.reach frame) state
      | none =>
        let entered ← ops[op]?
        frame.enter ctx entered state

end ReachFrame

namespace SequenceFrame

variable (frame : SequenceFrame I E)

/-- What the frontier reached through an element, joined to what it reached so far. -/
def absorb (reached : PathSet I E) : Option (SequenceFrame I E) := do
  let mid ← frame.frontier.values[frame.pos]?
  let original := frame.frontier.evidenceOf mid
  return { frame with
    next := reached.values.foldl (fun next target => next.insertComposed target original reached)
      frame.next
    pos := frame.pos + 1 }

/-- The loop to the next request or the end; a frontier that died stays dead. -/
def drive (elements : List Nat) (frame : SequenceFrame I E) (state : PathState I E) : Turn I E :=
  if elements.length ≤ frame.k then returns (.built frame.frontier) (.sequence frame) state
  else if frame.frontier.values.isEmpty then returns (.built ∅) (.sequence frame) state
  else
    match frame.frontier.values[frame.pos]? with
    | some mid => do
      let element ← elements[if frame.forward then frame.k else elements.length - 1 - frame.k]?
      calls (.reach (.new element mid frame.forward)) (.sequence frame) state
    | none =>
      drive elements { frame with frontier := frame.next, next := ∅, pos := 0, k := frame.k + 1 }
        state
termination_by elements.length - frame.k

def step (ctx : PathCtx I E) (returned : Option (Value I E)) (state : PathState I E) :
    Turn I E := do
  let frame ← match returned with
    | some value => do
      let reached ← value.intoReach
      frame.absorb reached
    | none => some frame
  let elements ← elementsOf ctx.program frame.op
  frame.drive elements state

end SequenceFrame

def AlternativeFrame.step (ctx : PathCtx I E) (frame : AlternativeFrame I E)
    (returned : Option (Value I E)) (state : PathState I E) : Turn I E := do
  let frame ← match returned with
    | some value => do
      let reached ← value.intoReach
      some { frame with out := frame.out.extendWitnesses reached, i := frame.i + 1 }
    | none => some frame
  let elements ← elementsOf ctx.program frame.op
  match elements[frame.i]? with
  | some element =>
    calls (.reach (.new element frame.node frame.forward)) (.alternative frame) state
  | none => returns (.built frame.out) (.alternative frame) state

/-! ### Closures -/

namespace ClosureFrame

variable (frame : ClosureFrame I E)

def pendingOf (node : I) : E :=
  (frame.pending.lookup node).getD RowEvidence.virtual

/-- Whether no evidence but the default has come up. -/
def plain : Bool :=
  frame.pending.entries.isEmpty && frame.result.unannotated

def storePending (node : I) (evidence : E) : FastMap I E :=
  if evidence = RowEvidence.virtual then frame.pending.erase node
  else frame.pending.insert node evidence

/-- Merge the evidence of one more way to a node, and push it if that is news. -/
def mergeNext (premise : E) (reached : PathSet I E) (frame : ClosureFrame I E) (next : I) :
    ClosureFrame I E :=
  let incoming := RowEvidence.conjunction premise (reached.evidenceOf next)
  let original := frame.pendingOf next
  let merged :=
    if (frame.pending.lookup next).isSome || next ∈ frame.visited ||
        (incoming ≠ RowEvidence.virtual && next ∈ frame.frontier) then original ⊔ incoming
    else incoming
  let pending := frame.storePending next merged
  if original ≠ merged || next ∉ frame.visited then
    { frame with pending, frontier := next :: frame.frontier }
  else { frame with pending }

def pushNext (frame : ClosureFrame I E) (next : I) : ClosureFrame I E :=
  if frame.walking && next ∈ frame.visited then frame
  else { frame with frontier := next :: frame.frontier }

/-- The evidence of the seed, or of the node expanded last. -/
def premise : Option E :=
  if frame.walking then frame.expanded.map frame.result.evidenceOf
  else (frame.seeds.values[frame.seeded]?).map frame.seeds.evidenceOf

/-- Take in what a seed, or the node expanded last, reaches. -/
def absorb (reached : PathSet I E) : Option (ClosureFrame I E) :=
  match frame.premise with
  | none => none
  | some premise =>
    let merged :=
      if premise = RowEvidence.virtual && reached.unannotated && frame.plain then
        reached.values.foldl pushNext frame
      else reached.values.foldl (mergeNext premise reached) frame
    some (if frame.walking then merged else { merged with seeded := merged.seeded + 1 })

/-- The walk over the frontier, down to the next node to expand. -/
def walk (ctx : PathCtx I E) :
    List I → ClosureFrame I E → PathState I E → Turn I E
  | [], frame, state =>
    let frame := { frame with frontier := [] }
    returns (.built frame.result) (.closure frame) state
  | n :: frontier, frame, state =>
    let frame := { frame with frontier }
    let evidence := frame.pendingOf n
    if n ∈ frame.visited ∧ (frame.plain ∨ frame.result.evidenceOf n = evidence) then
      walk ctx frontier frame state
    else
      let frame := { frame with visited := insert n frame.visited }
      match ctx.stopped state with
      | (true, state) => returns (.built frame.result) (.closure frame) state
      | (false, state) =>
        let frame := { frame with
          result := if frame.plain then frame.result.insert n
            else (frame.result.insertEvidence n evidence).1
          expanded := some n }
        calls (.reach (.new frame.inner n frame.forward)) (.closure frame) state

def step (ctx : PathCtx I E) (returned : Option (Value I E)) (state : PathState I E) :
    Turn I E := do
  let frame ← match returned with
    | some value => do
      let reached ← value.intoReach
      frame.absorb reached
    | none => some frame
  if frame.walking then walk ctx frame.frontier frame state
  else
    match frame.seeds.values[frame.seeded]? with
    | some seed => calls (.reach (.new frame.inner seed frame.forward)) (.closure frame) state
    | none => walk ctx frame.frontier { frame with walking := true } state

end ClosureFrame

/-! ### Repetition -/

/-- Above this a prefix is composed from powers instead of walked. -/
def linearRangePrefix : Nat := 64

namespace RangeFrame

variable (frame : RangeFrame I E) (state : PathState I E)

def finished : Turn I E := returns (.built frame.out) (.range frame) state

/-- The prefix died or was stopped: no level at or above `min` is reachable. -/
def died : Turn I E := returns (.built ∅) (.range frame) state

/-- One frontier advance from `current`. -/
def advance : Turn I E :=
  calls (.stepLevel (.new frame.inner frame.current frame.forward))
    (.range { frame with current := ∅ }) state

/-- Union a level into what has been accumulated; whether that grew. -/
def gather : PathSet I E × Bool :=
  frame.current.values.foldl
    (fun (out, grew) target =>
      let (out, changed) := out.insertEvidence target (frame.current.evidenceOf target)
      (out, grew || changed))
    (frame.out, false)

/-- The accumulating walk, at one level: the window closes, an open tail is closed from this
level, a level without growth is the last, or the next one is asked for. -/
def accumulate (frame : RangeFrame I E) (state : PathState I E) : Turn I E :=
  let (out, grew) := frame.gather
  let frame := { frame with out, phase := .accumulate }
  match frame.max with
  | none =>
    calls (.closure (.new frame.inner frame.current frame.forward))
      (.range { frame with current := ∅, phase := .tail }) state
  | some max =>
    if max ≤ frame.level then frame.finished state
    else if grew then frame.advance state
    else frame.finished state

/-- The prefix composed from the powers its bits name, lowest first. -/
def binary (frame : RangeFrame I E) (state : PathState I E) : Turn I E :=
  if frame.remaining = 0 then { frame with level := frame.min }.accumulate state
  else if frame.remaining % 2 = 1 then
    match frame.powers with
    | some powers =>
      calls (.applyPower (.new frame.inner frame.current frame.forward frame.bit powers))
        (.range { frame with current := ∅ }) state
    | none =>
      let powers : PowerMemoOwner := ⟨state.powerMemos, frame.inner, frame.forward⟩
      calls (.applyPower (.new frame.inner frame.current frame.forward frame.bit powers))
        (.range { frame with current := ∅, powers := some powers })
        { state with powerMemos := state.powerMemos + 1 }
  else binary { frame with remaining := frame.remaining / 2, bit := frame.bit + 1 } state
termination_by frame.remaining

/-- Run the phase the frame stands in up to its next request or its end. -/
def drive (frame : RangeFrame I E) (state : PathState I E) : Turn I E :=
  match frame.phase with
  | .linear =>
    if frame.left ≠ 0 then frame.advance state
    else { frame with level := frame.min }.accumulate state
  | .binary => frame.binary state
  | .accumulate => frame.accumulate state
  | .start | .tail => none

/-- The first step: an empty window admits no count at all. -/
def start (frame : RangeFrame I E) (state : PathState I E) : Turn I E :=
  if frame.max.any (· < frame.min) then frame.died state
  else
    let frame := { frame with current := frame.current.insert frame.node }
    if frame.min ≤ linearRangePrefix then
      { frame with left := frame.min, phase := .linear }.drive state
    else { frame with remaining := frame.min, bit := 0, phase := .binary }.drive state

def resume (frame : RangeFrame I E) (value : Value I E) (state : PathState I E) : Turn I E :=
  match frame.phase with
  | .linear => do
    match ← value.intoLevel with
    | none => frame.died state
    | some next =>
      if next.values.isEmpty then frame.died state
      else drive { frame with current := next, left := frame.left - 1 } state
  | .binary => do
    match ← value.intoLevel with
    | none => frame.died state
    | some next =>
      if next.values.isEmpty then frame.died state
      else
        drive { frame with
          current := next
          remaining := frame.remaining / 2
          bit := frame.bit + 1 } state
  | .accumulate => do
    match ← value.intoLevel with
    | none => frame.finished state
    | some next => drive { frame with current := next, level := frame.level + 1 } state
  | .tail => do
    let set ← value.intoSet
    finished { frame with out := frame.out.extendWitnesses set } state
  | .start => none

def step (frame : RangeFrame I E) (returned : Option (Value I E)) (state : PathState I E) :
    Turn I E :=
  match returned with
  | some value => frame.resume value state
  | none => frame.start state

end RangeFrame

/-! ### Levels and powers -/

/-- Compose what one source reached into `out`, charged for each target; `false` when the
execution stopped on the way. -/
def composeCharged (ctx : PathCtx I E) (premise : E) (reached : PathSet I E) :
    List I → PathSet I E → PathState I E → Bool × PathSet I E × PathState I E
  | [], out, state => (true, out, state)
  | target :: rest, out, state =>
    match ctx.chargeCandidate state with
    | (false, state) => (false, out, state)
    | (true, state) =>
      composeCharged ctx premise reached rest (out.insertComposed target premise reached) state

namespace StepLevelFrame

def ask (frame : StepLevelFrame I E) (state : PathState I E) : Turn I E :=
  match frame.current.values[frame.pos]? with
  | some n => calls (.reach (.new frame.inner n frame.forward)) (.stepLevel frame) state
  | none => returns (.level (some frame.next)) (.stepLevel frame) state

def step (ctx : PathCtx I E) (frame : StepLevelFrame I E) (returned : Option (Value I E))
    (state : PathState I E) : Turn I E :=
  match returned with
  | none => frame.ask state
  | some value => do
    let reached ← value.intoReach
    match ctx.stopped state with
    | (true, state) => returns (.level none) (.stepLevel frame) state
    | (false, state) =>
      let n ← frame.current.values[frame.pos]?
      match composeCharged ctx (frame.current.evidenceOf n) reached reached.values frame.next
        state with
      | (false, _, state) => returns (.level none) (.stepLevel frame) state
      | (true, next, state) => ask { frame with next, pos := frame.pos + 1 } state

end StepLevelFrame

namespace ApplyPowerFrame

def ask (frame : ApplyPowerFrame I E) (state : PathState I E) : Turn I E :=
  match frame.current.values[frame.pos]? with
  | some source =>
    calls (.powerReach (.new frame.inner source frame.forward frame.bit frame.powers))
      (.applyPower frame) state
  | none => returns (.level (some frame.out)) (.applyPower frame) state

def step (ctx : PathCtx I E) (frame : ApplyPowerFrame I E) (returned : Option (Value I E))
    (state : PathState I E) : Turn I E :=
  match returned with
  | none => frame.ask state
  | some value => do
    let reached ← value.intoReach
    match ctx.stopped state with
    | (true, state) => returns (.level none) (.applyPower frame) state
    | (false, state) =>
      let source ← frame.current.values[frame.pos]?
      match composeCharged ctx (frame.current.evidenceOf source) reached reached.values frame.out
        state with
      | (false, _, state) => returns (.level none) (.applyPower frame) state
      | (true, out, state) => ask { frame with out, pos := frame.pos + 1 } state

end ApplyPowerFrame

namespace PowerReachFrame

variable (ctx : PathCtx I E)

def key (frame : PowerReachFrame I E) : PowerMemoOwner × Nat × I :=
  (frame.powers, frame.bit, frame.node)

def half (frame : PowerReachFrame I E) (node : I) (state : PathState I E) : Turn I E :=
  calls (.powerReach (.new frame.inner node frame.forward (frame.bit - 1) frame.powers))
    (.powerReach frame) state

/-- Return `reached`, memoized unless the execution was stopped. -/
def finish (frame : PowerReachFrame I E) (reached : PathSet I E) (state : PathState I E) :
    Turn I E :=
  match ctx.stopped state with
  | (true, state) => returns (.reach reached) (.powerReach frame) state
  | (false, state) =>
    returns (.reach reached) (.powerReach frame)
      { state with powers := state.powers.insert frame.key reached }

/-- The memo probe, then the request for the base relation or the first half. -/
def start (frame : PowerReachFrame I E) (state : PathState I E) : Turn I E :=
  match state.powers.lookup frame.key with
  | some cached => returns (.reach cached) (.powerReach frame) state
  | none =>
    if frame.bit = 0 then
      calls (.reach (.new frame.inner frame.node frame.forward))
        (.powerReach { frame with phase := .base }) state
    else { frame with phase := .first }.half frame.node state

/-- Ask for the second half from the next node of the first, or finish. -/
def compose (frame : PowerReachFrame I E) (mids : PathSet I E) (pos : Nat) (out : PathSet I E)
    (state : PathState I E) : Turn I E :=
  let frame := { frame with phase := .mids mids pos, out := some out }
  match mids.values[pos]? with
  | some mid => frame.half mid state
  | none => { frame with out := none }.finish ctx out state

def resume (frame : PowerReachFrame I E) (reached : PathSet I E) (state : PathState I E) :
    Turn I E :=
  match frame.phase with
  | .base => frame.finish ctx reached state
  | .first =>
    match ctx.stopped state with
    | (true, state) => returns (.reach ∅) (.powerReach frame) state
    | (false, state) => frame.compose ctx reached 0 ∅ state
  | .mids mids pos => do
    let out ← frame.out
    match ctx.stopped state with
    | (true, state) => returns (.reach out) (.powerReach frame) state
    | (false, state) =>
      let mid ← mids.values[pos]?
      match composeCharged ctx (mids.evidenceOf mid) reached reached.values out state with
      | (false, out, state) => returns (.reach out) (.powerReach frame) state
      | (true, out, state) => frame.compose ctx mids (pos + 1) out state
  | .start => none

def step (frame : PowerReachFrame I E) (returned : Option (Value I E)) (state : PathState I E) :
    Turn I E :=
  match returned with
  | none => frame.start state
  | some value => do
    let reached ← value.intoReach
    frame.resume ctx reached state

end PowerReachFrame

def Frame.step (ctx : PathCtx I E) (frame : Frame I E) (returned : Option (Value I E))
    (state : PathState I E) : Turn I E :=
  match frame with
  | .reach frame => frame.step ctx returned state
  | .sequence frame => frame.step ctx returned state
  | .alternative frame => frame.step ctx returned state
  | .closure frame => frame.step ctx returned state
  | .range frame => frame.step returned state
  | .stepLevel frame => frame.step ctx returned state
  | .applyPower frame => frame.step ctx returned state
  | .powerReach frame => frame.step ctx returned state

def machine (ctx : PathCtx I E) : Machine (Frame I E) (Value I E) (PathState I E) :=
  ⟨Frame.step ctx⟩

/-- The nodes the op's relation reaches from `node`, with the state the traversal leaves. -/
def reach (ctx : PathCtx I E) (fuel op : Nat) (node : I) (forward : Bool) (state : PathState I E) :
    Option (PathSet I E × PathState I E) := do
  let (value, state) ← (machine ctx).run fuel [.reach (.new op node forward)] none state
  let set ← value.intoReach
  return (set, state)

end Purrdf.Path
