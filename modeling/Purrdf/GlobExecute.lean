import Purrdf.GlobNormalization

/-!
# The glob matcher

The metered loop of `execute.rs`: one retry of a star inside a component and one retry of
a recursive component, each overwritten by the next of its kind. Positions count scalars;
the byte offsets of refusals are computed from them.
-/

namespace Purrdf.Glob

structure MatchError where
  consumed : Nat
  limit : Nat
  offset : Nat
deriving DecidableEq, Repr

structure MatchReport where
  matched : Bool
  work : Nat
deriving DecidableEq, Repr

structure Meter where
  work : Nat
  limit : Nat
deriving DecidableEq, Repr

def Meter.tick (meter : Meter) (offset : Nat) : Except MatchError Meter :=
  if meter.work = meter.limit then .error ⟨meter.work, meter.limit, offset⟩
  else .ok { meter with work := meter.work + 1 }

structure Retry where
  token : Nat
  input : Nat
deriving DecidableEq, Repr

/-- Successfully checked leading deterministic tokens and their input extent in scalars. -/
structure Prefix where
  tokens : Nat := 0
  scalars : Nat := 0
deriving DecidableEq, Repr

structure Machine where
  token : Nat
  position : Nat
  leading : Bool
  star : Option Retry
  directories : Option Retry
  checked : Prefix
deriving DecidableEq, Repr

/-- How a round of the loop ends. -/
inductive Outcome where
  | next (state : Machine)
  | done (matched : Bool) (checked : Prefix)
deriving DecidableEq, Repr

section

variable (tokens : List Token) (ranges : List Range) (mode : Mode) (input : List Char)

def byteOffset (position : Nat) : Nat := ((input.take position).map Char.utf8Size).sum

/-- Scan from `position` for the end of a component. -/
def nextBoundary (meter : Meter) : Nat → List Char → Except MatchError (Option Nat × Meter)
  | _, [] => .ok (none, meter)
  | position, ch :: rest => do
      let meter ← meter.tick (byteOffset input position)
      if ch = '/' then pure (some (position + 1), meter)
      else nextBoundary meter (position + 1) rest

/-- What a round does when its token is not accepted: retry the star, then the recursive
component, then refuse. -/
def retry (state : Machine) (meter : Meter) : Except MatchError (Outcome × Meter) :=
  let starRetry := state.star.bind fun retry =>
    (input[retry.input]?.filter mode.permits).map fun _ => retry
  match starRetry, state.directories with
  | some retry, _ => do
      let meter ← meter.tick (byteOffset input retry.input)
      pure (.next { state with
        token := retry.token
        position := retry.input + 1
        star := some { retry with input := retry.input + 1 } }, meter)
  | none, some retry => do
      let (boundary, meter) ← nextBoundary input meter retry.input (input.drop retry.input)
      match boundary with
      | some next => pure (.next { state with
          token := retry.token
          position := next
          star := none
          directories := some { retry with input := next } }, meter)
      | none => pure (.done false state.checked, meter)
  | none, none => .ok (.done false state.checked, meter)

/-- Whether a scalar token accepts the next scalar of the input. -/
def accepts (token : Token) (position : Nat) (meter : Meter) :
    Except MatchError (Bool × Meter) :=
  let ch := input[position]?
  match token with
  | .literal expected => .ok (ch == some expected, meter)
  | .separator => .ok (ch == some '/', meter)
  | .any => .ok (ch.any mode.permits, meter)
  | .classRanges start stop negated =>
    match ch.filter mode.permits with
    | some ch => do
        let meter ← meter.tick (byteOffset input position)
        pure (inRanges ch.val (classSlice ranges start stop) != negated, meter)
    | none => .ok (false, meter)
  | .star | .directories | .tail => .ok (false, meter)

def Machine.advance (state : Machine) (token : Token) : Machine :=
  { state with
    token := state.token + 1
    position := state.position + 1
    star := if token = .separator then none else state.star
    checked := if state.leading then ⟨state.token + 1, state.position + 1⟩ else state.checked }

def Token.deterministic : Token → Bool
  | .literal _ | .separator => true
  | _ => false

def visit (state : Machine) (meter : Meter) : Except MatchError (Outcome × Meter) :=
  match tokens[state.token]? with
  | none =>
    if input[state.position]? = none then .ok (.done true state.checked, meter)
    else retry mode input state meter
  | some .tail => .ok (.done true state.checked, meter)
  | some .directories => .ok (.next { state with
      token := state.token + 1
      directories := some ⟨state.token + 1, state.position⟩
      star := none }, meter)
  | some .star => .ok (.next { state with
      token := state.token + 1
      star := some ⟨state.token + 1, state.position⟩ }, meter)
  | some token => do
      let (accepted, meter) ← accepts ranges mode input token state.position meter
      if accepted then pure (.next (state.advance token), meter)
      else retry mode input state meter

def dispatch (state : Machine) (meter : Meter) : Except MatchError (Outcome × Meter) := do
  let meter ← meter.tick (byteOffset input state.position)
  visit tokens ranges mode input { state with
    leading := state.leading && tokens[state.token]?.any Token.deterministic } meter

def resumeLoop : Nat → Machine → Meter → Except MatchError ((Bool × Prefix) × Meter)
  | 0, state, meter => .error ⟨meter.work, meter.limit, byteOffset input state.position⟩
  | rounds + 1, state, meter => do
      let (outcome, meter) ← dispatch tokens ranges mode input state meter
      match outcome with
      | .next state => resumeLoop rounds state meter
      | .done matched checked => pure ((matched, checked), meter)

/-- Resume behind a checked run of leading tokens, before either retry exists. -/
def resumeMetered (checked : Prefix) (meter : Meter) :
    Except MatchError ((Bool × Prefix) × Meter) :=
  resumeLoop tokens ranges mode input (meter.limit - meter.work)
    ⟨checked.tokens, checked.scalars, true, none, none, checked⟩ meter

def matchesMetered (meter : Meter) : Except MatchError (MatchReport × Meter) := do
  let ((matched, _), meter) ← resumeMetered tokens ranges mode input {} meter
  pure (⟨matched, meter.work⟩, meter)

end

def CompiledGlob.matchLiteral (glob : CompiledGlob) (lexical : List Char) (maxWork : Nat) :
    Except MatchError MatchReport :=
  (matchesMetered glob.tokens glob.ranges glob.mode lexical ⟨0, maxWork⟩).map Prod.fst

end Purrdf.Glob
