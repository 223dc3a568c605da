import Mathlib.Logic.Relation
import Purrdf.Inflate

/-!
# What a stream decodes to

The meaning of a DEFLATE stream, apart from how it arrives: a machine that has every bit of the
input before it and an output without end. It reads one field, one symbol or one byte at a
time, and stops where the input runs out, where it refuses it, or where the stream ends.
-/

namespace Purrdf.Deflate

/-- A stream part-way: the unread bits, least significant first, and everything decoded. -/
structure Stream where
  bits : Nat
  unread : Nat
  state : State
  block : Block
  out : List UInt8

namespace Stream

def new (data : List UInt8) : Stream where
  bits := leValue data
  unread := 8 * data.length
  state := .blockHeader
  block := .new
  out := []

def drop (stream : Stream) (n : Nat) : Stream :=
  { stream with bits := stream.bits / 2 ^ n, unread := stream.unread - n }

def enter (stream : Stream) (state : State) : Stream :=
  { stream with state }

def emit (stream : Stream) (byte : Nat) : Stream :=
  { stream with out := stream.out ++ [UInt8.ofNat byte] }

def withBlock (stream : Stream) (change : Block → Block) : Stream :=
  { stream with block := change stream.block }

def leaveBlock (stream : Stream) : Stream :=
  if stream.block.finalBlock then (stream.drop (stream.unread % 8)).enter .done
  else stream.enter .blockHeader

/-- One step further, `none` where the stream stops, or the refusal. -/
abbrev Move := Except Fault (Option Stream)

def refuse (error : Error) : Move :=
  .error (.refused error)

def fixedTables (block : Block) : Except Fault Block := do
  let litlen ← block.litlen.build fixedLitlenLengths .literalLength true
  let dist ← block.dist.build fixedDistLengths .distance false
  return { block with litlen, dist }

def dynamicTables (block : Block) : Except Fault Block := do
  let litlen ← block.litlen.build (block.lengths.take block.hlit) .literalLength true
  let dist ← block.dist.build (block.lengths.drop block.hlit) .distance false
  return { block with litlen, dist }

def enterBlock (stream : Stream) (kind : Nat) : Move :=
  match kind with
  | 0 => .ok (some (stream.enter .storedHeader))
  | 1 => do
      let block ← fixedTables stream.block
      return some { stream with block, state := .symbols }
  | 2 => .ok (some (stream.enter .dynamicCounts))
  | _ => refuse .invalidBlockType

def moveBlockHeader (stream : Stream) : Move :=
  if stream.unread < 3 then .ok none
  else
    ((stream.withBlock fun block =>
      { block with finalBlock := stream.bits % 2 ^ 1 == 1 }).drop 3).enterBlock
        (stream.bits / 2 % 4)

def moveStoredHeader (stream : Stream) : Move :=
  if stream.unread % 8 ≠ 0 then .ok (some (stream.drop (stream.unread % 8)))
  else if stream.unread < 32 then .ok none
  else
    let len := stream.bits % 2 ^ 16
    let nlen := stream.bits / 2 ^ 16 % 2 ^ 16
    if len + nlen = 0xFFFF then .ok (some ((stream.drop 32).enter (.stored len)))
    else refuse (.storedLengthMismatch len nlen)

def moveStored (limit : Nat) (stream : Stream) : Nat → Move
  | 0 => .ok (some stream.leaveBlock)
  | remaining + 1 =>
    if limit ≤ stream.out.length then refuse (.limitExceeded limit)
    else if stream.unread < 8 then .ok none
    else
      .ok (some (((stream.emit (stream.bits % 2 ^ 8)).drop 8).enter (.stored remaining)))

def moveDynamicCounts (stream : Stream) : Move :=
  if stream.unread < 14 then .ok none
  else
    let hlit := 257 + stream.bits % 2 ^ 5
    let hdist := 1 + stream.bits / 2 ^ 5 % 32
    let hclen := 4 + stream.bits / 2 ^ 10 % 16
    if litlenSymbols < hlit then refuse (.tooManyLengthCodes hlit)
    else
      .ok (some (((stream.withBlock fun block =>
        { block with hlit, hdist, hclen, clLengths := List.replicate 19 0, clIndex := 0 }).drop
          14).enter .dynamicCodeLengths))

def moveDynamicCodeLengths (stream : Stream) : Move :=
  let block := stream.block
  if block.clIndex < block.hclen then
    if stream.unread < 3 then .ok none
    else
      match codeLengthOrder[block.clIndex]? with
      | none => .error .panicked
      | some symbol =>
        .ok (some ((stream.withBlock fun block =>
          { block with
            clLengths := block.clLengths.set symbol (stream.bits % 2 ^ 3)
            clIndex := block.clIndex + 1 }).drop 3))
  else do
    let codeLength ← block.codeLength.build block.clLengths .codeLength false
    return some ((stream.withBlock fun block =>
      { block with codeLength, lengths := [] }).enter .dynamicLengths)

def moveDynamicLengths (stream : Stream) : Move :=
  let block := stream.block
  let total := block.hlit + block.hdist
  if block.lengths.length < total then
    let entry := block.codeLength.decode stream.bits
    if stream.unread < entry.bits then .ok none
    else if entry.tag ≠ .literal then refuse (.invalidCode .codeLength)
    else if stream.unread < entry.bits + repeatExtra entry.value then .ok none
    else
      match extendLengths total block.lengths entry.value
          ((stream.drop entry.bits).bits % 2 ^ repeatExtra entry.value) with
      | .error error => refuse error
      | .ok lengths =>
        .ok (some ((stream.withBlock fun block => { block with lengths }).drop
          (entry.bits + repeatExtra entry.value)))
  else if block.lengths.getD endOfBlock 0 = 0 then refuse .missingEndOfBlock
  else do
    let block ← dynamicTables block
    return some { stream with block, state := .symbols }

def moveSymbol (limit : Nat) (stream : Stream) : Move :=
  let entry := stream.block.litlen.decode stream.bits
  if stream.unread < entry.bits then .ok none
  else
    match entry.tag with
    | .literal =>
      if limit ≤ stream.out.length then refuse (.limitExceeded limit)
      else .ok (some ((stream.emit entry.value).drop entry.bits))
    | .length => .ok (some ((stream.drop entry.bits).enter (.lengthExtra entry.value entry.aux)))
    | .endOfBlock => .ok (some (stream.drop entry.bits).leaveBlock)
    | .badSymbol => refuse (.invalidLengthSymbol entry.value)
    | _ => refuse (.invalidCode .literalLength)

def moveLengthExtra (stream : Stream) (base extra : Nat) : Move :=
  if stream.unread < extra then .ok none
  else .ok (some ((stream.drop extra).enter (.distance (base + stream.bits % 2 ^ extra))))

def moveDistance (stream : Stream) (length : Nat) : Move :=
  let entry := stream.block.dist.decode stream.bits
  if stream.unread < entry.bits then .ok none
  else
    match entry.tag with
    | .distance =>
      .ok (some ((stream.drop entry.bits).enter (.distanceExtra length entry.value entry.aux)))
    | .badSymbol => refuse (.invalidDistanceSymbol entry.value)
    | _ => refuse (.invalidCode .distance)

def moveDistanceExtra (stream : Stream) (length base extra : Nat) : Move :=
  if stream.unread < extra then .ok none
  else
    let distance := base + stream.bits % 2 ^ extra
    if stream.out.length < distance then
      refuse (.distanceTooFar distance stream.out.length)
    else .ok (some ((stream.drop extra).enter (.copy length distance)))

def back (out : List UInt8) (distance : Nat) : UInt8 :=
  out.getD (out.length - distance) 0

def moveCopy (limit : Nat) (stream : Stream) (distance : Nat) : Nat → Move
  | 0 => .ok (some (stream.enter .symbols))
  | length + 1 =>
    if limit ≤ stream.out.length then refuse (.limitExceeded limit)
    else
      .ok (some { stream with
        out := stream.out ++ [back stream.out distance]
        state := .copy length distance })

def move (limit : Nat) (stream : Stream) : Move :=
  match stream.state with
  | .done => .ok none
  | .blockHeader => stream.moveBlockHeader
  | .storedHeader => stream.moveStoredHeader
  | .stored remaining => stream.moveStored limit remaining
  | .dynamicCounts => stream.moveDynamicCounts
  | .dynamicCodeLengths => stream.moveDynamicCodeLengths
  | .dynamicLengths => stream.moveDynamicLengths
  | .symbols => stream.moveSymbol limit
  | .lengthExtra base extra => stream.moveLengthExtra base extra
  | .distance length => stream.moveDistance length
  | .distanceExtra length base extra => stream.moveDistanceExtra length base extra
  | .copy length distance => stream.moveCopy limit distance length

def Moves (limit : Nat) (stream next : Stream) : Prop :=
  stream.move limit = .ok (some next)

def Reaches (limit : Nat) : Stream → Stream → Prop :=
  Relation.ReflTransGen (Moves limit)

inductive Verdict where
  | streamEnd
  | needsInput
  | refused (error : Error)
deriving DecidableEq, Repr

def Ends (limit : Nat) (stream : Stream) : Verdict → Prop
  | .streamEnd => stream.state = .done
  | .needsInput => stream.state ≠ .done ∧ stream.move limit = .ok none
  | .refused error => stream.move limit = .error (.refused error)

theorem Ends.stays {limit : Nat} {stream next : Stream} {verdict : Verdict}
    (ends : stream.Ends limit verdict) : ¬Moves limit stream next := by
  intro moves
  rw [Moves] at moves
  cases verdict with
  | streamEnd =>
    have state : stream.state = .done := ends
    rw [move, state] at moves
    exact absurd moves (by simp)
  | needsInput =>
    rw [ends.2] at moves
    exact absurd moves (by simp)
  | refused error =>
    have fails : stream.move limit = .error (.refused error) := ends
    rw [fails] at moves
    exact absurd moves (by simp)

theorem Ends.unique {limit : Nat} {stream : Stream} {left right : Verdict}
    (here : stream.Ends limit left) (there : stream.Ends limit right) : left = right := by
  have done : stream.state = .done → stream.move limit = .ok none := by
    intro state
    rw [move, state]
  cases left <;> cases right <;> simp only [Ends] at here there
  · rfl
  · exact absurd here there.1
  · rw [done here] at there
    exact absurd there (by simp)
  · exact absurd there here.1
  · rfl
  · rw [here.2] at there
    exact absurd there (by simp)
  · rw [done there] at here
    exact absurd here (by simp)
  · rw [there.2] at here
    exact absurd here (by simp)
  · rw [here] at there
    simpa using there

theorem Moves.unique {limit : Nat} {stream left right : Stream} (here : Moves limit stream left)
    (there : Moves limit stream right) : left = right := by
  have same := Except.ok.inj (here.symm.trans there)
  exact Option.some.inj same

theorem Reaches.unique {limit : Nat} {stream left right : Stream} {here there : Verdict}
    (toLeft : Reaches limit stream left) (toRight : Reaches limit stream right)
    (endsLeft : left.Ends limit here) (endsRight : right.Ends limit there) : left = right := by
  induction toLeft using Relation.ReflTransGen.head_induction_on with
  | refl =>
    rcases Relation.ReflTransGen.cases_head toRight with same | ⟨next, moves, -⟩
    · exact same
    · exact absurd moves endsLeft.stays
  | head moves rest ih =>
    rcases Relation.ReflTransGen.cases_head toRight with same | ⟨next, also, onward⟩
    · subst same
      exact absurd moves endsRight.stays
    · rw [moves.unique also] at ih
      exact ih onward

end Stream

end Purrdf.Deflate
