import Purrdf.ByteOrder
import Purrdf.DecodeTable

/-!
# The push-based decoder

A DEFLATE decoder fed its input in pieces of any size. A call runs the state machine over the
bytes it was given and hands the decoded bytes to the caller's output.
-/

namespace Purrdf.Deflate

/-- Decoded bytes the buffer holds beyond the window before it slides. -/
def decodeRoom : Nat := 3 * windowSize

/-- The buffer: the history plus the decode room. -/
def bufLen : Nat := windowSize + decodeRoom

/-- Slide once the free room drops below this and everything is delivered. -/
def slideRoom : Nat := 16 * 1024

def litlenBits : Nat := 11

def distBits : Nat := 8

def codeLengthBits : Nat := 7

/-- Bytes a match copy may write past the end of the match. -/
def copySlack : Nat := 32

/-- Why a call returned. -/
inductive Status where
  | needsInput
  | outputFull
  | streamEnd
deriving DecidableEq, Repr

inductive State where
  | blockHeader
  | storedHeader
  | stored (remaining : Nat)
  | dynamicCounts
  | dynamicCodeLengths
  | dynamicLengths
  | symbols
  | lengthExtra (base extra : Nat)
  | distance (length : Nat)
  | distanceExtra (length base extra : Nat)
  | copy (length distance : Nat)
  | done
deriving DecidableEq, Repr

/-- Why the decode step returned. -/
inductive Step where
  | needsInput
  | needsRoom
  | done
deriving DecidableEq, Repr

structure Block where
  finalBlock : Bool
  litlen : DecodeTable
  dist : DecodeTable
  codeLength : DecodeTable
  hlit : Nat
  hdist : Nat
  hclen : Nat
  clIndex : Nat
  clLengths : List Nat
  /-- The code lengths read so far. -/
  lengths : List Nat
deriving DecidableEq, Repr

/-- A decoder. `window` is the buffer below the write position, and the bytes of it past
`delivered` are waiting for output. -/
structure Inflater where
  state : State
  block : Block
  bitbuf : Nat
  nbits : Nat
  tablesFixed : Bool
  window : List UInt8
  delivered : Nat
  /-- Bytes the stream produced before the buffer. -/
  base : Nat
  limit : Nat
  error : Option Error
  /-- Bytes taken into the bit buffer that lie after the end of the stream. -/
  trailing : List UInt8
deriving DecidableEq, Repr

def Block.new : Block where
  finalBlock := false
  litlen := .new litlenBits
  dist := .new distBits
  codeLength := .new codeLengthBits
  hlit := 0
  hdist := 0
  hclen := 0
  clIndex := 0
  clLengths := List.replicate 19 0
  lengths := []

def Inflater.new : Inflater where
  state := .blockHeader
  block := .new
  bitbuf := 0
  nbits := 0
  tablesFixed := false
  window := []
  delivered := 0
  base := 0
  limit := 2 ^ 64 - 1
  error := none
  trailing := []

def Inflater.setLimit (inflater : Inflater) (limit : Nat) : Inflater :=
  { inflater with limit }

def Inflater.totalOut (inflater : Inflater) : Nat :=
  inflater.base + inflater.window.length

/-- The end of the room decoding may write into, and whether it is the limit that sets it. -/
def Inflater.outEnd (inflater : Inflater) : Nat × Bool :=
  let budget := inflater.limit - inflater.totalOut
  if budget < bufLen - inflater.window.length then (inflater.window.length + budget, true)
  else (bufLen, false)

/-- Keep the last window of history at the front of the buffer. -/
def Inflater.slide (inflater : Inflater) : Inflater :=
  if inflater.window.length ≤ windowSize then inflater
  else
    let shift := inflater.window.length - windowSize
    { inflater with
      window := inflater.window.drop shift
      delivered := inflater.delivered - shift
      base := inflater.base + shift }

/-! ### Decoding steps -/

/-- A decoder during a call, and the input it has not taken yet. -/
structure Feed where
  self : Inflater
  input : List UInt8
deriving DecidableEq, Repr

/-- A piece of a decoding step. What it changed before failing stays changed. -/
abbrev Decoding (α : Type) := EStateM Fault Feed α

def refuse {α : Type} (error : Error) : Decoding α :=
  throw (.refused error)

def panicked {α : Type} : Decoding α :=
  throw .panicked

def update (change : Inflater → Inflater) : Decoding Unit :=
  modify fun feed => { feed with self := change feed.self }

def actIf (condition : Bool) (action : Decoding Unit) : Decoding Unit :=
  if condition then action else pure ()

def updateBlock (change : Block → Block) : Decoding Unit :=
  update fun inflater => { inflater with block := change inflater.block }

def built (result : Except Fault DecodeTable) : Decoding DecodeTable :=
  match result with
  | .ok table => pure table
  | .error fault => throw fault

def become (state : State) : Decoding (Option Step) := do
  update fun inflater => { inflater with state }
  return none

/-- No room for another byte: either the limit is reached or the buffer needs to slide. -/
def outOfRoom (limited : Bool) : Decoding (Option Step) := do
  let feed ← get
  if limited then refuse (.limitExceeded feed.self.limit) else return some .needsRoom

/-- Pull whole input bytes until at least some number of bits are buffered. -/
def pull (n bitbuf nbits : Nat) : List UInt8 → Bool × Nat × Nat × List UInt8
  | [] => (decide (n ≤ nbits), bitbuf, nbits, [])
  | byte :: input =>
    if nbits < n then pull n ((bitbuf ||| byte.toNat <<< nbits) % 2 ^ 64) (nbits + 8) input
    else (true, bitbuf, nbits, byte :: input)

def ensure (n : Nat) : Decoding Bool := do
  let feed ← get
  let (ready, bitbuf, nbits, input) := pull n feed.self.bitbuf feed.self.nbits feed.input
  set { feed with self := { feed.self with bitbuf, nbits }, input }
  return ready

def Feed.bits (feed : Feed) (n : Nat) : Nat :=
  feed.self.bitbuf % 2 ^ n

def consume (n : Nat) : Decoding Unit := do
  let feed ← get
  if n ≤ feed.self.nbits then
    update fun inflater =>
      { inflater with bitbuf := inflater.bitbuf / 2 ^ n, nbits := inflater.nbits - n }
  else panicked

def push (byte : Nat) : Decoding Unit := do
  let feed ← get
  if feed.self.window.length < bufLen + copySlack then
    update fun inflater => { inflater with window := inflater.window ++ [UInt8.ofNat byte] }
  else panicked

/-- Follow a link the buffered bits confirm. `none` reads past the table. -/
def followLink (table : DecodeTable) (bitbuf nbits : Nat) (entry : Entry) : Option Entry :=
  if entry.tag = .link ∧ entry.bits ≤ nbits then
    table.entries[entry.value + bitbuf / 2 ^ table.primaryBits % 2 ^ entry.aux]?
  else some entry

/-- The entry the buffered bits confirm, if they do. A pair entry that they cannot yet confirm
is its first literal alone. -/
def confirmed (table : DecodeTable) (bitbuf nbits : Nat) : Option (Option Entry) := do
  let primary ← table.entries[bitbuf % 2 ^ table.primaryBits]?
  let entry ← followLink table bitbuf nbits primary
  if entry.tag ≠ .link ∧ entry.bits ≤ nbits then some (some entry)
  else if entry.tag = .pair ∧ entry.aux ≤ nbits then
    some (some ⟨entry.aux, .literal, 0, entry.value &&& 0xFF⟩)
  else some none

/-- Pull one byte after another until the next symbol is confirmed. -/
def peekFrom (table : DecodeTable) (bitbuf nbits : Nat) :
    List UInt8 → Option (Option Entry × Nat × Nat × List UInt8)
  | [] => do
      let entry ← confirmed table bitbuf nbits
      some (entry, bitbuf, nbits, [])
  | byte :: input => do
      match ← confirmed table bitbuf nbits with
      | some entry => some (some entry, bitbuf, nbits, byte :: input)
      | none => peekFrom table ((bitbuf ||| byte.toNat <<< nbits) % 2 ^ 64) (nbits + 8) input

/-- Decode the next symbol's entry without consuming it, or `none` when the input runs out
first. -/
def peek (table : DecodeTable) : Decoding (Option Entry) := do
  let feed ← get
  match peekFrom table feed.self.bitbuf feed.self.nbits feed.input with
  | none => panicked
  | some (entry, bitbuf, nbits, input) =>
    set { feed with self := { feed.self with bitbuf, nbits }, input }
    return entry

/-- Copy the match in runs, each of what lies between its start and the write position. -/
def copyRuns (src stop : Nat) : Nat → List UInt8 → List UInt8
  | 0, window => window
  | fuel + 1, window =>
    if window.length < stop then
      let run := min (window.length - src) (stop - window.length)
      copyRuns src stop fuel (window ++ (window.drop src).take run)
    else window

def copyMatch (distance length : Nat) : Decoding Unit := do
  let feed ← get
  let window := feed.self.window
  if 1 ≤ distance ∧ distance ≤ window.length
      ∧ window.length + length + copySlack ≤ bufLen + copySlack then
    let src := window.length - distance
    update fun inflater => { inflater with
      window :=
        if length ≤ distance then window ++ (window.drop src).take length
        else copyRuns src (window.length + length) length window }
  else panicked

def keepTrailing : Nat → Decoding Unit
  | 0 => return ()
  | bytes + 1 => do
      let feed ← get
      if feed.self.trailing.length < 7 then
        update fun inflater =>
          { inflater with trailing := inflater.trailing ++ [UInt8.ofNat (feed.bits 8)] }
        consume 8
        keepTrailing bytes
      else panicked

/-- Leave the block. Whole bytes left in the bit buffer belong to whatever follows the last. -/
def afterBlock : Decoding (Option Step) := do
  let feed ← get
  if feed.self.block.finalBlock then
    consume (feed.self.nbits % 8)
    update fun inflater => { inflater with trailing := [] }
    keepTrailing (feed.self.nbits / 8)
    update fun inflater => { inflater with bitbuf := 0 }
    become .done
  else become .blockHeader

def checkDistanceEntry (entry : Entry) : Decoding Unit :=
  match entry.tag with
  | .distance => return ()
  | .badSymbol => refuse (.invalidDistanceSymbol entry.value)
  | _ => refuse (.invalidCode .distance)

def checkDistance (distance : Nat) : Decoding Unit := do
  let feed ← get
  if feed.self.totalOut < distance then
    refuse (.distanceTooFar distance feed.self.totalOut)
  else return ()

/-- Bits above `nbits` are a copy of input not consumed yet. Clear them. -/
def maskBuffer : Decoding Unit :=
  update fun inflater =>
    if inflater.nbits < 64 then
      { inflater with bitbuf := inflater.bitbuf % 2 ^ inflater.nbits }
    else inflater

def fixedTables : Decoding Unit := do
  let feed ← get
  if feed.self.tablesFixed then return ()
  else
    let litlen ← built (feed.self.block.litlen.build fixedLitlenLengths .literalLength true)
    updateBlock fun block => { block with litlen }
    let dist ← built (feed.self.block.dist.build fixedDistLengths .distance false)
    updateBlock fun block => { block with dist }
    update fun inflater => { inflater with tablesFixed := true }

/-! ### The states -/

def enterBlock (kind : Nat) : Decoding (Option Step) :=
  match kind with
  | 0 => become .storedHeader
  | 1 => do
      fixedTables
      become .symbols
  | 2 => become .dynamicCounts
  | _ => refuse .invalidBlockType

def stepBlockHeader : Decoding (Option Step) := do
  if ← ensure 3 then
    let feed ← get
    updateBlock fun block => { block with finalBlock := feed.bits 1 == 1 }
    consume 3
    enterBlock (feed.self.bitbuf / 2 % 4)
  else return some .needsInput

def stepStoredHeader : Decoding (Option Step) := do
  let feed ← get
  consume (feed.self.nbits % 8)
  if ← ensure 32 then
    let feed ← get
    let len := feed.bits 16
    let nlen := feed.self.bitbuf / 2 ^ 16 % 2 ^ 16
    consume 32
    if len + nlen = 0xFFFF then become (.stored len)
    else refuse (.storedLengthMismatch len nlen)
  else return some .needsInput

/-- Whole bytes still in the bit buffer come first. -/
def drainStored (stop : Nat) : Nat → Decoding Nat
  | 0 => return 0
  | remaining + 1 => do
      let feed ← get
      if 8 ≤ feed.self.nbits ∧ feed.self.window.length < stop then
        push (feed.bits 8)
        consume 8
        drainStored stop remaining
      else return remaining + 1

def copyStored (stop remaining : Nat) : Decoding Nat := do
  let feed ← get
  if feed.self.nbits < 8 then
    let n := min (min remaining feed.input.length) (stop - feed.self.window.length)
    set { self := { feed.self with window := feed.self.window ++ feed.input.take n },
          input := feed.input.drop n : Feed }
    return remaining - n
  else return remaining

def stepStored (remaining : Nat) : Decoding (Option Step) := do
  let feed ← get
  let (stop, limited) := feed.self.outEnd
  let remaining ← drainStored stop remaining
  let remaining ← copyStored stop remaining
  if remaining = 0 then afterBlock
  else
    update fun inflater => { inflater with state := .stored remaining }
    let feed ← get
    if feed.self.window.length = stop then outOfRoom limited else return some .needsInput

def stepDynamicCounts : Decoding (Option Step) := do
  if ← ensure 14 then
    let feed ← get
    let hlit := 257 + feed.bits 5
    let hdist := 1 + feed.self.bitbuf / 2 ^ 5 % 32
    let hclen := 4 + feed.self.bitbuf / 2 ^ 10 % 16
    updateBlock fun block => { block with hlit, hdist, hclen }
    consume 14
    if litlenSymbols < hlit then refuse (.tooManyLengthCodes hlit)
    else
      updateBlock fun block => { block with clLengths := List.replicate 19 0, clIndex := 0 }
      become .dynamicCodeLengths
  else return some .needsInput

def stepDynamicCodeLengths : Decoding (Option Step) := do
  let feed ← get
  let block := feed.self.block
  if block.clIndex < block.hclen then
    if ← ensure 3 then
      let feed ← get
      match codeLengthOrder[block.clIndex]? with
      | none => panicked
      | some symbol =>
        updateBlock fun block =>
          { block with clLengths := block.clLengths.set symbol (feed.bits 3) }
        consume 3
        updateBlock fun block => { block with clIndex := block.clIndex + 1 }
        return none
    else return some .needsInput
  else
    let codeLength ← built (block.codeLength.build block.clLengths .codeLength false)
    updateBlock fun block => { block with codeLength, lengths := [] }
    become .dynamicLengths

def repeatExtra (symbol : Nat) : Nat :=
  if symbol = 16 then 2 else if symbol = 17 then 3 else if symbol = 18 then 7 else 0

def repeatRun (lengths : List Nat) (symbol value : Nat) : Except Error (Nat × Nat) :=
  if symbol ≤ 15 then .ok (symbol, 1)
  else if symbol = 16 then
    match lengths.getLast? with
    | none => .error .repeatWithoutPrevious
    | some last => .ok (last, 3 + value)
  else if symbol = 17 then .ok (0, 3 + value)
  else .ok (0, 11 + value)

def extendLengths (total : Nat) (lengths : List Nat) (symbol value : Nat) :
    Except Error (List Nat) := do
  let (fill, count) ← repeatRun lengths symbol value
  if total < lengths.length + count then .error .codeLengthsOverrun
  else .ok (lengths ++ List.replicate count fill)

def stepDynamicLengths : Decoding (Option Step) := do
  let feed ← get
  let block := feed.self.block
  let total := block.hlit + block.hdist
  if block.lengths.length < total then
    match ← peek block.codeLength with
    | none => return some .needsInput
    | some entry =>
      if entry.tag ≠ .literal then refuse (.invalidCode .codeLength)
      else if ← ensure (entry.bits + repeatExtra entry.value) then
        consume entry.bits
        let feed ← get
        let value := feed.bits (repeatExtra entry.value)
        consume (repeatExtra entry.value)
        match extendLengths total block.lengths entry.value value with
        | .error error => refuse error
        | .ok lengths =>
          updateBlock fun block => { block with lengths }
          return none
      else return some .needsInput
  else if block.lengths.getD endOfBlock 0 = 0 then refuse .missingEndOfBlock
  else
    let litlen ← built
      (block.litlen.build (block.lengths.take block.hlit) .literalLength true)
    updateBlock fun block => { block with litlen }
    let dist ← built (block.dist.build (block.lengths.drop block.hlit) .distance false)
    updateBlock fun block => { block with dist }
    update fun inflater => { inflater with tablesFixed := false }
    become .symbols

def stepSymbol : Decoding (Option Step) := do
  let feed ← get
  let (stop, limited) := feed.self.outEnd
  match ← peek feed.self.block.litlen with
  | none => return some .needsInput
  | some entry =>
    match entry.tag with
    | .literal =>
      if stop ≤ feed.self.window.length then outOfRoom limited
      else
        push entry.value
        consume entry.bits
        return none
    | .pair =>
      if stop < feed.self.window.length + 2 then
        -- one literal at a time at the edge of the room
        if stop ≤ feed.self.window.length then outOfRoom limited
        else
          push entry.value
          consume entry.aux
          return none
      else
        push entry.value
        push (entry.value / 2 ^ 8)
        consume entry.bits
        return none
    | .length =>
      consume entry.bits
      become (.lengthExtra entry.value entry.aux)
    | .endOfBlock =>
      consume entry.bits
      afterBlock
    | .badSymbol => refuse (.invalidLengthSymbol entry.value)
    | _ => refuse (.invalidCode .literalLength)

def stepLengthExtra (base extra : Nat) : Decoding (Option Step) := do
  if ← ensure extra then
    let feed ← get
    consume extra
    become (.distance (base + feed.bits extra))
  else return some .needsInput

def stepDistance (length : Nat) : Decoding (Option Step) := do
  let feed ← get
  match ← peek feed.self.block.dist with
  | none => return some .needsInput
  | some entry =>
    checkDistanceEntry entry
    consume entry.bits
    become (.distanceExtra length entry.value entry.aux)

def stepDistanceExtra (length base extra : Nat) : Decoding (Option Step) := do
  if ← ensure extra then
    let feed ← get
    let distance := base + feed.bits extra
    consume extra
    checkDistance distance
    become (.copy length distance)
  else return some .needsInput

def stepCopy (length distance : Nat) : Decoding (Option Step) := do
  let feed ← get
  let (stop, limited) := feed.self.outEnd
  let n := min length (stop - feed.self.window.length)
  actIf (0 < n) (copyMatch distance n)
  if length - n = 0 then become .symbols
  else
    update fun inflater => { inflater with state := .copy (length - n) distance }
    outOfRoom limited

/-! ### The fast symbol loop -/

/-- Refill the bit buffer with one 64-bit load. -/
def refill : Decoding Unit := do
  let feed ← get
  let whole := (63 - feed.self.nbits) / 8
  set { self := { feed.self with
          bitbuf := (feed.self.bitbuf ||| leValue (feed.input.take 8) <<< feed.self.nbits) % 2 ^ 64
          nbits := feed.self.nbits + whole * 8 },
        input := feed.input.drop whole : Feed }

def found (table : DecodeTable) : Decoding Entry := do
  let feed ← get
  match table.find feed.self.bitbuf with
  | none => panicked
  | some entry => return entry

/-- How one turn of the fast loop ends. -/
inductive Turn where
  | again
  | stop
  | fail (error : Error)
deriving DecidableEq, Repr

def fastMatch (entry : Entry) : Decoding Turn := do
  consume entry.bits
  let feed ← get
  let length := entry.value + feed.bits entry.aux
  consume entry.aux
  let distEntry ← found feed.self.block.dist
  match distEntry.tag with
  | .distance =>
    consume distEntry.bits
    let feed ← get
    let distance := distEntry.value + feed.bits distEntry.aux
    consume distEntry.aux
    if feed.self.totalOut < distance then
      return .fail (.distanceTooFar distance feed.self.totalOut)
    else
      copyMatch distance length
      return .again
  | .badSymbol => return .fail (.invalidDistanceSymbol distEntry.value)
  | _ => return .fail (.invalidCode .distance)

/-- One turn, while eight input bytes and a whole longest match of output room remain. -/
def fastTurn (fastEnd : Nat) : Decoding Turn := do
  let feed ← get
  if feed.input.length < 8 ∨ fastEnd < feed.self.window.length then return .stop
  else
    refill
    let entry ← found feed.self.block.litlen
    match entry.tag with
    | .literal =>
      push entry.value
      consume entry.bits
      return .again
    | .pair =>
      push entry.value
      push (entry.value / 2 ^ 8)
      consume entry.bits
      return .again
    | .length => fastMatch entry
    | .endOfBlock =>
      consume entry.bits
      maskBuffer
      let _ ← afterBlock
      return .stop
    | .badSymbol => return .fail (.invalidLengthSymbol entry.value)
    | _ => return .fail (.invalidCode .literalLength)

def fastLoop (fastEnd : Nat) : Nat → Decoding (Option Error)
  | 0 => panicked
  | turns + 1 => do
      match ← fastTurn fastEnd with
      | .again => fastLoop fastEnd turns
      | .stop => return none
      | .fail error => return some error

def Feed.unread (feed : Feed) : Nat :=
  feed.self.nbits + 8 * feed.input.length

def fastSymbols : Decoding Unit := do
  let feed ← get
  let stop := feed.self.outEnd.1
  if stop < maxMatch + 2 then return ()
  else
    let result ← fastLoop (stop - (maxMatch + 2)) (feed.unread + 1)
    maskBuffer
    match result with
    | none => return ()
    | some error => refuse error

def stepSymbols (fast : Bool) : Decoding (Option Step) := do
  actIf fast fastSymbols
  let feed ← get
  if feed.self.state = .symbols then stepSymbol else return none

/-! ### Running -/

/-- One turn of the state machine. `none` goes on with the next. -/
def turn (fast : Bool) : Decoding (Option Step) := do
  let feed ← get
  match feed.self.state with
  | .done => return some .done
  | .blockHeader => stepBlockHeader
  | .storedHeader => stepStoredHeader
  | .stored remaining => stepStored remaining
  | .dynamicCounts => stepDynamicCounts
  | .dynamicCodeLengths => stepDynamicCodeLengths
  | .dynamicLengths => stepDynamicLengths
  | .symbols => stepSymbols fast
  | .lengthExtra base extra => stepLengthExtra base extra
  | .distance length => stepDistance length
  | .distanceExtra length base extra => stepDistanceExtra length base extra
  | .copy length distance => stepCopy length distance

def stepLoop (fast : Bool) : Nat → Decoding Step
  | 0 => panicked
  | turns + 1 => do
      match ← turn fast with
      | none => stepLoop fast turns
      | some step => return step

/-- How many turns are enough: each reads a bit, copies a byte of a match or leaves a state. -/
def Feed.turns (feed : Feed) : Nat :=
  300 * (feed.unread + 1)

def step (fast : Bool) : Decoding Step := do
  let feed ← get
  stepLoop fast feed.turns

/-- Where decoded bytes go: a slice with some room, or a growing vector. -/
structure Sink where
  room : Option Nat
  written : List UInt8
deriving DecidableEq, Repr

def Sink.fits (sink : Sink) (bytes : List UInt8) : Nat :=
  match sink.room with
  | none => bytes.length
  | some room => min bytes.length (room - sink.written.length)

/-- Hand over as many waiting bytes as fit. -/
def deliver (inflater : Inflater) (sink : Sink) : Inflater × Sink :=
  let waiting := inflater.window.drop inflater.delivered
  let taken := sink.fits waiting
  ({ inflater with delivered := inflater.delivered + taken },
    { sink with written := sink.written ++ waiting.take taken })

/-- What one call did: the bytes it wrote and how it ended, with the input left over. -/
structure Fed where
  inflater : Inflater
  written : List UInt8
  outcome : Except Fault (Status × List UInt8)
deriving DecidableEq, Repr

def runLoop (fast : Bool) : Nat → Inflater → List UInt8 → Sink → Fed
  | 0, inflater, _, sink => ⟨inflater, sink.written, .error .panicked⟩
  | turns + 1, inflater, input, sink =>
    let (inflater, sink) := deliver inflater sink
    if inflater.delivered < inflater.window.length then
      ⟨inflater, sink.written, .ok (.outputFull, input)⟩
    else if inflater.state = .done then ⟨inflater, sink.written, .ok (.streamEnd, input)⟩
    else
      let inflater :=
        if bufLen - inflater.window.length < slideRoom then inflater.slide else inflater
      match step fast { self := inflater, input } with
      | .ok .needsInput feed =>
        let (inflater, sink) := deliver feed.self sink
        ⟨inflater, sink.written,
          .ok (if inflater.delivered < inflater.window.length then .outputFull
            else .needsInput, feed.input)⟩
      | .ok .needsRoom feed => runLoop fast turns feed.self feed.input sink
      | .ok .done feed => runLoop fast turns feed.self feed.input sink
      | .error (.refused error) feed =>
        ⟨{ feed.self with error := some error }, sink.written, .error (.refused error)⟩
      | .error .panicked feed => ⟨feed.self, sink.written, .error .panicked⟩

def Inflater.feed (fast : Bool) (inflater : Inflater) (input : List UInt8) (room : Option Nat) :
    Fed :=
  match inflater.error with
  | some error => ⟨inflater, [], .error (.refused error)⟩
  | none =>
    runLoop fast (300 * (inflater.nbits + 8 * input.length + 1) + 2) inflater input
      { room, written := [] }

end Purrdf.Deflate
