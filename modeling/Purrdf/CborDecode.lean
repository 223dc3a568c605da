import Purrdf.ByteCursor
import Purrdf.CborValue

/-!
# The CBOR decoders

The decoder reads one head after another and keeps the arrays, maps and tags
whose items are still being read on a stack, the innermost first. A completed
item is attached to the container on top, which may complete that one in turn.
The deterministic decoder also refuses a long argument, an indefinite length, a
float a shorter one holds, and a key that does not come after the last one. A
`usize` has 64 bits, so every length fits one.
-/

namespace Purrdf.Cbor

/-- The most arrays, maps and tags open at once. -/
structure Limits where
  maxDepth : Nat

/-- What is wrong with a CBOR item. -/
inductive DecodeErrorKind where
  | truncated
  | malformed (rule : String)
  | invalidUtf8
  | depth (limit : Nat)
  | notDeterministic (rule : String)
  | trailing
deriving DecidableEq

structure DecodeError where
  kind : DecodeErrorKind
  offset : Nat
deriving DecidableEq

abbrev Slice := ByteCursor

namespace Slice

def byte (source : Slice) : Except DecodeError (UInt8 × Slice) :=
  match source.bytes[source.pos]? with
  | some byte => .ok (byte, { source with pos := source.pos + 1 })
  | none => .error ⟨.truncated, source.pos⟩

/-- The next `len` bytes. -/
def take (source : Slice) (len : UInt64) : Except DecodeError (List UInt8 × Slice) :=
  if len.toNat ≤ source.bytes.length - source.pos then
    .ok ((source.bytes.drop source.pos).take len.toNat,
      { source with pos := source.pos + len.toNat })
  else .error ⟨.truncated, source.bytes.length⟩

end Slice

/-- The bytes of an argument, shifted into `value`. -/
def argumentBytes : Nat → UInt64 → Slice → Except DecodeError (UInt64 × Slice)
  | 0, value, source => .ok (value, source)
  | width + 1, value, source =>
    match source.byte with
    | .ok (byte, source) => argumentBytes width (CborHead.shiftIn value byte) source
    | .error refusal => .error refusal

def shortest (width : Nat) (value : UInt64) : Bool :=
  match width with
  | 1 => 24 ≤ value
  | 2 => 0xff < value
  | 4 => 0xffff < value
  | _ => 0xffffffff < value

/-- A head's argument: its value, or `none` for an indefinite length. -/
def argument (source : Slice) (initial : UInt8) (start : Nat) (deterministic : Bool) :
    Except DecodeError (Option UInt64 × Slice) :=
  let info := initial &&& 31
  if info ≤ 23 then .ok (some info.toUInt64, source)
  else if info = 31 then .ok (none, source)
  else
    match CborHead.argumentWidth info with
    | none => .error ⟨.malformed "additional information 28 to 30 is reserved", start⟩
    | some width =>
      match argumentBytes width 0 source with
      | .error refusal => .error refusal
      | .ok (value, source) =>
        -- a float's width is its precision and has a rule of its own
        if deterministic && initial >>> 5 != 7 && !shortest width value then
          .error ⟨.notDeterministic "an argument must use its shortest form", start⟩
        else .ok (some value, source)

/-! ### Strings -/

def fromUtf8 (bytes : List UInt8) : Option (List Char) :=
  if Utf8.encode (Utf8.decode bytes) = bytes then some (Utf8.decode bytes) else none

/-- The next chunk of an indefinite string: its length and its offset, or `none`
at the break. -/
def nextStringChunk (source : Slice) (major : UInt8) :
    Except DecodeError (Option (UInt64 × Nat) × Slice) :=
  let start := source.pos
  match source.byte with
  | .error refusal => .error refusal
  | .ok (initial, source) =>
    if initial = 0xff then .ok (none, source)
    else if initial >>> 5 ≠ major then
      .error ⟨.malformed "an indefinite string's chunks must be strings of its own type", start⟩
    else
      match argument source initial start false with
      | .error refusal => .error refusal
      | .ok (none, _) =>
        .error ⟨.malformed "an indefinite string's chunks must be definite", start⟩
      | .ok (some length, source) => .ok (some (length, start), source)

/-- The chunks of an indefinite string up to its break. Each takes a byte, so
`left` bytes make at most so many chunks. -/
def stringChunks (major : UInt8) : Nat → List UInt8 → Slice →
    Except DecodeError (List UInt8 × Slice)
  | 0, _, source => .error ⟨.truncated, source.pos⟩
  | left + 1, bytes, source =>
    match nextStringChunk source major with
    | .error refusal => .error refusal
    | .ok (none, source) => .ok (bytes, source)
    | .ok (some (length, start), source) =>
      match source.take length with
      | .error refusal => .error refusal
      | .ok (chunk, source) =>
        if major = CborHead.TEXT ∧ fromUtf8 chunk = none then
          .error ⟨.invalidUtf8, start⟩
        else stringChunks major left (bytes ++ chunk) source

def stringBytes (source : Slice) (major : UInt8) (length : Option UInt64)
    (deterministic : Bool) (start : Nat) : Except DecodeError (List UInt8 × Slice) :=
  match length with
  | some length => source.take length
  | none =>
    if deterministic then .error ⟨.notDeterministic "a length must be definite", start⟩
    else stringChunks major (source.bytes.length - source.pos) [] source

def stringValue (source : Slice) (major : UInt8) (length : Option UInt64)
    (deterministic : Bool) (start : Nat) : Except DecodeError (Value × Slice) :=
  match stringBytes source major length deterministic start with
  | .error refusal => .error refusal
  | .ok (bytes, source) =>
    if major = CborHead.BYTES then .ok (.bytes bytes, source)
    else
      match fromUtf8 bytes with
      | some text => .ok (.text text, source)
      | none => .error ⟨.invalidUtf8, start⟩

/-- The float of a major type 7 item, and the length of an item of its width. -/
def floatOf (info : UInt8) (argument : UInt64) : UInt64 × Nat :=
  if info = 25 then (f16ToF64 argument.toUInt16, 3)
  else if info = 26 then (f32ToF64 argument.toUInt32, 5)
  else (argument, 9)

def simpleOrFloat (initial : UInt8) (argument : UInt64) (start : Nat) (deterministic : Bool) :
    Except DecodeError Value :=
  let info := initial &&& 31
  if info = 20 then .ok (.bool false)
  else if info = 21 then .ok (.bool true)
  else if info = 22 then .ok .null
  else if info ≤ 23 then .ok (.simple info)
  else if info = 24 then
    if argument < 32 then
      .error ⟨.malformed "a two-byte simple value must be at least 32", start⟩
    else .ok (.simple argument.toUInt8)
  else
    let (float, width) := floatOf info argument
    if deterministic ∧ width ≠ (floatItem float).length then
      .error ⟨.notDeterministic "a float must use its shortest exact form", start⟩
    else .ok (.float float)

/-- An array, map or tag whose items are still being read, where it starts, and
how many of its items remain when their number is known. -/
inductive Open where
  | array (start : Nat) (remaining : Option UInt64) (items : List Value)
  | map (start : Nat) (remaining : Option UInt64) (entries : List (Value × Value))
      (key : Option Value) (lastKey : Option (Nat × Nat))
  | tag (start : Nat) (number : UInt64)

def Slice.span (source : Slice) (span : Nat × Nat) : List UInt8 :=
  (source.consumed.take span.2).drop span.1

/-- Attach an item that starts at `start` and ends at the offset of `source`,
and complete what it completes: the root, or the items still open. -/
def attachTo (source : Slice) (deterministic : Bool) :
    List Open → Value → Nat → Except DecodeError (Option Value × List Open)
  | [], item, _ => .ok (some item, [])
  | .tag at' number :: stack, item, _ =>
    attachTo source deterministic stack (.tag number item) at'
  | .array at' remaining items :: stack, item, _ =>
    let remaining := remaining.map (· - 1)
    if remaining = some 0 then
      attachTo source deterministic stack (.array (items ++ [item])) at'
    else .ok (none, .array at' remaining (items ++ [item]) :: stack)
  | .map at' remaining entries (some pending) lastKey :: stack, item, _ =>
    let remaining := remaining.map (· - 1)
    if remaining = some 0 then
      attachTo source deterministic stack (.map (entries ++ [(pending, item)])) at'
    else .ok (none, .map at' remaining (entries ++ [(pending, item)]) none lastKey :: stack)
  | .map at' remaining entries none lastKey :: stack, item, start =>
    if deterministic then
      if ∃ last ∈ lastKey, source.span (start, source.pos) ≤ source.span last then
        .error ⟨.notDeterministic "map keys must be in strictly ascending bytewise order",
          start⟩
      else .ok (none, .map at' remaining entries (some item) (some (start, source.pos)) :: stack)
    else .ok (none, .map at' remaining entries (some item) lastKey :: stack)

/-! ### One item after another -/

/-- What one head makes of the stack: a completed item and where it starts, or a
container opened. -/
inductive Progress where
  | item (value : Value) (start : Nat) (stack : List Open) (source : Slice)
  | opened (stack : List Open) (source : Slice)

/-- A break ends the indefinite array or map on top. -/
def closeIndefinite (stack : List Open) (source : Slice) (start : Nat) :
    Except DecodeError Progress :=
  match stack with
  | .array at' none items :: stack => .ok (.item (.array items) at' stack source)
  | .map at' none entries none _ :: stack => .ok (.item (.map entries) at' stack source)
  | _ => .error ⟨.malformed "a break outside an indefinite array or map", start⟩

def readBody (limits : Limits) (deterministic : Bool) (stack : List Open) (source : Slice)
    (initial : UInt8) (length : Option UInt64) (start : Nat) : Except DecodeError Progress :=
  let major := initial >>> 5
  let indefinite : Except DecodeError Progress :=
    .error ⟨.malformed "only strings, arrays and maps have an indefinite length", start⟩
  if major = 0 then
    match length with
    | some n => .ok (.item (.integer (.unsigned n)) start stack source)
    | none => indefinite
  else if major = 1 then
    match length with
    | some n => .ok (.item (.integer (.negative n)) start stack source)
    | none => indefinite
  else if major = 2 ∨ major = 3 then
    match stringValue source major length deterministic start with
    | .ok (value, source) => .ok (.item value start stack source)
    | .error refusal => .error refusal
  else if major = 7 then
    match length with
    | some n =>
      match simpleOrFloat initial n start deterministic with
      | .ok value => .ok (.item value start stack source)
      | .error refusal => .error refusal
    | none => indefinite
  else if limits.maxDepth ≤ stack.length then .error ⟨.depth limits.maxDepth, start⟩
  else if major = 6 then
    match length with
    | some number => .ok (.opened (.tag start number :: stack) source)
    | none => indefinite
  else if deterministic ∧ length = none then
    .error ⟨.notDeterministic "a length must be definite", start⟩
  else if major = 4 then
    if length = some 0 then .ok (.item (.array []) start stack source)
    else .ok (.opened (.array start length [] :: stack) source)
  else
    if length = some 0 then .ok (.item (.map []) start stack source)
    else .ok (.opened (.map start length [] none none :: stack) source)

def readItem (limits : Limits) (deterministic : Bool) (stack : List Open) (source : Slice) :
    Except DecodeError Progress :=
  let start := source.pos
  match source.byte with
  | .error refusal => .error refusal
  | .ok (initial, source) =>
    if initial = 0xff then closeIndefinite stack source start
    else
      match argument source initial start deterministic with
      | .error refusal => .error refusal
      | .ok (length, source) =>
        readBody limits deterministic stack source initial length start

def turn (limits : Limits) (deterministic : Bool) (stack : List Open) (source : Slice) :
    Except DecodeError (Option Value × List Open × Slice) :=
  match readItem limits deterministic stack source with
  | .error refusal => .error refusal
  | .ok (.opened stack source) => .ok (none, stack, source)
  | .ok (.item value start stack source) =>
    match attachTo source deterministic stack value start with
    | .error refusal => .error refusal
    | .ok (done, stack) => .ok (done, stack, source)

/-- Turn after turn. Each takes a byte, so `left` bytes make at most so many. -/
def decodeLoop (limits : Limits) (deterministic : Bool) :
    Nat → List Open → Slice → Except DecodeError (Value × Slice)
  | 0, _, source => .error ⟨.truncated, source.pos⟩
  | left + 1, stack, source =>
    match turn limits deterministic stack source with
    | .error refusal => .error refusal
    | .ok (some value, _, source) => .ok (value, source)
    | .ok (none, stack, source) => decodeLoop limits deterministic left stack source

def decodeItem (source : Slice) (limits : Limits) (deterministic : Bool) :
    Except DecodeError (Value × Slice) :=
  decodeLoop limits deterministic (source.bytes.length - source.pos) [] source

/-- The one item at the front of `bytes`, and how many bytes it took. -/
def decodePrefix (bytes : List UInt8) (limits : Limits) : Except DecodeError (Value × Nat) :=
  match decodeItem ⟨bytes, 0⟩ limits false with
  | .ok (value, source) => .ok (value, source.pos)
  | .error refusal => .error refusal

/-- `bytes` as exactly one well-formed item. -/
def decode (bytes : List UInt8) (limits : Limits) : Except DecodeError Value :=
  match decodePrefix bytes limits with
  | .error refusal => .error refusal
  | .ok (value, used) =>
    if used = bytes.length then .ok value else .error ⟨.trailing, used⟩

/-- `bytes` as exactly one item in core deterministic encoding. -/
def decodeDeterministic (bytes : List UInt8) (limits : Limits) : Except DecodeError Value :=
  match decodeItem ⟨bytes, 0⟩ limits true with
  | .error refusal => .error refusal
  | .ok (value, source) =>
    if source.pos = bytes.length then .ok value else .error ⟨.trailing, source.pos⟩

end Purrdf.Cbor
