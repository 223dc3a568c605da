import Mathlib.Data.List.Basic
import Purrdf.CborHead

/-!
# Merkle Mountain Range commitments

The frontier of `index.mmr`, its root, and the verifier of detached inclusion
proofs. BLAKE3 is a parameter: a function from preimages to 32-byte digests.
Everything the code streams into the hasher is spelled out as a preimage, so the
domain separation of leaves, parents and roots is visible in the definitions.

Next to `root` and `verifyProof` stand the lists of the preimages they hash.
They are what a collision hypothesis ranges over.
-/

namespace Purrdf.Mmr

open CborHead

abbrev Digest := Vector UInt8 32

def LEAF_DOMAIN : List UInt8 := asciiBytes "gts-mmr-leaf-v1"
def PARENT_DOMAIN : List UInt8 := asciiBytes "gts-mmr-parent-v1"
def ROOT_DOMAIN : List UInt8 := asciiBytes "gts-mmr-root-v1"

structure MmrPeak where
  height : UInt64
  hash : List UInt8
deriving DecidableEq, Repr

inductive ProofSide where
  | left
  | right
deriving DecidableEq, Repr

structure ProofStep where
  parentHeight : UInt64
  side : ProofSide
  hash : List UInt8
deriving DecidableEq, Repr

/-- A detached inclusion proof, as its holder presents it: no field is checked
before `verifyProof`. -/
structure Proof where
  count : UInt64
  leafIndex : UInt64
  frameId : List UInt8
  root : List UInt8
  peakIndex : UInt64
  peaks : List MmrPeak
  path : List ProofStep
deriving DecidableEq, Repr

inductive ProofError where
  | digestLength (field : String) (actual : Nat)
  | peakHeight (height : UInt64)
  | leafRange (leafIndex count : UInt64)
  | peakRangeOverflow (start width : UInt64)
  | uncovered (leafIndex count : UInt64)
  | peakIndex (actual : UInt64) (available : Nat)
  | peakHeights (actual : List UInt64) (count : UInt64)
  | leafPeak (leafIndex : UInt64) (expected : Nat) (actual : UInt64)
  | parentHeight (parent : UInt64) (previous : Nat)
  | pathHeight (actual : Nat) (expected : UInt64)
  | peakMismatch (actual expected : List UInt8)
  | rootMismatch (actual expected : List UInt8)
deriving DecidableEq, Repr

inductive MmrStateError where
  | countOverflow
  | peakCount (count : UInt64) (expected actual : Nat)
  | peakHeight (peak : Nat) (expected actual : UInt64)
  | peakHashLength (peak actual : Nat)
deriving DecidableEq, Repr

/-- The incremental frontier: how many frame ids it commits to, and its peaks
from the oldest and largest subtree to the newest and smallest. -/
structure MmrPeaks where
  count : UInt64 := 0
  peaks : List MmrPeak := []
deriving DecidableEq, Repr

/-! ### Preimages -/

def nodePreimage (domain : List UInt8) (arity coordinate : UInt64) : List UInt8 :=
  encode ARRAY arity ++ writeText domain ++ encode UNSIGNED coordinate

def leafPreimage (index : UInt64) (frameId : List UInt8) : List UInt8 :=
  nodePreimage LEAF_DOMAIN 3 index ++ writeBytes frameId

def parentPreimage (parentHeight : UInt64) (left right : List UInt8) : List UInt8 :=
  nodePreimage PARENT_DOMAIN 4 parentHeight ++ (writeBytes left ++ writeBytes right)

def peakPreimage (peak : MmrPeak) : List UInt8 :=
  encode ARRAY 2 ++ (encode UNSIGNED peak.height ++ writeBytes peak.hash)

def rootPreimage (count : UInt64) (peaks : List MmrPeak) : List UInt8 :=
  nodePreimage ROOT_DOMAIN 3 count ++
    (encode ARRAY (UInt64.ofNat peaks.length) ++ peaks.flatMap peakPreimage)

section

variable (blake3 : List UInt8 → Digest)

def leafHash (index : UInt64) (frameId : List UInt8) : Digest :=
  blake3 (leafPreimage index frameId)

def parentHash (parentHeight : UInt64) (left right : List UInt8) : Digest :=
  blake3 (parentPreimage parentHeight left right)

def rootHash (count : UInt64) (peaks : List MmrPeak) : Digest :=
  blake3 (rootPreimage count peaks)

/-! ### Appending and the root -/

/-- The merge loop of `push`, on the peaks newest first: while the last peak has
the height of the carried subtree the two become one of the next height. -/
def mergePeaks : List MmrPeak → UInt64 → Digest → List MmrPeak
  | [], height, hash => [⟨height, hash.toList⟩]
  | left :: older, height, hash =>
    if left.height = height then
      mergePeaks older (height + 1) (parentHash blake3 (height + 1) left.hash hash.toList)
    else ⟨height, hash.toList⟩ :: left :: older

/-- What `mergePeaks` hashes. -/
def mergePreimages : List MmrPeak → UInt64 → Digest → List (List UInt8)
  | [], _, _ => []
  | left :: older, height, hash =>
    if left.height = height then
      parentPreimage (height + 1) left.hash hash.toList ::
        mergePreimages older (height + 1)
          (parentHash blake3 (height + 1) left.hash hash.toList)
    else []

namespace MmrPeaks

/-- Append one frame id. A full counter is refused before anything is hashed. -/
def push (frontier : MmrPeaks) (frameId : List UInt8) : Except MmrStateError MmrPeaks :=
  if frontier.count.toNat + 1 < 2 ^ 64 then
    .ok {
      count := frontier.count + 1
      peaks := (mergePeaks blake3 frontier.peaks.reverse 0
        (leafHash blake3 frontier.count frameId)).reverse
    }
  else .error .countOverflow

def root (frontier : MmrPeaks) : List UInt8 :=
  (rootHash blake3 frontier.count frontier.peaks).toList

/-- What `push` hashes. -/
def pushPreimages (frontier : MmrPeaks) (frameId : List UInt8) : List (List UInt8) :=
  leafPreimage frontier.count frameId ::
    mergePreimages blake3 frontier.peaks.reverse 0 (leafHash blake3 frontier.count frameId)

end MmrPeaks

/-- Append frame ids one after another to a frontier. `none` is the panic of the
`expect` on a refused append. -/
def pushAll : MmrPeaks → List (List UInt8) → Option MmrPeaks
  | frontier, [] => some frontier
  | frontier, frameId :: frameIds =>
    match frontier.push blake3 frameId with
    | .ok next => pushAll next frameIds
    | .error _ => none

def peakFold (frameIds : List (List UInt8)) : Option (List MmrPeak) :=
  (pushAll blake3 {} frameIds).map MmrPeaks.peaks

def root (frameIds : List (List UInt8)) : Option (List UInt8) :=
  (peakFold blake3 frameIds).map fun peaks =>
    (rootHash blake3 (UInt64.ofNat frameIds.length) peaks).toList

/-- What `pushAll` hashes. -/
def pushAllPreimages : MmrPeaks → List (List UInt8) → List (List UInt8)
  | _, [] => []
  | frontier, frameId :: frameIds =>
    frontier.pushPreimages blake3 frameId ++
      match frontier.push blake3 frameId with
      | .ok next => pushAllPreimages next frameIds
      | .error _ => []

/-- Every preimage `root` hashes. -/
def rootPreimages (frameIds : List (List UInt8)) : List (List UInt8) :=
  pushAllPreimages blake3 {} frameIds ++
    match peakFold blake3 frameIds with
    | some peaks => [rootPreimage (UInt64.ofNat frameIds.length) peaks]
    | none => []

end

/-! ### The verifier -/

/-- The loop of `expectedPeakHeights`: take off the highest set bit until
nothing remains. Each round clears a bit, so 64 rounds are enough. -/
def expectedPeakHeightsLoop : Nat → UInt64 → List UInt64
  | 0, _ => []
  | rounds + 1, remaining =>
    if 0 < remaining then
      let height := UInt64.ofNat remaining.toNat.log2
      height :: expectedPeakHeightsLoop rounds (remaining - 1 <<< height)
    else []

/-- The heights of the peaks over `count` leaves. -/
def expectedPeakHeights (count : UInt64) : List UInt64 := expectedPeakHeightsLoop 64 count

def peakWidth (height : UInt64) : Except ProofError UInt64 :=
  if height.toNat < 2 ^ 32 then
    if height.toNat < 64 then .ok (1 <<< height) else .error (.peakHeight height)
  else .error (.peakHeight height)

def peakIndexLoop (count leafIndex : UInt64) :
    List UInt64 → Nat → UInt64 → Except ProofError Nat
  | [], _, _ => .error (.uncovered leafIndex count)
  | height :: heights, index, start => do
      let width ← peakWidth height
      if start.toNat + width.toNat < 2 ^ 64 then
        let stop := start + width
        if start ≤ leafIndex ∧ leafIndex < stop then .ok index
        else peakIndexLoop count leafIndex heights (index + 1) stop
      else .error (.peakRangeOverflow start width)

def peakIndexForLeaf (count : UInt64) (heights : List UInt64) (leafIndex : UInt64) :
    Except ProofError Nat :=
  if count ≤ leafIndex then .error (.leafRange leafIndex count)
  else peakIndexLoop count leafIndex heights 0 0

def checkPeakHashes : List MmrPeak → Except ProofError Unit
  | [] => .ok ()
  | peak :: peaks =>
    if peak.hash.length ≠ 32 then .error (.digestLength "peak hash" peak.hash.length)
    else checkPeakHashes peaks

section

variable (blake3 : List UInt8 → Digest)

def stepPreimage (step : ProofStep) (carried : Digest) : List UInt8 :=
  match step.side with
  | .left => parentPreimage step.parentHeight step.hash carried.toList
  | .right => parentPreimage step.parentHeight carried.toList step.hash

/-- The path loop: the height and digest reached from a carried node. The height
counts the steps taken, of which a `Vec` holds fewer than `usize` can count. -/
def climbPath : List ProofStep → Nat → Digest → Except ProofError (Nat × Digest)
  | [], height, carried => .ok (height, carried)
  | step :: path, height, carried =>
    if step.hash.length ≠ 32 then .error (.digestLength "path hash" step.hash.length)
    else if step.parentHeight.toNat ≠ height + 1 then
      .error (.parentHeight step.parentHeight height)
    else climbPath path step.parentHeight.toNat (blake3 (stepPreimage step carried))

/-- What `climbPath` hashes, were no step refused. -/
def climbPreimages : List ProofStep → Digest → List (List UInt8)
  | [], _ => []
  | step :: path, carried =>
    stepPreimage step carried :: climbPreimages path (blake3 (stepPreimage step carried))

/-- Verify a detached proof: its shape first, then the path to the selected
peak, then the root over the peaks. -/
def verifyProof (proof : Proof) : Except ProofError Unit :=
  if proof.frameId.length ≠ 32 then
    .error (.digestLength "frame_id" proof.frameId.length)
  else if proof.root.length ≠ 32 then
    .error (.digestLength "root" proof.root.length)
  else if proof.count ≤ proof.leafIndex then
    .error (.leafRange proof.leafIndex proof.count)
  else if hpeak : proof.peaks.length ≤ proof.peakIndex.toNat then
    .error (.peakIndex proof.peakIndex proof.peaks.length)
  else
    let actualHeights := proof.peaks.map (·.height)
    if actualHeights ≠ expectedPeakHeights proof.count then
      .error (.peakHeights actualHeights proof.count)
    else do
      let computedPeakIndex ← peakIndexForLeaf proof.count actualHeights proof.leafIndex
      if computedPeakIndex ≠ proof.peakIndex.toNat then
        throw (.leafPeak proof.leafIndex computedPeakIndex proof.peakIndex)
      checkPeakHashes proof.peaks
      let (height, carried) ←
        climbPath blake3 proof.path 0 (leafHash blake3 proof.leafIndex proof.frameId)
      let peak := proof.peaks.get ⟨proof.peakIndex.toNat, Nat.lt_of_not_le hpeak⟩
      if height ≠ peak.height.toNat then throw (.pathHeight height peak.height)
      if carried.toList ≠ peak.hash then throw (.peakMismatch carried.toList peak.hash)
      let computedRoot := (rootHash blake3 proof.count proof.peaks).toList
      if computedRoot ≠ proof.root then throw (.rootMismatch computedRoot proof.root)

/-- Every preimage `verifyProof` hashes on a proof it accepts. -/
def verifyPreimages (proof : Proof) : List (List UInt8) :=
  rootPreimage proof.count proof.peaks ::
    leafPreimage proof.leafIndex proof.frameId ::
      climbPreimages blake3 proof.path (leafHash blake3 proof.leafIndex proof.frameId)

end

end Purrdf.Mmr
