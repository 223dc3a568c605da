import Mathlib.Data.List.TakeDrop
import Purrdf.BroadwordSelect

/-!
# The rank and select directory

A bit sequence, the two-level directory of its ranks that freezing builds, and the queries over the
directory: they are the same for the owned bitmap and for the one read back from its bytes.
-/

namespace Purrdf.PackBits

structure BitVec where
  words : List UInt64 := []
  len : Nat := 0
deriving DecidableEq, Repr

/-- A step of building a bit sequence. -/
inductive BitOp where
  | push (bit : Bool)
  | setLen (newLen : UInt64)
deriving DecidableEq, Repr

namespace BitVec

/-- Append one bit. A length that a machine word does not hold is a panic. -/
def push (vector : BitVec) (bit : Bool) : Option BitVec :=
  let index := vector.len / 64
  let words := if vector.words.length ≤ index then vector.words ++ [0] else vector.words
  let words :=
    if bit then words.modify index (· ||| 1 <<< UInt64.ofNat (vector.len % 64)) else words
  if vector.len + 1 < 2 ^ 64 then some ⟨words, vector.len + 1⟩ else none

/-- Grow with zeros or truncate to a length, and clear what is past it in the last word. -/
def setLen (vector : BitVec) (newLen : Nat) : BitVec :=
  let needed := divCeil newLen 64
  let words := IntVector.resized (vector.words.take needed) needed
  let words :=
    if newLen % 64 = 0 then words
    else words.modify (newLen / 64) (· &&& (1 <<< UInt64.ofNat (newLen % 64)) - 1)
  ⟨words, newLen⟩

def apply (vector : BitVec) : BitOp → Option BitVec
  | .push bit => vector.push bit
  | .setLen newLen => some (vector.setLen newLen.toNat)

end BitVec

def countOnes (word : Nat) : Nat := Nat.count (fun k => word.testBit k) 64

structure RankSelect where
  len : Nat
  totalOnes : Nat
  words : List UInt64
  superblockRank : List Nat
  blockRank : List Nat
deriving DecidableEq, Repr

/-- The pass that fills the directory in, from word `w` on. A rank relative to its superblock has 16
bits. -/
def fillDirectory (superblocks blocks : List Nat) (running w : Nat) :
    List UInt64 → Option (List Nat × List Nat × Nat)
  | [] => some (superblocks, blocks, running)
  | word :: words => do
    let superblocks := if w % 8 = 0 then superblocks.set (w / 8) running else superblocks
    let base ← superblocks[w / 8]?
    let relative ← checkedSub running base
    if relative < 2 ^ 16 then
      fillDirectory superblocks (blocks.set w relative) (running + countOnes word.toNat) (w + 1) words
    else none

/-- Access to a bitmap and its directory. An index out of range is a panic. -/
structure RankSelectDir where
  len : Nat
  totalOnes : Nat
  wordsLen : Nat
  superblockCount : Nat
  word : Nat → Option Nat
  superblockRank : Nat → Option Nat
  blockRank : Nat → Option Nat

namespace RankSelectDir

variable (dir : RankSelectDir)

def rankAtWord (w : Nat) : Option Nat :=
  if dir.wordsLen ≤ w then some dir.totalOnes
  else do
    let base ← dir.superblockRank (w / 8)
    let relative ← dir.blockRank w
    pure (base + relative)

def rank1 (i : Nat) : Option Nat :=
  if i ≤ dir.len then do
    let r ← dir.rankAtWord (i / 64)
    if 0 < i % 64 then
      let word ← dir.word (i / 64)
      pure (r + countOnes (word &&& (1 <<< (i % 64)) - 1))
    else pure r
  else none

def rank0 (i : Nat) : Option Nat := do checkedSub i (← dir.rank1 i)

/-- The binary search for the first superblock that starts after the `k`-th bit. -/
def search (start : Nat → Option Nat) (k : Nat) : Nat → Nat → Nat → Option Nat
  | 0, _, _ => none
  | fuel + 1, lo, hi =>
    if lo < hi then do
      let mid := lo + (hi - lo) / 2
      if (← start mid) ≤ k then search start k fuel (mid + 1) hi else search start k fuel lo mid
    else some lo

/-- The scan for the last word before `stop` that starts at or before the `k`-th bit. -/
def scan (start : Nat → Option Nat) (k stop : Nat) : Nat → Nat → Option Nat
  | 0, _ => none
  | fuel + 1, w =>
    if w + 1 < stop then do
      if (← start (w + 1)) ≤ k then scan start k stop fuel (w + 1) else some w
    else some w

/-- The position of the `k`-th bit of a kind, from the number of such bits before every superblock
and word and the words themselves. -/
def selectWith (atSuperblock atWord word : Nat → Option Nat) (k : Nat) : Option Nat := do
  let found ← search atSuperblock k (dir.superblockCount + 1) 0 dir.superblockCount
  let start := (← checkedSub found 1) * 8
  let w ← scan atWord k (min (start + 8) dir.wordsLen) 8 start
  let remaining ← checkedSub k (← atWord w)
  let bit ← selectInWord (← word w) remaining
  if w * 64 + bit < dir.len then some (w * 64 + bit) else none

def select1 (k : Nat) : Option (Option Nat) :=
  if dir.totalOnes ≤ k then some none
  else do
    let pos ← dir.selectWith dir.superblockRank dir.rankAtWord dir.word k
    pure (some pos)

def zerosAtSb (sb : Nat) : Option Nat := do checkedSub (sb * 8 * 64) (← dir.superblockRank sb)

def zerosAtWord (w : Nat) : Option Nat := do checkedSub (w * 64) (← dir.rankAtWord w)

def zerosOf (w : Nat) : Option Nat := do pure (2 ^ 64 - 1 - (← dir.word w))

def select0 (k : Nat) : Option (Option Nat) := do
  if (← checkedSub dir.len dir.totalOnes) ≤ k then some none
  else
    let pos ← dir.selectWith dir.zerosAtSb dir.zerosAtWord dir.zerosOf k
    pure (some pos)

end RankSelectDir

def RankSelect.dir (bitmap : RankSelect) : RankSelectDir where
  len := bitmap.len
  totalOnes := bitmap.totalOnes
  wordsLen := bitmap.words.length
  superblockCount := bitmap.superblockRank.length
  word w := bitmap.words[w]?.map UInt64.toNat
  superblockRank sb := bitmap.superblockRank[sb]?
  blockRank w := bitmap.blockRank[w]?

/-! ### Bytes -/

def RankSelect.toBytes (bitmap : RankSelect) : List UInt8 :=
  leBytes 8 bitmap.len ++ leBytes 8 bitmap.totalOnes ++ leBytes 8 bitmap.words.length ++
    leBytes 8 bitmap.superblockRank.length ++ bitmap.superblockRank.flatMap (leBytes 8) ++
    bitmap.blockRank.flatMap (leBytes 2) ++ bitmap.words.flatMap fun word => leBytes 8 word.toNat

structure RankSelectRef where
  len : Nat
  totalOnes : Nat
  wordsLen : Nat
  superblockCount : Nat
  superblockBytes : List UInt8
  blockBytes : List UInt8
  wordsBytes : List UInt8
deriving DecidableEq, Repr

def readHeaderU64 (bytes : List UInt8) (pos : Nat) : Except PackBitsError Nat :=
  match readLe bytes pos 8 with
  | some value => .ok value
  | none => .error (.truncated (pos + 8) bytes.length)

/-- Parse a framed bitmap. The sizes derived from the length stay far below a machine word. -/
def RankSelectRef.fromBytes (bytes : List UInt8) : Except PackBitsError RankSelectRef := do
  let len ← readHeaderU64 bytes 0
  let totalOnes ← readHeaderU64 bytes 8
  let wordsLen ← readHeaderU64 bytes 16
  let superblockCount ← readHeaderU64 bytes 24
  if len < totalOnes then .error (.malformed "rank_select: total_ones exceeds len")
  else if wordsLen ≠ divCeil len 64 then
    .error (.malformed "rank_select: word count disagrees with len")
  else if superblockCount ≠ divCeil wordsLen 8 then
    .error (.malformed "rank_select: superblock count disagrees with word count")
  else
    let blocks := 32 + superblockCount * 8
    let words := blocks + wordsLen * 2
    let stop := words + wordsLen * 8
    if bytes.length < stop then .error (.truncated stop bytes.length)
    else .ok ⟨len, totalOnes, wordsLen, superblockCount, (bytes.drop 32).take (superblockCount * 8),
      (bytes.drop blocks).take (wordsLen * 2), (bytes.drop words).take (wordsLen * 8)⟩

def RankSelectRef.dir (view : RankSelectRef) : RankSelectDir where
  len := view.len
  totalOnes := view.totalOnes
  wordsLen := view.wordsLen
  superblockCount := view.superblockCount
  word w := readLe view.wordsBytes (w * 8) 8
  superblockRank sb := readLe view.superblockBytes (sb * 8) 8
  blockRank w := readLe view.blockBytes (w * 2) 2

end Purrdf.PackBits
