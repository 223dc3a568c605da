import Purrdf.MmrInclusion

/-!
# Detached inclusion proofs and persisted frontiers

The prover of `index.mmr`: the boxed tree with the leaves each node covers, the path
from a leaf up to its peak, and the shape check under which a persisted frontier is
restored.
-/

namespace Purrdf.Mmr

def checkParts : List (MmrPeak × UInt64) → Nat → Except MmrStateError Unit
  | [], _ => .ok ()
  | (peak, height) :: rest, index =>
    if peak.height ≠ height then .error (.peakHeight index height peak.height)
    else if peak.hash.length ≠ 32 then .error (.peakHashLength index peak.hash.length)
    else checkParts rest (index + 1)

namespace MmrPeaks

/-- Restore a persisted frontier. The shape is checked, not the historical hashes. -/
def fromParts (count : UInt64) (peaks : List MmrPeak) : Except MmrStateError MmrPeaks :=
  let expected := expectedPeakHeights count
  if peaks.length ≠ expected.length then
    .error (.peakCount count expected.length peaks.length)
  else do
    checkParts (peaks.zip expected) 0
    pure ⟨count, peaks⟩

/-- The frontier after a call of `push`, and what the call returned. -/
def pushed (blake3 : List UInt8 → Digest) (frontier : MmrPeaks) (frameId : List UInt8) :
    Except MmrStateError Unit × MmrPeaks :=
  match frontier.push blake3 frameId with
  | .ok next => (.ok (), next)
  | .error error => (.error error, frontier)

end MmrPeaks

/-! ### The boxed tree -/

/-- A subtree and the range of leaves it covers. A leaf has no children. -/
inductive Node where
  | leaf (start stop : Nat) (hash : Digest)
  | parent (height : UInt64) (start stop : Nat) (hash : Digest) (left right : Node)

namespace Node

def height : Node → UInt64
  | leaf _ _ _ => 0
  | parent height _ _ _ _ _ => height

def start : Node → Nat
  | leaf start _ _ => start
  | parent _ start _ _ _ _ => start

def stop : Node → Nat
  | leaf _ stop _ => stop
  | parent _ _ stop _ _ _ => stop

def hash : Node → Digest
  | leaf _ _ hash => hash
  | parent _ _ _ hash _ _ => hash

def peak (node : Node) : MmrPeak := ⟨node.height, node.hash.toList⟩

end Node

section

variable (blake3 : List UInt8 → Digest)

def joined (left right : Node) : Node :=
  .parent (left.height + 1) left.start right.stop
    (parentHash blake3 (left.height + 1) left.hash.toList right.hash.toList) left right

/-- The merge loop over the peaks newest first, under the newest of them. -/
def mergeNodes : List Node → Node → List Node
  | [], right => [right]
  | left :: older, right =>
    if left.height ≠ right.height then right :: left :: older
    else mergeNodes older (joined blake3 left right)

/-- Append the frame ids from `index` on to the peaks, newest first. -/
def appendNodes : List Node → Nat → List (List UInt8) → List Node
  | nodes, _, [] => nodes
  | nodes, index, frameId :: rest =>
    appendNodes (mergeNodes blake3 nodes
      (.leaf index (index + 1) (leafHash blake3 (UInt64.ofNat index) frameId))) (index + 1) rest

def buildNodes (frameIds : List (List UInt8)) : List Node :=
  (appendNodes blake3 [] 0 frameIds).reverse

def peakList (nodes : List Node) : List MmrPeak := nodes.map Node.peak

/-- Extend a path from the leaf `target` up to a node; `false` when the node does not
cover it. -/
def appendPath : Node → Nat → List ProofStep → Bool × List ProofStep
  | .leaf start _ _, target, path => (start == target, path)
  | .parent height start _ _ left right, target, path =>
    if height = 0 then (start == target, path)
    else if target < left.stop then
      match appendPath left target path with
      | (true, path) => (true, path ++ [⟨height, .right, right.hash.toList⟩])
      | (false, path) => (false, path)
    else
      match appendPath right target path with
      | (true, path) => (true, path ++ [⟨height, .left, left.hash.toList⟩])
      | (false, path) => (false, path)

def prove (frameIds : List (List UInt8)) (targetIndex : Nat) : Option Proof :=
  frameIds[targetIndex]?.bind fun frameId =>
    let nodes := buildNodes blake3 frameIds
    let peaks := peakList nodes
    (nodes.findIdx? fun node => decide (node.start ≤ targetIndex ∧ targetIndex < node.stop)).bind
      fun peakIndex => nodes[peakIndex]?.bind fun node =>
        match appendPath node targetIndex [] with
        | (true, path) => some {
            count := UInt64.ofNat frameIds.length
            leafIndex := UInt64.ofNat targetIndex
            frameId := frameId
            root := (rootHash blake3 (UInt64.ofNat frameIds.length) peaks).toList
            peakIndex := UInt64.ofNat peakIndex
            peaks := peaks
            path := path }
        | (false, _) => none

/-- The frontier as it is, or saved and restored. `none` is a refusal. -/
def MmrPeaks.restored (frontier : MmrPeaks) (restore : Bool) : Option MmrPeaks :=
  if restore then (MmrPeaks.fromParts frontier.count frontier.peaks).toOption
  else some frontier

/-- Feed frame ids to a frontier, saving and restoring it before each push whose flag is
set. -/
def pushAllRestoring : MmrPeaks → List (List UInt8 × Bool) → Option MmrPeaks
  | frontier, [] => some frontier
  | frontier, (frameId, restore) :: rest =>
    (frontier.restored restore).bind fun frontier =>
      match frontier.push blake3 frameId with
      | .ok next => pushAllRestoring next rest
      | .error _ => none

end

/-! ### The shape of a frontier -/

/-- The heights of the peaks over `count` leaves: descending, one for each set bit. -/
def Shape : List UInt64 → Nat → Prop
  | [], count => count = 0
  | height :: heights, count =>
    ∃ rest, count = 2 ^ height.toNat + rest ∧ rest < 2 ^ height.toNat ∧ Shape heights rest

theorem Shape.pos_iff {heights : List UInt64} {count : Nat} (shape : Shape heights count) :
    count = 0 ↔ heights = [] := by
  cases heights with
  | nil =>
    have empty : count = 0 := shape
    simp [empty]
  | cons height heights =>
    obtain ⟨rest, rfl, -, -⟩ := shape
    have := Nat.two_pow_pos height.toNat
    simp only [reduceCtorEq, iff_false]
    omega

/-- A new lowest peak fits below the others exactly when they commit to a multiple of
twice its width. -/
theorem shape_append {heights : List UInt64} {height : UInt64} {count : Nat} :
    Shape (heights ++ [height]) count ↔ ∃ before, count = before + 2 ^ height.toNat ∧
      Shape heights before ∧ 2 ^ (height.toNat + 1) ∣ before := by
  induction heights generalizing count with
  | nil =>
    constructor
    · rintro ⟨rest, rfl, -, empty⟩
      have empty : rest = 0 := empty
      exact ⟨0, by omega, rfl, Nat.dvd_zero _⟩
    · rintro ⟨before, rfl, empty, -⟩
      have empty : before = 0 := empty
      subst empty
      exact ⟨0, by omega, Nat.two_pow_pos _, rfl⟩
  | cons high heights ih =>
    have twice : 2 ^ (height.toNat + 1) = 2 * 2 ^ height.toNat := by ring
    constructor
    · rintro ⟨rest, rfl, below, shape⟩
      obtain ⟨before, rfl, shape, divides⟩ := ih.mp shape
      refine ⟨2 ^ high.toNat + before, by omega, ⟨before, rfl, by omega, shape⟩, ?_⟩
      have lower : height.toNat < high.toNat := by
        apply (Nat.pow_lt_pow_iff_right (by omega : 1 < 2)).mp
        omega
      exact Nat.dvd_add (Nat.pow_dvd_pow 2 lower) divides
    · rintro ⟨before, rfl, ⟨rest, rfl, below, shape⟩, divides⟩
      have lower : height.toNat + 1 ≤ high.toNat := by
        by_contra above
        have larger : 2 ^ (high.toNat + 1) ≤ 2 ^ (height.toNat + 1) :=
          Nat.pow_le_pow_right (by omega) (by omega)
        have twice' : 2 ^ (high.toNat + 1) = 2 * 2 ^ high.toNat := by ring
        have := Nat.le_of_dvd (by have := Nat.two_pow_pos high.toNat; omega) divides
        omega
      have divides' : 2 ^ (height.toNat + 1) ∣ rest :=
        (Nat.dvd_add_right (Nat.pow_dvd_pow 2 lower)).mp divides
      refine ⟨rest + 2 ^ height.toNat, by omega, ?_, ih.mpr ⟨rest, rfl, shape, divides'⟩⟩
      obtain ⟨a, rfl⟩ := divides'
      obtain ⟨b, high_eq⟩ := Nat.pow_dvd_pow 2 lower
      rw [high_eq] at below ⊢
      have := Nat.lt_of_mul_lt_mul_left below
      have room : 2 ^ (height.toNat + 1) * (a + 1) ≤ 2 ^ (height.toNat + 1) * b :=
        Nat.mul_le_mul_left _ this
      rw [Nat.mul_add] at room
      have := Nat.two_pow_pos height.toNat
      omega

theorem expectedPeakHeightsLoop_eq (rounds : Nat) (heights : List UInt64) (count : UInt64)
    (shape : Shape heights count.toNat) (fits : count.toNat < 2 ^ rounds) :
    expectedPeakHeightsLoop rounds count = heights := by
  induction rounds generalizing heights count with
  | zero =>
    have empty : count.toNat = 0 := by simpa using fits
    rw [shape.pos_iff.mp empty]
    rfl
  | succ rounds ih =>
    rw [expectedPeakHeightsLoop]
    cases heights with
    | nil =>
      have empty : count.toNat = 0 := shape
      have zero : count = 0 := UInt64.toNat_inj.mp empty
      simp [zero]
    | cons height heights =>
      obtain ⟨rest, total, below, shape⟩ := shape
      have positive : 0 < count := by
        rw [UInt64.lt_iff_toNat_lt, total]
        have := Nat.two_pow_pos height.toNat
        simp only [UInt64.toNat_zero]
        omega
      have log : count.toNat.log2 = height.toNat := by
        rw [total]
        have nonzero : 2 ^ height.toNat + rest ≠ 0 := by
          have := Nat.two_pow_pos height.toNat
          omega
        rw [Nat.log2_eq_iff nonzero, Nat.pow_succ]
        omega
      have small : height.toNat < 64 := by
        have bound := count.toNat_lt
        apply (Nat.pow_lt_pow_iff_right (by omega : 1 < 2)).mp
        omega
      have width : ((1 : UInt64) <<< height).toNat = 2 ^ height.toNat := by
        rw [UInt64.toNat_shiftLeft, Nat.mod_eq_of_lt small, UInt64.toNat_one, Nat.one_shiftLeft,
          Nat.mod_eq_of_lt]
        exact Nat.pow_lt_pow_right (by omega) small
      have remaining : (count - 1 <<< height).toNat = rest := by
        have enough : (1 : UInt64) <<< height ≤ count := by
          rw [UInt64.le_iff_toNat_le, width]
          omega
        rw [UInt64.toNat_sub_of_le _ _ enough, width]
        omega
      rw [if_pos positive]
      simp only [log, UInt64.ofNat_toNat]
      rw [ih heights _ (by rw [remaining]; exact shape)]
      rw [remaining]
      have order : height.toNat ≤ rounds := by
        have : 2 ^ height.toNat < 2 ^ (rounds + 1) := by omega
        have := (Nat.pow_lt_pow_iff_right (by omega : 1 < 2)).mp this
        omega
      have := Nat.pow_le_pow_right (by omega : 0 < 2) order
      omega

theorem expectedPeakHeights_eq {heights : List UInt64} {count : UInt64}
    (shape : Shape heights count.toNat) : expectedPeakHeights count = heights :=
  expectedPeakHeightsLoop_eq 64 heights count shape count.toNat_lt

theorem shape_expectedPeakHeightsLoop (rounds : Nat) (count : UInt64)
    (fits : count.toNat < 2 ^ rounds) :
    Shape (expectedPeakHeightsLoop rounds count) count.toNat := by
  induction rounds generalizing count with
  | zero =>
    have empty : count.toNat = 0 := by simpa using fits
    exact empty
  | succ rounds ih =>
    rw [expectedPeakHeightsLoop]
    by_cases positive : 0 < count
    · rw [if_pos positive]
      have nonzero : count.toNat ≠ 0 := by
        rw [UInt64.lt_iff_toNat_lt, UInt64.toNat_zero] at positive
        omega
      obtain ⟨low, high⟩ := (Nat.log2_eq_iff nonzero).mp rfl
      have small : count.toNat.log2 < 64 := by
        have bound := count.toNat_lt
        apply (Nat.pow_lt_pow_iff_right (by omega : 1 < 2)).mp
        omega
      have height : (UInt64.ofNat count.toNat.log2).toNat = count.toNat.log2 :=
        UInt64.toNat_ofNat_of_lt' (small.trans (by decide))
      have width : ((1 : UInt64) <<< UInt64.ofNat count.toNat.log2).toNat =
          2 ^ count.toNat.log2 := by
        rw [UInt64.toNat_shiftLeft, height, Nat.mod_eq_of_lt small, UInt64.toNat_one,
          Nat.one_shiftLeft, Nat.mod_eq_of_lt]
        exact Nat.pow_lt_pow_right (by omega) small
      have remaining : (count - 1 <<< UInt64.ofNat count.toNat.log2).toNat =
          count.toNat - 2 ^ count.toNat.log2 := by
        rw [UInt64.toNat_sub_of_le, width]
        rw [UInt64.le_iff_toNat_le, width]
        exact low
      rw [Nat.pow_succ] at high
      have whole : count.toNat = 2 ^ count.toNat.log2 + (count.toNat - 2 ^ count.toNat.log2) := by
        omega
      have below : count.toNat - 2 ^ count.toNat.log2 < 2 ^ count.toNat.log2 := by omega
      rw [Shape, height]
      apply Exists.intro (count.toNat - 2 ^ count.toNat.log2)
      apply And.intro whole
      apply And.intro below
      rw [← remaining]
      apply ih
      rw [remaining]
      have order : count.toNat.log2 ≤ rounds := by
        have : 2 ^ count.toNat.log2 < 2 ^ (rounds + 1) := by omega
        have := (Nat.pow_lt_pow_iff_right (by omega : 1 < 2)).mp this
        omega
      have := Nat.pow_le_pow_right (by omega : 0 < 2) order
      omega
    · rw [if_neg positive]
      have empty : count.toNat = 0 := by
        rw [UInt64.lt_iff_toNat_lt, UInt64.toNat_zero] at positive
        omega
      exact empty

theorem shape_expectedPeakHeights (count : UInt64) :
    Shape (expectedPeakHeights count) count.toNat :=
  shape_expectedPeakHeightsLoop 64 count count.toNat_lt

end Purrdf.Mmr
