import Purrdf.MerkleTree
import Purrdf.Mmr

/-!
# Soundness of detached inclusion proofs

A proof that `verifyProof` accepts against the root of a list of frame ids names
a frame id of that list, at its own index. The prover chooses the path sides,
the heights, the selected peak and every sibling hash, and the frontier the root
was taken over is not an input of the verifier.

The only assumption on BLAKE3 is that it has no collision among the preimages
that the two computations hash. The frontier is a forest of indexed Merkle trees
in the sense of `Purrdf.Merkle`, an accepted path is a climb of one of them, and
the binding theorem of that module does the rest.
-/

namespace Purrdf.Mmr

open CborHead

/-- `blake3` separates the listed preimages. -/
def CollisionFree (blake3 : List UInt8 → Digest) (hashed : List (List UInt8)) : Prop :=
  ∀ left ∈ hashed, ∀ right ∈ hashed, blake3 left = blake3 right → left = right

instance (blake3 : List UInt8 → Digest) (hashed : List (List UInt8)) :
    Decidable (CollisionFree blake3 hashed) :=
  inferInstanceAs (Decidable (∀ left ∈ hashed, ∀ right ∈ hashed,
    blake3 left = blake3 right → left = right))

/-! ### Preimages are injective -/

theorem nodePreimage_append_inj {domain rest rest' : List UInt8}
    {arity coordinate coordinate' : UInt64}
    (heq : nodePreimage domain arity coordinate ++ rest =
      nodePreimage domain arity coordinate' ++ rest') :
    coordinate = coordinate' ∧ rest = rest' := by
  simp only [nodePreimage, List.append_assoc] at heq
  exact encode_append_inj (by decide) (List.append_cancel_left (List.append_cancel_left heq))

theorem nodePreimage_arity {domain domain' rest rest' : List UInt8}
    {arity arity' coordinate coordinate' : UInt64}
    (heq : nodePreimage domain arity coordinate ++ rest =
      nodePreimage domain' arity' coordinate' ++ rest') :
    arity = arity' := by
  simp only [nodePreimage, List.append_assoc] at heq
  exact (encode_append_inj (by decide) heq).1

theorem writeBytes_inj {left right : List UInt8} (hleft : left.length < 2 ^ 64)
    (hright : right.length < 2 ^ 64) (heq : writeBytes left = writeBytes right) :
    left = right := by
  have happend : writeBytes left ++ [] = writeBytes right ++ [] := by rw [heq]
  exact (writeBytes_append_inj hleft hright happend).1

theorem leafPreimage_inj {index index' : UInt64} {frameId frameId' : List UInt8}
    (hlength : frameId.length < 2 ^ 64) (hlength' : frameId'.length < 2 ^ 64)
    (heq : leafPreimage index frameId = leafPreimage index' frameId') :
    index = index' ∧ frameId = frameId' := by
  obtain ⟨hindex, hbytes⟩ := nodePreimage_append_inj heq
  exact ⟨hindex, writeBytes_inj hlength hlength' hbytes⟩

theorem parentPreimage_inj {height height' : UInt64} {left left' right right' : List UInt8}
    (hleft : left.length = 32) (hleft' : left'.length = 32)
    (hright : right.length = 32) (hright' : right'.length = 32)
    (heq : parentPreimage height left right = parentPreimage height' left' right') :
    height = height' ∧ left = left' ∧ right = right' := by
  obtain ⟨hheight, hbytes⟩ := nodePreimage_append_inj heq
  obtain ⟨hl, hbytes⟩ := writeBytes_append_inj (by omega) (by omega) hbytes
  exact ⟨hheight, hl, writeBytes_inj (by omega) (by omega) hbytes⟩

theorem leafPreimage_ne_parentPreimage {index height : UInt64}
    {frameId left right : List UInt8} :
    leafPreimage index frameId ≠ parentPreimage height left right := by
  intro heq
  have harity := nodePreimage_arity heq
  exact absurd harity (by decide)

theorem peakPreimage_append_inj {peak peak' : MmrPeak} {rest rest' : List UInt8}
    (hhash : peak.hash.length = 32) (hhash' : peak'.hash.length = 32)
    (heq : peakPreimage peak ++ rest = peakPreimage peak' ++ rest') :
    peak = peak' ∧ rest = rest' := by
  simp only [peakPreimage, List.append_assoc] at heq
  obtain ⟨hheight, heq⟩ := encode_append_inj (by decide) (List.append_cancel_left heq)
  obtain ⟨hbytes, hrest⟩ := writeBytes_append_inj (by omega) (by omega) heq
  cases peak
  cases peak'
  exact ⟨by simp only at hheight hbytes; rw [hheight, hbytes], hrest⟩

theorem peakPreimages_inj {peaks peaks' : List MmrPeak}
    (hlength : peaks.length = peaks'.length)
    (hhash : ∀ peak ∈ peaks, peak.hash.length = 32)
    (hhash' : ∀ peak ∈ peaks', peak.hash.length = 32)
    (heq : peaks.flatMap peakPreimage = peaks'.flatMap peakPreimage) :
    peaks = peaks' := by
  induction peaks generalizing peaks' with
  | nil =>
    have h : peaks'.length = 0 := by rw [← hlength, List.length_nil]
    rw [List.length_eq_zero_iff.mp h]
  | cons peak peaks ih =>
    cases peaks' with
    | nil => simp at hlength
    | cons peak' peaks' =>
      simp only [List.flatMap_cons] at heq
      obtain ⟨hpeak, hrest⟩ := peakPreimage_append_inj (hhash peak (by simp))
        (hhash' peak' (by simp)) heq
      have htail := ih (by simpa using hlength)
        (fun p hp => hhash p (List.mem_cons_of_mem _ hp))
        (fun p hp => hhash' p (List.mem_cons_of_mem _ hp)) hrest
      rw [hpeak, htail]

theorem rootPreimage_inj {count count' : UInt64} {peaks peaks' : List MmrPeak}
    (hpeaks : peaks.length < 2 ^ 64) (hpeaks' : peaks'.length < 2 ^ 64)
    (hhash : ∀ peak ∈ peaks, peak.hash.length = 32)
    (hhash' : ∀ peak ∈ peaks', peak.hash.length = 32)
    (heq : rootPreimage count peaks = rootPreimage count' peaks') :
    count = count' ∧ peaks = peaks' := by
  obtain ⟨hcount, heq⟩ := nodePreimage_append_inj heq
  obtain ⟨hlength, heq⟩ := encode_append_inj (by decide) heq
  have hnat := congrArg UInt64.toNat hlength
  rw [UInt64.toNat_ofNat_of_lt' hpeaks, UInt64.toNat_ofNat_of_lt' hpeaks'] at hnat
  exact ⟨hcount, peakPreimages_inj hnat hhash hhash' heq⟩

/-! ### Tree inputs -/

abbrev TreeInput := Merkle.Input (List UInt8) (List UInt8)

def inputPreimage : TreeInput → List UInt8
  | .leaf index frameId => leafPreimage (UInt64.ofNat index) frameId
  | .node height left right => parentPreimage (UInt64.ofNat height) left right

/-- The coordinates fit the preimage's 64-bit heads and the children are digests. -/
def Encodable : TreeInput → Prop
  | .leaf index frameId => index < 2 ^ 64 ∧ frameId.length < 2 ^ 64
  | .node height left right => height < 2 ^ 64 ∧ left.length = 32 ∧ right.length = 32

section

variable (blake3 : List UInt8 → Digest)

def treeHash (input : TreeInput) : List UInt8 := (blake3 (inputPreimage input)).toList

/-- The inputs the preimages of `hashed` come from. -/
def inputsOf (hashed : List (List UInt8)) : Set TreeInput :=
  {input | Encodable input ∧ inputPreimage input ∈ hashed}

theorem inputPreimage_inj {left right : TreeInput} (hleft : Encodable left)
    (hright : Encodable right) (heq : inputPreimage left = inputPreimage right) :
    left = right := by
  cases left with
  | leaf index frameId =>
    cases right with
    | leaf index' frameId' =>
      obtain ⟨hindex, hframe⟩ := leafPreimage_inj hleft.2 hright.2 heq
      have hnat := congrArg UInt64.toNat hindex
      rw [UInt64.toNat_ofNat_of_lt' hleft.1, UInt64.toNat_ofNat_of_lt' hright.1] at hnat
      rw [hnat, hframe]
    | node height l r => exact absurd heq leafPreimage_ne_parentPreimage
  | node height l r =>
    cases right with
    | leaf index frameId => exact absurd heq.symm leafPreimage_ne_parentPreimage
    | node height' l' r' =>
      obtain ⟨hheight, hl, hr⟩ := parentPreimage_inj hleft.2.1 hright.2.1
        hleft.2.2 hright.2.2 heq
      have hnat := congrArg UInt64.toNat hheight
      rw [UInt64.toNat_ofNat_of_lt' hleft.1, UInt64.toNat_ofNat_of_lt' hright.1] at hnat
      rw [hnat, hl, hr]

variable {blake3}

theorem treeHash_injOn {hashed : List (List UInt8)} (hfree : CollisionFree blake3 hashed) :
    Set.InjOn (treeHash blake3) (inputsOf hashed) := by
  intro left hleft right hright heq
  have hdigest : blake3 (inputPreimage left) = blake3 (inputPreimage right) :=
    Vector.toList_inj.mp heq
  exact inputPreimage_inj hleft.1 hright.1 (hfree _ hleft.2 _ hright.2 hdigest)

/-! ### The frontier is a forest -/

def MmrPeak.subtree (peak : MmrPeak) : Nat × List UInt8 := (peak.height.toNat, peak.hash)

variable (blake3)

/-- The peaks are digests of consecutive subtrees from leaf `start` to `stop`,
computed from inputs whose preimages are in `hashed`. -/
structure Commits (leaves : Nat → List UInt8) (hashed : List (List UInt8)) (start : Nat)
    (peaks : List MmrPeak) (stop : Nat) : Prop where
  forest : Merkle.IsForest (treeHash blake3) leaves start (peaks.map MmrPeak.subtree) stop
  inputs : Merkle.forestInputs (treeHash blake3) leaves start (peaks.map MmrPeak.subtree) ⊆
    inputsOf hashed
  hashes : ∀ peak ∈ peaks, peak.hash.length = 32

variable {blake3} {leaves : Nat → List UInt8} {hashed : List (List UInt8)}

theorem Commits.nil (start : Nat) : Commits blake3 leaves hashed start [] start where
  forest := rfl
  inputs := Set.empty_subset _
  hashes := by simp

theorem Commits.singleton {start : Nat} {height : UInt64} {digest : Digest}
    (hdigest : digest.toList = Merkle.subtree (treeHash blake3) leaves height.toNat start)
    (hinputs : Merkle.subtreeInputs (treeHash blake3) leaves height.toNat start ⊆
      inputsOf hashed) :
    Commits blake3 leaves hashed start [⟨height, digest.toList⟩] (start + 2 ^ height.toNat) where
  forest := ⟨hdigest, rfl⟩
  inputs := Set.union_subset hinputs (Set.empty_subset _)
  hashes := by simp

theorem Commits.append {start middle stop : Nat} {left right : List MmrPeak}
    (hleft : Commits blake3 leaves hashed start left middle)
    (hright : Commits blake3 leaves hashed middle right stop) :
    Commits blake3 leaves hashed start (left ++ right) stop where
  forest := by
    rw [List.map_append]
    exact hleft.forest.append hright.forest
  inputs := by
    rw [List.map_append, hleft.forest.inputs_append]
    exact Set.union_subset hleft.inputs hright.inputs
  hashes := by
    intro peak hpeak
    rcases List.mem_append.mp hpeak with h | h
    · exact hleft.hashes peak h
    · exact hright.hashes peak h

theorem Commits.split {start stop : Nat} (left : List MmrPeak) {right : List MmrPeak}
    (hcommits : Commits blake3 leaves hashed start (left ++ right) stop) :
    ∃ middle, Commits blake3 leaves hashed start left middle ∧
      Commits blake3 leaves hashed middle right stop := by
  have hforest := hcommits.forest
  rw [List.map_append] at hforest
  obtain ⟨middle, hleft, hright⟩ := hforest.split
  have hinputs := hcommits.inputs
  rw [List.map_append, hleft.inputs_append] at hinputs
  exact ⟨middle,
    ⟨hleft, fun _ h => hinputs (Or.inl h),
      fun peak h => hcommits.hashes peak (List.mem_append_left _ h)⟩,
    ⟨hright, fun _ h => hinputs (Or.inr h),
      fun peak h => hcommits.hashes peak (List.mem_append_right _ h)⟩⟩

variable {peaks : List MmrPeak}

theorem Commits.mono {start stop : Nat} {hashed' : List (List UInt8)}
    (hsub : ∀ preimage ∈ hashed, preimage ∈ hashed')
    (hcommits : Commits blake3 leaves hashed start peaks stop) :
    Commits blake3 leaves hashed' start peaks stop where
  forest := hcommits.forest
  inputs := fun _ h => ⟨(hcommits.inputs h).1, hsub _ (hcommits.inputs h).2⟩
  hashes := hcommits.hashes

/-- A subtree holds at least one leaf, so a frontier has no more peaks than
leaves. -/
theorem Commits.length_le {start stop : Nat}
    (hcommits : Commits blake3 leaves hashed start peaks stop) :
    start + peaks.length ≤ stop := by
  have hforest := hcommits.forest
  clear hcommits
  induction peaks generalizing start with
  | nil => cases hforest; simp
  | cons peak peaks ih =>
    have hrest := ih hforest.2
    have hwidth : 0 < 2 ^ peak.height.toNat := Nat.pow_pos (by decide)
    simp only [List.length_cons] at hrest ⊢
    omega

/-- The parent of two adjacent subtrees of one height, as `push` hashes it. -/
theorem parentHash_subtree {start : Nat} {height : UInt64} {left right : List UInt8}
    (hheight : height.toNat + 1 < 2 ^ 64)
    (hleft : left = Merkle.subtree (treeHash blake3) leaves height.toNat start)
    (hright : right =
      Merkle.subtree (treeHash blake3) leaves height.toNat (start + 2 ^ height.toNat)) :
    (parentHash blake3 (height + 1) left right).toList =
      Merkle.subtree (treeHash blake3) leaves (height.toNat + 1) start := by
  have hsucc : UInt64.ofNat (height.toNat + 1) = height + 1 := by
    apply UInt64.toNat_inj.mp
    rw [UInt64.toNat_ofNat_of_lt' hheight, UInt64.toNat_add]
    exact (Nat.mod_eq_of_lt hheight).symm
  simp only [Merkle.subtree, treeHash, inputPreimage, parentHash, hsucc, hleft, hright]

/-- The merge loop keeps the frontier a forest: `older` covers the leaves before
`middle`, the carried digest the subtree that starts there. The induction is on
the peaks still to be merged, newest first. -/
theorem mergePeaks_commits (older : List MmrPeak) :
    ∀ (middle : Nat) (height : UInt64) (hash : Digest),
      middle + 2 ^ height.toNat < 2 ^ 64 →
      Commits blake3 leaves hashed 0 older.reverse middle →
      hash.toList = Merkle.subtree (treeHash blake3) leaves height.toNat middle →
      Merkle.subtreeInputs (treeHash blake3) leaves height.toNat middle ⊆ inputsOf hashed →
      (∀ preimage ∈ mergePreimages blake3 older height hash, preimage ∈ hashed) →
      Commits blake3 leaves hashed 0 (mergePeaks blake3 older height hash).reverse
        (middle + 2 ^ height.toNat) := by
  induction older with
  | nil =>
    intro middle height hash _ holder hhash hinputs _
    exact holder.append (Commits.singleton hhash hinputs)
  | cons left older ih =>
    intro middle height hash hfit holder hhash hinputs htrace
    by_cases hmerge : left.height = height
    · rw [List.reverse_cons] at holder
      obtain ⟨first, holder, hleft⟩ := holder.split older.reverse
      have hdigest := hleft.forest.1
      have hmiddle : first + 2 ^ left.height.toNat = middle := hleft.forest.2
      rw [hmerge] at hmiddle
      simp only [hmerge] at hdigest
      have hpow : 2 ^ (height.toNat + 1) = 2 ^ height.toNat + 2 ^ height.toNat := by
        rw [Nat.pow_succ, Nat.mul_two]
      have hheight : height.toNat + 1 < 2 ^ 64 := by
        have hlt := Nat.lt_two_pow_self (n := height.toNat)
        have hpow' := Nat.lt_two_pow_self (n := height.toNat + 1)
        omega
      have hsucc : (height + 1).toNat = height.toNat + 1 := by
        rw [UInt64.toNat_add]
        exact Nat.mod_eq_of_lt hheight
      simp only [mergePreimages, hmerge, if_true, List.mem_cons, forall_eq_or_imp] at htrace
      rw [← hmiddle] at hhash hinputs
      have hparent := parentHash_subtree hheight hdigest hhash
      have hlow : Merkle.subtreeInputs (treeHash blake3) leaves height.toNat first ⊆
          inputsOf hashed := by
        intro input hinput
        apply hleft.inputs
        left
        simpa only [MmrPeak.subtree, hmerge] using hinput
      have htop : Merkle.subtreeInputs (treeHash blake3) leaves (height.toNat + 1) first ⊆
          inputsOf hashed := by
        refine Set.insert_subset ⟨⟨hheight, ?_, ?_⟩, ?_⟩ (Set.union_subset hlow hinputs)
        · rw [← hdigest]
          exact hleft.hashes left (by simp)
        · rw [← hhash]
          simp
        · have hofNat : UInt64.ofNat (height.toNat + 1) = height + 1 := by
            rw [← hsucc, UInt64.ofNat_toNat]
          simp only [inputPreimage, hofNat, ← hdigest, ← hhash]
          exact htrace.1
      have hresult := ih first (height + 1) _
        (by rw [hsucc]; omega) holder (by rw [hsucc]; exact hparent)
        (by rw [hsucc]; exact htop) htrace.2
      rw [hsucc, hpow, ← Nat.add_assoc, hmiddle] at hresult
      simpa only [mergePeaks, hmerge, if_true] using hresult
    · have hlast := holder.append (Commits.singleton hhash hinputs)
      simpa only [mergePeaks, hmerge, if_false, List.reverse_cons] using hlast

theorem push_commits {frontier next : MmrPeaks} {frameId : List UInt8}
    (hpush : frontier.push blake3 frameId = .ok next)
    (hframe : frameId = leaves frontier.count.toNat) (hlength : frameId.length < 2 ^ 64)
    (hcommits : Commits blake3 leaves hashed 0 frontier.peaks frontier.count.toNat)
    (htrace : ∀ preimage ∈ frontier.pushPreimages blake3 frameId, preimage ∈ hashed) :
    next.count.toNat = frontier.count.toNat + 1 ∧
      Commits blake3 leaves hashed 0 next.peaks next.count.toNat := by
  by_cases hfit : frontier.count.toNat + 1 < 2 ^ 64
  · simp only [MmrPeaks.push, hfit, if_true] at hpush
    cases hpush
    have hcount : (frontier.count + 1).toNat = frontier.count.toNat + 1 := by
      rw [UInt64.toNat_add]
      exact Nat.mod_eq_of_lt hfit
    simp only [MmrPeaks.pushPreimages, List.mem_cons, forall_eq_or_imp] at htrace
    obtain ⟨hleaf, hmerges⟩ := htrace
    have hpreimage : inputPreimage (.leaf frontier.count.toNat (leaves frontier.count.toNat)) =
        leafPreimage frontier.count frameId := by
      simp only [inputPreimage, UInt64.ofNat_toNat, hframe]
    refine ⟨hcount, ?_⟩
    rw [hcount]
    refine mergePeaks_commits frontier.peaks.reverse frontier.count.toNat 0 _ hfit
      (by rwa [List.reverse_reverse]) ?_ ?_ hmerges
    · simp only [leafHash, ← hpreimage]
      rfl
    · refine Set.singleton_subset_iff.mpr ⟨⟨by omega, ?_⟩, ?_⟩
      · rwa [← hframe]
      · rwa [hpreimage]
  · simp only [MmrPeaks.push, hfit, if_false] at hpush
    cases hpush

theorem pushAll_commits {frameIds : List (List UInt8)} {frontier last : MmrPeaks}
    (hall : pushAll blake3 frontier frameIds = some last)
    (hframes : ∀ offset, (hoffset : offset < frameIds.length) →
      frameIds[offset] = leaves (frontier.count.toNat + offset))
    (hlengths : ∀ frameId ∈ frameIds, frameId.length < 2 ^ 64)
    (hcommits : Commits blake3 leaves hashed 0 frontier.peaks frontier.count.toNat)
    (htrace : ∀ preimage ∈ pushAllPreimages blake3 frontier frameIds, preimage ∈ hashed) :
    last.count.toNat = frontier.count.toNat + frameIds.length ∧
      Commits blake3 leaves hashed 0 last.peaks last.count.toNat := by
  induction frameIds generalizing frontier with
  | nil =>
    cases hall
    exact ⟨rfl, hcommits⟩
  | cons frameId frameIds ih =>
    cases hpush : frontier.push blake3 frameId with
    | error refused => simp [pushAll, hpush] at hall
    | ok next =>
      simp only [pushAll, hpush] at hall
      simp only [pushAllPreimages, hpush, List.mem_append] at htrace
      have hfirst : frameId = leaves frontier.count.toNat := by
        have h := hframes 0 (by simp)
        rwa [List.getElem_cons_zero, Nat.add_zero] at h
      obtain ⟨hcount, hnext⟩ := push_commits hpush hfirst
        (hlengths frameId (by simp)) hcommits (fun p hp => htrace p (Or.inl hp))
      obtain ⟨hlast, hresult⟩ := ih hall
        (fun offset hoffset => by
          have h := hframes (offset + 1) (by simpa using hoffset)
          rw [hcount, Nat.add_assoc, Nat.add_comm 1]
          simpa using h)
        (fun id hid => hlengths id (List.mem_cons_of_mem _ hid)) hnext
        (fun p hp => htrace p (Or.inr hp))
      refine ⟨?_, hresult⟩
      rw [hlast, hcount, List.length_cons]
      omega

/-! ### What the verifier has checked -/

theorem checkPeakHashes_ok (hok : checkPeakHashes peaks = .ok ()) :
    ∀ peak ∈ peaks, peak.hash.length = 32 := by
  induction peaks with
  | nil => simp
  | cons peak peaks ih =>
    by_cases hlength : peak.hash.length = 32
    · simp only [checkPeakHashes, hlength, ne_eq, not_true, if_false] at hok
      simpa [hlength] using ih hok
    · simp [checkPeakHashes, hlength] at hok

theorem expectedPeakHeightsLoop_length (rounds : Nat) (remaining : UInt64) :
    (expectedPeakHeightsLoop rounds remaining).length ≤ rounds := by
  induction rounds generalizing remaining with
  | zero => simp [expectedPeakHeightsLoop]
  | succ rounds ih =>
    unfold expectedPeakHeightsLoop
    split
    · simpa using ih _
    · simp

theorem peakWidth_ok {height width : UInt64} (hok : peakWidth height = .ok width) :
    width.toNat = 2 ^ height.toNat := by
  unfold peakWidth at hok
  split at hok
  · split at hok
    case isTrue hsmall =>
      cases hok
      have hpow : 2 ^ height.toNat < 2 ^ 64 := Nat.pow_lt_pow_right (by decide) hsmall
      rw [UInt64.toNat_shiftLeft, Nat.mod_eq_of_lt hsmall, Nat.shiftLeft_eq]
      simpa using Nat.mod_eq_of_lt hpow
    · cases hok
  · cases hok

/-- A selected peak of a forest covers the leaf. The walk keeps `start` at the
first leaf of the peaks it has not passed. -/
theorem peakIndexLoop_ok {count leafIndex : UInt64} {stop : Nat} :
    ∀ {index : Nat} {start : UInt64} {selected : Nat},
      Commits blake3 leaves hashed start.toNat peaks stop →
      peakIndexLoop count leafIndex (peaks.map (·.height)) index start = .ok selected →
      ∃ before peak after first, peaks = before ++ peak :: after ∧
        selected = index + before.length ∧
        Commits blake3 leaves hashed first (peak :: after) stop := by
  induction peaks with
  | nil =>
    intro index start selected _ hok
    cases hok
  | cons peak peaks ih =>
    intro index start selected hcommits hok
    simp only [List.map_cons, peakIndexLoop] at hok
    cases hwidth : peakWidth peak.height with
    | error refused => rw [hwidth] at hok; cases hok
    | ok width =>
      rw [hwidth] at hok
      have hpow := peakWidth_ok hwidth
      simp only [bind, Except.bind] at hok
      split at hok
      case isTrue hfit =>
        split at hok
        · cases hok
          exact ⟨[], peak, peaks, start.toNat, rfl, rfl, hcommits⟩
        · have hstop : (start + width).toNat = start.toNat + 2 ^ peak.height.toNat := by
            rw [UInt64.toNat_add, Nat.mod_eq_of_lt hfit, hpow]
          obtain ⟨middle, hpeak, hrest⟩ := hcommits.split [peak]
          have hmiddle : start.toNat + 2 ^ peak.height.toNat = middle := hpeak.forest.2
          rw [← hmiddle, ← hstop] at hrest
          obtain ⟨before, chosen, after, first, hpeaks, hselected, hafter⟩ := ih hrest hok
          refine ⟨peak :: before, chosen, after, first, ?_, ?_, hafter⟩
          · rw [hpeaks, List.cons_append]
          · rw [hselected, List.length_cons]
            omega
      · cases hok

def ProofStep.climbStep (step : ProofStep) : Merkle.Side × List UInt8 :=
  match step.side with
  | .left => (.left, step.hash)
  | .right => (.right, step.hash)

theorem stepPreimage_eq {step : ProofStep} {height : Nat} {carried : Digest}
    (hheight : step.parentHeight.toNat = height) :
    stepPreimage step carried =
      inputPreimage (Merkle.stepInput height carried.toList step.climbStep) := by
  have hofNat : UInt64.ofNat height = step.parentHeight := by
    rw [← hheight, UInt64.ofNat_toNat]
  cases hside : step.side <;>
    simp only [stepPreimage, ProofStep.climbStep, Merkle.stepInput, inputPreimage, hside, hofNat]

theorem stepInput_encodable {step : ProofStep} {height : Nat} {carried : Digest}
    (hheight : step.parentHeight.toNat = height) (hhash : step.hash.length = 32) :
    Encodable (Merkle.stepInput height carried.toList step.climbStep) := by
  have hfit : height < 2 ^ 64 := hheight ▸ step.parentHeight.toNat_lt
  cases hside : step.side
  · simp only [Merkle.stepInput, ProofStep.climbStep, hside]
    exact ⟨hfit, hhash, by simp⟩
  · simp only [Merkle.stepInput, ProofStep.climbStep, hside]
    exact ⟨hfit, by simp, hhash⟩

theorem climbPath_ok {path : List ProofStep} :
    ∀ {height reached : Nat} {carried digest : Digest},
      climbPath blake3 path height carried = .ok (reached, digest) →
      (∀ preimage ∈ climbPreimages blake3 path carried, preimage ∈ hashed) →
      reached = height + path.length ∧
        digest.toList = Merkle.climb (treeHash blake3) height carried.toList
          (path.map ProofStep.climbStep) ∧
        Merkle.climbInputs (treeHash blake3) height carried.toList
          (path.map ProofStep.climbStep) ⊆ inputsOf hashed := by
  induction path with
  | nil =>
    intro height reached carried digest hok _
    cases hok
    exact ⟨rfl, rfl, Set.empty_subset _⟩
  | cons step path ih =>
    intro height reached carried digest hok htrace
    simp only [climbPath] at hok
    split at hok
    · cases hok
    case isFalse hhash =>
      split at hok
      · cases hok
      case isFalse hheight =>
        simp only [ne_eq, not_not] at hhash hheight
        simp only [climbPreimages, List.mem_cons, forall_eq_or_imp] at htrace
        obtain ⟨hreached, hdigest, hinputs⟩ := ih hok htrace.2
        have hstep : stepPreimage step carried =
            inputPreimage (Merkle.stepInput (height + 1) carried.toList step.climbStep) :=
          stepPreimage_eq hheight
        have hnext : (blake3 (stepPreimage step carried)).toList =
            treeHash blake3 (Merkle.stepInput (height + 1) carried.toList step.climbStep) := by
          rw [hstep, treeHash]
        rw [hheight, hnext] at hdigest hinputs
        refine ⟨?_, hdigest, Set.insert_subset ⟨stepInput_encodable hheight hhash, ?_⟩ hinputs⟩
        · rw [hreached, hheight, List.length_cons]
          omega
        · rw [← hstep]
          exact htrace.1

variable (blake3)

/-- What acceptance by `verifyProof` establishes. -/
structure Accepted (proof : Proof) (selected : MmrPeak) : Prop where
  frameId : proof.frameId.length = 32
  heights : proof.peaks.map (·.height) = expectedPeakHeights proof.count
  hashes : ∀ peak ∈ proof.peaks, peak.hash.length = 32
  peak : proof.peaks[proof.peakIndex.toNat]? = some selected
  index : peakIndexLoop proof.count proof.leafIndex (proof.peaks.map (·.height)) 0 0 =
    .ok proof.peakIndex.toNat
  path : ∃ carried, carried.toList = selected.hash ∧
    climbPath blake3 proof.path 0 (leafHash blake3 proof.leafIndex proof.frameId) =
      .ok (selected.height.toNat, carried)
  root : (rootHash blake3 proof.count proof.peaks).toList = proof.root

variable {blake3}

theorem verifyProof_ok {proof : Proof} (hok : verifyProof blake3 proof = .ok ()) :
    ∃ selected, Accepted blake3 proof selected := by
  unfold verifyProof at hok
  split at hok
  · cases hok
  case isFalse hframe =>
  split at hok
  · cases hok
  split at hok
  · cases hok
  case isFalse hleaf =>
  split at hok
  · cases hok
  case isFalse hpeak =>
  dsimp only at hok
  split at hok
  · cases hok
  case isFalse hheights =>
  simp only [peakIndexForLeaf, hleaf, if_false] at hok
  cases hindex : peakIndexLoop proof.count proof.leafIndex (proof.peaks.map (·.height)) 0 0 with
  | error refused => rw [hindex] at hok; cases hok
  | ok computed =>
    simp only [hindex, bind, Except.bind, throw, throwThe, MonadExceptOf.throw, pure,
      Except.pure] at hok
    split at hok
    · cases hok
    case isFalse hselected =>
    cases hhashes : checkPeakHashes proof.peaks with
    | error refused => rw [hhashes] at hok; cases hok
    | ok _ =>
      rw [hhashes] at hok
      cases hpath : climbPath blake3 proof.path 0
          (leafHash blake3 proof.leafIndex proof.frameId) with
      | error refused => rw [hpath] at hok; cases hok
      | ok reached =>
        obtain ⟨height, carried⟩ := reached
        rw [hpath] at hok
        dsimp only at hok
        split at hok
        · cases hok
        case isFalse hheight =>
        split at hok
        · cases hok
        case isFalse hcarried =>
        split at hok
        · cases hok
        case isFalse hroot =>
        simp only [ne_eq, not_not] at hframe hheights hselected hheight hcarried hroot
        rw [hheight] at hpath
        refine ⟨_, hframe, hheights, checkPeakHashes_ok hhashes,
          List.getElem?_eq_getElem (Nat.lt_of_not_le hpeak), ?_,
          ⟨carried, hcarried, hpath⟩, hroot⟩
        rw [hindex, hselected]

end

section

variable {blake3 : List UInt8 → Digest}

def leafAt (frameIds : List (List UInt8)) (index : Nat) : List UInt8 := frameIds.getD index []

/-- The frontier `root` is taken over commits to the frame ids. -/
theorem root_some {frameIds : List (List UInt8)} {committed : List UInt8}
    (hroot : root blake3 frameIds = some committed)
    (hlengths : ∀ frameId ∈ frameIds, frameId.length < 2 ^ 64) :
    frameIds.length < 2 ^ 64 ∧ ∃ peaks, peakFold blake3 frameIds = some peaks ∧
      committed = (rootHash blake3 (UInt64.ofNat frameIds.length) peaks).toList ∧
      Commits blake3 (leafAt frameIds) (rootPreimages blake3 frameIds) 0 peaks
        frameIds.length := by
  cases hall : pushAll blake3 {} frameIds with
  | none => simp [root, peakFold, hall] at hroot
  | some last =>
    have hfold : peakFold blake3 frameIds = some last.peaks := by
      simp only [peakFold, hall, Option.map_some]
    have hempty : Commits blake3 (leafAt frameIds) (rootPreimages blake3 frameIds) 0 [] 0 :=
      Commits.nil 0
    obtain ⟨hcount, hcommits⟩ := pushAll_commits hall
      (fun offset hoffset => by simp [leafAt, hoffset]) hlengths hempty
      (fun preimage h => List.mem_append_left _ h)
    have hlength : last.count.toNat = frameIds.length := by
      rw [hcount]
      exact Nat.zero_add _
    refine ⟨by rw [← hlength]; exact last.count.toNat_lt, last.peaks, hfold, ?_, ?_⟩
    · simpa [root, hfold, eq_comm] using hroot
    · rwa [hlength] at hcommits

/-- **Soundness.** A proof accepted against the root of a list of frame ids names
the frame id the list has at the claimed index, and the length of the list, unless
BLAKE3 collides on two of the preimages hashed by the two sides. -/
theorem verifyProof_sound (frameIds : List (List UInt8)) (proof : Proof)
    (hids : ∀ frameId ∈ frameIds, frameId.length = 32)
    (hroot : root blake3 frameIds = some proof.root)
    (hfree : CollisionFree blake3
      (rootPreimages blake3 frameIds ++ verifyPreimages blake3 proof))
    (hok : verifyProof blake3 proof = .ok ()) :
    proof.count.toNat = frameIds.length ∧ proof.leafIndex.toNat < frameIds.length ∧
      frameIds[proof.leafIndex.toNat]? = some proof.frameId := by
  obtain ⟨hcount64, peaks, hfold, hcommitted, hcommits⟩ :=
    root_some hroot (fun id hid => by rw [hids id hid]; decide)
  obtain ⟨selected, haccepted⟩ := verifyProof_ok hok
  -- The two root preimages agree, so the prover's peaks are the frontier's.
  have hrootpre : rootPreimage proof.count proof.peaks =
      rootPreimage (UInt64.ofNat frameIds.length) peaks := by
    refine hfree _ (by simp [verifyPreimages]) _ (by simp [rootPreimages, hfold]) ?_
    exact Vector.toList_inj.mp (haccepted.root.trans hcommitted)
  have hfew : proof.peaks.length < 2 ^ 64 := by
    have h := expectedPeakHeightsLoop_length 64 proof.count
    have hlength : proof.peaks.length = (expectedPeakHeights proof.count).length := by
      rw [← haccepted.heights, List.length_map]
    simp only [expectedPeakHeights] at hlength
    omega
  have hbound := hcommits.length_le
  obtain ⟨hcount, hpeaks⟩ :=
    rootPreimage_inj hfew (by omega) haccepted.hashes hcommits.hashes hrootpre
  have hcountNat : proof.count.toNat = frameIds.length := by
    rw [hcount, UInt64.toNat_ofNat_of_lt' hcount64]
  -- The selected peak is the subtree of the frontier that starts at `first`.
  have hall : Commits blake3 (leafAt frameIds)
      (rootPreimages blake3 frameIds ++ verifyPreimages blake3 proof) (0 : UInt64).toNat
      proof.peaks frameIds.length := by
    rw [hpeaks]
    exact hcommits.mono (fun _ h => List.mem_append_left _ h)
  obtain ⟨before, peak, after, first, hsplit, hselected, hafter⟩ :=
    peakIndexLoop_ok hall haccepted.index
  have hpeak : peak = selected := by
    have h := haccepted.peak
    rw [hsplit, hselected, Nat.zero_add, List.getElem?_append_right (Nat.le_refl _),
      Nat.sub_self, List.getElem?_cons_zero] at h
    exact Option.some.inj h
  rw [hpeak] at hafter
  obtain ⟨middle, hone, hrest⟩ := hafter.split [selected]
  have hmiddle : first + 2 ^ selected.height.toNat = middle := hone.forest.2
  have hstop := hrest.length_le
  -- The path climbs that subtree from the leaf the proof names.
  obtain ⟨carried, hcarried, hclimb⟩ := haccepted.path
  have htrace : ∀ preimage ∈ climbPreimages blake3 proof.path
      (leafHash blake3 proof.leafIndex proof.frameId),
      preimage ∈ rootPreimages blake3 frameIds ++ verifyPreimages blake3 proof := by
    intro preimage h
    simp [verifyPreimages, h]
  obtain ⟨hheight, hdigest, hinputs⟩ := climbPath_ok hclimb htrace
  rw [Nat.zero_add] at hheight
  have hleafInput : (.leaf proof.leafIndex.toNat proof.frameId : TreeInput) ∈
      inputsOf (rootPreimages blake3 frameIds ++ verifyPreimages blake3 proof) := by
    refine ⟨⟨proof.leafIndex.toNat_lt, by rw [haccepted.frameId]; decide⟩, ?_⟩
    simp only [inputPreimage, UInt64.ofNat_toNat]
    simp [verifyPreimages]
  have hleafHash : (leafHash blake3 proof.leafIndex proof.frameId).toList =
      treeHash blake3 (.leaf proof.leafIndex.toNat proof.frameId) := by
    simp only [treeHash, inputPreimage, leafHash, UInt64.ofNat_toNat]
  rw [hleafHash] at hdigest hinputs
  have hsteps : (proof.path.map ProofStep.climbStep).length = selected.height.toNat := by
    rw [List.length_map, hheight]
  have htree : Merkle.subtreeInputs (treeHash blake3) (leafAt frameIds)
      (proof.path.map ProofStep.climbStep).length first ⊆
        inputsOf (rootPreimages blake3 frameIds ++ verifyPreimages blake3 proof) := by
    rw [hsteps]
    exact fun input h => hone.inputs (Or.inl h)
  have harrives : Merkle.climb (treeHash blake3) 0
      (treeHash blake3 (.leaf proof.leafIndex.toNat proof.frameId))
      (proof.path.map ProofStep.climbStep) =
        Merkle.subtree (treeHash blake3) (leafAt frameIds)
          (proof.path.map ProofStep.climbStep).length first := by
    rw [hsteps, ← hdigest, hcarried]
    exact hone.forest.1
  obtain ⟨_, hlt, hvalue⟩ := Merkle.climb_binds (treeHash_injOn hfree) hleafInput _ first
    hinputs htree harrives
  rw [hsteps] at hlt
  have hin : proof.leafIndex.toNat < frameIds.length := by omega
  refine ⟨hcountNat, hin, ?_⟩
  rw [hvalue, leafAt, List.getD_eq_getElem?_getD, List.getElem?_eq_getElem hin, Option.getD_some]

end

/-! ### The published proof vector -/

def digestOf (value : Nat) : Digest := ⟨(beBytes 32 value).toArray, by simp⟩

def vectorIds : List (List UInt8) := [1, 2, 3, 4].map (List.replicate 32)

/-- BLAKE3 on the preimages over `vectorIds`. -/
def vectorDigests : List (List UInt8 × Digest) :=
  let leaf0 := digestOf 0x0473dc37a02ae40d0ddf3e898f5aef91f80897151f553ca0fcf6d1089299ce5e
  let leaf1 := digestOf 0x16b564d299f55b2a09287c241c61cd565445d633c4b4d072aa909bb9ca4a8475
  let leaf2 := digestOf 0x8558308c65f0922274abf99517c3fa166aeb415d26c2a93c89df60e4f0f01ab7
  let leaf3 := digestOf 0x780d7b99b86d5be1820a32faf15cf97035bc81df5a2be1e5491a16207249cf92
  let low := digestOf 0xf88a99eb07d2064c5a71b2857c1acac127de0ce973c7a23f97ebc054de7e70f4
  let high := digestOf 0x8cb83eb2039c1c6e83c66eecb5a012bb01d3bdd9d45a3ee2529c5bbffcba8b6b
  let top := digestOf 0x60a262c4be2ad5c440ff1ad3aa99e0429bf0c134846f15cc3f627406f8a7c287
  let root := digestOf 0xc24901580895f06da6f51ee3d1ec215890c2ecb611a9e5729579bf967717a738
  [(leafPreimage 0 (List.replicate 32 1), leaf0), (leafPreimage 1 (List.replicate 32 2), leaf1),
    (leafPreimage 2 (List.replicate 32 3), leaf2), (leafPreimage 3 (List.replicate 32 4), leaf3),
    (parentPreimage 1 leaf0.toList leaf1.toList, low),
    (parentPreimage 1 leaf2.toList leaf3.toList, high),
    (parentPreimage 2 low.toList high.toList, top),
    (rootPreimage 4 [⟨2, top.toList⟩], root)]

def vectorBlake3 (preimage : List UInt8) : Digest :=
  match vectorDigests.find? (·.1 == preimage) with
  | some (_, digest) => digest
  | none => digestOf 0

def vectorProof : Proof where
  count := 4
  leafIndex := 2
  frameId := List.replicate 32 3
  root := (digestOf 0xc24901580895f06da6f51ee3d1ec215890c2ecb611a9e5729579bf967717a738).toList
  peakIndex := 0
  peaks := [⟨2, (digestOf
    0x60a262c4be2ad5c440ff1ad3aa99e0429bf0c134846f15cc3f627406f8a7c287).toList⟩]
  path := [
    ⟨1, .right, (digestOf
      0x780d7b99b86d5be1820a32faf15cf97035bc81df5a2be1e5491a16207249cf92).toList⟩,
    ⟨2, .left, (digestOf
      0xf88a99eb07d2064c5a71b2857c1acac127de0ce973c7a23f97ebc054de7e70f4).toList⟩]

theorem verifyProof_sound_vector :
    verifyProof vectorBlake3 vectorProof = .ok () ∧
      vectorIds[vectorProof.leafIndex.toNat]? = some vectorProof.frameId := by
  have hids : ∀ frameId ∈ vectorIds, frameId.length = 32 := by decide
  have hroot : root vectorBlake3 vectorIds = some vectorProof.root := by decide +kernel
  have hfree : CollisionFree vectorBlake3
      (rootPreimages vectorBlake3 vectorIds ++ verifyPreimages vectorBlake3 vectorProof) := by
    decide +kernel
  have hok : verifyProof vectorBlake3 vectorProof = .ok () := by decide +kernel
  exact ⟨hok, (verifyProof_sound vectorIds vectorProof hids hroot hfree hok).2.2⟩

/-! ### The root binds the list -/

/-- A root commits to the whole list of frame ids: their number, their order and every one of
them, unless BLAKE3 collides on two of the preimages hashed for the two lists. -/
theorem root_binding {blake3 : List UInt8 → Digest} {ids ids' : List (List UInt8)}
    {committed committed' : List UInt8}
    (hids : ∀ frameId ∈ ids, frameId.length < 2 ^ 64)
    (hids' : ∀ frameId ∈ ids', frameId.length < 2 ^ 64)
    (hroot : root blake3 ids = some committed) (hroot' : root blake3 ids' = some committed')
    (hfree : CollisionFree blake3 (rootPreimages blake3 ids ++ rootPreimages blake3 ids')) :
    committed = committed' ↔ ids = ids' := by
  constructor
  · intro hsame
    obtain ⟨hcount, peaks, hfold, hcommitted, hcommits⟩ := root_some hroot hids
    obtain ⟨hcount', peaks', hfold', hcommitted', hcommits'⟩ := root_some hroot' hids'
    have hpreimage : rootPreimage (UInt64.ofNat ids.length) peaks =
        rootPreimage (UInt64.ofNat ids'.length) peaks' := by
      refine hfree _ (by simp [rootPreimages, hfold]) _ (by simp [rootPreimages, hfold']) ?_
      exact Vector.toList_inj.mp (hcommitted.symm.trans (hsame.trans hcommitted'))
    have hbound := hcommits.length_le
    have hbound' := hcommits'.length_le
    obtain ⟨hnumber, rfl⟩ := rootPreimage_inj (by omega) (by omega) hcommits.hashes
      hcommits'.hashes hpreimage
    have hlength : ids.length = ids'.length := by
      have hnat := congrArg UInt64.toNat hnumber
      rwa [UInt64.toNat_ofNat_of_lt' hcount, UInt64.toNat_ofNat_of_lt' hcount'] at hnat
    -- One frontier is a forest over both lists, so it binds the leaves of both.
    have hall : Commits blake3 (leafAt ids)
        (rootPreimages blake3 ids ++ rootPreimages blake3 ids') 0 peaks ids.length :=
      hcommits.mono fun _ h => List.mem_append_left _ h
    have hall' : Commits blake3 (leafAt ids')
        (rootPreimages blake3 ids ++ rootPreimages blake3 ids') 0 peaks ids'.length :=
      hcommits'.mono fun _ h => List.mem_append_right _ h
    apply List.ext_getElem hlength
    intro index hindex hindex'
    have hleaf := hall.forest.binds (treeHash_injOn hfree) hall'.forest hall.inputs hall'.inputs
      index (Nat.zero_le _) hindex
    simpa [leafAt, List.getD_eq_getElem?_getD, hindex, hindex'] using hleaf
  · rintro rfl
    exact Option.some.inj (hroot.symm.trans hroot')

def sumHash (preimage : List UInt8) : Digest :=
  digestOf (preimage.foldl (fun sum byte => 31 * sum + byte.toNat) 0)

theorem root_binding_swapped :
    (root sumHash [List.replicate 32 1, List.replicate 32 2]).isSome ∧
      root sumHash [List.replicate 32 1, List.replicate 32 2] ≠
        root sumHash [List.replicate 32 2, List.replicate 32 1] := by
  obtain ⟨committed, hroot⟩ : ∃ committed,
      root sumHash [List.replicate 32 1, List.replicate 32 2] = some committed :=
    Option.isSome_iff_exists.mp (by decide +kernel)
  refine ⟨by rw [hroot]; rfl, fun hsame => ?_⟩
  have hbinds := root_binding (by decide) (by decide) hroot (hsame.symm.trans hroot)
    (by decide +kernel)
  exact absurd (hbinds.mp rfl) (by decide)

end Purrdf.Mmr
