import Purrdf.MmrProver

/-!
# Proofs the prover makes are accepted

The boxed tree of the prover and the incremental frontier are two folds over the same
leaves: they have the same peaks, whose heights are the set bits of the count, and the
path the prover reads off the tree climbs from the leaf to its peak.
-/

namespace Purrdf.Mmr

variable {blake3 : List UInt8 → Digest}

/-! ### Frontiers reached by appending -/

theorem height_succ {height : UInt64} {count : Nat} (fits : count + 2 ^ height.toNat < 2 ^ 64) :
    height.toNat + 1 < 2 ^ 64 ∧ (height + 1).toNat = height.toNat + 1 := by
  have small : height.toNat < 64 := by
    apply (Nat.pow_lt_pow_iff_right (by omega : 1 < 2)).mp
    omega
  have bound : height.toNat + 1 < 2 ^ 64 := by omega
  refine ⟨bound, ?_⟩
  rw [UInt64.toNat_add]
  exact Nat.mod_eq_of_lt bound

/-- The merge loop keeps the shape: carrying a subtree of a height that divides the
leaves before it adds its width to the count. -/
theorem mergePeaks_shape (older : List MmrPeak) (height : UInt64) (hash : Digest) (count : Nat)
    (shape : Shape (older.reverse.map (·.height)) count) (aligned : 2 ^ height.toNat ∣ count)
    (fits : count + 2 ^ height.toNat < 2 ^ 64) :
    Shape ((mergePeaks blake3 older height hash).reverse.map (·.height))
      (count + 2 ^ height.toNat) := by
  induction older generalizing height hash count with
  | nil =>
    have empty : count = 0 := shape
    subst empty
    exact ⟨0, Nat.zero_add _, Nat.two_pow_pos _, rfl⟩
  | cons left older ih =>
    rw [List.reverse_cons, List.map_append, List.map_singleton] at shape
    obtain ⟨before, rfl, shape', divides⟩ := shape_append.mp shape
    rw [mergePeaks]
    by_cases same : left.height = height
    · rw [if_pos same]
      rw [same] at divides fits ⊢
      obtain ⟨-, succ⟩ := height_succ fits
      have double : before + 2 ^ height.toNat + 2 ^ height.toNat =
          before + 2 ^ (height + 1).toNat := by
        rw [succ, Nat.pow_succ]
        omega
      rw [double] at fits ⊢
      rw [← succ] at divides
      exact ih (height + 1) _ before shape' divides fits
    · rw [if_neg same, List.reverse_cons, List.map_append, List.map_singleton, shape_append]
      refine ⟨_, rfl, ?_, ?_⟩
      · rw [List.reverse_cons, List.map_append, List.map_singleton]
        exact shape
      · have differs : left.height.toNat ≠ height.toNat := fun eq => same (UInt64.toNat_inj.mp eq)
        have above : height.toNat < left.height.toNat := by
          by_contra below
          have lower : left.height.toNat + 1 ≤ height.toNat := by omega
          have split := (Nat.dvd_add_right divides).mp
            ((Nat.pow_dvd_pow 2 lower).trans aligned)
          have := Nat.le_of_dvd (Nat.two_pow_pos _) split
          have := Nat.pow_lt_pow_right (by omega : 1 < 2) (Nat.lt_succ_self left.height.toNat)
          omega
        have lift : 2 ^ (height.toNat + 1) ∣ 2 ^ (left.height.toNat + 1) :=
          Nat.pow_dvd_pow 2 (by omega)
        exact Nat.dvd_add (lift.trans divides) (Nat.pow_dvd_pow 2 above)

theorem mergePeaks_hashes (older : List MmrPeak) (height : UInt64) (hash : Digest)
    (digests : ∀ peak ∈ older, peak.hash.length = 32) :
    ∀ peak ∈ mergePeaks blake3 older height hash, peak.hash.length = 32 := by
  induction older generalizing height hash with
  | nil => simp [mergePeaks]
  | cons left older ih =>
    rw [mergePeaks]
    split
    · exact ih _ _ fun peak member => digests peak (List.mem_cons_of_mem _ member)
    · intro peak member
      rcases List.mem_cons.mp member with rfl | member
      · simp
      · exact digests peak member

structure MmrPeaks.WellShaped (frontier : MmrPeaks) : Prop where
  heights : Shape (frontier.peaks.map (·.height)) frontier.count.toNat
  hashes : ∀ peak ∈ frontier.peaks, peak.hash.length = 32

theorem wellShaped_empty : MmrPeaks.WellShaped {} := by
  constructor
  · rfl
  · simp

theorem push_wellShaped {frontier next : MmrPeaks} {frameId : List UInt8}
    (h : frontier.WellShaped) (run : frontier.push blake3 frameId = .ok next) :
    next.WellShaped ∧ next.count.toNat = frontier.count.toNat + 1 := by
  rw [MmrPeaks.push] at run
  split at run
  · rename_i fits
    cases run
    have count : (frontier.count + 1).toNat = frontier.count.toNat + 1 := by
      rw [UInt64.toNat_add]
      exact Nat.mod_eq_of_lt fits
    refine ⟨⟨?_, ?_⟩, count⟩
    · rw [count]
      refine mergePeaks_shape frontier.peaks.reverse 0 _ _ ?_ ?_ fits
      · rw [List.reverse_reverse]
        exact h.heights
      · simp
    · intro peak member
      refine mergePeaks_hashes _ _ _ ?_ peak (List.mem_reverse.mp member)
      exact fun peak member => h.hashes peak (List.mem_reverse.mp member)
  · cases run

theorem checkParts_ok (peaks : List MmrPeak) (index : Nat)
    (hashes : ∀ peak ∈ peaks, peak.hash.length = 32) :
    checkParts (peaks.zip (peaks.map (·.height))) index = .ok () := by
  induction peaks generalizing index with
  | nil => rfl
  | cons peak peaks ih =>
    rw [List.map_cons, List.zip_cons_cons, checkParts, if_neg (by simp),
      if_neg (by simp [hashes peak])]
    exact ih _ fun other member => hashes other (List.mem_cons_of_mem _ member)

theorem fromParts_wellShaped {frontier : MmrPeaks} (h : frontier.WellShaped) :
    MmrPeaks.fromParts frontier.count frontier.peaks = .ok frontier := by
  have expected := expectedPeakHeights_eq h.heights
  simp only [MmrPeaks.fromParts, expected, List.length_map, ne_eq, not_true_eq_false, if_false,
    checkParts_ok frontier.peaks 0 h.hashes]
  rfl

theorem wellShaped_of_checkParts {peaks : List MmrPeak} {heights : List UInt64} {index : Nat}
    (sameLength : peaks.length = heights.length)
    (checked : checkParts (peaks.zip heights) index = .ok ()) :
    peaks.map (·.height) = heights ∧ ∀ peak ∈ peaks, peak.hash.length = 32 := by
  induction peaks generalizing heights index with
  | nil =>
    rw [List.eq_nil_of_length_eq_zero sameLength.symm]
    simp
  | cons peak peaks ih =>
    rcases heights with - | ⟨height, heights⟩
    · cases sameLength
    · rw [List.zip_cons_cons, checkParts] at checked
      by_cases same : peak.height = height
      · by_cases digest : peak.hash.length = 32
        · simp only [same, digest, ne_eq, not_true_eq_false, if_false] at checked
          obtain ⟨rest, hashes⟩ := ih (by simpa using sameLength) checked
          refine ⟨by rw [List.map_cons, same, rest], ?_⟩
          intro other member
          rcases List.mem_cons.mp member with rfl | member
          · exact digest
          · exact hashes other member
        · simp [same, digest] at checked
      · simp [same] at checked

theorem wellShaped_of_fromParts {count : UInt64} {peaks : List MmrPeak} {frontier : MmrPeaks}
    (restored : MmrPeaks.fromParts count peaks = .ok frontier) : frontier.WellShaped := by
  rw [MmrPeaks.fromParts] at restored
  split at restored
  · cases restored
  · rename_i sameLength
    rw [not_not] at sameLength
    rcases checked : checkParts (peaks.zip (expectedPeakHeights count)) 0 with error | ⟨⟩
    · rw [checked] at restored
      cases restored
    · rw [checked] at restored
      cases restored
      obtain ⟨heights, hashes⟩ := wellShaped_of_checkParts sameLength checked
      exact ⟨heights ▸ shape_expectedPeakHeights count, hashes⟩

theorem pushAll_wellShaped {frontier last : MmrPeaks} {frameIds : List (List UInt8)}
    (h : frontier.WellShaped) (fed : pushAll blake3 frontier frameIds = some last) :
    last.WellShaped := by
  induction frameIds generalizing frontier with
  | nil =>
    cases fed
    exact h
  | cons frameId rest ih =>
    rw [pushAll] at fed
    split at fed
    · rename_i next run
      exact ih (push_wellShaped h run).1 fed
    · cases fed

theorem pushAllRestoring_eq {frontier : MmrPeaks} (fed : List (List UInt8 × Bool))
    (h : frontier.WellShaped) :
    pushAllRestoring blake3 frontier fed = pushAll blake3 frontier (fed.map Prod.fst) := by
  induction fed generalizing frontier with
  | nil => rfl
  | cons entry rest ih =>
    obtain ⟨frameId, restore⟩ := entry
    have same : frontier.restored restore = some frontier := by
      cases restore
      · rfl
      · rw [MmrPeaks.restored, if_pos rfl, fromParts_wellShaped h]
        rfl
    rw [pushAllRestoring, same, List.map_cons, pushAll, Option.bind_some]
    rcases run : frontier.push blake3 frameId with error | next
    · rfl
    · exact ih (push_wellShaped h run).1

theorem MmrPeaks.WellShaped.length_le {frontier : MmrPeaks} (h : frontier.WellShaped) :
    frontier.peaks.length ≤ 64 := by
  rw [← List.length_map (·.height), ← expectedPeakHeights_eq h.heights]
  exact expectedPeakHeightsLoop_length 64 frontier.count

/-! ### The tree -/

/-- The node is the perfect subtree of a height over the leaves from `start`. -/
def Node.Perfect (blake3 : List UInt8 → Digest) (ids : List (List UInt8)) :
    Node → Nat → Nat → Prop
  | .leaf s e hash, start, height =>
    height = 0 ∧ s = start ∧ e = start + 1 ∧
      hash = leafHash blake3 (UInt64.ofNat start) (leafAt ids start)
  | .parent h s e hash left right, start, height =>
    ∃ below, height = below + 1 ∧ h.toNat = height ∧ s = start ∧ e = start + 2 ^ height ∧
      hash = parentHash blake3 h left.hash.toList right.hash.toList ∧
      left.Perfect blake3 ids start below ∧ right.Perfect blake3 ids (start + 2 ^ below) below

variable {ids : List (List UInt8)}

theorem Node.Perfect.coords {node : Node} {start height : Nat}
    (h : node.Perfect blake3 ids start height) :
    node.start = start ∧ node.stop = start + 2 ^ height ∧ node.height.toNat = height := by
  cases node with
  | leaf s e hash =>
    obtain ⟨rfl, rfl, rfl, -⟩ := h
    exact ⟨rfl, rfl, rfl⟩
  | parent h' s e hash left right =>
    obtain ⟨below, -, tall, rfl, rfl, -⟩ := h
    exact ⟨rfl, rfl, tall⟩

/-- The nodes are consecutive perfect subtrees over the leaves from `start` to `stop`. -/
def Covers (blake3 : List UInt8 → Digest) (ids : List (List UInt8)) : Nat → List Node → Nat → Prop
  | start, [], stop => start = stop
  | start, node :: nodes, stop =>
    ∃ height, node.Perfect blake3 ids start height ∧
      Covers blake3 ids (start + 2 ^ height) nodes stop

theorem covers_append {start stop : Nat} {nodes : List Node} {node : Node} :
    Covers blake3 ids start (nodes ++ [node]) stop ↔ ∃ middle height,
      Covers blake3 ids start nodes middle ∧ node.Perfect blake3 ids middle height ∧
        stop = middle + 2 ^ height := by
  induction nodes generalizing start with
  | nil =>
    constructor
    · rintro ⟨height, perfect, rfl⟩
      exact ⟨start, height, rfl, perfect, rfl⟩
    · rintro ⟨middle, height, rfl, perfect, rfl⟩
      exact ⟨height, perfect, rfl⟩
  | cons first nodes ih =>
    constructor
    · rintro ⟨height, perfect, covers⟩
      obtain ⟨middle, height', covers, perfect', same⟩ := ih.mp covers
      exact ⟨middle, height', ⟨height, perfect, covers⟩, perfect', same⟩
    · rintro ⟨middle, height', ⟨height, perfect, covers⟩, perfect', same⟩
      exact ⟨height, perfect, ih.mpr ⟨middle, height', covers, perfect', same⟩⟩

theorem Covers.le {start stop : Nat} {nodes : List Node}
    (covers : Covers blake3 ids start nodes stop) : start ≤ stop := by
  induction nodes generalizing start with
  | nil =>
    have same : start = stop := covers
    omega
  | cons node nodes ih =>
    obtain ⟨height, -, covers⟩ := covers
    exact (Nat.le_add_right _ _).trans (ih covers)

/-- The prover's merge loop and the frontier's walk in step. -/
theorem mergeNodes_spec (older : List Node) (node : Node) (middle height : Nat)
    (covers : Covers blake3 ids 0 older.reverse middle)
    (perfect : node.Perfect blake3 ids middle height) (fits : middle + 2 ^ height < 2 ^ 64) :
    Covers blake3 ids 0 (mergeNodes blake3 older node).reverse (middle + 2 ^ height) ∧
      (mergeNodes blake3 older node).map Node.peak =
        mergePeaks blake3 (older.map Node.peak) node.height node.hash := by
  induction older generalizing node middle height with
  | nil =>
    have empty : 0 = middle := covers
    subst empty
    exact ⟨⟨height, perfect, rfl⟩, rfl⟩
  | cons left older ih =>
    rw [List.reverse_cons] at covers
    obtain ⟨first, height', covers', perfect', rfl⟩ := covers_append.mp covers
    have tall := perfect.coords.2.2
    have tall' := perfect'.coords.2.2
    rw [mergeNodes]
    by_cases same : left.height = node.height
    · have sameHeight : height' = height := by rw [← tall', ← tall, same]
      subst sameHeight
      have twice : 2 ^ (height' + 1) = 2 ^ height' + 2 ^ height' := by
        rw [Nat.pow_succ]
        omega
      have parent : (joined blake3 left node).Perfect blake3 ids first (height' + 1) := by
        have fits' : first + 2 ^ left.height.toNat < 2 ^ 64 := by
          rw [tall']
          have := Nat.two_pow_pos height'
          omega
        refine ⟨height', rfl, ?_, perfect'.coords.1, ?_, rfl, perfect', perfect⟩
        · rw [(height_succ fits').2, tall']
        · rw [perfect.coords.2.1, twice]
          omega
      obtain ⟨covers'', peaks⟩ := ih (joined blake3 left node) first (height' + 1) covers' parent
        (by omega)
      rw [if_neg (not_not.mpr same)]
      refine ⟨?_, ?_⟩
      · rw [twice, ← Nat.add_assoc] at covers''
        exact covers''
      · rw [peaks, List.map_cons, mergePeaks, if_pos (show left.peak.height = node.height from same),
          ← same]
        rfl
    · rw [if_pos same]
      refine ⟨?_, ?_⟩
      · rw [List.reverse_cons, List.reverse_cons]
        exact covers_append.mpr ⟨_, height, covers_append.mpr ⟨first, height', covers', perfect', rfl⟩,
          perfect, rfl⟩
      · rw [List.map_cons, List.map_cons, mergePeaks, if_neg (show ¬left.peak.height = node.height
          from same)]
        rfl

/-- The tree over the leaves up to `index`, and the frontier fed the rest, have the same
peaks at the end. -/
theorem appendNodes_spec (rest : List (List UInt8)) (nodes : List Node) (index : Nat)
    (frontier : MmrPeaks) (covers : Covers blake3 ids 0 nodes.reverse index)
    (suffix : ids.drop index = rest) (fits : index + rest.length < 2 ^ 64)
    (count : frontier.count.toNat = index) (peaks : frontier.peaks = peakList nodes.reverse) :
    ∃ last, pushAll blake3 frontier rest = some last ∧
      last.count.toNat = index + rest.length ∧
      last.peaks = peakList (appendNodes blake3 nodes index rest).reverse ∧
      Covers blake3 ids 0 (appendNodes blake3 nodes index rest).reverse (index + rest.length) := by
  induction rest generalizing nodes index frontier with
  | nil => exact ⟨frontier, rfl, count, peaks, covers⟩
  | cons frameId rest ih =>
    have here : leafAt ids index = frameId := by
      have head : (ids.drop index)[0]? = some frameId := by rw [suffix]; rfl
      rw [List.getElem?_drop, Nat.add_zero] at head
      rw [leafAt, List.getD_eq_getElem?_getD, head, Option.getD_some]
    have later : ids.drop (index + 1) = rest := by
      rw [← List.drop_drop, suffix, List.drop_one, List.tail_cons]
    have same : UInt64.ofNat index = frontier.count := by rw [← count, UInt64.ofNat_toNat]
    rw [List.length_cons] at fits
    obtain ⟨covers', peaks'⟩ := mergeNodes_spec nodes
      (.leaf index (index + 1) (leafHash blake3 (UInt64.ofNat index) frameId)) index 0 covers
      ⟨rfl, rfl, rfl, by rw [here]⟩ (by omega)
    have room : frontier.count.toNat + 1 < 2 ^ 64 := by omega
    have succ : (frontier.count + 1).toNat = index + 1 := by
      rw [UInt64.toNat_add, count, UInt64.toNat_one]
      exact Nat.mod_eq_of_lt (by omega)
    rw [pushAll, MmrPeaks.push, if_pos room, appendNodes, List.length_cons]
    have order : index + (rest.length + 1) = index + 1 + rest.length := by omega
    rw [order]
    apply ih _ (index + 1) _ covers' later (by omega) succ
    rw [peakList, List.map_reverse, peaks', peaks, peakList, List.map_reverse, List.reverse_reverse,
      ← same]
    rfl

theorem buildNodes_spec (ids : List (List UInt8)) (fits : ids.length < 2 ^ 64) :
    ∃ last, pushAll blake3 {} ids = some last ∧ last.count.toNat = ids.length ∧
      last.peaks = peakList (buildNodes blake3 ids) ∧
      Covers blake3 ids 0 (buildNodes blake3 ids) ids.length := by
  have run := @appendNodes_spec blake3 ids ids [] 0 {} rfl rfl
    (by rw [Nat.zero_add]; exact fits) rfl rfl
  rw [Nat.zero_add] at run
  exact run

theorem climbPath_append (first second : List ProofStep) (height : Nat) (carried : Digest) :
    climbPath blake3 (first ++ second) height carried =
      (climbPath blake3 first height carried).bind fun reached =>
        climbPath blake3 second reached.1 reached.2 := by
  induction first generalizing height carried with
  | nil => rfl
  | cons step first ih =>
    rw [List.cons_append, climbPath, climbPath]
    split
    · rfl
    · split
      · rfl
      · exact ih _ _

theorem climbPath_step {steps : List ProofStep} {step : ProofStep} {below : Nat}
    {carried reached : Digest} (climbs : climbPath blake3 steps 0 carried = .ok (below, reached))
    (digest : step.hash.length = 32) (tall : step.parentHeight.toNat = below + 1) :
    climbPath blake3 (steps ++ [step]) 0 carried =
      .ok (below + 1, blake3 (stepPreimage step reached)) := by
  rw [climbPath_append, climbs]
  show climbPath blake3 [step] below reached = _
  rw [climbPath, if_neg (not_not.mpr digest), if_neg (not_not.mpr tall), climbPath, tall]

/-- Inside a perfect subtree the interval descent finds the leaf, and the steps it
gathers climb from the leaf to the root of the subtree. -/
theorem appendPath_climbs {node : Node} {start height target : Nat}
    (perfect : node.Perfect blake3 ids start height) (lower : start ≤ target)
    (upper : target < start + 2 ^ height) :
    ∃ steps, (∀ path, appendPath node target path = (true, path ++ steps)) ∧
      climbPath blake3 steps 0 (leafHash blake3 (UInt64.ofNat target) (leafAt ids target)) =
        .ok (height, node.hash) := by
  induction node generalizing start height with
  | leaf s e hash =>
    obtain ⟨rfl, rfl, rfl, rfl⟩ := perfect
    have same : target = s := by
      rw [Nat.pow_zero] at upper
      omega
    subst same
    apply Exists.intro []
    constructor
    · intro path
      rw [appendPath, beq_self_eq_true, List.append_nil]
    · rfl
  | parent h s e hash left right ihl ihr =>
    obtain ⟨below, rfl, tall, rfl, rfl, rfl, perfectLeft, perfectRight⟩ := perfect
    have positive : h ≠ 0 := by
      intro zero
      rw [zero] at tall
      simp at tall
    have twice : 2 ^ (below + 1) = 2 ^ below + 2 ^ below := by
      rw [Nat.pow_succ]
      omega
    rw [twice] at upper
    have middle := perfectLeft.coords.2.1
    by_cases inLeft : target < s + 2 ^ below
    · obtain ⟨steps, path, climbs⟩ := ihl perfectLeft lower inLeft
      apply Exists.intro (steps ++ [⟨h, .right, right.hash.toList⟩])
      constructor
      · intro before
        rw [appendPath, if_neg positive, middle, if_pos inLeft, path before, ← List.append_assoc]
      · exact climbPath_step climbs (by simp) tall
    · obtain ⟨steps, path, climbs⟩ := ihr perfectRight (by omega) (by omega)
      apply Exists.intro (steps ++ [⟨h, .left, left.hash.toList⟩])
      constructor
      · intro before
        rw [appendPath, if_neg positive, middle, if_neg inLeft, path before, ← List.append_assoc]
      · exact climbPath_step climbs (by simp) tall

theorem peakWidth_small {height : UInt64} (small : height.toNat < 64) :
    ∃ width : UInt64, peakWidth height = .ok width ∧ width.toNat = 2 ^ height.toNat := by
  apply Exists.intro ((1 : UInt64) <<< height)
  constructor
  · rw [peakWidth, if_pos (by omega), if_pos small]
  · rw [UInt64.toNat_shiftLeft, Nat.mod_eq_of_lt small, UInt64.toNat_one, Nat.one_shiftLeft,
      Nat.mod_eq_of_lt]
    exact Nat.pow_lt_pow_right (by omega) small

/-- The prover's search over the coverage ranges and the verifier's walk over the heights
select the same peak. -/
theorem Covers.select {nodes : List Node} {start stop target : Nat} (count : UInt64) (index : Nat)
    (covers : Covers blake3 ids start nodes stop) (fits : stop < 2 ^ 64) (lower : start ≤ target)
    (upper : target < stop) :
    ∃ found node first height,
      nodes.findIdx? (fun node => decide (node.start ≤ target ∧ target < node.stop)) = some found ∧
      nodes[found]? = some node ∧ node.Perfect blake3 ids first height ∧ first ≤ target ∧
      target < first + 2 ^ height ∧
      peakIndexLoop count (UInt64.ofNat target) (nodes.map Node.height) index (UInt64.ofNat start) =
        .ok (index + found) := by
  induction nodes generalizing start index with
  | nil =>
    have same : start = stop := covers
    omega
  | cons node nodes ih =>
    obtain ⟨height, perfect, covers⟩ := covers
    obtain ⟨first, last, tall⟩ := perfect.coords
    have within := covers.le
    have small : node.height.toNat < 64 := by
      rw [tall]
      apply (Nat.pow_lt_pow_iff_right (by omega : 1 < 2)).mp
      omega
    obtain ⟨width, widthOk, width_eq⟩ := peakWidth_small small
    rw [tall] at width_eq
    have startNat : (UInt64.ofNat start).toNat = start :=
      UInt64.toNat_ofNat_of_lt' (show start < 2 ^ 64 by omega)
    have targetNat : (UInt64.ofNat target).toNat = target :=
      UInt64.toNat_ofNat_of_lt' (show target < 2 ^ 64 by omega)
    have stopNat : (UInt64.ofNat start + width).toNat = start + 2 ^ height := by
      rw [UInt64.toNat_add, startNat, width_eq]
      exact Nat.mod_eq_of_lt (by omega)
    have next : UInt64.ofNat start + width = UInt64.ofNat (start + 2 ^ height) := by
      rw [← stopNat, UInt64.ofNat_toNat]
    rw [List.map_cons, peakIndexLoop, widthOk, List.findIdx?_cons, first, last]
    simp only [bind, Except.bind, startNat, width_eq, UInt64.le_iff_toNat_le,
      UInt64.lt_iff_toNat_lt, targetNat, stopNat]
    rw [if_pos (show start + 2 ^ height < 2 ^ 64 by omega)]
    by_cases inside : target < start + 2 ^ height
    · rw [if_pos (by simp [lower, inside]), if_pos ⟨lower, inside⟩]
      exact ⟨0, node, start, height, rfl, rfl, perfect, lower, inside, rfl⟩
    · have outside : ¬ (start ≤ target ∧ target < start + 2 ^ height) := fun both => inside both.2
      rw [if_neg (by simp [inside]), if_neg outside]
      obtain ⟨found, node', first', height', search, at_found, perfect', lower', upper', walk⟩ :=
        ih (index + 1) covers (by omega)
      rw [search, next, walk]
      refine ⟨found + 1, node', first', height', rfl, at_found, perfect', lower', upper', ?_⟩
      rw [Nat.add_assoc, Nat.add_comm 1]

/-! ### Acceptance -/

theorem checkPeakHashes_of_digests {peaks : List MmrPeak}
    (digests : ∀ peak ∈ peaks, peak.hash.length = 32) : checkPeakHashes peaks = .ok () := by
  induction peaks with
  | nil => rfl
  | cons peak peaks ih =>
    rw [checkPeakHashes, if_neg (not_not.mpr (digests peak List.mem_cons_self))]
    exact ih fun other member => digests other (List.mem_cons_of_mem _ member)

theorem Accepted.verifyProof {proof : Proof} {selected : MmrPeak}
    (accepted : Accepted blake3 proof selected) (inRange : proof.leafIndex < proof.count) :
    verifyProof blake3 proof = .ok () := by
  obtain ⟨frameId, heights, hashes, peak, index, ⟨carried, digest, path⟩, root⟩ := accepted
  obtain ⟨bound, at_peak⟩ := List.getElem?_eq_some_iff.mp peak
  have rootLength : proof.root.length = 32 := by
    rw [← root]
    simp
  have below : ¬ proof.count ≤ proof.leafIndex := UInt64.not_le.mpr inRange
  have selects : peakIndexForLeaf proof.count (proof.peaks.map (·.height)) proof.leafIndex =
      .ok proof.peakIndex.toNat := by
    rw [peakIndexForLeaf, if_neg below, index]
  rw [Mmr.verifyProof, if_neg (not_not.mpr frameId), if_neg (not_not.mpr rootLength), if_neg below,
    dif_neg (Nat.not_le.mpr bound)]
  simp only [List.get_eq_getElem, at_peak, heights ▸ selects, heights, checkPeakHashes_of_digests hashes,
    path, digest, root, ne_eq, not_true_eq_false, if_false, bind, Except.bind, pure, Except.pure]

theorem prove_spec (ids : List (List UInt8)) (digests : ∀ frameId ∈ ids, frameId.length = 32)
    (fits : ids.length < 2 ^ 64) {last : MmrPeaks} (fed : pushAll blake3 {} ids = some last)
    {index : Nat} (covered : index < ids.length) :
    ∃ proof, prove blake3 ids index = some proof ∧ verifyProof blake3 proof = .ok () ∧
      root blake3 ids = some proof.root ∧ proof.peaks = last.peaks := by
  obtain ⟨last', fed', count, peaks, covers⟩ := @buildNodes_spec blake3 ids fits
  rw [fed] at fed'
  cases fed'
  obtain ⟨found, node, start, height, search, at_found, perfect, lower, upper, walk⟩ :=
    covers.select (UInt64.ofNat ids.length) 0 fits (Nat.zero_le _) covered
  obtain ⟨steps, path, climbs⟩ := appendPath_climbs perfect lower upper
  have indexNat : (UInt64.ofNat index).toNat = index :=
    UInt64.toNat_ofNat_of_lt' (show index < 2 ^ 64 by omega)
  have lengthNat : UInt64.ofNat ids.length = last.count := by rw [← count, UInt64.ofNat_toNat]
  have well := pushAll_wellShaped wellShaped_empty fed
  have few := well.length_le
  rw [peaks, peakList, List.length_map] at few
  have foundLt := (List.getElem?_eq_some_iff.mp at_found).1
  have foundNat : (UInt64.ofNat found).toNat = found :=
    UInt64.toNat_ofNat_of_lt' (show found < 2 ^ 64 by omega)
  have here : ids[index]? = some (leafAt ids index) := by
    rw [leafAt, List.getD_eq_getElem?_getD, List.getElem?_eq_getElem covered, Option.getD_some]
  apply Exists.intro {
    count := UInt64.ofNat ids.length
    leafIndex := UInt64.ofNat index
    frameId := leafAt ids index
    root := (rootHash blake3 (UInt64.ofNat ids.length) (peakList (buildNodes blake3 ids))).toList
    peakIndex := UInt64.ofNat found
    peaks := peakList (buildNodes blake3 ids)
    path := steps }
  refine ⟨?_, ?_, ?_, peaks.symm⟩
  · rw [prove, here, Option.bind_some]
    dsimp only
    rw [search, Option.bind_some, at_found, Option.bind_some, path, List.nil_append]
  · apply Accepted.verifyProof
    · show Accepted blake3 _ node.peak
      constructor
      · exact digests _ (List.mem_of_getElem? here)
      · rw [lengthNat, ← peaks]
        exact (expectedPeakHeights_eq well.heights).symm
      · rw [← peaks]
        exact well.hashes
      · rw [foundNat, peakList, List.getElem?_map, at_found, Option.map_some]
      · rw [foundNat, peakList, List.map_map]
        rw [Nat.zero_add] at walk
        exact walk
      · exact ⟨node.hash, rfl, by rw [climbs, ← perfect.coords.2.2]; rfl⟩
      · rfl
    · rw [UInt64.lt_iff_toNat_lt, indexNat, lengthNat, count]
      exact covered
  · rw [root, peakFold, fed, Option.map_some, Option.map_some, peaks]

/-- The frontiers a caller can hold: the empty one, one restored from persisted parts,
and one pushed to. -/
inductive ReachedFrontier (blake3 : List UInt8 → Digest) : MmrPeaks → Prop where
  | empty : ReachedFrontier blake3 {}
  | restored {count : UInt64} {peaks : List MmrPeak} {frontier : MmrPeaks} :
      MmrPeaks.fromParts count peaks = .ok frontier → ReachedFrontier blake3 frontier
  | pushed {frontier next : MmrPeaks} {frameId : List UInt8} : ReachedFrontier blake3 frontier →
      frontier.push blake3 frameId = .ok next → ReachedFrontier blake3 next

theorem ReachedFrontier.wellShaped {frontier : MmrPeaks}
    (reached : ReachedFrontier blake3 frontier) : frontier.WellShaped := by
  induction reached with
  | empty => exact wellShaped_empty
  | restored parts => exact wellShaped_of_fromParts parts
  | pushed _ run ih => exact (push_wellShaped ih run).1

/-- **The prover, the frontier and the verifier agree.** Every index of a list of frame
ids has a proof that is accepted, over the root of the list and the peaks of the frontier
fed the list, saved and restored before any of the pushes. Every frontier a caller holds
passes the check of a persisted one, and a full one refuses a push unchanged. -/
theorem prove_agrees (blake3 : List UInt8 → Digest) (ids : List (List UInt8))
    (digests : ∀ frameId ∈ ids, frameId.length = 32) (fits : ids.length < 2 ^ 64) :
    (∃ last, pushAll blake3 {} ids = some last ∧
      (∀ fed : List (List UInt8 × Bool), fed.map Prod.fst = ids →
        pushAllRestoring blake3 {} fed = some last) ∧
      ∀ index < ids.length, ∃ proof, prove blake3 ids index = some proof ∧
        verifyProof blake3 proof = .ok () ∧ root blake3 ids = some proof.root ∧
        proof.peaks = last.peaks) ∧
    (∀ frontier, ReachedFrontier blake3 frontier →
      MmrPeaks.fromParts frontier.count frontier.peaks = .ok frontier) ∧
    (∀ (frontier : MmrPeaks) frameId, frontier.count.toNat = 2 ^ 64 - 1 →
      frontier.pushed blake3 frameId = (.error .countOverflow, frontier)) := by
  obtain ⟨last, fed, -, -, -⟩ := @buildNodes_spec blake3 ids fits
  refine ⟨⟨last, fed, ?_, ?_⟩, ?_, ?_⟩
  · intro restored same
    rw [pushAllRestoring_eq restored wellShaped_empty, same, fed]
  · intro index covered
    exact prove_spec ids digests fits fed covered
  · intro frontier reached
    exact fromParts_wellShaped reached.wellShaped
  · intro frontier frameId full
    rw [MmrPeaks.pushed, MmrPeaks.push, if_neg (by omega)]

theorem prove_agrees_vector :
    ∃ proof, prove vectorBlake3 vectorIds 2 = some proof ∧
      verifyProof vectorBlake3 proof = .ok () ∧ root vectorBlake3 vectorIds = some proof.root := by
  have digests : ∀ frameId ∈ vectorIds, frameId.length = 32 := by decide
  obtain ⟨⟨last, -, -, proofs⟩, -⟩ := prove_agrees vectorBlake3 vectorIds digests (by decide)
  obtain ⟨proof, made, accepted, committed, -⟩ := proofs 2 (by decide)
  exact ⟨proof, made, accepted, committed⟩

end Purrdf.Mmr
