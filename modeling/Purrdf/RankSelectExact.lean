import Purrdf.RankSelect

/-!
# What the directory answers

The words of a bit sequence hold its bits, the directory holds the number of set bits before every
superblock and word, and the queries over it count and find the bits.
-/

namespace Purrdf.PackBits

/-! ### Bit sequences -/

def bitsAfter (bits : List Bool) : BitOp → List Bool
  | .push bit => bits ++ [bit]
  | .setLen newLen => bits.take newLen.toNat ++ List.replicate (newLen.toNat - bits.length) false

structure Holds (vector : BitVec) (bits : List Bool) : Prop where
  len : vector.len = bits.length
  sized : bits.length < 2 ^ 64
  count : vector.words.length = divCeil bits.length 64
  bit : ∀ w, ∀ j < 64, (vector.words.getD w 0).toNat.testBit j = bits.getD (64 * w + j) false

theorem getD_modify {words : List UInt64} {index : Nat} (inside : index < words.length)
    (f : UInt64 → UInt64) (w : Nat) :
    (words.modify index f).getD w 0 = if index = w then f (words.getD w 0) else words.getD w 0 := by
  grind

theorem getD_fit {α : Type} (xs : List α) (n : Nat) (d : α) (i : Nat) :
    (xs.take n ++ List.replicate (n - xs.length) d).getD i d = if i < n then xs.getD i d else d := by
  grind

theorem Holds.push {vector next : BitVec} {bits : List Bool} {bit : Bool}
    (holds : Holds vector bits) (run : vector.push bit = some next) : Holds next (bits ++ [bit]) := by
  obtain ⟨words, words_eq⟩ : ∃ words, (if vector.words.length ≤ vector.len / 64 then
    vector.words ++ [0] else vector.words) = words := ⟨_, rfl⟩
  have count := holds.count
  have length : words.length = vector.len / 64 + 1 := by
    rw [← words_eq, holds.len]
    rw [divCeil] at count
    split <;> (try rw [List.length_append, List.length_singleton]) <;> (rw [holds.len] at *; omega)
  have same : ∀ w, words.getD w 0 = vector.words.getD w 0 := by grind
  rw [BitVec.push, words_eq] at run
  split at run
  · rename_i sized
    cases run
    have shift : (1 <<< UInt64.ofNat (vector.len % 64) : UInt64).toNat = 2 ^ (vector.len % 64) := by
      rw [toNat_shiftLeft_small (by omega), UInt64.toNat_one, Nat.one_mul, Nat.mod_eq_of_lt]
      exact Nat.pow_lt_pow_right (by decide) (by omega)
    refine ⟨by simp [holds.len], by simpa [← holds.len], ?_, fun w j inside => ?_⟩
    · have words_length : (if bit then words.modify (vector.len / 64)
          (· ||| 1 <<< UInt64.ofNat (vector.len % 64)) else words).length = words.length := by
        split <;> simp
      rw [words_length, length, List.length_append, List.length_singleton, divCeil, ← holds.len]
      omega
    · have place : 64 * w + j = bits.length ↔ vector.len / 64 = w ∧ vector.len % 64 = j := by
        rw [← holds.len]
        omega
      have past : bits.getD bits.length false = false := by grind
      have added : (bits ++ [bit]).getD (64 * w + j) false =
          (bits.getD (64 * w + j) false || bit && decide (vector.len / 64 = w ∧ vector.len % 64 = j)) := by
        simp only [← place]
        grind
      rw [added, ← holds.bit w j inside, ← same]
      cases bit with
      | false => rw [if_neg Bool.false_ne_true, Bool.false_and, Bool.or_false]
      | true =>
        rw [if_pos rfl, getD_modify (by omega)]
        split
        · rename_i here
          rw [UInt64.toNat_or, Nat.testBit_or, shift, Nat.testBit_two_pow]
          simp [here]
        · rename_i other
          simp [other]
  · cases run

theorem Holds.setLen {vector : BitVec} {bits : List Bool} (holds : Holds vector bits) {newLen : Nat}
    (sized : newLen < 2 ^ 64) : Holds (vector.setLen newLen)
      (bits.take newLen ++ List.replicate (newLen - bits.length) false) := by
  obtain ⟨needed, needed_eq⟩ : ∃ needed, divCeil newLen 64 = needed := ⟨_, rfl⟩
  have bound := needed_eq
  rw [divCeil] at bound
  obtain ⟨words, words_eq⟩ : ∃ words, IntVector.resized (vector.words.take needed) needed = words :=
    ⟨_, rfl⟩
  have length : words.length = needed := by
    rw [← words_eq, IntVector.resized]
    simp
  have kept : ∀ w, words.getD w 0 = if w < needed then vector.words.getD w 0 else 0 := by
    intro w
    rw [← words_eq, IntVector.resized]
    grind
  have fits : (bits.take newLen ++ List.replicate (newLen - bits.length) false).length = newLen := by
    simp
    omega
  rw [BitVec.setLen, needed_eq, words_eq]
  refine ⟨fits.symm, fits.trans_lt sized, ?_, fun w j inside => ?_⟩
  · dsimp only
    rw [fits, needed_eq]
    split <;> simp [length]
  · rw [getD_fit]
    dsimp only
    split
    · rw [kept]
      split
      · rw [holds.bit w j inside, if_pos (by omega)]
      · rw [if_neg (by omega)]
        exact Nat.zero_testBit j
    · rename_i partial_word
      have mask : (1 <<< UInt64.ofNat (newLen % 64)) - 1 = maskForWidth (newLen % 64) := by
        rw [maskForWidth, if_neg partial_word, if_neg (by omega)]
      rw [mask, getD_modify (by omega), kept]
      split
      · rw [maskForWidth_and _ (by omega), Nat.testBit_mod_two_pow, if_pos (by omega),
          holds.bit w j inside]
        split
        · rw [decide_eq_true (by omega), Bool.true_and]
        · rw [decide_eq_false (by omega), Bool.false_and]
      · split
        · rw [holds.bit w j inside, if_pos (by omega)]
        · rw [if_neg (by omega)]
          exact Nat.zero_testBit j

theorem Holds.apply {vector next : BitVec} {bits : List Bool} {op : BitOp} (holds : Holds vector bits)
    (run : vector.apply op = some next) : Holds next (bitsAfter bits op) := by
  cases op with
  | push bit => exact holds.push run
  | setLen newLen =>
    cases run
    exact holds.setLen newLen.toNat_lt

theorem Holds.run {ops : List BitOp} {vector built : BitVec} {bits : List Bool}
    (holds : Holds vector bits) (run : ops.foldlM BitVec.apply vector = some built) :
    Holds built (ops.foldl bitsAfter bits) := by
  induction ops generalizing vector bits with
  | nil =>
    cases run
    exact holds
  | cons op ops ih =>
    obtain ⟨next, step, rest⟩ := Option.bind_eq_some_iff.mp run
    exact ih (holds.apply step) rest

/-! ### The directory -/

/-- The bits of a kind below a position. Past the end all are unset. -/
def rank (kind : Bool) (bits : List Bool) (i : Nat) : Nat :=
  Nat.count (fun k => bits.getD k false = kind) i

def positions (kind : Bool) (bits : List Bool) : List Nat :=
  (List.range bits.length).filter fun i => bits.getD i false = kind

def Marks (kind : Bool) (bits : List Bool) (w word : Nat) : Prop :=
  ∀ j < 64, word.testBit j ↔ bits.getD (64 * w + j) false = kind

variable {kind : Bool} {bits : List Bool}

theorem Marks.rank {w word j : Nat} (marks : Marks kind bits w word) (inside : j ≤ 64) :
    rank kind bits (64 * w + j) = rank kind bits (64 * w) + Nat.count (fun k => word.testBit k) j := by
  rw [PackBits.rank, Nat.count_add]
  congr 1
  exact count_congr fun k below => (marks k (Nat.lt_of_lt_of_le below inside)).symm

theorem countOnes_mod (word : Nat) {j : Nat} (inside : j ≤ 64) :
    countOnes (word % 2 ^ j) = Nat.count (fun k => word.testBit k) j := by
  obtain ⟨rest, whole⟩ := Nat.exists_eq_add_of_le inside
  have none : Nat.count (fun k => (word % 2 ^ j).testBit (j + k)) rest = 0 :=
    Nat.count_iff_forall_not.mpr fun k _ => by simp [Nat.testBit_mod_two_pow]
  rw [countOnes, whole, Nat.count_add, none, Nat.add_zero]
  exact count_congr fun k below => by simp [Nat.testBit_mod_two_pow, below]

theorem rank_mono : Monotone (rank kind bits) := Nat.count_monotone _

theorem rank_near (i j : Nat) : rank kind bits (i + j) ≤ rank kind bits i + j := by
  rw [rank, Nat.count_add]
  exact Nat.add_le_add_left (Nat.count_le _) _

/-- The directory is filled in up to word `w` of `count`. -/
structure Filled (bits : List Bool) (count : Nat) (superblocks blocks : List Nat) (w : Nat) : Prop where
  superblocks_length : superblocks.length = divCeil count 8
  blocks_length : blocks.length = count
  superblock : ∀ sb, 8 * sb < w → superblocks[sb]? = some (rank true bits (512 * sb))
  block : ∀ v < w, blocks[v]? = some (rank true bits (64 * v) - rank true bits (512 * (v / 8)))

theorem Filled.run {count : Nat} (words : List UInt64) {superblocks blocks : List Nat} {w : Nat}
    (filled : Filled bits count superblocks blocks w) (total : w + words.length = count)
    (marks : ∀ v word, words[v]? = some word → Marks true bits (w + v) word.toNat) :
    ∃ superblocks' blocks', fillDirectory superblocks blocks (rank true bits (64 * w)) w words =
        some (superblocks', blocks', rank true bits (64 * count)) ∧
      Filled bits count superblocks' blocks' count := by
  induction words generalizing superblocks blocks w with
  | nil =>
    obtain rfl : w = count := total
    exact ⟨_, _, rfl, filled⟩
  | cons word words ih =>
    rw [List.length_cons] at total
    obtain ⟨next, next_eq⟩ : ∃ next, (if w % 8 = 0 then
      superblocks.set (w / 8) (rank true bits (64 * w)) else superblocks) = next := ⟨_, rfl⟩
    have sized := filled.superblocks_length
    have inside : w / 8 < superblocks.length := by
      rw [sized, divCeil]
      omega
    have superblock : ∀ sb, 8 * sb < w + 1 → next[sb]? = some (rank true bits (512 * sb)) := by
      intro sb below
      rw [← next_eq]
      split
      · rw [List.getElem?_set]
        split
        · have same : 64 * w = 512 * sb := by omega
          rw [same]
        · exact filled.superblock sb (by omega)
      · exact filled.superblock sb (by omega)
    have near := @rank_near true bits (512 * (w / 8)) (64 * (w % 8))
    rw [show 512 * (w / 8) + 64 * (w % 8) = 64 * w by omega] at near
    have before : rank true bits (512 * (w / 8)) ≤ rank true bits (64 * w) := rank_mono (by omega)
    have counted : rank true bits (64 * (w + 1)) = rank true bits (64 * w) + countOnes word.toNat :=
      (marks 0 word rfl).rank le_rfl
    have later : Filled bits count next
        (blocks.set w (rank true bits (64 * w) - rank true bits (512 * (w / 8)))) (w + 1) := by
      refine ⟨?_, by rw [List.length_set, filled.blocks_length], superblock, fun v below => ?_⟩
      · rw [← next_eq]
        split <;> simp [sized]
      · rw [List.getElem?_set]
        split
        · rename_i same
          rw [same, if_pos (by rw [filled.blocks_length]; omega)]
        · exact filled.block v (by omega)
    rw [fillDirectory, next_eq, superblock _ (by omega), Option.bind_eq_bind, Option.bind_some,
      checkedSub_of_le before, Option.bind_some, if_pos (by omega)]
    rw [← counted]
    exact ih later (by omega) fun v other at_place => by
      have := marks (v + 1) other at_place
      rwa [show w + (v + 1) = w + 1 + v by omega] at this

theorem length_positions : (positions kind bits).length = rank kind bits bits.length :=
  List.countP_eq_length_filter.symm

theorem filter_range_getElem? {p : Nat → Prop} [DecidablePred p] {n pos : Nat} (inside : pos < n)
    (found : p pos) : ((List.range n).filter fun i => p i)[Nat.count p pos]? = some pos := by
  induction n with
  | zero => omega
  | succ n ih =>
    rw [List.range_succ, List.filter_append]
    rcases Nat.lt_succ_iff_lt_or_eq.mp inside with earlier | rfl
    · have here := ih earlier
      rw [List.getElem?_append_left (List.getElem?_eq_some_iff.mp here).1, here]
    · have length : ((List.range pos).filter fun i => p i).length = Nat.count p pos :=
        List.countP_eq_length_filter.symm
      rw [List.getElem?_append_right (le_of_eq length), length, Nat.sub_self]
      simp [found]

/-! ### Queries -/

structure DirOf (bits : List Bool) (dir : RankSelectDir) : Prop where
  len : dir.len = bits.length
  totalOnes : dir.totalOnes = rank true bits bits.length
  wordsLen : dir.wordsLen = divCeil bits.length 64
  superblocks : dir.superblockCount = divCeil dir.wordsLen 8
  word : ∀ w < dir.wordsLen, ∃ word < 2 ^ 64, dir.word w = some word ∧ Marks true bits w word
  superblock : ∀ sb < dir.superblockCount, dir.superblockRank sb = some (rank true bits (512 * sb))
  block : ∀ w < dir.wordsLen,
    dir.blockRank w = some (rank true bits (64 * w) - rank true bits (512 * (w / 8)))

namespace RankSelectDir

theorem search_spec {start : Nat → Option Nat} {c : Nat → Nat} {k count : Nat}
    (reads : ∀ sb < count, start sb = some (c sb)) {fuel lo hi : Nat} (enough : hi - lo < fuel)
    (le : lo ≤ hi) (inside : hi ≤ count) (low : ∀ sb, sb + 1 = lo → c sb ≤ k)
    (high : hi = count ∨ k < c hi) : ∃ found, search start k fuel lo hi = some found ∧
      found ≤ count ∧ (∀ sb, sb + 1 = found → c sb ≤ k) ∧ (found = count ∨ k < c found) := by
  induction fuel generalizing lo hi with
  | zero => omega
  | succ fuel ih =>
    rw [search]
    split
    · dsimp only
      rw [reads _ (by omega), Option.bind_eq_bind, Option.bind_some]
      split
      · rename_i earlier
        exact ih (by omega) (by omega) inside (fun sb same => by
          rw [Nat.add_right_cancel same]
          exact earlier) high
      · rename_i later
        exact ih (by omega) (by omega) (by omega) low (Or.inr (Nat.lt_of_not_le later))
    · have same : lo = hi := by omega
      exact ⟨lo, rfl, le.trans inside, low, same ▸ high⟩

theorem scan_spec {start : Nat → Option Nat} {c : Nat → Nat} {k stop fuel w : Nat}
    (reads : ∀ v < stop, start v = some (c v)) (enough : stop ≤ w + fuel) (inside : w < stop)
    (low : c w ≤ k) : ∃ found < stop, scan start k stop fuel w = some found ∧ c found ≤ k ∧
      (found + 1 = stop ∨ k < c (found + 1)) := by
  induction fuel generalizing w with
  | zero => omega
  | succ fuel ih =>
    rw [scan]
    split
    · rename_i more
      rw [reads _ more, Option.bind_eq_bind, Option.bind_some]
      split
      · rename_i earlier
        exact ih (by omega) more earlier
      · rename_i later
        exact ⟨w, inside, rfl, low, Or.inr (Nat.lt_of_not_le later)⟩
    · exact ⟨w, inside, rfl, low, Or.inl (by omega)⟩

variable {dir : RankSelectDir}

/-- Selecting the `k`-th bit of a kind, from what counts such bits. -/
theorem selectWith_spec {atSuperblock atWord word : Nat → Option Nat} (frozen : DirOf bits dir)
    (superblock : ∀ sb < dir.superblockCount, atSuperblock sb = some (rank kind bits (512 * sb)))
    (before : ∀ w < dir.wordsLen, atWord w = some (rank kind bits (64 * w)))
    (marked : ∀ w < dir.wordsLen, ∃ x < 2 ^ 64, word w = some x ∧ Marks kind bits w x) {k : Nat}
    (below : k < rank kind bits bits.length) :
    ∃ pos < bits.length, dir.selectWith atSuperblock atWord word k = some pos ∧
      bits.getD pos false = kind ∧ rank kind bits pos = k := by
  have blocks := frozen.superblocks
  have words := frozen.wordsLen
  rw [divCeil] at blocks words
  have zero : rank kind bits 0 = 0 := rfl
  obtain ⟨found, searched, within, low, high⟩ := search_spec (k := k) superblock
    (show dir.superblockCount - 0 < dir.superblockCount + 1 by omega) (Nat.zero_le _) le_rfl
    (fun sb same => by omega) (Or.inl rfl)
  have later : ∀ i, bits.length ≤ i → k < rank kind bits i := fun i le =>
    Nat.lt_of_lt_of_le below (rank_mono le)
  obtain ⟨sb, rfl⟩ : ∃ sb, found = sb + 1 := Nat.exists_eq_succ_of_ne_zero fun none => by
    subst none
    rcases high with empty | past
    · have := later 0 (by omega)
      omega
    · simp [zero] at past
  have here : rank kind bits (64 * (sb * 8)) ≤ k := by
    rw [show 64 * (sb * 8) = 512 * sb by omega]
    exact low sb rfl
  obtain ⟨w, inside, scanned, at_most, next⟩ := scan_spec (c := fun w => rank kind bits (64 * w))
    (fun v below => before v (by omega)) (show min (sb * 8 + 8) dir.wordsLen ≤ sb * 8 + 8 by omega)
    (by omega) here
  have above : k < rank kind bits (64 * w + 64) := by
    rcases next with stopped | past
    · rcases Nat.lt_or_ge (64 * w + 64) bits.length with short | long
      · rw [show 64 * w + 64 = 512 * (sb + 1) by omega]
        exact high.resolve_left (by omega)
      · exact later _ long
    · exact past
  obtain ⟨x, wide, read, marks⟩ := marked w (by omega)
  have total := marks.rank le_rfl
  obtain ⟨bit, bit_lt, selected, set, counted⟩ := selectInWord_spec wide
    (show k - rank kind bits (64 * w) < _ by omega)
  have found : rank kind bits (64 * w + bit) = k := by
    rw [marks.rank (Nat.le_of_lt bit_lt), counted]
    omega
  have short : 64 * w + bit < bits.length :=
    Nat.lt_of_count_lt_count (found ▸ below)
  refine ⟨64 * w + bit, short, ?_, (marks bit bit_lt).mp set, found⟩
  rw [selectWith, searched, Option.bind_eq_bind, Option.bind_some, checkedSub_of_le (by omega),
    Option.bind_some, Nat.add_sub_cancel]
  dsimp only
  rw [scanned, Option.bind_some, before w (by omega), Option.bind_some, checkedSub_of_le at_most,
    Option.bind_some, read, Option.bind_some, selected, Option.bind_some, frozen.len, Nat.mul_comm w,
    if_pos short]

variable (frozen : DirOf bits dir)

include frozen

theorem rankAtWord_eq {w : Nat} (inside : w < dir.wordsLen) :
    dir.rankAtWord w = some (rank true bits (64 * w)) := by
  have blocks := frozen.superblocks
  rw [divCeil] at blocks
  rw [rankAtWord, if_neg (by omega), frozen.superblock _ (by omega), frozen.block w inside]
  exact congrArg some (Nat.add_sub_of_le (rank_mono (by omega)))

theorem rank1_eq {i : Nat} (inside : i ≤ bits.length) : dir.rank1 i = some (rank true bits i) := by
  have words := frozen.wordsLen
  rw [divCeil] at words
  rw [rank1, if_pos (frozen.len ▸ inside)]
  by_cases whole : i % 64 = 0
  · have same : 64 * (i / 64) = i := by omega
    have start : dir.rankAtWord (i / 64) = some (rank true bits i) := by
      rcases Nat.lt_or_ge (i / 64) dir.wordsLen with before | past
      · rw [rankAtWord_eq frozen before, same]
      · rw [rankAtWord, if_pos past, frozen.totalOnes, show i = bits.length by omega]
    rw [start, Option.bind_eq_bind, Option.bind_some, if_neg (by omega)]
    rfl
  · obtain ⟨word, wide, read, marks⟩ := frozen.word (i / 64) (by omega)
    have masked : countOnes (word &&& (1 <<< (i % 64)) - 1) =
        Nat.count (fun k => word.testBit k) (i % 64) := by
      rw [Nat.shiftLeft_eq, Nat.one_mul, Nat.and_two_pow_sub_one_eq_mod]
      exact countOnes_mod word (by omega)
    rw [rankAtWord_eq frozen (by omega), Option.bind_eq_bind, Option.bind_some, if_pos (by omega), read,
      Option.bind_some, masked, ← marks.rank (by omega), Nat.div_add_mod]
    rfl

omit frozen in
theorem checkedSub_rank (i : Nat) : checkedSub i (rank true bits i) = some (rank false bits i) := by
  have total : rank true bits i + rank false bits i = i := by
    induction i with
    | zero => rfl
    | succ i ih =>
      rw [rank, rank] at ih ⊢
      rw [Nat.count_succ, Nat.count_succ]
      cases bits.getD i false with
      | true =>
        rw [if_pos rfl, if_neg Bool.noConfusion]
        omega
      | false =>
        rw [if_neg Bool.noConfusion, if_pos rfl]
        omega
  rw [checkedSub_of_le (by omega)]
  congr 1
  omega

theorem rank0_eq {i : Nat} (inside : i ≤ bits.length) : dir.rank0 i = some (rank false bits i) := by
  rw [rank0, rank1_eq frozen inside]
  exact checkedSub_rank i

theorem zerosAtSb_eq {sb : Nat} (inside : sb < dir.superblockCount) :
    dir.zerosAtSb sb = some (rank false bits (512 * sb)) := by
  rw [zerosAtSb, frozen.superblock sb inside, show sb * 8 * 64 = 512 * sb by omega]
  exact checkedSub_rank _

theorem zerosAtWord_eq {w : Nat} (inside : w < dir.wordsLen) :
    dir.zerosAtWord w = some (rank false bits (64 * w)) := by
  rw [zerosAtWord, rankAtWord_eq frozen inside, Nat.mul_comm]
  exact checkedSub_rank _

theorem zerosOf_marks {w : Nat} (inside : w < dir.wordsLen) :
    ∃ word < 2 ^ 64, dir.zerosOf w = some word ∧ Marks false bits w word := by
  obtain ⟨word, wide, read, marks⟩ := frozen.word w inside
  refine ⟨2 ^ 64 - (word + 1), by omega, ?_, fun j below => ?_⟩
  · rw [zerosOf, read, Nat.add_comm, ← Nat.sub_sub]
    rfl
  · have flipped := marks j below
    rw [Nat.testBit_two_pow_sub_succ wide, decide_eq_true below, Bool.true_and, Bool.not_eq_true']
    rw [← Bool.not_eq_true, flipped, Bool.not_eq_true]

/-- The position of the `k`-th bit of a kind, where there is one. -/
theorem select_eq {atSuperblock atWord word : Nat → Option Nat}
    (superblock : ∀ sb < dir.superblockCount, atSuperblock sb = some (rank kind bits (512 * sb)))
    (before : ∀ w < dir.wordsLen, atWord w = some (rank kind bits (64 * w)))
    (marked : ∀ w < dir.wordsLen, ∃ x < 2 ^ 64, word w = some x ∧ Marks kind bits w x) (k : Nat) :
    (if rank kind bits bits.length ≤ k then some none
      else do
        let pos ← dir.selectWith atSuperblock atWord word k
        pure (some pos)) = some (positions kind bits)[k]? := by
  split
  · rename_i past
    rw [List.getElem?_eq_none (length_positions.trans_le past)]
  · rename_i below
    obtain ⟨pos, inside, selected, set, counted⟩ :=
      selectWith_spec frozen superblock before marked (Nat.lt_of_not_le below)
    rw [selected, ← counted, positions, rank, filter_range_getElem? inside set]
    rfl

theorem select1_eq (k : Nat) : dir.select1 k = some (positions true bits)[k]? := by
  rw [select1, frozen.totalOnes]
  exact select_eq frozen frozen.superblock (fun _ => rankAtWord_eq frozen) frozen.word k

theorem select0_eq (k : Nat) : dir.select0 k = some (positions false bits)[k]? := by
  rw [select0, frozen.len, frozen.totalOnes, checkedSub_rank]
  exact select_eq frozen (fun _ => zerosAtSb_eq frozen) (fun _ => zerosAtWord_eq frozen)
    (fun _ => zerosOf_marks frozen) k

end RankSelectDir

end Purrdf.PackBits
