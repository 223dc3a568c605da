import Mathlib.Data.Nat.Count
import Mathlib.Tactic.IntervalCases
import Purrdf.PackBits

/-!
# Selecting a bit of a word

The position of the set bit of a given rank, computed for all eight bytes of the word at once: no
step carries or borrows from one byte into the next.
-/

namespace Purrdf.PackBits

/-- An unsigned subtraction. One that would go below zero is a panic. -/
def checkedSub (left right : Nat) : Option Nat := if right ≤ left then some (left - right) else none

def byteOnes : Nat := 0x0101010101010101

def byteHighs : Nat := 0x8080808080808080

/-- For each byte, the positions of its set bits, filled up with `8`. -/
def selectInByte : List (List Nat) :=
  (List.range 256).map fun byte =>
    ((List.range 8).foldl (fun (row : List Nat × Nat) bit =>
      if byte &&& 1 <<< bit ≠ 0 then (row.1.set row.2 bit, row.2 + 1) else row)
      (List.replicate 8 8, 0)).1

/-- The position of the `r`-th set bit of a word, or a panic when it has too few. -/
def selectInWord (word r : Nat) : Option Nat := do
  let pairs ← checkedSub word (word >>> 1 &&& 0x5555555555555555)
  let nibbles := (pairs &&& 0x3333333333333333) + (pairs >>> 2 &&& 0x3333333333333333)
  let bytes := (nibbles + nibbles >>> 4) &&& 0x0F0F0F0F0F0F0F0F
  let upTo := bytes * byteOnes % 2 ^ 64
  if r < upTo >>> 56 then
    let flags ← checkedSub (r * byteOnes % 2 ^ 64 ||| byteHighs) upTo
    let atMostR := flags &&& byteHighs
    let byteIndex := (atMostR >>> 7 * byteOnes % 2 ^ 64) >>> 56
    let shift := byteIndex * 8
    let before := (upTo <<< 8 % 2 ^ 64) >>> shift &&& 0xFF
    let byte := word >>> shift &&& 0xFF
    let rankInByte ← checkedSub r before
    let bit ← (selectInByte.getD byte [])[rankInByte]?
    pure (shift + bit)
  else none

theorem checkedSub_of_le {left right : Nat} (fits : right ≤ left) :
    checkedSub left right = some (left - right) := if_pos fits

/-! ### Eight bytes -/

/-- The number whose digits in base 256 are the first eight of a sequence. -/
def word8 (b : Nat → Nat) : Nat :=
  b 0 + 256 * (b 1 + 256 * (b 2 + 256 * (b 3 + 256 * (b 4 + 256 * (b 5 + 256 * (b 6 + 256 * b 7))))))

theorem bitwise_byte {op : Bool → Bool → Bool} (zero : op false false = false) {x y : Nat}
    (hx : x < 256) (hy : y < 256) (v w : Nat) :
    Nat.bitwise op (x + 256 * v) (y + 256 * w) = Nat.bitwise op x y + 256 * Nat.bitwise op v w := by
  have byte : ∀ {x : Nat}, x < 256 → ∀ v j,
      (x + 256 * v).testBit j = if j < 8 then x.testBit j else v.testBit (j - 8) := by
    intro x hx v j
    rw [Nat.add_comm]
    exact Nat.testBit_two_pow_mul_add (i := 8) v hx j
  apply Nat.eq_of_testBit_eq
  intro j
  rw [Nat.testBit_bitwise zero, byte hx, byte hy, byte (Nat.bitwise_lt_two_pow (n := 8) hx hy)]
  split <;> rw [Nat.testBit_bitwise zero]

theorem word8_bitwise {op : Bool → Bool → Bool} (zero : op false false = false) {f g : Nat → Nat}
    (hf : ∀ i, f i < 256) (hg : ∀ i, g i < 256) :
    Nat.bitwise op (word8 f) (word8 g) = word8 fun i => Nat.bitwise op (f i) (g i) := by
  simp only [word8, bitwise_byte zero (hf _) (hg _)]

theorem word8_and {f : Nat → Nat} (hf : ∀ i, f i < 256) {mask : Nat} (narrow : mask < 256) :
    word8 f &&& word8 (fun _ => mask) = word8 fun i => f i &&& mask :=
  word8_bitwise rfl hf fun _ => narrow

theorem word8_congr {f g : Nat → Nat} (same : ∀ i, f i = g i) : word8 f = word8 g :=
  congrArg word8 (funext same)

/-- A shift brings the low bits of each byte into the byte below it. -/
theorem word8_shift {f : Nat → Nat} (top : f 8 = 0) :
    word8 f >>> 1 = word8 (fun i => f i / 2 + 128 * (f (i + 1) % 2)) ∧
      word8 f >>> 2 = word8 (fun i => f i / 4 + 64 * (f (i + 1) % 4)) ∧
      word8 f >>> 4 = word8 fun i => f i / 16 + 16 * (f (i + 1) % 16) := by
  simp only [word8, Nat.shiftRight_eq_div_pow, Nat.reduceAdd]
  omega

theorem word8_add (f g : Nat → Nat) : word8 f + word8 g = word8 fun i => f i + g i := by
  simp only [word8]
  omega

theorem word8_sub {f g : Nat → Nat} (below : ∀ i, g i ≤ f i) :
    word8 g ≤ word8 f ∧ word8 f - word8 g = word8 fun i => f i - g i := by
  have split : word8 f = word8 g + word8 fun i => f i - g i := by
    rw [word8_add]
    exact word8_congr fun i => (Nat.add_sub_of_le (below i)).symm
  rw [split]
  exact ⟨Nat.le_add_right _ _, Nat.add_sub_cancel_left _ _⟩

theorem word8_lt {f : Nat → Nat} (small : ∀ i, f i < 256) : word8 f < 2 ^ 64 :=
  Nat.lt_of_le_of_lt (@word8_sub (fun _ => 255) f fun i => Nat.le_of_lt_succ (small i)).1 (by decide)

theorem word8_totals {c s : Nat → Nat} (zero : s 0 = 0) (next : ∀ i, s (i + 1) = s i + c i)
    (fits : s 8 < 256) : word8 c * byteOnes % 2 ^ 64 = word8 (fun i => s (i + 1)) ∧
      word8 (fun i => s (i + 1)) >>> 56 = s 8 := by
  have n0 : s 1 = s 0 + c 0 := next 0
  have n1 : s 2 = s 1 + c 1 := next 1
  have n2 : s 3 = s 2 + c 2 := next 2
  have n3 : s 4 = s 3 + c 3 := next 3
  have n4 : s 5 = s 4 + c 4 := next 4
  have n5 : s 6 = s 5 + c 5 := next 5
  have n6 : s 7 = s 6 + c 6 := next 6
  have n7 : s 8 = s 7 + c 7 := next 7
  simp only [word8, byteOnes, Nat.shiftRight_eq_div_pow, Nat.reduceAdd]
  omega

/-! ### Counting the bits of every byte -/

def popcount (byte : Nat) : Nat := Nat.count (fun j => byte.testBit j) 8

def pairCounts (byte : Nat) : Nat := byte - (byte / 2 &&& 0x55)

def nibbleCounts (byte : Nat) : Nat := (pairCounts byte &&& 0x33) + (pairCounts byte / 4 &&& 0x33)

/-- What a shift brings in from the next byte, `x` here, the masks take away. -/
theorem byte_counts : ∀ byte < 256, byte / 2 &&& 0x55 ≤ byte ∧
    (∀ x < 2, byte / 2 + 128 * x &&& 0x55 = byte / 2 &&& 0x55) ∧
    (∀ x < 4, pairCounts byte / 4 + 64 * x &&& 0x33 = pairCounts byte / 4 &&& 0x33) ∧
    nibbleCounts byte ≤ 68 ∧ nibbleCounts byte % 16 ≤ 4 ∧ popcount byte ≤ 8 ∧
    ∀ x ≤ 4, nibbleCounts byte + (nibbleCounts byte / 16 + 16 * x) &&& 0x0F = popcount byte := by
  decide +kernel

theorem word8_popcount {b : Nat → Nat} (small : ∀ i, b i < 256) (top : b 8 = 0) :
    checkedSub (word8 b) (word8 b >>> 1 &&& 0x5555555555555555) =
        some (word8 fun i => pairCounts (b i)) ∧
      (word8 (fun i => pairCounts (b i)) &&& 0x3333333333333333) +
          (word8 (fun i => pairCounts (b i)) >>> 2 &&& 0x3333333333333333) =
        word8 (fun i => nibbleCounts (b i)) ∧
      word8 (fun i => nibbleCounts (b i)) + word8 (fun i => nibbleCounts (b i)) >>> 4 &&&
          0x0F0F0F0F0F0F0F0F = word8 fun i => popcount (b i) := by
  have fact := fun i => byte_counts (b i) (small i)
  have pairs_small : ∀ i, pairCounts (b i) < 256 := fun i =>
    Nat.lt_of_le_of_lt (Nat.sub_le _ _) (small i)
  have fives : 0x5555555555555555 = word8 fun _ => 0x55 := rfl
  have threes : 0x3333333333333333 = word8 fun _ => 0x33 := rfl
  have lows : 0x0F0F0F0F0F0F0F0F = word8 fun _ => 0x0F := rfl
  refine ⟨?_, ?_, ?_⟩
  · have masked : word8 b >>> 1 &&& word8 (fun _ => 0x55) = word8 fun i => b i / 2 &&& 0x55 := by
      rw [(word8_shift top).1, word8_and (fun i => by have := small i; omega) (by decide)]
      exact word8_congr fun i => (fact i).2.1 _ (Nat.mod_lt _ (by decide))
    obtain ⟨le, value⟩ := word8_sub fun i => (fact i).1
    rw [fives, masked, checkedSub_of_le le, value]
    rfl
  · have masked : word8 (fun i => pairCounts (b i)) >>> 2 &&& word8 (fun _ => 0x33) =
        word8 fun i => pairCounts (b i) / 4 &&& 0x33 := by
      rw [(word8_shift (by rw [top]; rfl)).2.1,
        word8_and (fun i => by have := pairs_small i; omega) (by decide)]
      exact word8_congr fun i => (fact i).2.2.1 _ (Nat.mod_lt _ (by decide))
    rw [threes, word8_and pairs_small (by decide), masked, word8_add]
    rfl
  · have low : ∀ i, nibbleCounts (b (i + 1)) % 16 ≤ 4 := fun i => (fact (i + 1)).2.2.2.2.1
    rw [lows, (word8_shift (by rw [top]; rfl)).2.2, word8_add, word8_and (fun i => by
      have := (fact i).2.2.2.1
      have := low i
      omega) (by decide)]
    exact word8_congr fun i => (fact i).2.2.2.2.2.2 _ (low i)

theorem selectInByte_spec : ∀ byte < 256, ∀ r < popcount byte, ∃ bit < 8,
    (selectInByte.getD byte [])[r]? = some bit ∧ byte.testBit bit ∧
      Nat.count (fun k => byte.testBit k) bit = r := by
  decide +kernel

/-! ### The selected bit -/

theorem count_congr {p q : Nat → Prop} [DecidablePred p] [DecidablePred q] {n : Nat}
    (same : ∀ k < n, p k ↔ q k) : Nat.count p n = Nat.count q n :=
  Nat.le_antisymm (Nat.count_mono_left fun k below => (same k below).mp)
    (Nat.count_mono_left fun k below => (same k below).mpr)

def byteAt (word place : Nat) : Nat := word / 2 ^ (8 * place) % 256

theorem shift_byte (word place : Nat) : word >>> (place * 8) &&& 0xFF = byteAt word place := by
  rw [Nat.shiftRight_eq_div_pow, Nat.mul_comm]
  exact Nat.and_two_pow_sub_one_eq_mod _ 8

theorem byteAt_zero {byte : Nat} (small : byte < 256) (rest : Nat) :
    byteAt (byte + 256 * rest) 0 = byte := by
  rw [byteAt, Nat.mul_zero, Nat.pow_zero, Nat.div_one, Nat.add_mul_mod_self_left,
    Nat.mod_eq_of_lt small]

theorem byteAt_succ {byte : Nat} (small : byte < 256) (rest place : Nat) :
    byteAt (byte + 256 * rest) (place + 1) = byteAt rest place := by
  have power : 2 ^ (8 * (place + 1)) = 256 * 2 ^ (8 * place) := by
    rw [Nat.mul_add, Nat.pow_add, Nat.mul_comm]
  have low : (byte + 256 * rest) / 256 = rest := by omega
  rw [byteAt, power, ← Nat.div_div_eq_div_mul, low, byteAt]

theorem byteAt_word8 {f : Nat → Nat} (small : ∀ i, f i < 256) {place : Nat} (inside : place < 8) :
    byteAt (word8 f) place = f place := by
  have last : word8 f = f 0 + 256 * (f 1 + 256 * (f 2 + 256 * (f 3 + 256 * (f 4 + 256 * (f 5 +
    256 * (f 6 + 256 * (f 7 + 256 * 0))))))) := rfl
  rw [last]
  interval_cases place <;> simp only [byteAt_succ (small _), byteAt_zero (small _)]

theorem word8_byteAt {word : Nat} (wide : word < 2 ^ 64) : word8 (byteAt word) = word := by
  obtain ⟨q, q_eq⟩ : ∃ q : Nat → Nat, ∀ i, q i = word / 2 ^ (8 * i) := ⟨_, fun _ => rfl⟩
  have step : ∀ i, q i = byteAt word i + 256 * q (i + 1) := fun i => by
    rw [byteAt, ← q_eq, q_eq (i + 1), Nat.mul_add, Nat.pow_add, ← Nat.div_div_eq_div_mul, ← q_eq]
    exact (Nat.mod_add_div (q i) 256).symm
  have first : q 0 = word := by rw [q_eq, Nat.mul_zero, Nat.pow_zero, Nat.div_one]
  have last : q 8 = 0 := by rw [q_eq, Nat.div_eq_of_lt wide]
  rw [step 0, step 1, step 2, step 3, step 4, step 5, step 6, step 7, last] at first
  exact first

theorem byteAt_testBit (word place : Nat) {bit : Nat} (inside : bit < 8) :
    (byteAt word place).testBit bit = word.testBit (8 * place + bit) := by
  rw [byteAt, show 256 = 2 ^ 8 from rfl, Nat.testBit_mod_two_pow, Nat.testBit_div_two_pow,
    Nat.add_comm bit, decide_eq_true inside, Bool.true_and]

theorem word_count (word place : Nat) {bit : Nat} (inside : bit ≤ 8) :
    Nat.count (fun k => word.testBit k) (8 * place + bit) =
      Nat.count (fun k => word.testBit k) (8 * place) +
        Nat.count (fun k => (byteAt word place).testBit k) bit := by
  rw [Nat.count_add]
  congr 1
  apply count_congr
  intro k below
  rw [byteAt_testBit word place (Nat.lt_of_lt_of_le below inside)]

/-- The flags of the bytes whose running total is at most `r`, and the total before the place where
`r` falls. -/
theorem word8_place {s : Nat → Nat} {r place : Nat} (zero : s 0 = 0) (mono : Monotone s)
    (bound : ∀ i, s i ≤ 64) (narrow : r < 64) (inside : place < 8) (low : s place ≤ r)
    (high : r < s (place + 1)) :
    ∃ flags, checkedSub (r * byteOnes % 2 ^ 64 ||| byteHighs) (word8 fun i => s (i + 1)) = some flags ∧
      ((flags &&& byteHighs) >>> 7 * byteOnes % 2 ^ 64) >>> 56 = place ∧
      ((word8 fun i => s (i + 1)) <<< 8 % 2 ^ 64) >>> (place * 8) &&& 0xFF = s place := by
  have spread : r * byteOnes % 2 ^ 64 = word8 fun _ => r := by
    simp only [word8, byteOnes]
    omega
  have highs : byteHighs = word8 fun _ => 128 := rfl
  have raised : (word8 fun _ => r) ||| (word8 fun _ => 128) = word8 fun _ => r + 128 :=
    (word8_bitwise rfl (fun _ => by omega) fun _ => by decide).trans
      (word8_congr fun _ => Nat.or_two_pow_eq_add_of_lt (n := 7) (by omega))
  have flag : ∀ r < 64, ∀ sum ≤ 64, r + 128 - sum &&& 128 = 128 * if sum ≤ r then 1 else 0 := by
    decide +kernel
  have ordered : ∀ i, (s (i + 1) ≤ r ↔ i < place) := fun i => by
    constructor
    · intro le
      by_contra later
      exact absurd (mono (Nat.add_le_add_right (Nat.le_of_not_lt later) 1))
        (Nat.not_le.mpr (Nat.lt_of_le_of_lt le high))
    · intro earlier
      exact Nat.le_trans (mono earlier) low
  obtain ⟨le, value⟩ := word8_sub fun i => Nat.le_trans (bound (i + 1)) (by omega : 64 ≤ r + 128)
  refine ⟨_, (by rw [spread, highs, raised, checkedSub_of_le le, value]), ?_, ?_⟩
  · have flags : (word8 fun i => r + 128 - s (i + 1)) &&& byteHighs =
        word8 fun i => 128 * if i < place then 1 else 0 := by
      rw [highs, word8_and (fun i => by omega) (by decide)]
      exact word8_congr fun i => by rw [flag r narrow _ (bound (i + 1)), if_congr (ordered i) rfl rfl]
    rw [flags]
    interval_cases place <;> decide
  · have small : ∀ i, s i < 256 := fun i => Nat.lt_of_le_of_lt (bound i) (by decide)
    have up : (word8 fun i => s (i + 1)) <<< 8 = word8 s + 2 ^ 64 * s 8 := by
      simp only [word8, Nat.shiftLeft_eq, Nat.reduceAdd]
      omega
    rw [up, Nat.add_mul_mod_self_left, Nat.mod_eq_of_lt (word8_lt small), shift_byte,
      byteAt_word8 small inside]

/-- Selecting the `r`-th set bit of a word that has one. -/
theorem selectInWord_spec {word r : Nat} (wide : word < 2 ^ 64)
    (below : r < Nat.count (fun k => word.testBit k) 64) :
    ∃ bit < 64, selectInWord word r = some bit ∧ word.testBit bit ∧
      Nat.count (fun k => word.testBit k) bit = r := by
  obtain ⟨s, s_eq⟩ : ∃ s : Nat → Nat, ∀ i, s i = Nat.count (fun k => word.testBit k) (8 * i) :=
    ⟨_, fun _ => rfl⟩
  have small : ∀ i, byteAt word i < 256 := fun i => Nat.mod_lt _ (by decide)
  have beyond : ∀ i, 8 ≤ i → byteAt word i = 0 := fun i le => by
    rw [byteAt, Nat.div_eq_of_lt (Nat.lt_of_lt_of_le wide (Nat.pow_le_pow_right (by decide) (by omega)))]
  have zero : s 0 = 0 := s_eq 0
  have next : ∀ i, s (i + 1) = s i + popcount (byteAt word i) := fun i => by
    rw [s_eq, s_eq, Nat.mul_add]
    exact word_count word i le_rfl
  have mono : Monotone s := monotone_nat_of_le_succ fun i => next i ▸ Nat.le_add_right _ _
  have bound : ∀ i, s i ≤ 64 := fun i => by
    have early : ∀ i ≤ 8, s i ≤ 64 := fun i le => by
      rw [s_eq]
      exact Nat.le_trans (Nat.count_le _) (Nat.mul_le_mul_left 8 le)
    induction i with
    | zero => exact early 0 (by decide)
    | succ i ih =>
      rcases Nat.lt_or_ge i 8 with before | after
      · exact early (i + 1) before
      · rw [next, beyond i after]
        exact ih
  have falls : ∀ n, r < s n → ∃ place < n, s place ≤ r ∧ r < s (place + 1) := fun n high => by
    induction n with
    | zero => omega
    | succ n ih =>
      rcases Nat.lt_or_ge r (s n) with earlier | here
      · obtain ⟨place, lt, found⟩ := ih earlier
        exact ⟨place, Nat.lt_succ_of_lt lt, found⟩
      · exact ⟨n, Nat.lt_succ_self n, here, high⟩
  rw [show 64 = 8 * 8 from rfl, ← s_eq] at below
  obtain ⟨place, inside, low, high⟩ := falls 8 below
  obtain ⟨pairs, nibbles, counts⟩ := word8_popcount small (beyond 8 le_rfl)
  rw [word8_byteAt wide] at pairs
  obtain ⟨up_to, last⟩ := word8_totals zero next (Nat.lt_of_le_of_lt (bound 8) (by decide))
  obtain ⟨flags, difference, index, before⟩ := word8_place zero mono bound
    (Nat.lt_of_lt_of_le below (bound 8)) inside low high
  obtain ⟨bit, bit_lt, selected, set, rank⟩ :=
    selectInByte_spec _ (small place) (r - s place) (by have := next place; omega)
  have here := shift_byte word place
  refine ⟨place * 8 + bit, by omega, ?_, ?_, ?_⟩
  · rw [selectInWord, pairs, Option.bind_eq_bind, Option.bind_some]
    dsimp only
    rw [nibbles, counts, up_to, last, if_pos below, difference, Option.bind_some, index, before,
      here, checkedSub_of_le low, Option.bind_some, selected]
    rfl
  · rw [Nat.mul_comm, ← byteAt_testBit word place bit_lt]
    exact set
  · rw [Nat.mul_comm, word_count word place (Nat.le_of_lt bit_lt), rank, ← s_eq]
    omega

end Purrdf.PackBits
