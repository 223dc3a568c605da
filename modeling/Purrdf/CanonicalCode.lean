import Mathlib.Data.Nat.Bitwise
import Mathlib.Data.List.Count
import Mathlib.Tactic.Ring
import Mathlib.Tactic.Linarith

/-!
# Canonical prefix codes

Codes assigned from their lengths: shorter codes first, and within one length in symbol
order. When the lengths do not spend more than the code space, no code is the beginning of
another, also when every code is read from its last bit to its first.
-/

namespace Purrdf.CanonicalCode

/-! ### Bit reversal -/

def reverseBits (code len : Nat) : Nat :=
  ((BitVec.ofNat 32 code).reverse >>> (32 - len)).toNat

theorem testBit_reverseBits {len : Nat} (short : len ≤ 32) (code i : Nat) :
    (reverseBits code len).testBit i = (decide (i < len) && code.testBit (len - 1 - i)) := by
  rw [reverseBits, BitVec.testBit_toNat, BitVec.getLsbD_ushiftRight, BitVec.getLsbD_reverse,
    BitVec.getMsbD_eq_getLsbD, BitVec.getLsbD_ofNat]
  by_cases inside : i < len
  · have low : 32 - len + i < 32 := by omega
    have place : 32 - 1 - (32 - len + i) = len - 1 - i := by omega
    have below : len - 1 - i < 32 := by omega
    simp [inside, low, place, below]
  · have high : ¬32 - len + i < 32 := by omega
    simp [inside, high]

theorem reverseBits_lt {len : Nat} (short : len ≤ 32) (code : Nat) :
    reverseBits code len < 2 ^ len := by
  apply Nat.lt_pow_two_of_testBit
  intro i high
  rw [testBit_reverseBits short]
  simp [Nat.not_lt.mpr high]

theorem reverseBits_mod {short long : Nat} (order : short ≤ long) (bound : long ≤ 32)
    (code : Nat) :
    reverseBits code long % 2 ^ short = reverseBits (code / 2 ^ (long - short)) short := by
  apply Nat.eq_of_testBit_eq
  intro i
  rw [Nat.testBit_mod_two_pow, testBit_reverseBits bound, testBit_reverseBits (order.trans bound),
    Nat.testBit_div_two_pow]
  by_cases inside : i < short
  · have within : i < long := by omega
    have place : short - 1 - i + (long - short) = long - 1 - i := by omega
    simp [inside, within, place]
  · simp [inside]

theorem reverseBits_injective {len : Nat} (short : len ≤ 32) {a b : Nat} (left : a < 2 ^ len)
    (right : b < 2 ^ len) (same : reverseBits a len = reverseBits b len) : a = b := by
  apply Nat.eq_of_testBit_eq
  intro i
  by_cases inside : i < len
  · have bit := congrArg (fun code => code.testBit (len - 1 - i)) same
    simp only [testBit_reverseBits short] at bit
    have within : len - 1 - i < len := by omega
    have place : len - 1 - (len - 1 - i) = i := by omega
    simpa [within, place] using bit
  · have bound : 2 ^ len ≤ 2 ^ i := Nat.pow_le_pow_right (by omega) (by omega)
    rw [Nat.testBit_lt_two_pow (left.trans_le bound), Nat.testBit_lt_two_pow (right.trans_le bound)]

/-! ### Codes from lengths -/

/-- How many symbols have a code of some length. Length zero stands for no code. -/
def count (lengths : List Nat) (len : Nat) : Nat :=
  if len = 0 then 0 else lengths.count len

def first (count : Nat → Nat) : Nat → Nat
  | 0 => 0
  | len + 1 => (first count len + count len) * 2

/-- The code space left after the codes of at most some length, in codes of that length. -/
def left (count : Nat → Nat) : Nat → Int
  | 0 => 1
  | len + 1 => 2 * left count len - count (len + 1)

def lengthOf (lengths : List Nat) (symbol : Nat) : Nat :=
  lengths.getD symbol 0

def code (lengths : List Nat) (symbol : Nat) : Nat :=
  first (count lengths) (lengthOf lengths symbol)
    + (lengths.take symbol).count (lengthOf lengths symbol)

/-- A code as a stream read from its least significant bit carries it. -/
def word (lengths : List Nat) (symbol : Nat) : Nat :=
  reverseBits (code lengths symbol) (lengthOf lengths symbol)

/-- The lengths are within a bound and do not spend more than the code space. -/
structure Fits (lengths : List Nat) (longest : Nat) : Prop where
  bounded : ∀ len ∈ lengths, len ≤ longest
  narrow : longest ≤ 32
  left_nonneg : ∀ len ≤ longest, 0 ≤ left (count lengths) len

structure Matches (lengths : List Nat) (symbol bits : Nat) : Prop where
  used : 0 < lengthOf lengths symbol
  starts : bits % 2 ^ lengthOf lengths symbol = word lengths symbol

theorem left_eq (count : Nat → Nat) (none : count 0 = 0) (len : Nat) :
    left count len = 2 ^ len - first count len - count len := by
  induction len with
  | zero => simp [left, first, none]
  | succ len ih =>
    rw [left, ih, first]
    push_cast
    ring

theorem first_past (count : Nat → Nat) {short long : Nat} (order : short < long) :
    (first count short + count short) * 2 ^ (long - short) ≤ first count long := by
  induction long, order using Nat.le_induction with
  | base =>
    have gap : short + 1 - short = 1 := by omega
    rw [gap, first, pow_one]
  | succ long order ih =>
    have gap : long + 1 - short = (long - short) + 1 := by omega
    rw [gap, first, pow_succ, ← mul_assoc]
    exact Nat.mul_le_mul_right 2 (ih.trans (Nat.le_add_right _ _))

variable {lengths : List Nat} {longest : Nat}

theorem inside_of_used {symbol : Nat} (used : 0 < lengthOf lengths symbol) :
    symbol < lengths.length := by
  by_contra outside
  rw [lengthOf, List.getD_eq_getElem?_getD, List.getElem?_eq_none (Nat.not_lt.mp outside)] at used
  exact absurd used (by simp)

theorem lengthOf_eq {symbol : Nat} (inside : symbol < lengths.length) :
    lengthOf lengths symbol = lengths[symbol] := by
  simp [lengthOf, inside]

theorem lengthOf_le (fits : Fits lengths longest) (symbol : Nat) :
    lengthOf lengths symbol ≤ longest := by
  by_cases inside : symbol < lengths.length
  · rw [lengthOf_eq inside]
    exact fits.bounded _ (List.getElem_mem inside)
  · simp [lengthOf, Nat.not_lt.mp inside]

theorem count_take_lt {a b : Nat} (order : a < b) (inside : a < lengths.length) :
    (lengths.take a).count lengths[a] < (lengths.take b).count lengths[a] := by
  have step : (lengths.take (a + 1)).count lengths[a] = (lengths.take a).count lengths[a] + 1 := by
    rw [List.take_succ_eq_append_getElem inside, List.count_append]
    simp
  have later : a + 1 ≤ b := order
  have sub : (lengths.take (a + 1)).Sublist (lengths.take b) := List.take_sublist_take_left later
  have grow := sub.count_le lengths[a]
  omega

theorem code_lt_next {symbol : Nat} (used : 0 < lengthOf lengths symbol) :
    code lengths symbol < first (count lengths) (lengthOf lengths symbol)
      + count lengths (lengthOf lengths symbol) := by
  have inside := inside_of_used used
  have fewer := count_take_lt inside inside
  rw [List.take_length, ← lengthOf_eq inside] at fewer
  rw [code, count, if_neg (by omega)]
  omega

theorem next_le (fits : Fits lengths longest) {len : Nat} (bound : len ≤ longest) :
    first (count lengths) len + count lengths len ≤ 2 ^ len := by
  have room := fits.left_nonneg len bound
  rw [left_eq (count lengths) rfl len] at room
  have cast : ((first (count lengths) len + count lengths len : Nat) : Int) ≤ ((2 ^ len : Nat) : Int) := by
    push_cast
    linarith
  exact_mod_cast cast

theorem code_lt (fits : Fits lengths longest) {symbol : Nat}
    (used : 0 < lengthOf lengths symbol) :
    code lengths symbol < 2 ^ lengthOf lengths symbol :=
  (code_lt_next used).trans_le (next_le fits (lengthOf_le fits symbol))

theorem word_lt (fits : Fits lengths longest) (symbol : Nat) :
    word lengths symbol < 2 ^ lengthOf lengths symbol :=
  reverseBits_lt ((lengthOf_le fits symbol).trans fits.narrow) _

theorem code_div_ne {short long : Nat} (used : 0 < lengthOf lengths short)
    (order : lengthOf lengths short < lengthOf lengths long) :
    code lengths long / 2 ^ (lengthOf lengths long - lengthOf lengths short)
      ≠ code lengths short := by
  have below := code_lt_next used
  have past := first_past (count lengths) order
  have start : first (count lengths) (lengthOf lengths long) ≤ code lengths long :=
    Nat.le_add_right _ _
  have quotient := (Nat.le_div_iff_mul_le (Nat.two_pow_pos _)).mpr (past.trans start)
  omega

theorem code_ne {a b : Nat} (distinct : a ≠ b) (used : 0 < lengthOf lengths a)
    (same : lengthOf lengths a = lengthOf lengths b) : code lengths a ≠ code lengths b := by
  have insideA := inside_of_used used
  have insideB := inside_of_used (same ▸ used)
  rw [code, code, ← same]
  rcases Nat.lt_or_gt_of_ne distinct with order | order
  · have fewer := count_take_lt order insideA
    rw [← lengthOf_eq insideA] at fewer
    omega
  · have fewer := count_take_lt order insideB
    rw [← lengthOf_eq insideB, ← same] at fewer
    omega

theorem word_mod_ne (fits : Fits lengths longest) {a b : Nat} (distinct : a ≠ b)
    (used : 0 < lengthOf lengths a) (order : lengthOf lengths a ≤ lengthOf lengths b) :
    word lengths b % 2 ^ lengthOf lengths a ≠ word lengths a := by
  have narrow := (lengthOf_le fits b).trans fits.narrow
  rw [word, word, reverseBits_mod order narrow]
  intro same
  have usedB := Nat.lt_of_lt_of_le used order
  have bound : code lengths b / 2 ^ (lengthOf lengths b - lengthOf lengths a)
      < 2 ^ lengthOf lengths a := by
    apply Nat.div_lt_of_lt_mul
    rw [← pow_add, Nat.sub_add_cancel order]
    exact code_lt fits usedB
  have equal := reverseBits_injective (order.trans narrow) bound (code_lt fits used) same
  rcases Nat.lt_or_eq_of_le order with shorter | level
  · exact code_div_ne used shorter equal
  · rw [level, Nat.sub_self, pow_zero, Nat.div_one] at equal
    exact code_ne distinct used level equal.symm

theorem Matches.unique (fits : Fits lengths longest) {a b bits : Nat}
    (left : Matches lengths a bits) (right : Matches lengths b bits) : a = b := by
  by_contra distinct
  wlog order : lengthOf lengths a ≤ lengthOf lengths b generalizing a b with flipped
  · exact flipped right left (Ne.symm distinct) (Nat.le_of_not_le order)
  apply word_mod_ne fits distinct left.used order
  rw [← right.starts, ← left.starts]
  exact Nat.mod_mod_of_dvd _ (Nat.pow_dvd_pow 2 order)

theorem Matches.congr {symbol bits other : Nat} (found : Matches lengths symbol bits)
    (same : bits % 2 ^ lengthOf lengths symbol = other % 2 ^ lengthOf lengths symbol) :
    Matches lengths symbol other := by
  constructor
  · exact found.used
  · rw [← same]
    exact found.starts

end Purrdf.CanonicalCode
