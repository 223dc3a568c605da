import Purrdf.PackBits

/-!
# Common prefixes

The first-mismatch index of two byte strings, found by whole little-endian words. The bytes
before it agree.
-/

namespace Purrdf.Deflate

open PackBits

/-- The zero bits below the lowest one bit of a number of a given width. -/
def trailingZeros : Nat → Nat → Nat
  | 0, _ => 0
  | width + 1, diff => if diff % 2 = 1 then 0 else 1 + trailingZeros width (diff / 2)

def wordAt (width : Nat) (bytes : List UInt8) (pos : Nat) : Nat :=
  leValue ((bytes.drop pos).take width)

/-- Where two strings first differ inside the words at a position. -/
def differsAt (width : Nat) (a b : List UInt8) (pos : Nat) : Option Nat :=
  let diff := wordAt width a pos ^^^ wordAt width b pos
  if diff = 0 then none else some (pos + trailingZeros (8 * width) diff / 8)

def scanWords (a b : List UInt8) : Nat → Nat → Option Nat
  | 0, _ => none
  | words + 1, k => differsAt 16 a b (k * 16) <|> scanWords a b words (k + 1)

/-- Two strings agree below a position inside both. -/
structure Agree (a b : List UInt8) (pos : Nat) : Prop where
  left : pos ≤ a.length
  right : pos ≤ b.length
  same : a.take pos = b.take pos

theorem Agree.earlier {a b : List UInt8} {pos earlier : Nat} (agree : Agree a b pos)
    (order : earlier ≤ pos) : Agree a b earlier := by
  constructor
  · exact order.trans agree.left
  · exact order.trans agree.right
  · have cut := congrArg (List.take earlier) agree.same
    rw [List.take_take, List.take_take, Nat.min_eq_left order] at cut
    exact cut

theorem trailingZeros_mod (width diff : Nat) : diff % 2 ^ trailingZeros width diff = 0 := by
  induction width generalizing diff with
  | zero => exact Nat.mod_one diff
  | succ width ih =>
    rw [trailingZeros]
    split
    · exact Nat.mod_one diff
    · have half := ih (diff / 2)
      have even : diff = 2 * (diff / 2) := by omega
      rw [Nat.pow_add, Nat.pow_one, even, Nat.mul_mod_mul_left]
      rw [Nat.mul_div_cancel_left _ (by decide), half]

theorem trailingZeros_le (width diff : Nat) : trailingZeros width diff ≤ width := by
  induction width generalizing diff with
  | zero => exact Nat.le_refl 0
  | succ width ih =>
    have half := ih (diff / 2)
    rw [trailingZeros]
    split <;> omega

/-- Words whose difference has a number of zero low bytes agree on as many bytes. -/
theorem take_eq_of_xor {left right : List UInt8} {count : Nat} (length : left.length = right.length)
    (zero : (leValue left ^^^ leValue right) % 256 ^ count = 0) :
    left.take count = right.take count := by
  apply leValue_injective
  · rw [List.length_take, List.length_take, length]
  · have power : (256 : Nat) ^ count = 2 ^ (8 * count) := by
      rw [Nat.pow_mul]
    rw [leValue_take, leValue_take, power]
    rw [power, Nat.xor_mod_two_pow] at zero
    exact Nat.xor_eq_zero_iff.mp zero

variable {a b : List UInt8} {pos width : Nat}

theorem Agree.further {count : Nat} (agree : Agree a b pos) (left : pos + width ≤ a.length)
    (right : pos + width ≤ b.length) (within : count ≤ width)
    (zero : (wordAt width a pos ^^^ wordAt width b pos) % 256 ^ count = 0) :
    Agree a b (pos + count) := by
  constructor
  · omega
  · omega
  · have words := take_eq_of_xor (by
      rw [List.length_take, List.length_take, List.length_drop, List.length_drop]
      omega) zero
    rw [List.take_take, List.take_take, Nat.min_eq_left within] at words
    rw [List.take_add, List.take_add, agree.same, words]

theorem Agree.differsAt (agree : Agree a b pos) (left : pos + width ≤ a.length)
    (right : pos + width ≤ b.length) :
    (∀ found, differsAt width a b pos = some found → Agree a b found) ∧
      (differsAt width a b pos = none → Agree a b (pos + width)) := by
  rw [Deflate.differsAt]
  split
  · rename_i zero
    constructor
    · intro found none
      cases none
    · intro _
      apply agree.further left right (Nat.le_refl width)
      rw [zero]
      exact Nat.zero_mod _
  · constructor
    · intro found same
      cases same
      obtain ⟨diff, diff_eq⟩ : ∃ diff, wordAt width a pos ^^^ wordAt width b pos = diff := ⟨_, rfl⟩
      have low := trailingZeros_mod (8 * width) diff
      have short := trailingZeros_le (8 * width) diff
      rw [diff_eq]
      apply agree.further left right (by omega)
      have power : (256 : Nat) ^ (trailingZeros (8 * width) diff / 8) ∣
          2 ^ trailingZeros (8 * width) diff := by
        rw [show (256 : Nat) = 2 ^ 8 by norm_num, ← Nat.pow_mul]
        exact Nat.pow_dvd_pow 2 (Nat.mul_div_le _ 8)
      rw [diff_eq]
      exact Nat.mod_eq_zero_of_dvd (power.trans (Nat.dvd_of_mod_eq_zero low))
    · intro some
      cases some

theorem Agree.scanWords (words : Nat) :
    ∀ k, Agree a b (k * 16) → (k + words) * 16 ≤ a.length → (k + words) * 16 ≤ b.length →
      (∀ found, scanWords a b words k = some found → Agree a b found) ∧
        (scanWords a b words k = none → Agree a b ((k + words) * 16)) := by
  induction words with
  | zero =>
    intro k agree _ _
    constructor
    · intro found none
      cases none
    · intro _
      exact agree
  | succ words ih =>
    intro k agree left right
    obtain ⟨stops, goes⟩ := agree.differsAt (show k * 16 + 16 ≤ a.length by omega) (by omega)
    rw [Deflate.scanWords]
    cases here : Deflate.differsAt 16 a b (k * 16) with
    | some position =>
      constructor
      · intro found same
        cases same
        exact stops position here
      · intro none
        cases none
    | none =>
      have next := goes here
      rw [← Nat.succ_mul] at next
      have rest := ih (k + 1) next (by omega) (by omega)
      rw [Nat.add_right_comm, Nat.add_assoc] at rest
      exact rest

theorem Agree.zip (a b : List UInt8) :
    Agree a b ((a.zip b).takeWhile fun (x, y) => x == y).length := by
  induction a generalizing b with
  | nil => exact ⟨Nat.le_refl 0, Nat.zero_le _, rfl⟩
  | cons first a ih =>
    cases b with
    | nil => exact ⟨Nat.zero_le _, Nat.le_refl 0, rfl⟩
    | cons second b =>
      rw [List.zip_cons_cons, List.takeWhile_cons]
      by_cases equal : first = second
      · have rest := ih b
        rw [if_pos (beq_iff_eq.mpr equal), List.length_cons]
        constructor
        · exact Nat.succ_le_succ rest.left
        · exact Nat.succ_le_succ rest.right
        · rw [List.take_succ_cons, List.take_succ_cons, rest.same, equal]
      · rw [if_neg fun same => equal (eq_of_beq same)]
        exact ⟨Nat.zero_le _, Nat.zero_le _, rfl⟩

theorem Agree.getD {found : Option Nat} {len : Nat}
    (some_agree : ∀ position, found = some position → Agree a b position)
    (none_agree : found = none → Agree a b len) : Agree a b (found.getD len) := by
  cases found with
  | some position => exact some_agree position rfl
  | none => exact none_agree rfl

end Purrdf.Deflate
