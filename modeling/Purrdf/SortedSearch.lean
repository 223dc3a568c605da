import Mathlib.Data.List.InsertIdx
import Mathlib.Order.Basic

/-!
# Searching a sorted sequence

Binary search by a comparison against a sought value. A position found compares equal, and
a position not found is where the value belongs.
-/

namespace Purrdf.SortedSearch

/-- Halve a window until one element is left. No comparison ends the loop early. -/
def searchLoop (cmp : Nat → Ordering) : Nat → Nat → Nat → Nat
  | 0, _, base => base
  | fuel + 1, size, base =>
    if 1 < size then
      let half := size / 2
      let mid := base + half
      searchLoop cmp fuel (size - half) (if cmp mid = .gt then base else mid)
    else base

/-- The position of an element that compares equal, or the position it belongs at. -/
def binarySearchBy (cmp : Nat → Ordering) (size : Nat) : Except Nat Nat :=
  if size = 0 then .error 0
  else
    let base := searchLoop cmp size size 0
    match cmp base with
    | .eq => .ok base
    | .lt => .error (base + 1)
    | .gt => .error base

/-- The elements below the sought value come first and those above it last. -/
structure Sorted (cmp : Nat → Ordering) (size : Nat) : Prop where
  above : ∀ i j, i ≤ j → j < size → cmp i = .gt → cmp j = .gt
  below : ∀ i j, i ≤ j → j < size → cmp j = .lt → cmp i = .lt

variable {cmp : Nat → Ordering} {total : Nat}

/-- What the loop keeps: nothing past its window is sought, nor anything before it that its
base is not. -/
structure Window (cmp : Nat → Ordering) (total size base : Nat) : Prop where
  inside : base + size ≤ total
  some_left : 1 ≤ size
  first : base = 0 ∨ cmp base ≠ .gt
  past : ∀ i, base + size ≤ i → i < total → cmp i = .gt

theorem Window.half (sorted : Sorted cmp total) {size base : Nat}
    (window : Window cmp total size base) (large : 1 < size) :
    Window cmp total (size - size / 2)
      (if cmp (base + size / 2) = .gt then base else base + size / 2) := by
  have inside := window.inside
  split
  · rename_i greater
    constructor
    · omega
    · omega
    · exact window.first
    · intro i low high
      exact sorted.above (base + size / 2) i (by omega) high greater
  · rename_i atMost
    constructor
    · omega
    · omega
    · exact Or.inr atMost
    · intro i low high
      exact window.past i (by omega) high

theorem searchLoop_window (sorted : Sorted cmp total) :
    ∀ (fuel size base : Nat), size ≤ fuel → Window cmp total size base →
      Window cmp total 1 (searchLoop cmp fuel size base) := by
  intro fuel
  induction fuel with
  | zero =>
    intro size base enough window
    have := window.some_left
    omega
  | succ fuel ih =>
    intro size base enough window
    rw [searchLoop]
    split
    · rename_i large
      exact ih _ _ (by omega) (window.half sorted large)
    · rename_i small
      have one : size = 1 := by
        have := window.some_left
        omega
      rw [one] at window
      exact window

def Finds (cmp : Nat → Ordering) (size : Nat) : Except Nat Nat → Prop
  | .ok position => position < size ∧ cmp position = .eq
  | .error position => position ≤ size ∧ (∀ i, i < position → cmp i = .lt) ∧
      ∀ i, position ≤ i → i < size → cmp i = .gt

theorem binarySearchBy_finds (sorted : Sorted cmp total) :
    Finds cmp total (binarySearchBy cmp total) := by
  rw [binarySearchBy]
  split
  · rename_i empty
    subst empty
    constructor
    · exact Nat.le_refl 0
    · constructor
      · intro i low
        exact absurd low (Nat.not_lt_zero i)
      · intro i _ high
        exact absurd high (Nat.not_lt_zero i)
  · have start : Window cmp total total 0 := by
      constructor
      · omega
      · omega
      · exact Or.inl rfl
      · intro i low high
        omega
    have window := searchLoop_window sorted total total 0 (Nat.le_refl total) start
    generalize searchLoop cmp total total 0 = base at window ⊢
    have inside := window.inside
    dsimp only
    cases found : cmp base with
    | eq => exact ⟨inside, found⟩
    | lt =>
      constructor
      · exact inside
      · constructor
        · intro i low
          exact sorted.below i base (by omega) inside found
        · exact window.past
    | gt =>
      have front : base = 0 := by
        rcases window.first with zero | not_greater
        · exact zero
        · exact absurd found not_greater
      constructor
      · omega
      · constructor
        · intro i low
          omega
        · intro i low high
          exact sorted.above base i low high found

theorem binarySearchBy_ok (sorted : Sorted cmp total) {i : Nat} (inside : i < total)
    (sought : cmp i = .eq) :
    ∃ position, binarySearchBy cmp total = .ok position ∧ position < total ∧
      cmp position = .eq := by
  have finds := binarySearchBy_finds sorted
  cases searched : binarySearchBy cmp total with
  | ok position =>
    rw [searched] at finds
    exact ⟨position, rfl, finds⟩
  | error position =>
    rw [searched] at finds
    obtain ⟨-, before, after⟩ := finds
    rcases Nat.lt_or_ge i position with low | high
    · have := before i low
      rw [sought] at this
      cases this
    · have := after i high inside
      rw [sought] at this
      cases this

end Purrdf.SortedSearch
