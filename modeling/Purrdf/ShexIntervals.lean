import Purrdf.CountedSums
import Purrdf.ShexExpression

/-!
# The interval calculus

How often a subexpression may be used for the given counts of its slots, as an interval computed
from the leaves up.
-/

namespace Purrdf.Shex

open CountedSums

/-- A non-empty interval of repetition counts, unbounded without `hi`. -/
structure Iv where
  lo : Nat
  hi : Option Nat
deriving DecidableEq, Repr

def between (lo : Nat) (hi : Option Nat) : Option Iv :=
  match hi with
  | some h => if lo > h then none else some { lo, hi }
  | none => some { lo, hi }

def intersect (a b : Iv) : Option Iv :=
  let lo := max a.lo b.lo
  let hi :=
    match a.hi, b.hi with
    | none, h => h
    | some x, none => some x
    | some x, some y => some (min x y)
  between lo hi

def u64Max : Nat := 2 ^ 64 - 1

def saturatingAdd (a b : Nat) : Nat :=
  min (a + b) u64Max

/-- `OneOf` distributes its repetitions across branches. -/
def sum (a b : Iv) : Iv where
  lo := saturatingAdd a.lo b.lo
  hi :=
    match a.hi, b.hi with
    | some x, some y => some (saturatingAdd x y)
    | _, _ => none

def divCeil (a b : Nat) : Nat :=
  if a % b = 0 then a / b else a / b + 1

/-- The numbers of uses with cardinality `card` that can consume a total in `inner`. -/
def wrap (inner : Iv) (card : Card) : Option Iv :=
  let hi := if card.min = 0 then none else inner.hi.map (· / card.min)
  let lo :=
    if inner.lo = 0 then some 0
    else
      match card.max with
      | none => some 1
      | some 0 => none
      | some m => some (divCeil inner.lo m)
  match lo with
  | none => none
  | some lo => between lo hi

/-- An index out of range. -/
inductive Panic where
  | panicked
deriving DecidableEq, Repr

def expect {α : Type} : Option α → Except Panic α
  | some value => .ok value
  | none => .error .panicked

variable {V : Type}

mutual

/-- Bottom-up repetition interval for per-slot count ranges. -/
def reps (node : CNode) (slots : List (Slot V)) (counts : List (Nat × Nat)) :
    Except Panic (Option Iv) :=
  match node with
  | .slot i => do
    let count ← expect counts[i]?
    let slot ← expect slots[i]?
    return wrap { lo := count.1, hi := some count.2 } slot.card
  | .each children card => do
    let inner ← repsEach children slots counts { lo := 0, hi := none }
    return inner.bind fun inner => wrap inner card
  | .one children card => do
    let inner ← repsOne children slots counts { lo := 0, hi := some 0 }
    return inner.bind fun inner => wrap inner card

def repsEach (children : List CNode) (slots : List (Slot V)) (counts : List (Nat × Nat))
    (inner : Iv) : Except Panic (Option Iv) :=
  match children with
  | [] => .ok (some inner)
  | child :: rest => do
    match ← reps child slots counts with
    | none => return none
    | some iv =>
      match intersect inner iv with
      | none => return none
      | some inner => repsEach rest slots counts inner

def repsOne (children : List CNode) (slots : List (Slot V)) (counts : List (Nat × Nat))
    (inner : Iv) : Except Panic (Option Iv) :=
  match children with
  | [] => .ok (some inner)
  | child :: rest => do
    match ← reps child slots counts with
    | none => return none
    | some iv => repsOne rest slots counts (sum inner iv)

end

/-- Whether the expression, used once, can consume counts in the given ranges. -/
def countsMatch (compiled : Compiled V) (counts : List (Nat × Nat)) : Except Panic Bool := do
  match ← reps compiled.root compiled.slots counts with
  | none => return false
  | some iv => return iv.lo ≤ 1 && iv.hi.all (1 ≤ ·)

/-! ### What an interval holds -/

namespace Iv

def Contains (iv : Iv) (n : Nat) : Prop :=
  iv.lo ≤ n ∧ ∀ h, iv.hi = some h → n ≤ h

def Ordered (iv : Iv) : Prop :=
  ∀ h, iv.hi = some h → iv.lo ≤ h

def Within (iv : Iv) (total : Nat) : Prop :=
  iv.lo ≤ total ∧ ∀ h, iv.hi = some h → h ≤ total

end Iv

/-- What the calculus answered holds `n`. -/
def Holds (answer : Option Iv) (n : Nat) : Prop :=
  ∃ iv, answer = some iv ∧ iv.Contains n

theorem not_holds_none {n : Nat} : ¬ Holds none n := by
  rintro ⟨iv, none, -⟩
  cases none

theorem holds_some {iv : Iv} {n : Nat} : Holds (some iv) n ↔ iv.Contains n := by
  constructor
  · rintro ⟨other, same, contains⟩
    cases same
    exact contains
  · exact fun contains => ⟨iv, rfl, contains⟩

theorem holds_between {lo : Nat} {hi : Option Nat} {n : Nat} :
    Holds (between lo hi) n ↔ lo ≤ n ∧ ∀ h, hi = some h → n ≤ h := by
  unfold between
  split
  · rename_i h
    split
    · rename_i empty
      refine iff_of_false not_holds_none ?_
      rintro ⟨low, high⟩
      have bound := high h rfl
      omega
    · exact holds_some
  · exact holds_some

theorem between_ordered {lo : Nat} {hi : Option Nat} {iv : Iv}
    (made : between lo hi = some iv) : iv.Ordered := by
  unfold between at made
  split at made
  · split at made
    · cases made
    · rename_i h fits
      cases made
      rintro _ ⟨⟩
      exact Nat.le_of_not_lt fits
  · cases made
    rintro _ ⟨⟩

theorem between_eq {lo : Nat} {hi : Option Nat} {iv : Iv} (made : between lo hi = some iv) :
    iv = { lo, hi } := by
  unfold between at made
  split at made
  · split at made
    · cases made
    · cases made
      rfl
  · cases made
    rfl

theorem holds_intersect {a b : Iv} {n : Nat} :
    Holds (intersect a b) n ↔ a.Contains n ∧ b.Contains n := by
  obtain ⟨lo, hi⟩ := a
  obtain ⟨lo', hi'⟩ := b
  unfold intersect Iv.Contains
  rw [holds_between]
  cases hi <;> cases hi' <;> simp <;> omega

theorem intersect_ordered {a b iv : Iv} (met : intersect a b = some iv) : iv.Ordered :=
  between_ordered met

theorem intersect_within {a b iv : Iv} {left right : Nat} (a_within : a.Within left)
    (b_within : b.Within right) (met : intersect a b = some iv) : iv.Within (left + right) := by
  obtain ⟨lo, hi⟩ := a
  obtain ⟨lo', hi'⟩ := b
  rw [between_eq met]
  unfold Iv.Within at *
  cases hi <;> cases hi' <;> dsimp only at * <;> grind

theorem sum_contains {a b : Iv} {left right n : Nat} (a_ordered : a.Ordered)
    (b_ordered : b.Ordered) (a_within : a.Within left) (b_within : b.Within right)
    (small : left + right ≤ u64Max) :
    (sum a b).Contains n ↔ ∃ x y, x + y = n ∧ a.Contains x ∧ b.Contains y := by
  obtain ⟨lo, hi⟩ := a
  obtain ⟨lo', hi'⟩ := b
  unfold Iv.Ordered Iv.Within Iv.Contains sum saturatingAdd at *
  dsimp only at *
  have low : min (lo + lo') u64Max = lo + lo' := by omega
  rw [low]
  cases hi with
  | none =>
    constructor
    · rintro ⟨below, -⟩
      refine ⟨n - lo', lo', by omega, ⟨by omega, by simp⟩, le_rfl, b_ordered⟩
    · rintro ⟨x, y, rfl, ⟨x_low, -⟩, y_low, -⟩
      exact ⟨by omega, by simp⟩
  | some h =>
    have h_low := a_ordered h rfl
    cases hi' with
    | none =>
      constructor
      · rintro ⟨below, -⟩
        exact ⟨lo, n - lo, by omega, ⟨le_rfl, a_ordered⟩, by omega, by simp⟩
      · rintro ⟨x, y, rfl, ⟨x_low, -⟩, y_low, -⟩
        exact ⟨by omega, by simp⟩
    | some h' =>
      have h'_low := b_ordered h' rfl
      have h_small := a_within.2 h rfl
      have h'_small := b_within.2 h' rfl
      constructor
      · rintro ⟨below, above⟩
        have bound := above _ rfl
        refine ⟨max lo (n - h'), n - max lo (n - h'), by omega, ⟨by omega, ?_⟩, by omega, ?_⟩
        · rintro _ ⟨⟩
          omega
        · rintro _ ⟨⟩
          omega
      · rintro ⟨x, y, rfl, ⟨x_low, x_high⟩, y_low, y_high⟩
        have x_bound := x_high h rfl
        have y_bound := y_high h' rfl
        refine ⟨by omega, ?_⟩
        rintro _ ⟨⟩
        omega

theorem sum_ordered {a b : Iv} (a_ordered : a.Ordered) (b_ordered : b.Ordered) :
    (sum a b).Ordered := by
  obtain ⟨lo, hi⟩ := a
  obtain ⟨lo', hi'⟩ := b
  unfold Iv.Ordered sum saturatingAdd at *
  cases hi <;> cases hi' <;> dsimp only at * <;> grind

theorem sum_within {a b : Iv} {left right : Nat} (a_within : a.Within left)
    (b_within : b.Within right) : (sum a b).Within (left + right) := by
  obtain ⟨lo, hi⟩ := a
  obtain ⟨lo', hi'⟩ := b
  unfold Iv.Within sum saturatingAdd at *
  cases hi <;> cases hi' <;> dsimp only at * <;> grind

theorem divCeil_le {a b c : Nat} (pos : 0 < b) : divCeil a b ≤ c ↔ a ≤ c * b := by
  have parts := Nat.div_add_mod a b
  have rest := Nat.mod_lt a pos
  unfold divCeil
  split
  · rename_i whole
    rw [whole, Nat.add_zero] at parts
    constructor
    · intro le
      rw [← parts, Nat.mul_comm]
      exact Nat.mul_le_mul_right b le
    · intro le
      exact Nat.div_le_of_le_mul (by rwa [Nat.mul_comm])
  · rename_i part
    rw [Nat.succ_le_iff, Nat.div_lt_iff_lt_mul pos]
    refine ⟨Nat.le_of_lt, fun le => lt_of_le_of_ne le ?_⟩
    rintro rfl
    exact part (Nat.mul_mod_left c b)

theorem wrap_ordered {inner iv : Iv} {card : Card} (wrapped : wrap inner card = some iv) :
    iv.Ordered := by
  unfold wrap at wrapped
  dsimp only at wrapped
  split at wrapped
  · cases wrapped
  · exact between_ordered wrapped

theorem wrap_within {inner iv : Iv} {card : Card} {total : Nat} (within : inner.Within total)
    (wrapped : wrap inner card = some iv) : iv.Within total := by
  obtain ⟨low, high⟩ := within
  unfold wrap at wrapped
  dsimp only at wrapped
  split at wrapped
  · cases wrapped
  · rename_i lo lo_eq
    rw [between_eq wrapped]
    constructor
    · refine le_trans ?_ low
      dsimp only
      split at lo_eq
      · cases lo_eq
        exact Nat.zero_le _
      · rename_i pos
        split at lo_eq
        · cases lo_eq
          exact Nat.one_le_iff_ne_zero.mpr pos
        · cases lo_eq
        · rename_i m nonzero bounded
          cases lo_eq
          have m_pos : 0 < m := Nat.pos_of_ne_zero nonzero
          rw [divCeil_le m_pos]
          exact Nat.le_mul_of_pos_right _ m_pos
    · intro h eq
      dsimp only at eq
      split at eq
      · cases eq
      · rw [Option.map_eq_some_iff] at eq
        obtain ⟨bound, same, rfl⟩ := eq
        exact (Nat.div_le_self _ _).trans (high bound same)

theorem holds_wrap_iff {inner : Iv} {card : Card} {n : Nat} :
    Holds (wrap inner card) n ↔
      (inner.lo ≠ 0 → (∀ m, card.max = some m → inner.lo ≤ n * m) ∧ (card.max = none → 1 ≤ n)) ∧
      ∀ h, inner.hi = some h → n * card.min ≤ h := by
  have upper : (∀ h, (if card.min = 0 then none else inner.hi.map (· / card.min)) = some h →
      n ≤ h) ↔ ∀ h, inner.hi = some h → n * card.min ≤ h := by
    split
    · rename_i zero
      rw [zero]
      simp
    · rename_i nonzero
      constructor
      · intro all h same
        have bound := all (h / card.min) (by rw [same]; rfl)
        exact (Nat.le_div_iff_mul_le (Nat.pos_of_ne_zero nonzero)).mp bound
      · intro all h eq
        rw [Option.map_eq_some_iff] at eq
        obtain ⟨bound, same, rfl⟩ := eq
        exact (Nat.le_div_iff_mul_le (Nat.pos_of_ne_zero nonzero)).mpr (all bound same)
  unfold wrap
  dsimp only
  by_cases none_needed : inner.lo = 0
  · rw [if_pos none_needed]
    dsimp only
    rw [holds_between, upper]
    exact and_congr_left' ⟨fun _ some_needed => absurd none_needed some_needed,
      fun _ => Nat.zero_le n⟩
  · rw [if_neg none_needed]
    cases bounded : card.max with
    | none =>
      dsimp only
      rw [holds_between, upper]
      refine and_congr_left' ⟨fun low _ => ⟨fun m same => ?_, fun _ => low⟩,
        fun all => (all none_needed).2 rfl⟩
      cases same
    | some m =>
      cases m with
      | zero =>
        refine iff_of_false not_holds_none ?_
        rintro ⟨lower, -⟩
        have low := (lower none_needed).1 0 rfl
        rw [Nat.mul_zero] at low
        exact none_needed (Nat.le_zero.mp low)
      | succ m =>
        change Holds (between (divCeil inner.lo (m + 1))
          (if card.min = 0 then none else inner.hi.map (· / card.min))) n ↔ _
        rw [holds_between, upper, divCeil_le (Nat.succ_pos m)]
        refine and_congr_left' ⟨fun low _ => ⟨fun k same => ?_, fun same => ?_⟩,
          fun all => (all none_needed).1 _ rfl⟩
        · cases same
          exact low
        · cases same

theorem holds_wrap {inner : Iv} {card : Card} {n : Nat} (proper : inner.Ordered)
    (ordered : card.Ordered) :
    Holds (wrap inner card) n ↔
      ∃ terms, AllowsTotal card.min card.max n terms ∧ inner.Contains terms := by
  rw [holds_wrap_iff]
  constructor
  · rintro ⟨lower, upper⟩
    refine ⟨max (n * card.min) inner.lo, ⟨Nat.le_max_left _ _, ?_, ?_⟩, Nat.le_max_right _ _, ?_⟩
    · intro bound same
      apply Nat.max_le.mpr
      refine ⟨Nat.mul_le_mul_left n (ordered bound same), ?_⟩
      by_cases none_needed : inner.lo = 0
      · rw [none_needed]
        exact Nat.zero_le _
      · exact (lower none_needed).1 bound same
    · rintro rfl
      rw [Nat.zero_mul, Nat.zero_max]
      by_contra some_needed
      obtain ⟨bounded, unbounded⟩ := lower some_needed
      cases same : card.max with
      | none => exact absurd (unbounded same) (by decide)
      | some m =>
        have low := bounded m same
        rw [Nat.zero_mul] at low
        exact some_needed (Nat.le_zero.mp low)
    · intro h same
      exact Nat.max_le.mpr ⟨upper h same, proper h same⟩
  · rintro ⟨terms, ⟨low, high, none⟩, above, below⟩
    refine ⟨fun some_needed => ⟨fun m same => above.trans (high m same), fun _ => ?_⟩,
      fun h same => low.trans (below h same)⟩
    apply Nat.one_le_iff_ne_zero.mpr
    intro zero
    rw [none zero] at above
    exact some_needed (Nat.le_zero.mp above)

end Purrdf.Shex
