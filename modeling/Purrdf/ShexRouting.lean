import Purrdf.ShexGrammar

/-!
# The assignment search

Backtracking over the routes of every arc with an explicit work list. Undoing a choice restores the
counts it had changed, so a choice that fails leaves the search where it was.
-/

namespace Purrdf.Shex

/-- Candidate slots in deterministic order, and whether the arc may be diverted to `EXTRA`. -/
structure ArcOptions where
  candidates : List Nat
  extraAllowed : Bool
deriving DecidableEq, Repr

/-- Per-slot counts, and the slot each arc was routed to. -/
abbrev Assignment := List (Nat × Nat) × List (Option Nat)

inductive SearchError where
  | matcherWork (attempted maximum : Nat)
  | panicked
deriving DecidableEq, Repr

inductive Frame where
  | enter (index : Nat)
  | nextCandidate (index next : Nat)
deriving DecidableEq, Repr

/-- `counts[slot].0 += 1; counts[slot].1 += 1`. -/
def route (counts : List (Nat × Nat)) (slot : Nat) : Except SearchError (List (Nat × Nat)) :=
  match counts[slot]? with
  | none => .error .panicked
  | some (lo, hi) => .ok (counts.set slot (lo + 1, hi + 1))

/-- `counts[slot].0 -= 1; counts[slot].1 -= 1`. -/
def unroute (counts : List (Nat × Nat)) (slot : Nat) : Except SearchError (List (Nat × Nat)) :=
  match counts[slot]? with
  | some (lo + 1, hi + 1) => .ok (counts.set slot (lo, hi))
  | _ => .error .panicked

def undo (counts : List (Nat × Nat)) (assignment : List (Option Nat)) (index : Nat) :
    Except SearchError Assignment :=
  match assignment[index]? with
  | none => .error .panicked
  | some none => .ok (counts, assignment)
  | some (some slot) =>
    match unroute counts slot with
    | .error error => .error error
    | .ok counts => .ok (counts, assignment.set index none)

/-- How many turns a frame may still take without a charge. -/
def Frame.weight (arcs : List ArcOptions) : Frame → Nat
  | .enter _ => 1
  | .nextCandidate index next =>
    match arcs[index]? with
    | none => 2
    | some arc => 2 * (arc.candidates.length - next) + 2

theorem Frame.weight_pos (arcs : List ArcOptions) (frame : Frame) : 0 < frame.weight arcs := by
  unfold Frame.weight
  split
  · exact Nat.one_pos
  · split
    · exact Nat.two_pos
    · exact Nat.succ_pos _

def pendingWeight (arcs : List ArcOptions) (pending : List Frame) : Nat :=
  (pending.map (Frame.weight arcs)).sum

theorem pendingWeight_cons (arcs : List ArcOptions) (frame : Frame) (pending : List Frame) :
    pendingWeight arcs (frame :: pending) = frame.weight arcs + pendingWeight arcs pending := by
  unfold pendingWeight
  rw [List.map_cons, List.sum_cons]

theorem weight_choice {arcs : List ArcOptions} {arc : ArcOptions} {index next slot : Nat}
    {pending : List Frame} (here : arcs[index]? = some arc)
    (chosen : arc.candidates[next]? = some slot) :
    pendingWeight arcs (.enter (index + 1) :: .nextCandidate index (next + 1) :: pending)
      < pendingWeight arcs (.nextCandidate index next :: pending) := by
  obtain ⟨inside, -⟩ := List.getElem?_eq_some_iff.mp chosen
  rw [pendingWeight_cons, pendingWeight_cons, pendingWeight_cons]
  simp only [Frame.weight, here]
  omega

theorem weight_drop {arcs : List ArcOptions} {arc : ArcOptions} {index next : Nat}
    {pending : List Frame} (here : arcs[index]? = some arc) :
    pendingWeight arcs (.enter (index + 1) :: pending)
      < pendingWeight arcs (.nextCandidate index next :: pending) := by
  rw [pendingWeight_cons, pendingWeight_cons]
  simp only [Frame.weight, here]
  omega

variable {V : Type}

/-- The loop over the work list. A step is charged where a choice is entered, its terminal count
check included; resuming a choice and undoing it cost nothing. -/
def search (compiled : Compiled V) (arcs : List ArcOptions) (maximum : Nat) (pending : List Frame)
    (counts : List (Nat × Nat)) (assignment : List (Option Nat)) (budget : Nat) :
    Except SearchError (Bool × Assignment) :=
  match pending with
  | [] => .ok (false, counts, assignment)
  | .enter index :: pending =>
    match budget with
    | 0 => .error (.matcherWork (maximum + 1) maximum)
    | budget + 1 =>
      if index = arcs.length then
        match countsMatch compiled counts with
        | .error _ => .error .panicked
        | .ok true => .ok (true, counts, assignment)
        | .ok false => search compiled arcs maximum pending counts assignment budget
      else
        search compiled arcs maximum (.nextCandidate index 0 :: pending) counts assignment budget
  | .nextCandidate index next :: pending =>
    match undo counts assignment index with
    | .error error => .error error
    | .ok (counts, assignment) =>
      match _here : arcs[index]? with
      | none => .error .panicked
      | some arc =>
        match _chosen : arc.candidates[next]? with
        | some slot =>
          match route counts slot with
          | .error error => .error error
          | .ok counts =>
            search compiled arcs maximum
              (.enter (index + 1) :: .nextCandidate index (next + 1) :: pending) counts
              (assignment.set index (some slot)) budget
        | none =>
          -- `EXTRA` is the last alternative
          if arc.extraAllowed then
            search compiled arcs maximum (.enter (index + 1) :: pending) counts assignment budget
          else search compiled arcs maximum pending counts assignment budget
termination_by (budget, pendingWeight arcs pending)
decreasing_by
  · exact Prod.Lex.left _ _ (Nat.lt_succ_self _)
  · exact Prod.Lex.left _ _ (Nat.lt_succ_self _)
  · exact Prod.Lex.right _ (weight_choice _here _chosen)
  · exact Prod.Lex.right _ (weight_drop _here)
  · apply Prod.Lex.right
    rw [pendingWeight_cons]
    exact Nat.lt_add_of_pos_left (Frame.weight_pos arcs _)

section Turns

variable {compiled : Compiled V} {arcs : List ArcOptions} {maximum : Nat} {pending : List Frame}
  {counts undone routed : List (Nat × Nat)} {assignment cleared : List (Option Nat)}
  {arc : ArcOptions} {index next slot budget : Nat}

theorem search_done :
    search compiled arcs maximum [] counts assignment budget = .ok (false, counts, assignment) := by
  rw [search]

theorem search_enter (more : index ≠ arcs.length) :
    search compiled arcs maximum (.enter index :: pending) counts assignment (budget + 1)
      = search compiled arcs maximum (.nextCandidate index 0 :: pending) counts assignment
        budget := by
  rw [search]
  exact if_neg more

theorem search_enter_exhausted :
    search compiled arcs maximum (.enter index :: pending) counts assignment 0
      = .error (.matcherWork (maximum + 1) maximum) := by
  rw [search]

theorem search_enter_last {answer : Bool} (matched : countsMatch compiled counts = .ok answer) :
    search compiled arcs maximum (.enter arcs.length :: pending) counts assignment (budget + 1)
      = if answer then .ok (true, counts, assignment)
        else search compiled arcs maximum pending counts assignment budget := by
  rw [search, if_pos rfl, matched]
  cases answer <;> rfl

theorem search_choose (taken : undo counts assignment index = .ok (undone, cleared))
    (here : arcs[index]? = some arc) (candidate : arc.candidates[next]? = some slot)
    (counted : route undone slot = .ok routed) :
    search compiled arcs maximum (.nextCandidate index next :: pending) counts assignment budget
      = search compiled arcs maximum
          (.enter (index + 1) :: .nextCandidate index (next + 1) :: pending) routed
          (cleared.set index (some slot)) budget := by
  rw [search, taken]
  dsimp only
  split
  · rename_i missing
    rw [here] at missing
    cases missing
  · rename_i found here'
    rw [here] at here'
    cases here'
    split
    · rename_i found candidate'
      rw [candidate] at candidate'
      cases candidate'
      rw [counted]
    · rename_i missing
      rw [candidate] at missing
      cases missing

theorem search_last (taken : undo counts assignment index = .ok (undone, cleared))
    (here : arcs[index]? = some arc) (candidate : arc.candidates[next]? = none) :
    search compiled arcs maximum (.nextCandidate index next :: pending) counts assignment budget
      = if arc.extraAllowed then
          search compiled arcs maximum (.enter (index + 1) :: pending) undone cleared budget
        else search compiled arcs maximum pending undone cleared budget := by
  rw [search, taken]
  dsimp only
  split
  · rename_i missing
    rw [here] at missing
    cases missing
  · rename_i found here'
    rw [here] at here'
    cases here'
    split
    · rename_i found candidate'
      rw [candidate] at candidate'
      cases candidate'
    · rfl

end Turns

def assignmentSearch (compiled : Compiled V) (arcs : List ArcOptions) (maximum : Nat) :
    Except SearchError (Option Assignment) :=
  match search compiled arcs maximum [.enter 0] (List.replicate compiled.slots.length (0, 0))
      (List.replicate arcs.length none) maximum with
  | .error error => .error error
  | .ok (true, found) => .ok (some found)
  | .ok (false, _) => .ok none

end Purrdf.Shex

/-!
## What the search finds

A routing gives every arc one of its candidates, or `EXTRA` where that is allowed. The search from
an arc on goes through the routings of the remaining arcs and comes back to the counts it started
from.
-/

namespace Purrdf.Shex

/-! ### Routings -/

def ArcOptions.Takes (arc : ArcOptions) : Option Nat → Prop
  | some slot => slot ∈ arc.candidates
  | none => arc.extraAllowed = true

def Routes (arcs : List ArcOptions) (choices : List (Option Nat)) : Prop :=
  List.Forall₂ ArcOptions.Takes arcs choices

def chosen (choices : List (Option Nat)) : Multiset Nat :=
  (choices.filterMap id : List Nat)

theorem chosen_nil : chosen [] = 0 := rfl

theorem chosen_cons_some (slot : Nat) (choices : List (Option Nat)) :
    chosen (some slot :: choices) = slot ::ₘ chosen choices := rfl

theorem chosen_cons_none (choices : List (Option Nat)) : chosen (none :: choices) = chosen choices :=
  rfl

theorem chosen_none_add (bag : Multiset Nat) : chosen [none] + bag = bag := by
  rw [chosen_cons_none, chosen_nil, zero_add]

theorem chosen_some_add (slot : Nat) (bag : Multiset Nat) :
    chosen [some slot] + bag = slot ::ₘ bag := by
  rw [chosen_cons_some, chosen_nil, Multiset.cons_add, zero_add]

theorem chosen_card_le (choices : List (Option Nat)) : (chosen choices).card ≤ choices.length := by
  unfold chosen
  rw [Multiset.coe_card]
  exact List.length_filterMap_le id choices

def Within (arcs : List ArcOptions) (width : Nat) : Prop :=
  ∀ arc ∈ arcs, ∀ slot ∈ arc.candidates, slot < width

theorem Routes.inside {arcs : List ArcOptions} {choices : List (Option Nat)} {width : Nat}
    (routes : Routes arcs choices) (within : Within arcs width) :
    ∀ slot ∈ chosen choices, slot < width := by
  induction routes with
  | nil => exact fun slot member => absurd member (Multiset.notMem_zero slot)
  | @cons arc choice arcs choices takes routes ih =>
    have rest := ih fun other member => within other (List.mem_cons_of_mem _ member)
    cases choice with
    | none => exact rest
    | some first =>
      intro slot member
      rw [chosen_cons_some, Multiset.mem_cons] at member
      rcases member with rfl | member
      · exact within arc List.mem_cons_self slot takes
      · exact rest slot member

/-! ### The counts of a bag -/

def countsOf (width : Nat) (bag : Multiset Nat) : List (Nat × Nat) :=
  (List.range width).map fun i => (bag.count i, bag.count i)

theorem countsOf_get {width i : Nat} (bag : Multiset Nat) (inside : i < width) :
    (countsOf width bag)[i]? = some (bag.count i, bag.count i) := by
  unfold countsOf
  rw [List.getElem?_map, List.getElem?_range inside]
  rfl

theorem countsOf_zero (width : Nat) : countsOf width 0 = List.replicate width (0, 0) := by
  unfold countsOf
  rw [List.eq_replicate_iff]
  refine ⟨by rw [List.length_map, List.length_range], ?_⟩
  intro count member
  obtain ⟨i, -, rfl⟩ := List.mem_map.mp member
  rw [Multiset.count_zero]

theorem countsOf_counted {V : Type} (slots : List (Slot V)) (bag : Multiset Nat) :
    Counted slots (countsOf slots.length bag) bag :=
  fun _ inside => countsOf_get bag inside

theorem countsOf_set {width slot : Nat} (bag : Multiset Nat) (inside : slot < width) :
    (countsOf width bag).set slot (bag.count slot + 1, bag.count slot + 1)
      = countsOf width (slot ::ₘ bag) := by
  have length_eq : ∀ other : Multiset Nat, (countsOf width other).length = width := by
    intro other
    unfold countsOf
    rw [List.length_map, List.length_range]
  apply List.ext_getElem?
  intro i
  by_cases i_lt : i < width
  · rw [countsOf_get _ i_lt, List.getElem?_set, length_eq]
    by_cases same : slot = i
    · subst same
      rw [if_pos rfl, if_pos inside, Multiset.count_cons_self]
    · rw [if_neg same, countsOf_get _ i_lt, Multiset.count_cons_of_ne (Ne.symm same)]
  · rw [List.getElem?_eq_none, List.getElem?_eq_none]
    · rw [length_eq]
      exact Nat.le_of_not_lt i_lt
    · rw [List.length_set, length_eq]
      exact Nat.le_of_not_lt i_lt

theorem route_countsOf {width slot : Nat} (bag : Multiset Nat) (inside : slot < width) :
    route (countsOf width bag) slot = .ok (countsOf width (slot ::ₘ bag)) := by
  unfold route
  rw [countsOf_get bag inside]
  dsimp only
  rw [countsOf_set bag inside]

theorem unroute_countsOf {width slot : Nat} (bag : Multiset Nat) (inside : slot < width) :
    unroute (countsOf width (slot ::ₘ bag)) slot = .ok (countsOf width bag) := by
  unfold unroute
  rw [countsOf_get _ inside, Multiset.count_cons_self]
  dsimp only
  have back : (countsOf width (slot ::ₘ bag)).set slot (bag.count slot, bag.count slot)
      = countsOf width bag := by
    rw [← countsOf_set bag inside, List.set_set]
    obtain ⟨in_range, same⟩ := List.getElem?_eq_some_iff.mp (countsOf_get bag inside)
    rw [← same]
    exact List.set_getElem_self in_range
  rw [back]

/-! ### Exploring the routings -/

def cost : List ArcOptions → Nat
  | [] => 1
  | arc :: rest => 1 + (arc.candidates.length + if arc.extraAllowed then 1 else 0) * cost rest

section Exploration

variable {V : Type} (compiled : Compiled V) (arcs : List ArcOptions) (maximum : Nat)

def searchAt (pending : List Frame) (bag : Multiset Nat) (assignment : List (Option Nat))
    (budget : Nat) : Except SearchError (Bool × Assignment) :=
  search compiled arcs maximum pending (countsOf compiled.slots.length bag) assignment budget

/-- How a run goes through the choices that fit: it stops at one whose bag is derived, or goes on
at the same counts with what is left of the budget, or runs out of it. -/
inductive Explored (fits : List (Option Nat) → Prop) (bag : Multiset Nat)
    (before : List (Option Nat)) (budget states : Nat)
    (resume : Nat → Except SearchError (Bool × Assignment))
    (result : Except SearchError (Bool × Assignment)) : Prop
  | found (choices : List (Option Nat)) (fit : fits choices)
      (derives : compiled.Derives (chosen choices + bag))
      (same : result =
        .ok (true, countsOf compiled.slots.length (chosen choices + bag), before ++ choices))
  | failed (left : Nat) (enough : budget ≤ left + states)
      (never : ∀ choices, fits choices → ¬ compiled.Derives (chosen choices + bag))
      (same : result = resume left)
  | exhausted (short : budget < states) (same : result = .error (.matcherWork (maximum + 1) maximum))

end Exploration

namespace Explored

variable {V : Type} {compiled : Compiled V} {maximum : Nat} {fits other : List (Option Nat) → Prop}
  {bag : Multiset Nat} {before : List (Option Nat)} {budget states more : Nat}
  {resume last : Nat → Except SearchError (Bool × Assignment)}
  {result : Except SearchError (Bool × Assignment)}

theorem congr (explored : Explored compiled maximum fits bag before budget states resume result)
    (same_fits : ∀ choices, fits choices ↔ other choices) :
    Explored compiled maximum other bag before budget states resume result := by
  cases explored with
  | found choices fit derives same => exact .found choices ((same_fits choices).mp fit) derives same
  | failed left enough never same =>
    exact .failed left enough (fun choices fit => never choices ((same_fits choices).mpr fit)) same
  | exhausted short same => exact .exhausted short same

theorem charge (explored : Explored compiled maximum fits bag before budget states resume result) :
    Explored compiled maximum fits bag before (budget + 1) (1 + states) resume result := by
  cases explored with
  | found choices fit derives same => exact .found choices fit derives same
  | failed left enough never same =>
    exact .failed left (by rw [Nat.add_comm 1, ← Nat.add_assoc]; exact Nat.succ_le_succ enough)
      never same
  | exhausted short same =>
    exact .exhausted (by rw [Nat.add_comm 1]; exact Nat.succ_lt_succ short) same

theorem andThen (explored : Explored compiled maximum fits bag before budget states resume result)
    (next : ∀ left, Explored compiled maximum other bag before left more last (resume left)) :
    Explored compiled maximum (fun choices => fits choices ∨ other choices) bag before budget
      (states + more) last result := by
  cases explored with
  | found choices fit derives same => exact .found choices (Or.inl fit) derives same
  | exhausted short same => exact .exhausted (Nat.lt_add_right more short) same
  | failed left enough never same =>
    cases next left with
    | found choices fit derives resumed =>
      exact .found choices (Or.inr fit) derives (same.trans resumed)
    | exhausted short resumed =>
      refine .exhausted ?_ (same.trans resumed)
      exact lt_of_le_of_lt enough (by rw [Nat.add_comm]; exact Nat.add_lt_add_left short states)
    | failed rest rest_enough rest_never resumed =>
      refine .failed rest ?_ ?_ (same.trans resumed)
      · apply enough.trans
        rw [Nat.add_comm states, ← Nat.add_assoc]
        exact Nat.add_le_add_right rest_enough states
      · rintro choices (fit | fit)
        · exact never choices fit
        · exact rest_never choices fit

theorem push {choice : Option Nat}
    (explored : Explored compiled maximum fits (chosen [choice] + bag) (before ++ [choice]) budget
      states resume result) :
    Explored compiled maximum (fun choices => ∃ rest, choices = choice :: rest ∧ fits rest) bag
      before budget states resume result := by
  have moved : ∀ rest, chosen (choice :: rest) + bag = chosen rest + (chosen [choice] + bag) := by
    intro rest
    have split_off : chosen (choice :: rest) = chosen [choice] + chosen rest := by
      cases choice with
      | none => rw [chosen_cons_none, chosen_cons_none, chosen_nil, zero_add]
      | some slot =>
        rw [chosen_cons_some, chosen_cons_some, chosen_nil, Multiset.cons_zero,
          Multiset.singleton_add]
    rw [split_off, add_comm (chosen [choice]), add_assoc]
  cases explored with
  | found rest fit derives same =>
    refine .found (choice :: rest) ⟨rest, rfl, fit⟩ ?_ ?_
    · rw [moved]
      exact derives
    · rw [moved, same, List.append_assoc]
      rfl
  | failed left enough never same =>
    refine .failed left enough ?_ same
    rintro _ ⟨rest, rfl, fit⟩
    rw [moved]
    exact never rest fit
  | exhausted short same => exact .exhausted short same

end Explored

section Exploration

variable {V : Type} {compiled : Compiled V} {arcs : List ArcOptions} {maximum : Nat}

theorem undo_choice {width : Nat} {last : Option Nat} (bag : Multiset Nat)
    (before after : List (Option Nat)) (inside : ∀ slot, last = some slot → slot < width) :
    undo (countsOf width (chosen [last] + bag)) (before ++ last :: after) before.length
      = .ok (countsOf width bag, before ++ none :: after) := by
  have here : (before ++ last :: after)[before.length]? = some last := by
    rw [List.getElem?_append_right le_rfl, Nat.sub_self]
    rfl
  unfold undo
  rw [here]
  cases last with
  | none =>
    rw [chosen_none_add]
  | some slot =>
    dsimp only
    rw [chosen_some_add, unroute_countsOf bag (inside slot rfl)]
    dsimp only
    rw [List.set_append_right _ _ le_rfl, Nat.sub_self]
    rfl

/-- The remaining candidates of an arc, and then `EXTRA`. -/
theorem explore_candidates {arc : ArcOptions} {rest : List ArcOptions}
    {before : List (Option Nat)} {bag : Multiset Nat} (pending : List Frame)
    (here : arcs[before.length]? = some arc)
    (within : ∀ slot ∈ arc.candidates, slot < compiled.slots.length)
    (explore_rest : ∀ (choice : Option Nat) pending budget, arc.Takes choice →
      Explored compiled maximum (Routes rest) (chosen [choice] + bag) (before ++ [choice]) budget
        (cost rest)
        (fun left => search compiled arcs maximum pending
          (countsOf compiled.slots.length (chosen [choice] + bag))
          ((before ++ [choice]) ++ List.replicate rest.length none) left)
        (search compiled arcs maximum (.enter (before.length + 1) :: pending)
          (countsOf compiled.slots.length (chosen [choice] + bag))
          ((before ++ [choice]) ++ List.replicate rest.length none) budget)) :
    ∀ (tail : List Nat) (next : Nat), arc.candidates.drop next = tail →
      ∀ (last : Option Nat) (budget : Nat),
        (∀ slot, last = some slot → slot < compiled.slots.length) →
        Explored compiled maximum
          (fun choices => (∃ slot ∈ tail, ∃ others, choices = some slot :: others ∧
              Routes rest others) ∨
            (arc.extraAllowed = true ∧ ∃ others, choices = none :: others ∧ Routes rest others))
          bag before budget
          ((tail.length + if arc.extraAllowed then 1 else 0) * cost rest)
          (fun left => search compiled arcs maximum pending (countsOf compiled.slots.length bag)
            (before ++ none :: List.replicate rest.length none) left)
          (search compiled arcs maximum (.nextCandidate before.length next :: pending)
            (countsOf compiled.slots.length (chosen [last] + bag))
            (before ++ last :: List.replicate rest.length none) budget) := by
  intro tail
  induction tail with
  | nil =>
    intro next tail_eq last budget inside
    have none_left : arc.candidates[next]? = none :=
      List.getElem?_eq_none (List.drop_eq_nil_iff.mp tail_eq)
    rw [search_last (undo_choice bag before _ inside) here none_left]
    cases allowed : arc.extraAllowed with
    | false =>
      refine .failed budget (Nat.le_add_right _ _) ?_ rfl
      rintro choices (⟨slot, member, -⟩ | ⟨extra, -⟩)
      · exact absurd member List.not_mem_nil
      · cases extra
    | true =>
      have explored := (explore_rest none pending budget allowed).push
      rw [chosen_none_add, List.append_assoc] at explored
      rw [if_pos rfl, if_pos rfl, List.length_nil, Nat.zero_add, Nat.one_mul]
      apply explored.congr
      intro choices
      constructor
      · exact fun fit => Or.inr ⟨rfl, fit⟩
      · rintro (⟨slot, member, -⟩ | ⟨-, fit⟩)
        · exact absurd member List.not_mem_nil
        · exact fit
  | cons slot tail ih =>
    intro next tail_eq last budget inside
    have candidate : arc.candidates[next]? = some slot := by
      rw [← List.head?_drop, tail_eq]
      rfl
    have after : arc.candidates.drop (next + 1) = tail := by
      rw [← List.drop_drop, tail_eq]
      rfl
    have member : slot ∈ arc.candidates := List.mem_of_getElem? candidate
    have placed : (before ++ none :: List.replicate rest.length none).set before.length (some slot)
        = (before ++ [some slot]) ++ List.replicate rest.length none := by
      rw [List.set_append_right _ _ le_rfl, Nat.sub_self, List.append_assoc]
      rfl
    rw [search_choose (undo_choice bag before _ inside) here candidate
      (route_countsOf bag (within slot member)), placed, ← chosen_some_add]
    have first := (explore_rest (some slot) (.nextCandidate before.length (next + 1) :: pending)
      budget member).push
    have resumed := fun left => ih (next + 1) after (some slot) left (by
      rintro _ ⟨⟩
      exact within slot member)
    rw [List.append_assoc] at first
    have both := first.andThen resumed
    have states_eq : ((slot :: tail).length + if arc.extraAllowed then 1 else 0) * cost rest
        = cost rest + (tail.length + if arc.extraAllowed then 1 else 0) * cost rest := by
      rw [List.length_cons, Nat.add_right_comm, Nat.succ_mul, Nat.add_comm]
    rw [states_eq, List.append_assoc]
    apply both.congr
    intro choices
    constructor
    · rintro (⟨others, same, fit⟩ | ⟨later, member, fit⟩ | extra)
      · exact Or.inl ⟨slot, List.mem_cons_self, others, same, fit⟩
      · exact Or.inl ⟨later, List.mem_cons_of_mem _ member, fit⟩
      · exact Or.inr extra
    · rintro (⟨later, member, others, same, fit⟩ | extra)
      · rcases List.mem_cons.mp member with rfl | member
        · exact Or.inl ⟨others, same, fit⟩
        · exact Or.inr (Or.inl ⟨later, member, others, same, fit⟩)
      · exact Or.inr (Or.inr extra)

/-- The bag of a prefix of the choices stays small and inside the table. -/
structure Held (compiled : Compiled V) (before : List (Option Nat)) (bag : Multiset Nat) : Prop where
  few : bag.card ≤ before.length
  inside : ∀ slot ∈ bag, slot < compiled.slots.length

theorem Held.push {before : List (Option Nat)} {bag : Multiset Nat} {choice : Option Nat}
    (held : Held compiled before bag)
    (inside : ∀ slot, choice = some slot → slot < compiled.slots.length) :
    Held compiled (before ++ [choice]) (chosen [choice] + bag) := by
  obtain ⟨few, all_inside⟩ := held
  cases choice with
  | none =>
    rw [chosen_none_add]
    exact ⟨few.trans (by rw [List.length_append]; exact Nat.le_add_right _ _), all_inside⟩
  | some slot =>
    rw [chosen_some_add]
    refine ⟨?_, ?_⟩
    · rw [Multiset.card_cons, List.length_append]
      exact Nat.succ_le_succ few
    · intro other member
      rcases Multiset.mem_cons.mp member with rfl | member
      · exact inside other rfl
      · exact all_inside other member

theorem explore (maximum : Nat) (proper : compiled.Proper) (within : Within arcs compiled.slots.length)
    (addressable : arcs.length ≤ u64Max) :
    ∀ (rest : List ArcOptions) (before : List (Option Nat)) (bag : Multiset Nat)
      (pending : List Frame) (budget : Nat), arcs.drop before.length = rest →
      before.length + rest.length = arcs.length → Held compiled before bag →
      Explored compiled maximum (Routes rest) bag before budget (cost rest)
        (fun left => search compiled arcs maximum pending (countsOf compiled.slots.length bag)
          (before ++ List.replicate rest.length none) left)
        (search compiled arcs maximum (.enter before.length :: pending)
          (countsOf compiled.slots.length bag) (before ++ List.replicate rest.length none)
          budget) := by
  intro rest
  induction rest with
  | nil =>
    intro before bag pending budget rest_eq whole held
    rw [List.length_nil, Nat.add_zero] at whole
    cases budget with
    | zero => exact .exhausted Nat.one_pos search_enter_exhausted
    | succ budget =>
      obtain ⟨answer, matched, decides⟩ := countsMatch_decides proper
        (countsOf_counted compiled.slots bag) (held.few.trans (whole.trans_le addressable))
        held.inside
      rw [whole, search_enter_last matched]
      cases answer with
      | true =>
        refine .found [] List.Forall₂.nil ?_ ?_
        · rw [chosen_nil, zero_add]
          exact decides.mp rfl
        · rw [chosen_nil, zero_add]
          rfl
      | false =>
        refine .failed budget le_rfl ?_ rfl
        intro choices fit
        cases fit
        rw [chosen_nil, zero_add, ← decides]
        exact Bool.false_ne_true
  | cons arc rest ih =>
    intro before bag pending budget rest_eq whole held
    have here : arcs[before.length]? = some arc := by
      rw [← List.head?_drop, rest_eq]
      rfl
    have after : arcs.drop (before.length + 1) = rest := by
      rw [← List.drop_drop, rest_eq]
      rfl
    have candidates : ∀ slot ∈ arc.candidates, slot < compiled.slots.length :=
      within arc (List.mem_of_getElem? here)
    have explore_rest : ∀ (choice : Option Nat) pending budget, arc.Takes choice →
        Explored compiled maximum (Routes rest) (chosen [choice] + bag) (before ++ [choice]) budget
          (cost rest)
          (fun left => search compiled arcs maximum pending
            (countsOf compiled.slots.length (chosen [choice] + bag))
            ((before ++ [choice]) ++ List.replicate rest.length none) left)
          (search compiled arcs maximum (.enter (before.length + 1) :: pending)
            (countsOf compiled.slots.length (chosen [choice] + bag))
            ((before ++ [choice]) ++ List.replicate rest.length none) budget) := by
      intro choice pending budget takes
      have longer : (before ++ [choice]).length = before.length + 1 := List.length_append
      have next := ih (before ++ [choice]) (chosen [choice] + bag) pending budget
        (by rw [longer, after]) (by rw [longer, ← whole, List.length_cons, Nat.add_right_comm]; rfl)
        (held.push (by rintro slot rfl; exact candidates slot takes))
      rw [longer] at next
      exact next
    cases budget with
    | zero =>
      refine .exhausted ?_ search_enter_exhausted
      unfold cost
      exact Nat.lt_of_lt_of_le Nat.one_pos (Nat.le_add_right _ _)
    | succ budget =>
      have more : before.length ≠ arcs.length := by
        rw [← whole, List.length_cons]
        exact (Nat.lt_add_of_pos_right (Nat.succ_pos _)).ne
      rw [search_enter more]
      have explored := explore_candidates pending here candidates explore_rest arc.candidates 0
        List.drop_zero none budget (by rintro slot ⟨⟩)
      rw [chosen_none_add] at explored
      apply explored.charge.congr
      intro choices
      constructor
      · rintro (⟨slot, member, others, rfl, fit⟩ | ⟨extra, others, rfl, fit⟩)
        · exact List.Forall₂.cons member fit
        · exact List.Forall₂.cons extra fit
      · rintro (_ | ⟨takes, fit⟩)
        rename_i choice others
        cases choice with
        | some slot => exact Or.inl ⟨slot, takes, others, rfl, fit⟩
        | none => exact Or.inr ⟨takes, others, rfl, fit⟩

end Exploration

section Decision

variable {V : Type} {compiled : Compiled V} {arcs : List ArcOptions}

def Answers (compiled : Compiled V) (arcs : List ArcOptions) : Option Assignment → Prop
  | some (counts, assignment) =>
    Routes arcs assignment ∧ compiled.Derives (chosen assignment) ∧
      counts = countsOf compiled.slots.length (chosen assignment)
  | none => ∀ choices, Routes arcs choices → ¬ compiled.Derives (chosen choices)

/-- An answer is right, and a budget of one state for every partial routing is enough for one. -/
theorem assignmentSearch_spec (proper : compiled.Proper)
    (within : Within arcs compiled.slots.length) (addressable : arcs.length ≤ u64Max)
    (maximum : Nat) :
    (∃ answer, assignmentSearch compiled arcs maximum = .ok answer ∧ Answers compiled arcs answer) ∨
      (assignmentSearch compiled arcs maximum = .error (.matcherWork (maximum + 1) maximum) ∧
        maximum < cost arcs) := by
  have empty : Held compiled [] 0 :=
    ⟨le_rfl, fun slot member => absurd member (Multiset.notMem_zero slot)⟩
  have explored := explore maximum proper within addressable arcs [] 0 [] maximum rfl
    (Nat.zero_add _) empty
  rw [countsOf_zero, List.nil_append, List.length_nil] at explored
  unfold assignmentSearch
  cases explored with
  | found choices fit derives same =>
    left
    rw [add_zero] at derives same
    refine ⟨some (countsOf compiled.slots.length (chosen choices), choices), ?_, fit, derives, rfl⟩
    rw [same]
    rfl
  | failed left_over enough never same =>
    left
    refine ⟨none, ?_, fun choices fit => ?_⟩
    · rw [same, search_done]
    · have not_derived := never choices fit
      rwa [add_zero] at not_derived
  | exhausted short same =>
    right
    refine ⟨?_, short⟩
    rw [same]

end Decision

end Purrdf.Shex
