import Purrdf.PathClosure
import Purrdf.PathPowers
import Mathlib.Tactic.Ring

/-!
# Ranges

A range goes to its lowest level by single steps or by powers, then unites levels: up to its
bound, down to the first level that adds nothing, or, without a bound, by the closure of the
lowest level.
-/

namespace Purrdf.Path

open Frames Relation RelationPowers

variable {I E : Type} [LinearOrder I] [RowEvidence E] [DecidableEq E]

/-! ### Accumulation -/

theorem gather_spec (frame : RangeFrame I E) :
    (∀ y, y ∈ frame.gather.1 ↔ y ∈ frame.out ∨ y ∈ frame.current) ∧
      (frame.gather.2 = false → ∀ y ∈ frame.current, y ∈ frame.out) := by
  have fold : ∀ (targets : List I) (out : PathSet I E) (grew : Bool),
      let gathered := targets.foldl
        (fun gathered target =>
          let inserted := gathered.1.insertEvidence target (frame.current.evidenceOf target)
          (inserted.1, gathered.2 || inserted.2)) (out, grew)
      (∀ y, y ∈ gathered.1 ↔ y ∈ out ∨ y ∈ targets) ∧
        (gathered.2 = false → grew = false ∧ ∀ y ∈ targets, y ∈ out) := by
    intro targets
    induction targets with
    | nil => simp
    | cons target rest ih =>
      intro out grew
      obtain ⟨members, settled⟩ := ih (out.insertEvidence target (frame.current.evidenceOf target)).1
        (grew || (out.insertEvidence target (frame.current.evidenceOf target)).2)
      refine ⟨?_, ?_⟩
      · intro y
        rw [List.foldl_cons, members y, PathSet.mem_insertEvidence, List.mem_cons]
        tauto
      · intro same
        obtain ⟨unchanged, inside⟩ := settled same
        obtain ⟨grew, unchanged⟩ := Bool.or_eq_false_iff.mp unchanged
        have old := PathSet.mem_of_insertEvidence unchanged
        refine ⟨grew, ?_⟩
        intro y among
        rcases List.mem_cons.mp among with rfl | later
        · exact old
        · rcases PathSet.mem_insertEvidence.mp (inside y later) with rfl | known
          · exact old
          · exact known
  obtain ⟨members, settled⟩ := fold frame.current.values frame.out false
  exact ⟨members, fun same => (settled same).2⟩

section
variable {ctx : PathCtx I E} {inner : Nat} {node : I} {forward : Bool} {min : Nat}
  {max : Option Nat} {start state : PathState I E} {level : Nat} {current out : PathSet I E}

def Ranged (ctx : PathCtx I E) (inner : Nat) (node : I) (forward : Bool) (min : Nat)
    (max : Option Nat) (y : I) : Prop :=
  ∃ k, InWindow min max k ∧ Power (directed forward (ctx.relation inner)) k node y

def Level (ctx : PathCtx I E) (inner : Nat) (node : I) (forward : Bool) (level : Nat)
    (state : PathState I E) (current : PathSet I E) : Prop :=
  Exact state (Power (directed forward (ctx.relation inner)) level node) current

/-- The set unites the levels from `min` on that are below `level`. -/
def Gathered (ctx : PathCtx I E) (inner : Nat) (node : I) (forward : Bool) (min level : Nat)
    (state : PathState I E) (out : PathSet I E) : Prop :=
  Exact state (fun y => ∃ j, min ≤ j ∧ j < level ∧
    Power (directed forward (ctx.relation inner)) j node y) out

omit [RowEvidence E] [DecidableEq E] in
theorem Level.next {steps : Nat} {next : PathSet I E}
    (found : Level ctx inner node forward level state current)
    (image : Exact state (fun y => ∃ mid ∈ current,
      Power (directed forward (ctx.relation inner)) steps mid y) next) :
    Level ctx inner node forward (level + steps) state next := by
  refine ⟨?_, ?_⟩
  · intro y member
    obtain ⟨mid, among, step⟩ := image.sound y member
    exact power_add.mpr ⟨mid, found.sound mid among, step⟩
  · intro runs y steps
    obtain ⟨mid, first, second⟩ := power_add.mp steps
    exact image.complete runs y ⟨mid, found.complete runs mid first, second⟩

omit [RowEvidence E] [DecidableEq E] in
theorem Level.died (found : Level ctx inner node forward level state current)
    (dead : current.values.isEmpty = true) (below : level ≤ min) :
    Exact state (Ranged ctx inner node forward min max) (∅ : PathSet I E) := by
  refine ⟨fun y member => (PathSet.notMem_empty member).elim, ?_⟩
  rintro runs y ⟨k, window, steps⟩
  have order := below.trans window.1
  obtain ⟨rest, rfl⟩ := Nat.exists_eq_add_of_le order
  obtain ⟨mid, first, _⟩ := power_add.mp steps
  have member := found.complete runs mid first
  rw [← PathSet.mem_values, List.isEmpty_iff.mp dead] at member
  cases member

omit [RowEvidence E] [DecidableEq E] in
theorem exact_died (stop : state.tripped = true) :
    Exact state (Ranged ctx inner node forward min max) (∅ : PathSet I E) :=
  .of_tripped stop fun _ member => (PathSet.notMem_empty member).elim

omit [RowEvidence E] [DecidableEq E] in
theorem Gathered.add {out' : PathSet I E}
    (gathered : Gathered ctx inner node forward min level state out)
    (found : Level ctx inner node forward level state current) (above : min ≤ level)
    (members : ∀ y, y ∈ out' ↔ y ∈ out ∨ y ∈ current) :
    Gathered ctx inner node forward min (level + 1) state out' := by
  refine ⟨?_, ?_⟩
  · intro y member
    rcases (members y).mp member with old | new
    · obtain ⟨j, low, high, steps⟩ := gathered.sound y old
      exact ⟨j, low, Nat.lt_succ_of_lt high, steps⟩
    · exact ⟨level, above, Nat.lt_succ_self level, found.sound y new⟩
  · rintro runs y ⟨j, low, high, steps⟩
    apply (members y).mpr
    rcases Nat.lt_succ_iff_lt_or_eq.mp high with earlier | rfl
    · exact .inl (gathered.complete runs y ⟨j, low, earlier, steps⟩)
    · exact .inr (found.complete runs y steps)

omit [RowEvidence E] [DecidableEq E] in
theorem Gathered.closed {bound : Nat}
    (gathered : Gathered ctx inner node forward min (level + 1) state out)
    (excess : bound ≤ level) (inside : level ≤ bound) :
    Exact state (Ranged ctx inner node forward min (some bound)) out := by
  refine ⟨?_, ?_⟩
  · intro y member
    obtain ⟨j, low, high, steps⟩ := gathered.sound y member
    exact ⟨j, inWindow_some.mpr ⟨low, by omega⟩, steps⟩
  · rintro runs y ⟨k, window, steps⟩
    obtain ⟨low, high⟩ := inWindow_some.mp window
    exact gathered.complete runs y ⟨k, low, by omega, steps⟩

omit [RowEvidence E] [DecidableEq E] in
theorem Gathered.settled {bound : Nat}
    (gathered : Gathered ctx inner node forward min level state out)
    (found : Level ctx inner node forward level state current) (inside : level ≤ bound)
    (nothing : ∀ y ∈ current, y ∈ out) {out' : PathSet I E}
    (members : ∀ y, y ∈ out' ↔ y ∈ out ∨ y ∈ current) :
    Exact state (Ranged ctx inner node forward min (some bound)) out' := by
  have same : ∀ y, y ∈ out' ↔ y ∈ out := by
    intro y
    rw [members y]
    exact or_iff_left_of_imp (nothing y)
  refine ⟨?_, ?_⟩
  · intro y member
    obtain ⟨j, low, high, steps⟩ := gathered.sound y ((same y).mp member)
    exact ⟨j, inWindow_some.mpr ⟨low, by omega⟩, steps⟩
  · rintro runs y ⟨k, window, steps⟩
    apply (same y).mpr
    apply gathered.complete runs
    have settled : ∀ y, Power (directed forward (ctx.relation inner)) level node y →
        ∃ j, min ≤ j ∧ j < level ∧ Power (directed forward (ctx.relation inner)) j node y :=
      fun y steps => gathered.sound y (nothing y (found.complete runs y steps))
    rcases Nat.lt_or_ge k level with earlier | later
    · exact ⟨k, window.1, earlier, steps⟩
    · exact power_settled settled later steps

theorem Gathered.tail {set : PathSet I E}
    (gathered : Gathered ctx inner node forward min (level + 1) state out)
    (found : Level ctx inner node forward level state current) (above : min ≤ level)
    (closed : Exact state (Closed ctx inner current forward) set) :
    Exact state (Ranged ctx inner node forward min none) (out.extendWitnesses set) := by
  refine ⟨?_, ?_⟩
  · intro y member
    rcases PathSet.mem_extendWitnesses.mp member with old | new
    · obtain ⟨j, low, _, steps⟩ := gathered.sound y old
      exact ⟨j, inWindow_none.mpr low, steps⟩
    · obtain ⟨seed, among, steps⟩ := closed.sound y new
      obtain ⟨k, order, steps⟩ := power_from.mpr ⟨seed, found.sound seed among, .inr steps⟩
      exact ⟨k, inWindow_none.mpr (above.trans order), steps⟩
  · rintro runs y ⟨k, window, steps⟩
    apply PathSet.mem_extendWitnesses.mpr
    rcases Nat.lt_or_ge k (level + 1) with earlier | later
    · exact .inl (gathered.complete runs y ⟨k, window.1, earlier, steps⟩)
    · obtain ⟨mid, first, rest⟩ := power_from.mp ⟨k, Nat.le_of_succ_le later, steps⟩
      rcases rest with rfl | rest
      · exact .inl (gathered.complete runs mid ⟨level, above, Nat.lt_succ_self level, first⟩)
      · exact .inr (closed.complete runs y ⟨mid, found.complete runs mid first, rest⟩)

variable [WellFoundedGT E]

def SettlesRange (ctx : PathCtx I E) (start : PathState I E) (inner : Nat) (node : I)
    (forward : Bool) (min : Nat) (max : Option Nat) : Value I E → PathState I E → Prop :=
  Settles ctx start .built (Ranged ctx inner node forward min max)

variable {left remaining bit : Nat} {powers : Option PowerMemoOwner} {phase : RangePhase}

theorem accumulate_open (reaches : Reaches ctx inner) (since : Since ctx start state)
    (above : min ≤ level) (found : Level ctx inner node forward level state current)
    (gathered : Gathered ctx inner node forward min level state out) :
    (machine ctx).Continues
      (RangeFrame.accumulate ⟨inner, node, forward, min, none, current, out, left, remaining, bit,
        level, powers, phase⟩ state)
      (SettlesRange ctx start inner node forward min none) := by
  obtain ⟨members, _⟩ := gather_spec ⟨inner, node, forward, min, none, current, out, left,
    remaining, bit, level, powers, phase⟩
  have next := gathered.add found above members
  unfold RangeFrame.accumulate
  dsimp only
  apply (yields_closure reaches since.memos).mono
  rintro value later ⟨since', set, rfl, closed⟩
  apply Machine.Yields.of_step
  apply continues_returns
  exact ⟨since.trans since', _, rfl,
    Gathered.tail (next.later since'.stays) (found.later since'.stays) above closed⟩

omit [WellFoundedGT E] in
theorem accumulate_bounded (reaches : Reaches ctx inner) {bound : Nat}
    (since : Since ctx start state) (above : min ≤ level) (below : level ≤ bound)
    (found : Level ctx inner node forward level state current)
    (gathered : Gathered ctx inner node forward min level state out) :
    (machine ctx).Continues
      (RangeFrame.accumulate ⟨inner, node, forward, min, some bound, current, out, left, remaining,
        bit, level, powers, phase⟩ state)
      (SettlesRange ctx start inner node forward min (some bound)) := by
  induction span : bound - level generalizing current out level phase state with
  | zero =>
    obtain ⟨members, _⟩ := gather_spec ⟨inner, node, forward, min, some bound, current, out, left,
      remaining, bit, level, powers, phase⟩
    unfold RangeFrame.accumulate
    dsimp only
    rw [if_pos (by omega)]
    apply continues_returns
    exact ⟨since, _, rfl, (gathered.add found above members).closed (by omega) below⟩
  | succ more ih =>
    obtain ⟨members, settled⟩ := gather_spec ⟨inner, node, forward, min, some bound, current, out,
      left, remaining, bit, level, powers, phase⟩
    have next := gathered.add found above members
    unfold RangeFrame.accumulate
    dsimp only
    rw [if_neg (by omega)]
    split
    · apply (yields_stepLevel reaches current forward since.memos).mono
      rintro value later ⟨since', ⟨rfl, stop⟩ | ⟨level', rfl, image⟩⟩
      · apply Machine.Yields.of_step
        apply continues_returns
        refine ⟨since.trans since', _, rfl, .of_tripped stop ?_⟩
        intro y member
        obtain ⟨j, low, high, steps⟩ := next.sound y member
        exact ⟨j, inWindow_some.mpr ⟨low, by omega⟩, steps⟩
      · have image' : Exact later (fun y => ∃ mid ∈ current,
            Power (directed forward (ctx.relation inner)) 1 mid y) level' :=
          image.of_iff fun y => by simp only [power_one]
        have below' : level + 1 ≤ bound := by omega
        have fewer : bound - (level + 1) = more := by omega
        apply Machine.Yields.of_step
        exact ih (since.trans since') (Nat.le_succ_of_le above) below'
          (Level.next (found.later since'.stays) image') (next.later since'.stays) fewer
    · rename_i same
      apply continues_returns
      exact ⟨since, _, rfl,
        gathered.settled found below (settled (Bool.eq_false_of_not_eq_true same)) members⟩

theorem accumulate_range (reaches : Reaches ctx inner) (since : Since ctx start state)
    (inside : ∀ bound, max = some bound → min ≤ bound)
    (found : Level ctx inner node forward min state current) :
    (machine ctx).Continues
      (RangeFrame.accumulate ⟨inner, node, forward, min, max, current, ∅, left, remaining, bit,
        min, powers, phase⟩ state)
      (SettlesRange ctx start inner node forward min max) := by
  have nothing : Gathered ctx inner node forward min min state (∅ : PathSet I E) := by
    refine ⟨fun y member => (PathSet.notMem_empty member).elim, ?_⟩
    rintro _ y ⟨j, low, high, _⟩
    omega
  cases max with
  | none => exact accumulate_open reaches since le_rfl found nothing
  | some bound => exact accumulate_bounded reaches since le_rfl (inside bound rfl) found nothing

theorem linear_range (reaches : Reaches ctx inner) (since : Since ctx start state)
    (inside : ∀ bound, max = some bound → min ≤ bound) (rest : left ≤ min)
    (found : Level ctx inner node forward (min - left) state current) :
    (machine ctx).Continues
      (RangeFrame.drive ⟨inner, node, forward, min, max, current, ∅, left, remaining, bit, level,
        powers, .linear⟩ state)
      (SettlesRange ctx start inner node forward min max) := by
  induction left generalizing current state with
  | zero => exact accumulate_range reaches since inside found
  | succ left ih =>
    apply (yields_stepLevel reaches current forward since.memos).mono
    rintro value later ⟨since', ⟨rfl, stop⟩ | ⟨next, rfl, image⟩⟩
    · apply Machine.Yields.of_step
      apply continues_returns
      exact ⟨since.trans since', ∅, rfl, exact_died stop⟩
    · have image' : Exact later (fun y => ∃ mid ∈ current,
          Power (directed forward (ctx.relation inner)) 1 mid y) next :=
        image.of_iff fun y => by simp only [power_one]
      have found' : Level ctx inner node forward (min - left) later next := by
        have stepped := Level.next (found.later since'.stays) image'
        rwa [show min - (left + 1) + 1 = min - left by omega] at stepped
      apply Machine.Yields.of_step
      show (machine ctx).Continues (RangeFrame.resume ⟨inner, node, forward, min, max, ∅, ∅,
        left + 1, remaining, bit, level, powers, .linear⟩ (.level (some next)) later) _
      unfold RangeFrame.resume
      dsimp only [Value.intoLevel, Option.bind_eq_bind, Option.bind_some]
      split
      · rename_i dead
        apply continues_returns
        exact ⟨since.trans since', ∅, rfl, found'.died dead (by omega)⟩
      · exact ih (since.trans since') (by omega) found'

theorem lowest_bit (remaining bit : Nat) :
    remaining * 2 ^ bit = remaining % 2 * 2 ^ bit + remaining / 2 * 2 ^ (bit + 1) := by
  calc remaining * 2 ^ bit = (2 * (remaining / 2) + remaining % 2) * 2 ^ bit := by
        rw [Nat.div_add_mod]
    _ = remaining % 2 * 2 ^ bit + remaining / 2 * 2 ^ (bit + 1) := by ring

/-- The prefix composed from powers: `applied` is what the bits applied denote. -/
theorem binary_range (reaches : Reaches ctx inner) (since : Since ctx start state)
    (inside : ∀ bound, max = some bound → min ≤ bound) {applied : Nat}
    (rest : min = applied + remaining * 2 ^ bit)
    (owned : ∀ owner, powers = some owner → owner.inner = inner ∧ owner.forward = forward)
    (found : Level ctx inner node forward applied state current) :
    (machine ctx).Continues
      (RangeFrame.binary ⟨inner, node, forward, min, max, current, ∅, left, remaining, bit, level,
        powers, .binary⟩ state)
      (SettlesRange ctx start inner node forward min max) := by
  induction remaining using Nat.strong_induction_on
    generalizing current state bit applied powers with
  | _ remaining ih =>
  have low := lowest_bit remaining bit
  unfold RangeFrame.binary
  dsimp only
  split
  · rename_i none
    have same : min = applied := by rw [rest, none, Nat.zero_mul, Nat.add_zero]
    exact accumulate_range reaches since inside (same ▸ found)
  · rename_i some'
    have smaller : remaining / 2 < remaining := by omega
    split
    · rename_i odd
      rw [odd, Nat.one_mul] at low
      have applies : ∀ (owner : PowerMemoOwner) (state : PathState I E), owner.inner = inner →
          owner.forward = forward → Since ctx start state →
          Level ctx inner node forward applied state current → (machine ctx).Continues
            (calls (.applyPower (.new inner current forward bit owner))
              (.range ⟨inner, node, forward, min, max, ∅, ∅, left, remaining, bit, level,
                some owner, .binary⟩) state)
            (SettlesRange ctx start inner node forward min max) := by
        rintro owner state rfl rfl since found
        apply (yields_applyPower reaches current bit since.memos).mono
        rintro value later ⟨since', ⟨rfl, stop⟩ | ⟨next, rfl, image⟩⟩
        · apply Machine.Yields.of_step
          apply continues_returns
          exact ⟨since.trans since', ∅, rfl, exact_died stop⟩
        · have found' := Level.next (found.later since'.stays) image
          apply Machine.Yields.of_step
          show (machine ctx).Continues (RangeFrame.resume ⟨owner.inner, node, owner.forward, min,
            max, ∅, ∅, left, remaining, bit, level, some owner, .binary⟩ (.level (some next)) later) _
          unfold RangeFrame.resume
          dsimp only [Value.intoLevel, Option.bind_eq_bind, Option.bind_some]
          split
          · rename_i dead
            apply continues_returns
            exact ⟨since.trans since', ∅, rfl, found'.died dead (by omega)⟩
          · apply ih (remaining / 2) smaller (since.trans since') (by omega) ?_ found'
            rintro _ ⟨⟩
            exact ⟨rfl, rfl⟩
      split
      · rename_i owner
        obtain ⟨sameInner, sameForward⟩ := owned owner rfl
        exact applies owner state sameInner sameForward since found
      · exact applies ⟨state.powerMemos, inner, forward⟩
          { state with powerMemos := state.powerMemos + 1 } rfl rfl ⟨⟨since.memos.reach, since.memos.powers⟩, since.stays, since.caused⟩
          (found.later id)
    · rename_i even
      have even : remaining % 2 = 0 := by omega
      rw [even, Nat.zero_mul, Nat.zero_add] at low
      exact ih (remaining / 2) smaller since (low ▸ rest) owned found

theorem yields_range (reaches : Reaches ctx inner) (node : I) (forward : Bool) (min : Nat)
    (max : Option Nat) (memos : Memos ctx state) :
    (machine ctx).Yields (.range (.new inner node forward min max)) none state
      (SettlesRange ctx state inner node forward min max) := by
  apply Machine.Yields.of_step
  show (machine ctx).Continues (RangeFrame.start (.new inner node forward min max) state) _
  unfold RangeFrame.start RangeFrame.new
  dsimp only
  split
  · rename_i empty
    apply continues_returns
    refine ⟨.refl memos, ∅, rfl, fun y member => (PathSet.notMem_empty member).elim, ?_⟩
    rintro _ y ⟨k, window, _⟩
    cases max with
    | none => cases empty
    | some bound =>
      obtain ⟨low, high⟩ := inWindow_some.mp window
      have order : bound < min := of_decide_eq_true empty
      omega
  · rename_i wide
    have inside : ∀ bound, max = some bound → min ≤ bound := by
      rintro bound rfl
      by_contra order
      exact wide (decide_eq_true (Nat.lt_of_not_le order))
    have first : Level ctx inner node forward 0 state ((∅ : PathSet I E).insert node) := by
      refine ⟨?_, ?_⟩
      · intro y member
        rcases PathSet.mem_insert.mp member with same | none
        · exact same.symm
        · exact (PathSet.notMem_empty none).elim
      · intro _ y same
        exact PathSet.mem_insert.mpr (.inl (Eq.symm same))
    split
    · apply linear_range reaches (.refl memos) inside le_rfl
      rwa [Nat.sub_self]
    · apply binary_range reaches (.refl memos) inside (by rw [pow_zero, Nat.mul_one, Nat.zero_add]) ?_
        first
      intro owner none
      cases none

end

end Purrdf.Path
