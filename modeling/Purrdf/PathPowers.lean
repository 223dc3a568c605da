import Purrdf.PathSequences

/-!
# Levels and powers

A level is stepped from each of its nodes, by the inner path or by one of its powers, and the
targets are charged one by one. A power is composed from its half, memoized, and its memo is
written only where the execution has not been stopped.
-/

namespace Purrdf.Path

open Frames RelationPowers

variable {I E : Type} [LinearOrder I] [RowEvidence E] [DecidableEq E]

section
variable {ctx : PathCtx I E} {start state : PathState I E} {current : PathSet I E}
  {r : I → I → Prop}

/-! ### Composition -/

theorem composeCharged_spec (ctx : PathCtx I E) (premise : E) (reached : PathSet I E)
    (targets : List I) (out : PathSet I E) (state : PathState I E) :
    ∃ done out' after, composeCharged ctx premise reached targets out state = (done, out', after) ∧
      Polled ctx state after ∧ (∀ y ∈ out', y ∈ out ∨ y ∈ targets) ∧
        (done = true → ∀ y, y ∈ out ∨ y ∈ targets → y ∈ out') ∧
          (done = false → after.tripped = true) := by
  induction targets generalizing out state with
  | nil =>
    refine ⟨true, out, state, rfl, .refl state, fun y => .inl, ?_, ?_⟩
    · rintro _ y (old | none)
      · exact old
      · cases none
    · intro impossible
      cases impossible
  | cons target rest ih =>
    obtain ⟨between, charged, polled⟩ := charge_cases ctx state
    unfold composeCharged
    rw [charged]
    cases stop : between.tripped with
    | true =>
      refine ⟨false, out, between, rfl, polled, fun y => .inl, ?_, fun _ => stop⟩
      intro impossible
      cases impossible
    | false =>
      obtain ⟨done, out', after, composed, polled', sound, complete, stopped⟩ :=
        ih (out.insertComposed target premise reached) between
      refine ⟨done, out', after, composed, polled.trans polled', ?_, ?_, stopped⟩
      · intro y member
        rcases sound y member with old | later
        · rcases PathSet.mem_insertComposed.mp old with rfl | old
          · exact .inr List.mem_cons_self
          · exact .inl old
        · exact .inr (List.mem_cons_of_mem target later)
      · intro finished y known
        apply complete finished
        rcases known with old | among
        · exact .inl (PathSet.mem_insertComposed.mpr (.inr old))
        · rcases List.mem_cons.mp among with rfl | later
          · exact .inl (PathSet.mem_insertComposed.mpr (.inl rfl))
          · exact .inr later

/-- What the first `pos` nodes of a level reach. -/
def Imaged (r : I → I → Prop) (current : PathSet I E) (pos : Nat) (state : PathState I E)
    (out : PathSet I E) : Prop :=
  Exact state (fun y => ∃ mid ∈ current.values.take pos, r mid y) out

omit [RowEvidence E] [DecidableEq E] in
theorem Imaged.empty : Imaged r current 0 state ∅ := by
  refine ⟨?_, ?_⟩
  · intro y member
    exact (PathSet.notMem_empty member).elim
  · rintro _ y ⟨mid, none, _⟩
    cases none

omit [RowEvidence E] [DecidableEq E] in
theorem Imaged.all {pos : Nat} {out : PathSet I E} (found : Imaged r current pos state out)
    (excess : current.values.length ≤ pos) : Exact state (fun y => ∃ mid ∈ current, r mid y) out := by
  unfold Imaged at found
  rw [List.take_of_length_le excess] at found
  exact found

variable (ctx) in
/-- The targets of the next node are composed in, unless the execution stops on the way. -/
theorem Imaged.compose {pos : Nat} {out reached : PathSet I E} {mid : I}
    (found : Imaged r current pos state out) (here : current.values[pos]? = some mid)
    (answered : Exact state (r mid) reached) :
    ∃ done out' after, composeCharged ctx (current.evidenceOf mid) reached reached.values out state =
        (done, out', after) ∧ Polled ctx state after ∧ (∀ y ∈ out', ∃ mid ∈ current, r mid y) ∧
      (done = true → Imaged r current (pos + 1) after out') ∧
        (done = false → after.tripped = true) := by
  obtain ⟨done, out', after, composed, polled, sound, complete, stopped⟩ :=
    composeCharged_spec ctx (current.evidenceOf mid) reached reached.values out state
  have split : current.values.take (pos + 1) = current.values.take pos ++ [mid] := by
    rw [List.take_add_one, here]
    rfl
  have within : ∀ y ∈ out', ∃ mid ∈ current.values.take (pos + 1), r mid y := by
    intro y member
    rw [split]
    rcases sound y member with old | new
    · obtain ⟨other, among, step⟩ := found.sound y old
      exact ⟨other, List.mem_append_left _ among, step⟩
    · exact ⟨mid, List.mem_append_right _ List.mem_cons_self, answered.sound y new⟩
  refine ⟨done, out', after, composed, polled, ?_, ?_, stopped⟩
  · intro y member
    obtain ⟨other, among, step⟩ := within y member
    exact ⟨other, List.mem_of_mem_take among, step⟩
  · intro finished
    refine ⟨within, ?_⟩
    rintro runs y ⟨other, among, step⟩
    apply complete finished
    rw [split] at among
    rcases List.mem_append.mp among with earlier | last
    · exact .inl (found.complete (polled.running runs) y ⟨other, earlier, step⟩)
    · rw [List.mem_singleton.mp last] at step
      exact .inr (answered.complete (polled.running runs) y step)

/-! ### Levels -/

/-- A level exact for `target`, or `none` after a stop. -/
def Levels (ctx : PathCtx I E) (start : PathState I E) (target : I → Prop) (value : Value I E)
    (after : PathState I E) : Prop :=
  Since ctx start after ∧
    ((value = .level none ∧ after.tripped = true) ∨
      ∃ set, value = .level (some set) ∧ Exact after target set)

def Requests (ctx : PathCtx I E) (request : I → Frame I E) (r : I → I → Prop) : Prop :=
  ∀ node state, Memos ctx state →
    (machine ctx).Yields (request node) none state (Settles ctx state .reach (r node))

theorem requests_reach {inner : Nat} (reaches : Reaches ctx inner) (forward : Bool) :
    Requests ctx (fun node => .reach (.new inner node forward))
      (directed forward (ctx.relation inner)) :=
  fun node state memos => reaches node forward state memos

structure LevelFrame (ctx : PathCtx I E) (current : PathSet I E) (request : I → Frame I E)
    (frame : Nat → PathSet I E → Frame I E) : Prop where
  asks : ∀ pos out state, (frame pos out).step ctx none state =
    match current.values[pos]? with
    | some n => calls (request n) (frame pos out) state
    | none => returns (.level (some out)) (frame pos out) state
  takes : ∀ pos out reached state, (frame pos out).step ctx (some (.reach reached)) state =
    match ctx.stopped state with
    | (true, state) => returns (.level none) (frame pos out) state
    | (false, state) => do
      let n ← current.values[pos]?
      match composeCharged ctx (current.evidenceOf n) reached reached.values out state with
      | (false, _, state) => returns (.level none) (frame pos out) state
      | (true, out, state) => (frame (pos + 1) out).step ctx none state

theorem LevelFrame.continues {request : I → Frame I E} {frame : Nat → PathSet I E → Frame I E}
    (shape : LevelFrame ctx current request frame) (requests : Requests ctx request r)
    (start : PathState I E) (pos : Nat) (out : PathSet I E) (state : PathState I E)
    (since : Since ctx start state) (found : Imaged r current pos state out) :
    (machine ctx).Continues ((frame pos out).step ctx none state)
      (Levels ctx start fun y => ∃ mid ∈ current, r mid y) := by
  induction left : current.values.length - pos generalizing pos out state with
  | zero =>
    have excess : current.values.length ≤ pos := by omega
    rw [shape.asks, List.getElem?_eq_none excess]
    exact continues_returns ⟨since, .inr ⟨out, rfl, found.all excess⟩⟩
  | succ left ih =>
    have before : pos < current.values.length := by omega
    have here := List.getElem?_eq_getElem before
    rw [shape.asks, here]
    apply (requests _ state since.memos).mono
    rintro value later ⟨since', reached, rfl, answered⟩
    apply Machine.Yields.of_step
    show (machine ctx).Continues ((frame pos out).step ctx (some (.reach reached)) later) _
    obtain ⟨between, consulted, polled⟩ := stopped_cases ctx later
    have since'' := (since.trans since').trans (.of_polled since'.memos polled)
    rw [shape.takes, consulted]
    cases stop : between.tripped with
    | true => exact continues_returns ⟨since'', .inl ⟨rfl, stop⟩⟩
    | false =>
      have found' : Imaged r current pos between out :=
        found.later fun earlier => polled.tripped (since'.stays earlier)
      obtain ⟨done, out', after, composed, polled', _, more, stopped⟩ :=
        found'.compose ctx here (answered.later polled.tripped)
      dsimp only
      rw [here, Option.bind_eq_bind, Option.bind_some, composed]
      have onward := since''.trans (.of_polled since''.memos polled')
      cases done with
      | false => exact continues_returns ⟨onward, .inl ⟨rfl, stopped rfl⟩⟩
      | true => exact ih (pos + 1) out' after onward (more rfl) (by omega)

theorem yields_stepLevel {inner : Nat} (reaches : Reaches ctx inner) (current : PathSet I E)
    (forward : Bool) (memos : Memos ctx state) :
    (machine ctx).Yields (.stepLevel (.new inner current forward)) none state
      (Levels ctx state fun y => ∃ mid ∈ current, directed forward (ctx.relation inner) mid y) := by
  have shape : LevelFrame ctx current (fun node => .reach (.new inner node forward))
      fun pos out => .stepLevel ⟨inner, forward, current, pos, out⟩ :=
    ⟨fun _ _ _ => rfl, fun _ _ _ _ => rfl⟩
  apply Machine.Yields.of_step
  exact shape.continues (requests_reach reaches forward) state 0 ∅ state (.refl memos) .empty

/-! ### Powers -/

def PowerMemoOwner.relation (ctx : PathCtx I E) (owner : PowerMemoOwner) : I → I → Prop :=
  directed owner.forward (ctx.relation owner.inner)

def powerRequest (owner : PowerMemoOwner) (bit : Nat) (node : I) : Frame I E :=
  .powerReach (.new owner.inner node owner.forward bit owner)

variable {owner : PowerMemoOwner} {bit : Nat} {node : I}

omit [RowEvidence E] [DecidableEq E] in
theorem Memos.insertPower {set : PathSet I E} (memos : Memos ctx state)
    (complete : ∀ y, y ∈ set ↔ Power (owner.relation ctx) (2 ^ bit) node y) :
    Memos ctx { state with powers := state.powers.insert (owner, bit, node) set } := by
  refine ⟨memos.reach, ?_⟩
  intro owner' bit' node' set' held
  by_cases same : (owner', bit', node') = (owner, bit, node)
  · rw [same, AList.lookup_insert] at held
    cases held
    cases same
    exact complete
  · rw [AList.lookup_insert_ne same] at held
    exact memos.powers owner' bit' node' set' held

theorem finish_power {frame : PowerReachFrame I E} {reached : PathSet I E}
    (keyed : frame.key = (owner, bit, node)) (since : Since ctx start state)
    (found : Exact state (Power (owner.relation ctx) (2 ^ bit) node) reached) :
    (machine ctx).Continues (frame.finish ctx reached state)
      (Settles ctx start .reach (Power (owner.relation ctx) (2 ^ bit) node)) := by
  obtain ⟨after, consulted, polled⟩ := stopped_cases ctx state
  have since' := since.trans (.of_polled since.memos polled)
  have found' := found.later polled.tripped
  unfold PowerReachFrame.finish
  rw [consulted]
  cases stop : after.tripped with
  | true => exact continues_returns ⟨since', reached, rfl, found'⟩
  | false =>
    have complete : ∀ y, y ∈ reached ↔ Power (owner.relation ctx) (2 ^ bit) node y :=
      fun y => ⟨found'.sound y, found'.complete stop y⟩
    apply continues_returns
    rw [keyed]
    exact ⟨⟨since'.memos.insertPower complete, since'.stays, since'.caused⟩, reached, rfl,
      found'.sound, found'.complete⟩

theorem compose_power (requests : Requests ctx (powerRequest owner bit)
      (Power (owner.relation ctx) (2 ^ bit))) (start : PathState I E) (mids : PathSet I E)
    (phase : PowerPhase I E) (held : Option (PathSet I E)) (pos : Nat) (out : PathSet I E)
    (state : PathState I E) (since : Since ctx start state)
    (half : Exact state (Power (owner.relation ctx) (2 ^ bit) node) mids)
    (found : Imaged (Power (owner.relation ctx) (2 ^ bit)) mids pos state out) :
    (machine ctx).Continues
      (PowerReachFrame.compose ctx ⟨owner.inner, node, owner.forward, bit + 1, owner, phase, held⟩
        mids pos out state)
      (Settles ctx start .reach (Power (owner.relation ctx) (2 ^ (bit + 1)) node)) := by
  have within : ∀ set : PathSet I E,
      (∀ y ∈ set, ∃ mid ∈ mids, Power (owner.relation ctx) (2 ^ bit) mid y) →
        ∀ y ∈ set, Power (owner.relation ctx) (2 ^ (bit + 1)) node y := by
    intro set sound y member
    obtain ⟨mid, among, second⟩ := sound y member
    exact power_two_pow_succ.mpr ⟨mid, half.sound mid among, second⟩
  induction left : mids.values.length - pos generalizing pos out state phase held with
  | zero =>
    have excess : mids.values.length ≤ pos := by omega
    have whole := found.all excess
    unfold PowerReachFrame.compose
    dsimp only
    rw [List.getElem?_eq_none excess]
    apply finish_power rfl since
    refine ⟨within out whole.sound, ?_⟩
    intro runs y steps
    obtain ⟨mid, first, second⟩ := power_two_pow_succ.mp steps
    exact whole.complete runs y ⟨mid, half.complete runs mid first, second⟩
  | succ left ih =>
    have before : pos < mids.values.length := by omega
    have here := List.getElem?_eq_getElem before
    unfold PowerReachFrame.compose
    dsimp only
    rw [here]
    apply (requests _ state since.memos).mono
    rintro value later ⟨since', reached, rfl, answered⟩
    apply Machine.Yields.of_step
    show (machine ctx).Continues (PowerReachFrame.resume ctx
      ⟨owner.inner, node, owner.forward, bit + 1, owner, .mids mids pos, some out⟩ reached later) _
    obtain ⟨between, consulted, polled⟩ := stopped_cases ctx later
    have since'' := (since.trans since').trans (.of_polled since'.memos polled)
    have stays : state.tripped = true → between.tripped = true :=
      fun earlier => polled.tripped (since'.stays earlier)
    have found' : Imaged (Power (owner.relation ctx) (2 ^ bit)) mids pos between out :=
      found.later stays
    unfold PowerReachFrame.resume
    dsimp only
    rw [Option.bind_eq_bind, Option.bind_some, consulted]
    cases stop : between.tripped with
    | true =>
      apply continues_returns
      refine ⟨since'', out, rfl, .of_tripped stop (within out ?_)⟩
      intro y member
      obtain ⟨mid, among, second⟩ := found'.sound y member
      exact ⟨mid, List.mem_of_mem_take among, second⟩
    | false =>
      obtain ⟨done, out', after, composed, polled', sound, more, stopped⟩ :=
        found'.compose ctx here (answered.later polled.tripped)
      dsimp only
      rw [here, Option.bind_eq_bind, Option.bind_some, composed]
      have onward := since''.trans (.of_polled since''.memos polled')
      cases done with
      | false =>
        exact continues_returns ⟨onward, out', rfl, .of_tripped (stopped rfl) (within out' sound)⟩
      | true =>
        have half' := half.later fun earlier => polled'.tripped (stays earlier)
        exact ih _ _ (pos + 1) out' after onward half' (more rfl) (by omega)

theorem start_power {frame : PowerReachFrame I E} (keyed : frame.key = (owner, bit, node))
    (memos : Memos ctx state)
    (asks : (machine ctx).Continues
      (if frame.bit = 0 then
        calls (.reach (.new frame.inner frame.node frame.forward))
          (.powerReach { frame with phase := .base }) state
      else { frame with phase := .first }.half frame.node state)
      (Settles ctx state .reach (Power (owner.relation ctx) (2 ^ bit) node))) :
    (machine ctx).Continues (frame.start state)
      (Settles ctx state .reach (Power (owner.relation ctx) (2 ^ bit) node)) := by
  unfold PowerReachFrame.start
  rw [keyed]
  split
  · rename_i cached held
    have complete := memos.powers owner bit node cached held
    exact continues_returns ⟨.refl memos, cached, rfl, fun y => (complete y).mp,
      fun _ y => (complete y).mpr⟩
  · exact asks

theorem requests_power (reaches : Reaches ctx owner.inner) (bit : Nat) :
    Requests ctx (powerRequest owner bit) (Power (owner.relation ctx) (2 ^ bit)) := by
  induction bit with
  | zero =>
    intro node state memos
    apply Machine.Yields.of_step
    apply start_power rfl memos
    apply continues_reach reaches memos
    intro reached after since answered
    apply finish_power rfl since
    exact answered.of_iff fun y => power_one.symm
  | succ bit ih =>
    intro node state memos
    apply Machine.Yields.of_step
    apply start_power rfl memos
    apply (ih node state memos).mono
    rintro value later ⟨since, reached, rfl, answered⟩
    apply Machine.Yields.of_step
    show (machine ctx).Continues (PowerReachFrame.resume ctx
      ⟨owner.inner, node, owner.forward, bit + 1, owner, .first, none⟩ reached later) _
    obtain ⟨between, consulted, polled⟩ := stopped_cases ctx later
    have since' := since.trans (.of_polled since.memos polled)
    unfold PowerReachFrame.resume
    dsimp only
    rw [consulted]
    cases stop : between.tripped with
    | true =>
      apply continues_returns
      refine ⟨since', ∅, rfl, .of_tripped stop ?_⟩
      intro y member
      exact (PathSet.notMem_empty member).elim
    | false =>
      exact compose_power ih state reached _ _ 0 ∅ between since' (answered.later polled.tripped)
        .empty

theorem yields_applyPower (reaches : Reaches ctx owner.inner) (current : PathSet I E) (bit : Nat)
    (memos : Memos ctx state) :
    (machine ctx).Yields (.applyPower (.new owner.inner current owner.forward bit owner)) none state
      (Levels ctx state fun y => ∃ mid ∈ current, Power (owner.relation ctx) (2 ^ bit) mid y) := by
  have shape : LevelFrame ctx current (powerRequest owner bit)
      fun pos out => .applyPower ⟨owner.inner, owner.forward, bit, current, pos, out, owner⟩ :=
    ⟨fun _ _ _ => rfl, fun _ _ _ _ => rfl⟩
  apply Machine.Yields.of_step
  exact shape.continues (requests_power reaches bit) state 0 ∅ state (.refl memos) .empty

end

end Purrdf.Path
