import Purrdf.PathSequences

/-!
# Closures

One joint traversal from every seed. A node is expanded when it is new or when more evidence of
it has come up, so every expansion climbs the profile of the result, and over finitely many nodes
that comes to an end; what is expanded then is closed under the step.
-/

namespace Purrdf.Path

open Frames Relation RelationPowers

variable {I E : Type} [LinearOrder I] [RowEvidence E] [DecidableEq E]

namespace ClosureFrame

/-! ### What one answer adds -/

theorem pendingOf_store {frame : ClosureFrame I E} {node y : I} {evidence : E}
    (frontier : List I) :
    { frame with pending := frame.storePending node evidence, frontier }.pendingOf y =
      if y = node then evidence else frame.pendingOf y := by
  unfold pendingOf storePending
  dsimp only
  by_cases same : y = node
  · rw [if_pos same, same]
    split
    · rename_i default
      rw [AList.lookup_erase, default, Option.getD_none]
    · rw [AList.lookup_insert, Option.getD_some]
  · rw [if_neg same]
    split
    · rw [AList.lookup_erase_ne same]
    · rw [AList.lookup_insert_ne same]

omit [DecidableEq E]

/-- A frame that only took nodes of `targets` in: every one is on the frontier or visited, and
the evidence of visited nodes grew. -/
structure TookIn (targets : List I) (frame frame' : ClosureFrame I E) : Prop where
  same : ∃ pending frontier, frame' = { frame with pending, frontier }
  kept : ∀ y ∈ frame.frontier, y ∈ frame'.frontier
  pushed : ∀ y ∈ frame'.frontier, y ∈ frame.frontier ∨ y ∈ targets
  covered : ∀ y ∈ targets, y ∈ frame'.frontier ∨ y ∈ frame.visited
  evidence : ∀ y ∈ frame.visited, frame.pendingOf y ≤ frame'.pendingOf y

theorem TookIn.foldl {take : ClosureFrame I E → I → ClosureFrame I E}
    (each : ∀ frame next, TookIn [next] frame (take frame next)) (targets : List I)
    (frame : ClosureFrame I E) : TookIn targets frame (targets.foldl take frame) := by
  induction targets generalizing frame with
  | nil =>
    exact ⟨⟨_, _, rfl⟩, fun _ => id, fun y member => .inl member,
      fun y member => (List.not_mem_nil member).elim, fun y _ => le_rfl⟩
  | cons first rest ih =>
    have one := each frame first
    have more := ih (take frame first)
    obtain ⟨pending, frontier, shape⟩ := one.same
    obtain ⟨pending', frontier', shape'⟩ := more.same
    have visited : (take frame first).visited = frame.visited := by rw [shape]
    refine ⟨⟨pending', frontier', ?_⟩, ?_, ?_, ?_, ?_⟩
    · rw [List.foldl_cons, shape', shape]
    · intro y member
      exact more.kept y (one.kept y member)
    · intro y member
      rcases more.pushed y member with earlier | late
      · rcases one.pushed y earlier with old | here
        · exact .inl old
        · exact .inr (List.mem_cons.mpr (.inl (List.mem_singleton.mp here)))
      · exact .inr (List.mem_cons_of_mem first late)
    · intro y member
      rcases List.mem_cons.mp member with rfl | late
      · rcases one.covered y List.mem_cons_self with here | seen
        · exact .inl (more.kept y here)
        · exact .inr seen
      · rw [← visited]
        exact more.covered y late
    · intro y seen
      exact (one.evidence y seen).trans (more.evidence y (visited ▸ seen))

theorem tookIn_pushNext (frame : ClosureFrame I E) (next : I) :
    TookIn [next] frame (frame.pushNext next) := by
  unfold pushNext
  split
  · rename_i seen
    have visited : next ∈ frame.visited := by simpa using (Bool.and_eq_true_iff.mp seen).2
    refine ⟨⟨_, _, rfl⟩, fun _ => id, fun y member => .inl member, ?_, fun y _ => le_rfl⟩
    intro y member
    rw [List.mem_singleton.mp member]
    exact .inr visited
  · refine ⟨⟨frame.pending, _, rfl⟩, fun y => List.mem_cons_of_mem next, ?_, ?_, fun y _ => le_rfl⟩
    · intro y member
      rcases List.mem_cons.mp member with rfl | old
      · exact .inr List.mem_cons_self
      · exact .inl old
    · intro y member
      rw [List.mem_singleton.mp member]
      exact .inl List.mem_cons_self

variable [DecidableEq E]

theorem tookIn_mergeNext (premise : E) (reached : PathSet I E) (frame : ClosureFrame I E)
    (next : I) : TookIn [next] frame (frame.mergeNext premise reached next) := by
  have grows : ∀ merged frontier, (next ∈ frame.visited → frame.pendingOf next ≤ merged) →
      ∀ y ∈ frame.visited, frame.pendingOf y ≤
        { frame with pending := frame.storePending next merged, frontier }.pendingOf y := by
    intro merged frontier above y seen
    rw [pendingOf_store]
    split
    · rename_i same
      rw [same]
      exact above (same ▸ seen)
    · exact le_rfl
  unfold mergeNext
  dsimp only
  generalize joined : (if (frame.pending.lookup next).isSome || next ∈ frame.visited ||
    (RowEvidence.conjunction premise (reached.evidenceOf next) ≠ RowEvidence.virtual &&
      next ∈ frame.frontier) then
      frame.pendingOf next ⊔ RowEvidence.conjunction premise (reached.evidenceOf next)
    else RowEvidence.conjunction premise (reached.evidenceOf next)) = merged
  have above : next ∈ frame.visited → frame.pendingOf next ≤ merged := by
    intro seen
    rw [← joined, if_pos (by simp [seen])]
    exact le_sup_left
  split
  · refine ⟨⟨_, _, rfl⟩, fun y => List.mem_cons_of_mem next, ?_, ?_, grows merged _ above⟩
    · intro y member
      rcases List.mem_cons.mp member with rfl | old
      · exact .inr List.mem_cons_self
      · exact .inl old
    · intro y member
      rw [List.mem_singleton.mp member]
      exact .inl List.mem_cons_self
  · rename_i old
    have seen : next ∈ frame.visited := by
      by_contra fresh
      exact old (by simp [fresh])
    refine ⟨⟨_, _, rfl⟩, fun _ => id, fun y member => .inl member, ?_, grows merged _ above⟩
    intro y member
    rw [List.mem_singleton.mp member]
    exact .inr seen

theorem absorb_eq {frame : ClosureFrame I E} (reached : PathSet I E)
    (premised : if frame.walking then ∃ n, frame.expanded = some n
      else ∃ seed, frame.seeds.values[frame.seeded]? = some seed) :
    ∃ taken, TookIn reached.values frame taken ∧ frame.absorb reached =
      some (if frame.walking then taken else { taken with seeded := taken.seeded + 1 }) := by
  have known : ∃ premise, frame.premise = some premise := by
    unfold premise
    split
    · rename_i walking
      rw [if_pos walking] at premised
      obtain ⟨n, expanded⟩ := premised
      exact ⟨_, by rw [expanded]; rfl⟩
    · rename_i seeding
      rw [if_neg seeding] at premised
      obtain ⟨seed, here⟩ := premised
      exact ⟨_, by rw [here]; rfl⟩
  obtain ⟨premise, known⟩ := known
  unfold absorb
  rw [known]
  refine ⟨_, ?_, rfl⟩
  split
  · exact .foldl tookIn_pushNext reached.values frame
  · exact .foldl (tookIn_mergeNext premise reached) reached.values frame

end ClosureFrame

/-! ### The node expanded -/

namespace ClosureFrame

def joined (frame : ClosureFrame I E) (n : I) : PathSet I E :=
  if frame.plain then frame.result.insert n
  else (frame.result.insertEvidence n (frame.pendingOf n)).1

def expand (frame : ClosureFrame I E) (n : I) (rest : List I) : ClosureFrame I E :=
  { frame with
    frontier := rest
    visited := insert n frame.visited
    result := frame.joined n
    expanded := some n }

variable {frame : ClosureFrame I E} {n y : I}

theorem mem_joined : y ∈ frame.joined n ↔ y = n ∨ y ∈ frame.result := by
  unfold joined
  split
  · exact PathSet.mem_insert
  · exact PathSet.mem_insertEvidence

omit [DecidableEq E] in
theorem pendingOf_plain (plain : frame.plain = true) : frame.pendingOf y = RowEvidence.virtual := by
  have empty : frame.pending = ∅ :=
    AList.ext (List.isEmpty_iff.mp (Bool.and_eq_true_iff.mp plain).1)
  rw [pendingOf, empty, AList.lookup_empty, Option.getD_none]

omit [DecidableEq E] in
theorem evidenceOf_plain (plain : frame.plain = true) :
    frame.result.evidenceOf y = RowEvidence.virtual :=
  PathSet.evidenceOf_unannotated (Bool.and_eq_true_iff.mp plain).2

theorem evidenceOf_joined_ne (differs : y ≠ n) (member : y ∈ frame.result) :
    (frame.joined n).evidenceOf y = frame.result.evidenceOf y := by
  have same : (frame.joined n).profile y = frame.result.profile y := by
    unfold joined
    split
    · exact PathSet.profile_insertRecord_ne differs
    · exact PathSet.profile_insertRecord_ne differs
  rw [PathSet.profile_of_mem member, PathSet.profile_of_mem (mem_joined.mpr (.inr member))] at same
  exact WithBot.coe_injective same

theorem evidenceOf_joined_le
    (above : n ∈ frame.result → frame.result.evidenceOf n ≤ frame.pendingOf n)
    (fresh : ¬(n ∈ frame.result ∧ frame.plain = true)) :
    (frame.joined n).evidenceOf n ≤ frame.pendingOf n := by
  unfold joined
  split
  · rename_i plain
    have absent : n ∉ frame.result := fun member => fresh ⟨member, plain⟩
    rw [PathSet.evidenceOf_insert_of_notMem absent, evidenceOf_plain plain, pendingOf_plain plain]
  · by_cases member : n ∈ frame.result
    · unfold PathSet.insertEvidence
      rw [PathSet.evidenceOf_insertRecord_of_mem member, Option.getD_some]
      exact sup_le (above member) le_rfl
    · rw [PathSet.evidenceOf_insertEvidence_of_notMem member]

theorem climbs_joined {u : Finset I} (inside : n ∈ u)
    (above : n ∈ frame.result → frame.result.evidenceOf n ≤ frame.pendingOf n)
    (fresh : ¬(n ∈ frame.result ∧
      (frame.plain = true ∨ frame.result.evidenceOf n = frame.pendingOf n))) :
    PathSet.Climbs u frame.result (frame.joined n) := by
  unfold joined
  split
  · rename_i plain
    have absent : n ∉ frame.result := fun member => fresh ⟨member, .inl plain⟩
    exact PathSet.climbs_of inside PathSet.profile_le_insertRecord
      (PathSet.profile_lt_of_notMem absent)
  · apply PathSet.climbs_of inside PathSet.profile_le_insertRecord
    by_cases member : n ∈ frame.result
    · apply PathSet.profile_lt_of_changed member
      rw [sup_eq_right.mpr (above member)]
      exact fun same => fresh ⟨member, .inr same⟩
    · exact PathSet.profile_lt_of_notMem member

theorem step_absorbed {ctx : PathCtx I E} {taken : ClosureFrame I E} {reached : PathSet I E}
    (absorbed : frame.absorb reached = some taken) (state : PathState I E) :
    frame.step ctx (some (.reach reached)) state = taken.step ctx none state := by
  unfold step
  simp [Value.intoReach, absorbed]

theorem step_walking (ctx : PathCtx I E) (n : I) (rest : List I) (walking : frame.walking = true)
    (reached : PathSet I E) (state : PathState I E) :
    ∃ taken, TookIn reached.values (frame.expand n rest) taken ∧
      (frame.expand n rest).step ctx (some (.reach reached)) state =
        taken.walk ctx taken.frontier state := by
  have walking : (frame.expand n rest).walking = true := walking
  have premised : if (frame.expand n rest).walking then ∃ n', (frame.expand n rest).expanded = some n'
      else ∃ seed, (frame.expand n rest).seeds.values[(frame.expand n rest).seeded]? = some seed := by
    rw [if_pos walking]
    exact ⟨n, rfl⟩
  obtain ⟨taken, tookIn, absorbed⟩ := absorb_eq reached premised
  rw [if_pos walking] at absorbed
  refine ⟨taken, tookIn, ?_⟩
  obtain ⟨pending, frontier, shape⟩ := tookIn.same
  have walking : taken.walking = true := by
    rw [shape]
    exact walking
  rw [step_absorbed absorbed]
  unfold step
  simp [walking]

end ClosureFrame

/-! ### The walk -/

section
variable {ctx : PathCtx I E} {inner : Nat} {seeds : PathSet I E} {forward : Bool}

/-- What a closure frame has found. Its result is what it visited; every node found is reached
from a seed; and, unless the execution stopped, the seeds gone through and the nodes expanded
have their steps found. -/
structure ClosureFound (ctx : PathCtx I E) (inner : Nat) (seeds : PathSet I E) (forward : Bool)
    (frame : ClosureFrame I E) (state : PathState I E) : Prop where
  sameInner : frame.inner = inner
  sameForward : frame.forward = forward
  sameSeeds : frame.seeds = seeds
  visited : ∀ y, y ∈ frame.visited ↔ y ∈ frame.result
  sound : ∀ y, y ∈ frame.frontier ∨ y ∈ frame.result →
    ∃ seed ∈ seeds, TransGen (directed forward (ctx.relation inner)) seed y
  seeded : state.tripped = false → ∀ seed ∈ seeds.values.take frame.seeded, ∀ y,
    directed forward (ctx.relation inner) seed y → y ∈ frame.frontier ∨ y ∈ frame.result
  closed : state.tripped = false → ∀ x ∈ frame.result, ∀ y,
    directed forward (ctx.relation inner) x y → y ∈ frame.frontier ∨ y ∈ frame.result
  evidence : ∀ y ∈ frame.result, frame.result.evidenceOf y ≤ frame.pendingOf y

def closureNodes (ctx : PathCtx I E) (seeds : PathSet I E) : Finset I :=
  ctx.dataset.nodes ∪ seeds.values.toFinset

omit [RowEvidence E] [DecidableEq E] in
theorem directed_local (ctx : PathCtx I E) (op : Nat) (forward : Bool) :
    Local ↑ctx.dataset.nodes (directed forward (ctx.relation op)) := by
  cases forward with
  | true => exact opRelation_local _
  | false => exact (opRelation_local _).flip

omit [RowEvidence E] [DecidableEq E] in
theorem mem_closureNodes {seed y : I} (member : seed ∈ seeds)
    (steps : TransGen (directed forward (ctx.relation inner)) seed y) :
    y ∈ closureNodes ctx seeds := by
  rcases (directed_local ctx inner forward).transGen seed y steps with rfl | ⟨_, inside⟩
  · exact Finset.mem_union_right _ (List.mem_toFinset.mpr member)
  · exact Finset.mem_union_left _ inside

namespace ClosureFound

variable {frame : ClosureFrame I E} {state after : PathState I E}

omit [DecidableEq E] in
theorem later (found : ClosureFound ctx inner seeds forward frame state)
    (since : Since ctx state after) : ClosureFound ctx inner seeds forward frame after := by
  have running : after.tripped = false → state.tripped = false := by
    intro runs
    by_contra stop
    rw [since.stays (Bool.of_not_eq_false stop)] at runs
    cases runs
  exact ⟨found.sameInner, found.sameForward, found.sameSeeds, found.visited, found.sound,
    fun runs => found.seeded (running runs), fun runs => found.closed (running runs),
    found.evidence⟩

omit [DecidableEq E] in
theorem drop {n : I} {frontier : List I}
    (found : ClosureFound ctx inner seeds forward { frame with frontier := n :: frontier } state)
    (old : n ∈ frame.visited) :
    ClosureFound ctx inner seeds forward { frame with frontier } state := by
  have known : n ∈ frame.result := (found.visited n).mp old
  have among : ∀ y, y ∈ n :: frontier ∨ y ∈ frame.result → y ∈ frontier ∨ y ∈ frame.result := by
    rintro y (here | there)
    · rcases List.mem_cons.mp here with rfl | rest
      · exact .inr known
      · exact .inl rest
    · exact .inr there
  refine ⟨found.sameInner, found.sameForward, found.sameSeeds, found.visited, ?_, ?_, ?_, found.evidence⟩
  · rintro y (rest | there)
    · exact found.sound y (.inl (List.mem_cons_of_mem n rest))
    · exact found.sound y (.inr there)
  · exact fun runs seed member y step => among y (found.seeded runs seed member y step)
  · exact fun runs x member y step => among y (found.closed runs x member y step)

omit [DecidableEq E] in
theorem answer (found : ClosureFound ctx inner seeds forward frame state)
    (empty : frame.frontier = []) (all : seeds.values.length ≤ frame.seeded) :
    Exact state (fun y => ∃ seed ∈ seeds, TransGen (directed forward (ctx.relation inner)) seed y)
      frame.result := by
  have inResult : ∀ y, y ∈ frame.frontier ∨ y ∈ frame.result → y ∈ frame.result := by
    rintro y (none | there)
    · rw [empty] at none
      cases none
    · exact there
  refine ⟨fun y member => found.sound y (.inr member), ?_⟩
  rintro runs y ⟨seed, member, steps⟩
  have among : seed ∈ seeds.values.take frame.seeded := by
    rw [List.take_of_length_le all]
    exact member
  induction steps with
  | single step => exact inResult _ (found.seeded runs seed among _ step)
  | tail _ step ih => exact inResult _ (found.closed runs _ ih _ step)

omit [DecidableEq E] in
theorem seed {seed : I} {reached : PathSet I E} {taken : ClosureFrame I E}
    (found : ClosureFound ctx inner seeds forward frame state)
    (here : seeds.values[frame.seeded]? = some seed)
    (tookIn : ClosureFrame.TookIn reached.values frame taken)
    (answered : Exact state (directed forward (ctx.relation inner) seed) reached) :
    ClosureFound ctx inner seeds forward { taken with seeded := taken.seeded + 1 } state := by
  obtain ⟨pending, frontier, shape⟩ := tookIn.same
  have result : taken.result = frame.result := by rw [shape]
  have visited : taken.visited = frame.visited := by rw [shape]
  have seeded : taken.seeded = frame.seeded := by rw [shape]
  have among : ∀ y, y ∈ frame.frontier ∨ y ∈ frame.result →
      y ∈ taken.frontier ∨ y ∈ taken.result := by
    intro y known
    rw [result]
    exact known.imp_left (tookIn.kept y)
  refine ⟨?_, ?_, ?_, ?_, ?_, ?_, ?_, ?_⟩
  · rw [shape]
    exact found.sameInner
  · rw [shape]
    exact found.sameForward
  · rw [shape]
    exact found.sameSeeds
  · intro y
    dsimp only
    rw [result, visited]
    exact found.visited y
  · rintro y (here' | there)
    · rcases tookIn.pushed y here' with old | new
      · exact found.sound y (.inl old)
      · exact ⟨seed, List.mem_of_getElem? here, .single (answered.sound y new)⟩
    · dsimp only at there
      rw [result] at there
      exact found.sound y (.inr there)
  · intro runs other member y step
    dsimp only at member ⊢
    rw [seeded, List.take_add_one, here, Option.toList_some, List.mem_append] at member
    rcases member with earlier | last
    · exact among y (found.seeded runs other earlier y step)
    · rw [List.mem_singleton.mp last] at step
      rcases tookIn.covered y (answered.complete runs y step) with pushed | seen
      · exact .inl pushed
      · exact among y (.inr ((found.visited y).mp seen))
  · intro runs x member y step
    dsimp only at member
    rw [result] at member
    exact among y (found.closed runs x member y step)
  · intro y member
    dsimp only at member ⊢
    rw [result] at member ⊢
    exact (found.evidence y member).trans (tookIn.evidence y ((found.visited y).mpr member))

theorem expand {n : I} {rest : List I} {reached : PathSet I E} {taken : ClosureFrame I E}
    (found : ClosureFound ctx inner seeds forward { frame with frontier := n :: rest } state)
    (fresh : ¬(n ∈ frame.result ∧ frame.plain = true))
    (tookIn : ClosureFrame.TookIn reached.values (frame.expand n rest) taken)
    (answered : Exact state (directed forward (ctx.relation inner) n) reached) :
    ClosureFound ctx inner seeds forward taken state := by
  obtain ⟨pending, frontier, shape⟩ := tookIn.same
  have result : taken.result = frame.joined n := by
    rw [shape]
    rfl
  have visited : taken.visited = insert n frame.visited := by
    rw [shape]
    rfl
  have among : ∀ y, y ∈ n :: rest ∨ y ∈ frame.result → y ∈ taken.frontier ∨ y ∈ taken.result := by
    rw [result]
    rintro y (here | there)
    · rcases List.mem_cons.mp here with rfl | old
      · exact .inr (ClosureFrame.mem_joined.mpr (.inl rfl))
      · exact .inl (tookIn.kept y old)
    · exact .inr (ClosureFrame.mem_joined.mpr (.inr there))
  have seen : ∀ y, y ∈ insert n frame.visited ↔ y ∈ frame.joined n := by
    intro y
    rw [Finset.mem_insert, ClosureFrame.mem_joined]
    exact or_congr_right (found.visited y)
  refine ⟨?_, ?_, ?_, ?_, ?_, ?_, ?_, ?_⟩
  · rw [shape]
    exact found.sameInner
  · rw [shape]
    exact found.sameForward
  · rw [shape]
    exact found.sameSeeds
  · intro y
    rw [result, visited]
    exact seen y
  · rintro y (here | there)
    · rcases tookIn.pushed y here with old | new
      · exact found.sound y (.inl (List.mem_cons_of_mem n old))
      · obtain ⟨seed, member, steps⟩ := found.sound n (.inl List.mem_cons_self)
        exact ⟨seed, member, steps.tail (answered.sound y new)⟩
    · rw [result] at there
      rcases ClosureFrame.mem_joined.mp there with rfl | old
      · exact found.sound y (.inl List.mem_cons_self)
      · exact found.sound y (.inr old)
  · intro runs seed member y step
    rw [shape] at member
    exact among y (found.seeded runs seed member y step)
  · intro runs x member y step
    rw [result] at member
    rcases ClosureFrame.mem_joined.mp member with rfl | old
    · rcases tookIn.covered y (answered.complete runs y step) with pushed | known
      · exact .inl pushed
      · rw [result]
        exact .inr ((seen y).mp known)
    · exact among y (found.closed runs x old y step)
  · intro y member
    rw [result] at member ⊢
    refine le_trans ?_ (tookIn.evidence y ((seen y).mpr member))
    by_cases same : y = n
    · rw [same]
      exact ClosureFrame.evidenceOf_joined_le (found.evidence n) fresh
    · have old : y ∈ frame.result := (ClosureFrame.mem_joined.mp member).resolve_left same
      rw [ClosureFrame.evidenceOf_joined_ne same old]
      exact found.evidence y old

end ClosureFound

variable [WellFoundedGT E]

def Closed (ctx : PathCtx I E) (inner : Nat) (seeds : PathSet I E) (forward : Bool) (y : I) : Prop :=
  ∃ seed ∈ seeds, TransGen (directed forward (ctx.relation inner)) seed y

theorem walk_closure (reaches : Reaches ctx inner) (start : PathState I E) (frame : ClosureFrame I E)
    (frontier : List I) (state : PathState I E) (since : Since ctx start state)
    (walking : frame.walking = true) (all : seeds.values.length ≤ frame.seeded)
    (found : ClosureFound ctx inner seeds forward { frame with frontier } state) :
    (machine ctx).Continues (frame.walk ctx frontier state)
      (Settles ctx start .built (Closed ctx inner seeds forward)) := by
  generalize climb : frame.result = result
  revert frame frontier state
  apply (PathSet.wellFounded_climbs (closureNodes ctx seeds)).induction result
  intro result higher frame frontier state since walking all found climb
  induction frontier generalizing frame with
  | nil =>
    apply continues_returns
    exact ⟨since, frame.result, rfl, found.answer rfl all⟩
  | cons n rest ih =>
    rw [ClosureFrame.walk]
    dsimp only
    split
    · rename_i old
      exact ih { frame with frontier := rest } walking all (found.drop old.1) climb
    · rename_i fresh
      have fresh : ¬(n ∈ frame.result ∧
          (frame.plain = true ∨ frame.result.evidenceOf n = frame.pendingOf n)) := by
        intro old
        exact fresh ⟨(found.visited n).mpr old.1, old.2⟩
      obtain ⟨between, consulted, polled⟩ := stopped_cases ctx state
      have since' := Since.of_polled since.memos polled
      rw [consulted]
      cases stop : between.tripped with
      | true =>
        apply continues_returns
        refine ⟨since.trans since', frame.result, rfl, .of_tripped stop ?_⟩
        intro y member
        exact found.sound y (.inr member)
      | false =>
        have inside : n ∈ closureNodes ctx seeds := by
          obtain ⟨seed, member, steps⟩ := found.sound n (.inl List.mem_cons_self)
          exact mem_closureNodes member steps
        have climbs : PathSet.Climbs (closureNodes ctx seeds) frame.result (frame.joined n) :=
          ClosureFrame.climbs_joined inside (found.evidence n) fresh
        have sameInner : frame.inner = inner := found.sameInner
        have sameForward : frame.forward = forward := found.sameForward
        have reaches' : Reaches ctx frame.inner := sameInner ▸ reaches
        apply continues_reach reaches' since'.memos
        intro reached after since'' answered
        rw [sameInner, sameForward] at answered
        obtain ⟨taken, tookIn, walks⟩ := ClosureFrame.step_walking ctx n rest walking
          reached after
        have later : ClosureFound ctx inner seeds forward { frame with frontier := n :: rest } after :=
          found.later (since'.trans since'')
        have next := later.expand (fun old => fresh ⟨old.1, .inl old.2⟩) tookIn answered
        obtain ⟨pending, frontier, shape⟩ := tookIn.same
        show (machine ctx).Continues
          ((frame.expand n rest).step ctx (some (.reach reached)) after) _
        rw [walks]
        apply higher (frame.joined n) (climb ▸ climbs) taken taken.frontier after
        · exact (since.trans since').trans since''
        · rw [shape]
          exact walking
        · rw [shape]
          exact all
        · exact next
        · rw [shape]
          rfl

theorem seed_closure (reaches : Reaches ctx inner) (start : PathState I E) (frame : ClosureFrame I E)
    (state : PathState I E) (since : Since ctx start state) (seeding : frame.walking = false)
    (found : ClosureFound ctx inner seeds forward frame state) :
    (machine ctx).Continues (frame.step ctx none state)
      (Settles ctx start .built (Closed ctx inner seeds forward)) := by
  induction left : seeds.values.length - frame.seeded generalizing frame state with
  | zero =>
    have excess : seeds.values.length ≤ frame.seeded := by omega
    have none : frame.seeds.values[frame.seeded]? = none := by
      rw [found.sameSeeds]
      exact List.getElem?_eq_none excess
    unfold ClosureFrame.step
    simp only [Option.bind_eq_bind, Option.bind_some, seeding, Bool.false_eq_true, if_false, none]
    exact walk_closure reaches start _ _ state since rfl excess
      ⟨found.sameInner, found.sameForward, found.sameSeeds, found.visited, found.sound,
        found.seeded, found.closed, found.evidence⟩
  | succ left ih =>
    have before : frame.seeded < seeds.values.length := by omega
    have here : frame.seeds.values[frame.seeded]? = some seeds.values[frame.seeded] := by
      rw [found.sameSeeds]
      exact List.getElem?_eq_getElem before
    have reaches' : Reaches ctx frame.inner := found.sameInner ▸ reaches
    unfold ClosureFrame.step
    simp only [Option.bind_eq_bind, Option.bind_some, seeding, Bool.false_eq_true, if_false, here]
    apply continues_reach reaches' since.memos
    intro reached after since' answered
    rw [found.sameInner, found.sameForward] at answered
    have premised : if frame.walking then ∃ n, frame.expanded = some n
        else ∃ seed, frame.seeds.values[frame.seeded]? = some seed := by
      rw [seeding]
      exact ⟨_, here⟩
    obtain ⟨taken, tookIn, absorbed⟩ := ClosureFrame.absorb_eq reached premised
    rw [seeding] at absorbed
    obtain ⟨pending, frontier, shape⟩ := tookIn.same
    show (machine ctx).Continues (frame.step ctx (some (.reach reached)) after) _
    rw [ClosureFrame.step_absorbed absorbed]
    apply ih { taken with seeded := taken.seeded + 1 } after (since.trans since')
    · rw [shape]
      exact seeding
    · exact (found.later since').seed (found.sameSeeds ▸ here) tookIn answered
    · have seeded : taken.seeded = frame.seeded := by rw [shape]
      dsimp only
      omega

theorem yields_closure (reaches : Reaches ctx inner) {state : PathState I E}
    (memos : Memos ctx state) :
    (machine ctx).Yields (.closure (.new inner seeds forward)) none state
      (Settles ctx state .built (Closed ctx inner seeds forward)) := by
  have nothing : ∀ y : I, ¬(y ∈ ([] : List I) ∨ y ∈ (∅ : PathSet I E)) := by
    rintro y (none | none)
    · cases none
    · exact PathSet.notMem_empty none
  have first : ClosureFound ctx inner seeds forward (.new inner seeds forward) state := by
    refine ⟨rfl, rfl, rfl, ?_, ?_, ?_, ?_, ?_⟩
    · intro y
      exact ⟨fun none => (Finset.notMem_empty y none).elim,
        fun none => (PathSet.notMem_empty none).elim⟩
    · exact fun y known => (nothing y known).elim
    · intro _ seed none
      cases none
    · exact fun _ x member => (PathSet.notMem_empty member).elim
    · exact fun y member => (PathSet.notMem_empty member).elim
  apply Machine.Yields.of_step
  exact seed_closure reaches state _ state (.refl memos) rfl first

end

end Purrdf.Path
