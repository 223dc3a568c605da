import Purrdf.PathMachine

/-!
# Leaf steps

One scan answers a leaf op: a predicate, a negated set or a wildcard. What it finds is in the
op's relation, and all of it unless the execution stopped on the way.
-/

namespace Purrdf.Path

open RelationPowers

variable {I E : Type} [LinearOrder I] [RowEvidence E] [DecidableEq E]
  {ctx : PathCtx I E} {state state' : PathState I E}

theorem mem_insertClaim {out : PathSet I E} {quad : Quad I} {target y : I} :
    y ∈ ctx.insertClaim out quad target ↔ y = target ∨ y ∈ out := by
  unfold PathCtx.insertClaim
  split
  · exact PathSet.mem_insert
  · exact PathSet.mem_insertEvidence

variable (ctx) in
theorem scan_spec (keep : Quad I → Bool) (target : Quad I → I) (quads : List (Quad I))
    (out : PathSet I E) (state : PathState I E) :
    Polled ctx state (ctx.scan keep target quads out state).2 ∧
      Exact (ctx.scan keep target quads out state).2
        (fun y => y ∈ out ∨ ∃ q ∈ quads, keep q = true ∧ target q = y)
        (ctx.scan keep target quads out state).1 := by
  induction quads generalizing out state with
  | nil =>
    unfold PathCtx.scan
    refine ⟨.refl state, ?_, ?_⟩
    · intro y member
      exact .inl member
    · rintro _ y (member | ⟨q, member, _⟩)
      · exact member
      · cases member
  | cons q rest ih =>
    rw [PathCtx.scan]
    obtain ⟨after, charged, polled⟩ := charge_cases ctx state
    rw [charged]
    cases stop : after.tripped with
    | true =>
      refine ⟨polled, .of_tripped stop ?_⟩
      intro y member
      exact .inl member
    | false =>
      obtain ⟨polled', found⟩ := ih (if keep q then ctx.insertClaim out q (target q) else out) after
      refine ⟨polled.trans polled', found.of_iff ?_⟩
      intro y
      by_cases kept : keep q = true
      · rw [if_pos kept, mem_insertClaim]
        simp only [List.mem_cons, exists_eq_or_imp, kept, true_and]
        tauto
      · rw [if_neg kept]
        simp only [List.mem_cons, exists_eq_or_imp, kept]
        tauto

variable (ctx) in
theorem hop_spec (keep : Quad I → Bool) (predicate : Option I) (allowed : I → Prop)
    (admits : ∀ q : Quad I, bound predicate q.p = true ∧ keep q = true ↔ allowed q.p) (node : I)
    (forward : Bool) (state : PathState I E) :
    Polled ctx state (ctx.hop keep predicate node forward state).2 ∧
      Exact (ctx.hop keep predicate node forward state).2
        (directed forward (ctx.graph.hop allowed) node) (ctx.hop keep predicate node forward state).1 := by
  unfold PathCtx.hop
  cases forward with
  | true =>
    rw [if_pos rfl]
    obtain ⟨polled, found⟩ := scan_spec ctx keep (·.o)
      (ctx.scope.forEachQuad ctx.dataset (some node) predicate none) ∅ state
    refine ⟨polled, found.of_iff ?_⟩
    intro y
    constructor
    · rintro (member | ⟨q, visited, kept, rfl⟩)
      · exact (PathSet.notMem_empty member).elim
      · obtain ⟨stored, inside, left, middle, _⟩ := GraphScope.mem_forEachQuad.mp visited
        exact ⟨q.p, ⟨q, stored, inside, (bound_some.mp left).symm, rfl, rfl⟩,
          (admits q).mp ⟨middle, kept⟩⟩
    · rintro ⟨p, ⟨q, stored, inside, rfl, rfl, rfl⟩, ok⟩
      obtain ⟨middle, kept⟩ := (admits q).mpr ok
      exact .inr ⟨q, GraphScope.mem_forEachQuad.mpr
        ⟨stored, inside, bound_some.mpr rfl, middle, rfl⟩, kept, rfl⟩
  | false =>
    rw [if_neg Bool.false_ne_true]
    obtain ⟨polled, found⟩ := scan_spec ctx keep (·.s)
      (ctx.scope.forEachQuad ctx.dataset none predicate (some node)) ∅ state
    refine ⟨polled, found.of_iff ?_⟩
    intro y
    constructor
    · rintro (member | ⟨q, visited, kept, rfl⟩)
      · exact (PathSet.notMem_empty member).elim
      · obtain ⟨stored, inside, _, middle, right⟩ := GraphScope.mem_forEachQuad.mp visited
        exact ⟨q.p, ⟨q, stored, inside, rfl, rfl, (bound_some.mp right).symm⟩,
          (admits q).mp ⟨middle, kept⟩⟩
    · rintro ⟨p, ⟨q, stored, inside, rfl, rfl, rfl⟩, ok⟩
      obtain ⟨middle, kept⟩ := (admits q).mpr ok
      exact .inr ⟨q, GraphScope.mem_forEachQuad.mpr
        ⟨stored, inside, rfl, middle, bound_some.mpr rfl⟩, kept, rfl⟩

/-- What a leaf op answers: its relation, unless the execution stopped. -/
def Answers (ctx : PathCtx I E) (op : PathOp I) (node : I) (forward : Bool)
    (state : PathState I E) (answer : PathSet I E × PathState I E) : Prop :=
  Polled ctx state answer.2 ∧
    ∀ of, Exact answer.2 (directed forward (op.relation ctx.graph of) node) answer.1

theorem stepPredicate_spec (predicate : Option I) (node : I) (forward : Bool)
    (state : PathState I E) :
    Answers ctx (.predicate predicate) node forward state
      (ctx.stepPredicate predicate node forward state) := by
  cases predicate with
  | none =>
    refine ⟨.refl state, fun of => ⟨?_, ?_⟩⟩
    · intro y member
      exact (PathSet.notMem_empty member).elim
    · intro _ y step
      cases forward with
      | true =>
        obtain ⟨p, _, absent⟩ := step
        cases absent
      | false =>
        obtain ⟨p, _, absent⟩ := step
        cases absent
  | some pid =>
    have admits : ∀ q : Quad I, bound (some pid) q.p = true ∧ true = true ↔ some pid = some q.p := by
      intro q
      rw [bound_some, Option.some_inj]
      exact and_iff_left rfl
    obtain ⟨polled, found⟩ := hop_spec ctx (fun _ => true) (some pid) (fun p => some pid = some p)
      admits node forward state
    exact ⟨polled, fun of => found⟩

theorem stepWildcard_spec (ns : Option String) (node : I) (forward : Bool) (state : PathState I E) :
    Answers ctx (.wildcard ns) node forward state (ctx.stepWildcard ns node forward state) := by
  have admits : ∀ q : Quad I, bound none q.p = true ∧ ctx.predOk ns q.p = true ↔
      ctx.graph.inNamespace ns q.p := by
    intro q
    unfold PathCtx.predOk Graph.inNamespace
    cases ns with
    | none => simp [bound]
    | some pfx =>
      simp only [bound, Option.all_none, true_and, Option.some_inj, forall_eq']
      unfold PathCtx.graph
      simp only [DatasetView.iri_eq_some]
      cases ctx.dataset.resolve q.p <;> simp
  obtain ⟨polled, found⟩ := hop_spec ctx _ _ _ admits node forward state
  exact ⟨polled, fun of => found⟩

variable (ctx) in
theorem stepSide_spec (out : PathSet I E) (excluded : Option (List I)) (node : I) (forward : Bool)
    (state : PathState I E) :
    Polled ctx state (ctx.stepSide out excluded node forward state).2 ∧
      Exact (ctx.stepSide out excluded node forward state).2
        (fun y => y ∈ out ∨ directed forward (ctx.graph.excluding excluded) node y)
        (ctx.stepSide out excluded node forward state).1 := by
  cases excluded with
  | none =>
    refine ⟨.refl state, ?_, ?_⟩
    · intro y member
      exact .inl member
    · rintro _ y (member | step)
      · exact member
      · cases forward with
        | true =>
          obtain ⟨_, absent, _⟩ := step
          cases absent
        | false =>
          obtain ⟨_, absent, _⟩ := step
          cases absent
  | some excluded =>
    have admits : ∀ q : Quad I, bound none q.p = true ∧ decide (q.p ∉ excluded) = true ↔
        q.p ∉ excluded := by
      intro q
      simp [bound]
    obtain ⟨polled, found⟩ := hop_spec ctx (fun q => q.p ∉ excluded) none (· ∉ excluded) admits node
      forward state
    have same : ∀ y, directed forward (ctx.graph.hop (· ∉ excluded)) node y ↔
        directed forward (ctx.graph.excluding (some excluded)) node y := by
      intro y
      cases forward with
      | true => exact ⟨fun step => ⟨excluded, rfl, step⟩, fun ⟨_, set, step⟩ => by cases set; exact step⟩
      | false => exact ⟨fun step => ⟨excluded, rfl, step⟩, fun ⟨_, set, step⟩ => by cases set; exact step⟩
    refine ⟨polled, ?_, ?_⟩
    · intro y member
      rcases PathSet.mem_extendWitnesses.mp member with old | new
      · exact .inl old
      · exact .inr ((same y).mp (found.sound y new))
    · rintro runs y (old | step)
      · exact PathSet.mem_extendWitnesses.mpr (.inl old)
      · exact PathSet.mem_extendWitnesses.mpr (.inr (found.complete runs y ((same y).mpr step)))

theorem stepNegated_spec (sets : NegatedSets I) (node : I) (forward : Bool)
    (state : PathState I E) :
    Answers ctx (.negated sets) node forward state (ctx.stepNegated sets node forward state) := by
  unfold PathCtx.stepNegated
  obtain ⟨polled, first⟩ := stepSide_spec ctx ∅ sets.forward node forward state
  obtain ⟨polled', second⟩ := stepSide_spec ctx
    (ctx.stepSide ∅ sets.forward node forward state).1 sets.inverse node (!forward)
    (ctx.stepSide ∅ sets.forward node forward state).2
  have first := first.later polled'.tripped
  have splits : ∀ of y, directed forward ((PathOp.negated sets).relation ctx.graph of) node y ↔
      directed forward (ctx.graph.excluding sets.forward) node y ∨
        directed (!forward) (ctx.graph.excluding sets.inverse) node y := by
    intro of y
    cases forward <;> exact Iff.rfl
  refine ⟨polled.trans polled', fun of => ⟨?_, ?_⟩⟩
  · intro y member
    rw [splits]
    rcases second.sound y member with old | step
    · rcases first.sound y old with none | step
      · exact (PathSet.notMem_empty none).elim
      · exact .inl step
    · exact .inr step
  · intro runs y step
    rcases (splits of y).mp step with step | step
    · exact second.complete runs y (.inl (first.complete runs y (.inr step)))
    · exact second.complete runs y (.inr step)

end Purrdf.Path

/-!
## Sequences and alternatives

The contract every frame is held to, and the two frames that ask each element in turn: a
frontier stepped through a sequence, and the union of an alternative's answers.
-/

namespace Purrdf.Path

open Frames RelationPowers

variable {I E : Type} [LinearOrder I] [RowEvidence E] [DecidableEq E]

def PathCtx.relation (ctx : PathCtx I E) (op : Nat) : I → I → Prop :=
  ctx.program.relation ctx.graph op

structure Memos (ctx : PathCtx I E) (state : PathState I E) : Prop where
  reach : ∀ op node forward set, state.reachCache.lookup (op, node, forward) = some set →
    ∀ y, y ∈ set ↔ directed forward (ctx.relation op) node y
  powers : ∀ owner bit node set, state.powers.lookup (owner, bit, node) = some set →
    ∀ y, y ∈ set ↔ Power (directed owner.forward (ctx.relation owner.inner)) (2 ^ bit) node y

/-- A later state of a traversal: no memo holds a part of a set, a stop stays, and there is none
without a governor. -/
structure Since (ctx : PathCtx I E) (state after : PathState I E) : Prop where
  memos : Memos ctx after
  stays : state.tripped = true → after.tripped = true
  caused : after.tripped = true → state.tripped = true ∨ ∃ poll, ctx.trips poll = true

def Settles (ctx : PathCtx I E) (start : PathState I E) (make : PathSet I E → Value I E)
    (target : I → Prop) (value : Value I E) (after : PathState I E) : Prop :=
  Since ctx start after ∧ ∃ set, value = make set ∧ Exact after target set

/-- The op answers its relation, in either direction and from any state. -/
def Reaches (ctx : PathCtx I E) (op : Nat) : Prop :=
  ∀ node forward state, Memos ctx state →
    (machine ctx).Yields (.reach (.new op node forward)) none state
      (Settles ctx state .reach (directed forward (ctx.relation op) node))

section
variable {ctx : PathCtx I E} {start state after : PathState I E} {target : I → Prop}
  {make : PathSet I E → Value I E}

omit [RowEvidence E] [DecidableEq E]

theorem Since.trans {later : PathState I E} (first : Since ctx start state)
    (second : Since ctx state later) : Since ctx start later := by
  refine ⟨second.memos, fun stop => second.stays (first.stays stop), ?_⟩
  intro stop
  rcases second.caused stop with earlier | cause
  · exact first.caused earlier
  · exact .inr cause

theorem Memos.of_polled (memos : Memos ctx state) (polled : Polled ctx state after) :
    Memos ctx after := by
  refine ⟨?_, ?_⟩
  · rw [polled.reachCache]
    exact memos.reach
  · rw [polled.powers]
    exact memos.powers

theorem Since.of_polled (memos : Memos ctx state) (polled : Polled ctx state after) :
    Since ctx state after :=
  ⟨memos.of_polled polled, polled.tripped, polled.caused⟩

theorem Since.refl (memos : Memos ctx state) : Since ctx state state :=
  ⟨memos, id, .inl⟩

end

section
variable {ctx : PathCtx I E} {start state : PathState I E} {post : Value I E → PathState I E → Prop}

theorem continues_returns {value : Value I E} {frame : Frame I E} (holds : post value state) :
    (machine ctx).Continues (returns value frame state) post :=
  holds

theorem continues_reach {op : Nat} {node : I} {forward : Bool} {frame : Frame I E}
    (reaches : Reaches ctx op) (memos : Memos ctx state)
    (resumes : ∀ reached after, Since ctx state after →
      Exact after (directed forward (ctx.relation op) node) reached →
      (machine ctx).Continues (frame.step ctx (some (.reach reached)) after) post) :
    (machine ctx).Continues (calls (.reach (.new op node forward)) frame state) post := by
  apply (reaches node forward state memos).mono
  rintro value after ⟨since, reached, rfl, found⟩
  exact .of_step (resumes reached after since found)

end

/-! ### Sequences -/

section
variable {ctx : PathCtx I E} {elements : List Nat} {node : I} {forward : Bool}

/-- The relations a walk in a direction goes through, in the order it does. -/
def walked (ctx : PathCtx I E) (elements : List Nat) (forward : Bool) : List (I → I → Prop) :=
  (if forward then elements else elements.reverse).map fun element =>
    directed forward (ctx.relation element)

omit [RowEvidence E] [DecidableEq E] in
theorem composed_walked {y : I} : Composed (walked ctx elements forward) node y ↔
    directed forward (Composed (elements.map ctx.relation)) node y := by
  cases forward with
  | true => exact Iff.rfl
  | false =>
    have reversed : walked ctx elements false = ((elements.map ctx.relation).map flip).reverse := by
      simp [walked, directed, List.map_reverse, Function.comp_def]
    rw [reversed]
    exact composed_flip

omit [RowEvidence E] [DecidableEq E] in
variable (ctx) in
theorem walked_getElem? {k element : Nat}
    (held : elements[if forward then k else elements.length - 1 - k]? = some element)
    (inside : k < elements.length) :
    (walked ctx elements forward)[k]? = some (directed forward (ctx.relation element)) := by
  unfold walked
  rw [List.getElem?_map]
  cases forward with
  | true =>
    rw [if_pos rfl] at held ⊢
    rw [held]
    rfl
  | false =>
    rw [if_neg Bool.false_ne_true] at held ⊢
    rw [List.getElem?_reverse inside, held]
    rfl

/-- What a sequence frame has found: the frontier after `k` elements, and what its first `pos`
nodes reach through the next one. -/
structure SequenceFound (ctx : PathCtx I E) (elements : List Nat) (node : I)
    (frame : SequenceFrame I E) (state : PathState I E) : Prop where
  frontier : Exact state (Composed ((walked ctx elements frame.forward).take frame.k) node)
    frame.frontier
  next : ∀ step, (walked ctx elements frame.forward)[frame.k]? = some step →
    Exact state (fun y => ∃ mid ∈ frame.frontier.values.take frame.pos, step mid y) frame.next
  inside : frame.k ≤ elements.length

omit [RowEvidence E] [DecidableEq E] in
variable (ctx elements forward) in
theorem walked_length : (walked ctx elements forward).length = elements.length := by
  unfold walked
  cases forward <;> simp

omit [RowEvidence E] [DecidableEq E] in
theorem SequenceFound.advance {frame : SequenceFrame I E} {state : PathState I E}
    (found : SequenceFound ctx elements node frame state) (inside : frame.k < elements.length)
    (stepped : frame.frontier.values.length ≤ frame.pos) :
    SequenceFound ctx elements node
      { frame with frontier := frame.next, next := ∅, pos := 0, k := frame.k + 1 } state := by
  have place : frame.k < (walked ctx elements frame.forward).length := by rwa [walked_length]
  have next := found.next _ (List.getElem?_eq_getElem place)
  rw [List.take_of_length_le stepped] at next
  have longer : Exact state (fun y => ∃ mid, Composed
      ((walked ctx elements frame.forward).take frame.k) node mid ∧
        (walked ctx elements frame.forward)[frame.k] mid y) frame.next := by
    refine ⟨?_, ?_⟩
    · intro y member
      obtain ⟨mid, old, step⟩ := next.sound y member
      exact ⟨mid, found.frontier.sound mid old, step⟩
    · rintro runs y ⟨mid, old, step⟩
      exact next.complete runs y ⟨mid, found.frontier.complete runs mid old, step⟩
  refine ⟨longer.of_iff ?_, ?_, inside⟩
  · intro y
    rw [List.take_succ_eq_append_getElem place, composed_append]
    constructor
    · rintro ⟨mid, old, step⟩
      exact ⟨mid, old, y, step, rfl⟩
    · rintro ⟨mid, old, _, step, rfl⟩
      exact ⟨mid, old, step⟩
  · intro step held
    refine ⟨?_, ?_⟩
    · intro y member
      exact (PathSet.notMem_empty member).elim
    · rintro _ y ⟨mid, none, _⟩
      cases none

theorem SequenceFound.absorb {frame : SequenceFrame I E} {state after : PathState I E} {mid : I}
    {reached : PathSet I E} {element : Nat}
    (found : SequenceFound ctx elements node frame state) (since : Since ctx state after)
    (here : frame.frontier.values[frame.pos]? = some mid) (inside : frame.k < elements.length)
    (named : elements[if frame.forward then frame.k else elements.length - 1 - frame.k]? =
      some element)
    (answered : Exact after (directed frame.forward (ctx.relation element) mid) reached) :
    ∃ frame', frame.absorb reached = some frame' ∧ SequenceFound ctx elements node frame' after ∧
      frame'.op = frame.op ∧ frame'.forward = frame.forward ∧ frame'.k = frame.k ∧
      frame'.frontier = frame.frontier ∧ frame'.pos = frame.pos + 1 := by
  unfold SequenceFrame.absorb
  rw [here]
  refine ⟨_, rfl, ⟨found.frontier.later since.stays, ?_, found.inside⟩, rfl, rfl, rfl, rfl, rfl⟩
  intro step held
  have same : step = directed frame.forward (ctx.relation element) := by
    have walked := walked_getElem? ctx named inside
    exact Option.some.inj (held.symm.trans walked)
  subst same
  have next := (found.next _ held).later since.stays
  have split : frame.frontier.values.take (frame.pos + 1) =
      frame.frontier.values.take frame.pos ++ [mid] := by
    rw [List.take_add_one, here]
    rfl
  refine ⟨?_, ?_⟩
  · intro y member
    rw [split]
    rcases (PathSet.mem_foldl (fun _ _ _ => PathSet.mem_insertComposed) _).mp member with old | new
    · obtain ⟨other, earlier, step⟩ := next.sound y old
      exact ⟨other, List.mem_append_left _ earlier, step⟩
    · exact ⟨mid, List.mem_append_right _ List.mem_cons_self, answered.sound y new⟩
  · intro runs y
    rw [split]
    rintro ⟨other, among, step⟩
    apply (PathSet.mem_foldl (fun _ _ _ => PathSet.mem_insertComposed) _).mpr
    rcases List.mem_append.mp among with earlier | last
    · exact .inl (next.complete runs y ⟨other, earlier, step⟩)
    · rw [List.mem_singleton.mp last] at step
      exact .inr (answered.complete runs y step)

theorem drive_sequence (each : ∀ element ∈ elements, Reaches ctx element) {op : Nat}
    (listed : elementsOf ctx.program op = some elements) (start : PathState I E)
    (frame : SequenceFrame I E) (atOp : frame.op = op) (state : PathState I E)
    (since : Since ctx start state) (found : SequenceFound ctx elements node frame state) :
    (machine ctx).Continues (frame.drive elements state)
      (Settles ctx start .built
        (directed frame.forward (Composed (elements.map ctx.relation)) node)) := by
  rw [SequenceFrame.drive]
  split
  · rename_i done
    apply continues_returns
    refine ⟨since, frame.frontier, rfl, found.frontier.of_iff ?_⟩
    intro y
    rw [List.take_of_length_le (by rwa [walked_length])]
    exact composed_walked
  · rename_i more
    have inside := Nat.lt_of_not_le more
    split
    · rename_i dead
      apply continues_returns
      refine ⟨since, ∅, rfl, ?_, ?_⟩
      · intro y member
        exact (PathSet.notMem_empty member).elim
      · intro runs y steps
        rw [← composed_walked, ← List.take_append_drop frame.k (walked ctx elements frame.forward),
          composed_append] at steps
        obtain ⟨mid, old, _⟩ := steps
        have member := found.frontier.complete runs mid old
        rw [← PathSet.mem_values, List.isEmpty_iff.mp dead] at member
        cases member
    · split
      · rename_i mid here
        have bound := (List.getElem?_eq_some_iff.mp here).1
        have named : ∃ element,
            elements[if frame.forward then frame.k else elements.length - 1 - frame.k]? =
              some element := by
          refine ⟨_, List.getElem?_eq_getElem ?_⟩
          split <;> omega
        obtain ⟨element, named⟩ := named
        rw [named]
        apply continues_reach (each element (List.mem_of_getElem? named)) since.memos
        intro reached after since' answered
        obtain ⟨frame', absorbed, found', sameOp, sameForward, sameK, sameFrontier, samePos⟩ :=
          found.absorb since' here inside named answered
        have later := drive_sequence each listed start frame' (sameOp.trans atOp) after
          (since.trans since') found'
        unfold Frame.step SequenceFrame.step
        dsimp only [Value.intoReach, Option.bind_eq_bind, Option.bind_some]
        rw [absorbed, Option.bind_some, sameOp, atOp, listed, Option.bind_some, ← sameForward]
        exact later
      · rename_i none'
        have stepped := List.getElem?_eq_none_iff.mp none'
        exact drive_sequence each listed start
          { frame with frontier := frame.next, next := ∅, pos := 0, k := frame.k + 1 } atOp state since
          (found.advance inside stepped)
termination_by (elements.length - frame.k, frame.frontier.values.length - frame.pos)
decreasing_by
  · rw [sameK, sameFrontier, samePos]
    exact Prod.Lex.right _ (by omega)
  · exact Prod.Lex.left _ _ (by omega)

theorem yields_sequence (each : ∀ element ∈ elements, Reaches ctx element) {op : Nat}
    (listed : elementsOf ctx.program op = some elements) {state : PathState I E}
    (memos : Memos ctx state) :
    (machine ctx).Yields (.sequence (.new op node forward)) none state
      (Settles ctx state .built (directed forward (Composed (elements.map ctx.relation)) node)) := by
  have first : SequenceFound ctx elements node (.new op node forward) state := by
    refine ⟨⟨?_, ?_⟩, ?_, Nat.zero_le _⟩
    · intro y member
      exact (List.mem_singleton.mp (PathSet.mem_fromIter.mp member)).symm
    · intro _ y same
      exact PathSet.mem_fromIter.mpr (List.mem_singleton.mpr (Eq.symm same))
    · intro step held
      refine ⟨?_, ?_⟩
      · intro y member
        exact (PathSet.notMem_empty member).elim
      · rintro _ y ⟨mid, none, _⟩
        cases none
  apply Machine.Yields.of_step
  unfold machine Frame.step SequenceFrame.step
  dsimp only [Option.bind_eq_bind, Option.bind_some]
  rw [show (SequenceFrame.new op node forward : SequenceFrame I E).op = op from rfl, listed,
    Option.bind_some]
  exact drive_sequence each listed state _ rfl state (.refl memos) first

omit [RowEvidence E] [DecidableEq E] in
theorem directed_united {y : I} : directed forward (United (elements.map ctx.relation)) node y ↔
    ∃ element ∈ elements, directed forward (ctx.relation element) node y := by
  have either : ∀ x y, United (elements.map ctx.relation) x y ↔
      ∃ element ∈ elements, ctx.relation element x y := by
    intro x y
    constructor
    · rintro ⟨_, member, step⟩
      obtain ⟨element, among, rfl⟩ := List.mem_map.mp member
      exact ⟨element, among, step⟩
    · rintro ⟨element, among, step⟩
      exact ⟨_, List.mem_map_of_mem among, step⟩
  cases forward with
  | true => exact either node y
  | false => exact either y node

/-- What an alternative frame has found: the answers of its first `i` elements. -/
def AlternativeFound (ctx : PathCtx I E) (elements : List Nat) (node : I) (forward : Bool) (i : Nat)
    (state : PathState I E) (out : PathSet I E) : Prop :=
  Exact state (fun y => ∃ element ∈ elements.take i,
    directed forward (ctx.relation element) node y) out

theorem ask_alternative (each : ∀ element ∈ elements, Reaches ctx element) {op : Nat}
    (listed : elementsOf ctx.program op = some elements) (start : PathState I E) {i : Nat}
    (inside : i ≤ elements.length) (out : PathSet I E) (state : PathState I E)
    (since : Since ctx start state)
    (found : AlternativeFound ctx elements node forward i state out) :
    (machine ctx).Continues
      (match elements[i]? with
        | some element =>
          calls (.reach (.new element node forward)) (.alternative ⟨op, node, forward, i, out⟩) state
        | none => returns (.built out) (.alternative ⟨op, node, forward, i, out⟩) state)
      (Settles ctx start .built (directed forward (United (elements.map ctx.relation)) node)) := by
  induction left : elements.length - i generalizing i out state with
  | zero =>
    rw [List.getElem?_eq_none (by omega)]
    apply continues_returns
    refine ⟨since, out, rfl, found.of_iff ?_⟩
    intro y
    rw [List.take_of_length_le (by omega)]
    exact directed_united.symm
  | succ left ih =>
    have before : i < elements.length := by omega
    rw [List.getElem?_eq_getElem before]
    apply continues_reach (each _ (List.getElem_mem before)) since.memos
    intro reached after since' answered
    have split : elements.take (i + 1) = elements.take i ++ [elements[i]] :=
      List.take_succ_eq_append_getElem before
    have found' : AlternativeFound ctx elements node forward (i + 1) after
        (out.extendWitnesses reached) := by
      have old := found.later since'.stays
      refine ⟨?_, ?_⟩
      · intro y member
        rw [split]
        rcases PathSet.mem_extendWitnesses.mp member with earlier | last
        · obtain ⟨element, among, step⟩ := old.sound y earlier
          exact ⟨element, List.mem_append_left _ among, step⟩
        · exact ⟨_, List.mem_append_right _ List.mem_cons_self, answered.sound y last⟩
      · intro runs y
        rw [split]
        rintro ⟨element, among, step⟩
        apply PathSet.mem_extendWitnesses.mpr
        rcases List.mem_append.mp among with earlier | last
        · exact .inl (old.complete runs y ⟨element, earlier, step⟩)
        · rw [List.mem_singleton.mp last] at step
          exact .inr (answered.complete runs y step)
    have later := ih before (out.extendWitnesses reached) after (since.trans since') found' (by omega)
    unfold Frame.step AlternativeFrame.step
    dsimp only [Value.intoReach, Option.bind_eq_bind, Option.bind_some]
    rw [listed, Option.bind_some]
    exact later

theorem yields_alternative (each : ∀ element ∈ elements, Reaches ctx element) {op : Nat}
    (listed : elementsOf ctx.program op = some elements) {state : PathState I E}
    (memos : Memos ctx state) :
    (machine ctx).Yields (.alternative (.new op node forward)) none state
      (Settles ctx state .built (directed forward (United (elements.map ctx.relation)) node)) := by
  have first : AlternativeFound ctx elements node forward 0 state ∅ := by
    refine ⟨?_, ?_⟩
    · intro y member
      exact (PathSet.notMem_empty member).elim
    · rintro _ y ⟨element, none, _⟩
      cases none
  apply Machine.Yields.of_step
  unfold machine Frame.step AlternativeFrame.step
  dsimp only [Option.bind_eq_bind, Option.bind_some]
  rw [show (AlternativeFrame.new op node forward : AlternativeFrame I E).op = op from rfl, listed,
    Option.bind_some]
  exact ask_alternative each listed state (Nat.zero_le _) ∅ state (.refl memos) first

end

end Purrdf.Path
