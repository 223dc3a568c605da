import Purrdf.PathRange

/-!
# Reachability

The answers of the reach machine are the relation of the path: by induction on the ops, from
the last to the first, each of which names only later ones.
-/

namespace Purrdf.Path

open Frames Relation RelationPowers

variable {I E : Type} [LinearOrder I] [RowEvidence E] [DecidableEq E]

section
variable {ctx : PathCtx I E} {start state : PathState I E} {op : Nat} {node y : I} {forward : Bool}

/-! ### Directions -/

variable {r : I → I → Prop}

omit [LinearOrder I] in
theorem directed_flip : directed forward (flip r) = directed (!forward) r := by
  cases forward <;> rfl

omit [LinearOrder I] in
theorem directed_transGen :
    directed forward (TransGen r) node y ↔ TransGen (directed forward r) node y := by
  cases forward with
  | true => exact Iff.rfl
  | false => exact (transGen_swap (r := r) (a := node) (b := y)).symm

omit [LinearOrder I] in
theorem directed_reflTransGen :
    directed forward (ReflTransGen r) node y ↔ ReflTransGen (directed forward r) node y := by
  cases forward with
  | true => exact Iff.rfl
  | false => exact (reflTransGen_swap (r := r) (a := node) (b := y)).symm

omit [LinearOrder I] in
theorem directed_optional :
    directed forward (fun x y => x = y ∨ r x y) node y ↔ y = node ∨ directed forward r node y := by
  cases forward with
  | true => exact or_congr_left eq_comm
  | false => exact Iff.rfl

omit [RowEvidence E] [DecidableEq E] in
theorem directed_range {inner min : Nat} {max : Option Nat} :
    directed forward (fun x y => ∃ k, InWindow min max k ∧ Power (ctx.relation inner) k x y) node y ↔
      Ranged ctx inner node forward min max y := by
  cases forward with
  | true => exact Iff.rfl
  | false =>
    apply exists_congr
    intro k
    exact and_congr_right fun _ => power_flip.symm

omit [RowEvidence E] [DecidableEq E] in
theorem resolveReverse_spec (numbered : WellNumbered ctx.program.ops) (fuel op : Nat)
    (forward : Bool) (inside : op < ctx.program.ops.length)
    (enough : ctx.program.ops.length ≤ fuel + op) :
    ∃ op' forward' entry, resolveReverse ctx.program.ops fuel op forward = some (op', forward') ∧
      op ≤ op' ∧ ctx.program.ops[op']? = some entry ∧ (∀ inner, entry ≠ .reverse inner) ∧
        directed forward (ctx.relation op) = directed forward' (ctx.relation op') := by
  induction fuel generalizing op forward with
  | zero => omega
  | succ fuel ih =>
    have here := List.getElem?_eq_getElem inside
    have meaning : ctx.relation op = ctx.program.ops[op].relation ctx.graph ctx.relation :=
      PathProgram.relation_eq numbered here
    rw [resolveReverse]
    cases entry : ctx.program.ops[op] with
    | reverse inner =>
      rw [entry] at here meaning
      have child := numbered op _ here inner List.mem_cons_self
      obtain ⟨op', forward', last, resolved, order, held, plain, same⟩ :=
        ih inner (!forward) child.2 (by omega)
      rw [here]
      refine ⟨op', forward', last, resolved, by omega, held, plain, ?_⟩
      rw [← same, ← directed_flip]
      exact congrArg (directed forward) meaning
    | _ =>
      rw [entry] at here
      rw [here]
      exact ⟨op, forward, _, rfl, le_rfl, here, fun inner => nofun, rfl⟩

omit [RowEvidence E] [DecidableEq E] in
theorem Memos.insertReach {set : PathSet I E} (memos : Memos ctx state)
    (complete : ∀ y, y ∈ set ↔ directed forward (ctx.relation op) node y) :
    Memos ctx { state with reachCache := state.reachCache.insert (op, node, forward) set } := by
  refine ⟨?_, memos.powers⟩
  intro op' node' forward' set' held
  by_cases same : (op', node', forward') = (op, node, forward)
  · rw [same, AList.lookup_insert] at held
    cases held
    cases same
    exact complete
  · rw [AList.lookup_insert_ne same] at held
    exact memos.reach op' node' forward' set' held

theorem finish_reach {adds : Bool} {set : PathSet I E} (since : Since ctx start state)
    (found : Exact state (directed forward (ctx.relation op) node) set) :
    (machine ctx).Continues (ReachFrame.finish ctx ⟨op, node, forward, adds⟩ set state)
      (Settles ctx start .reach (directed forward (ctx.relation op) node)) := by
  obtain ⟨after, consulted, polled⟩ := stopped_cases ctx state
  have since' := since.trans (.of_polled since.memos polled)
  have found' := found.later polled.tripped
  unfold ReachFrame.finish
  rw [consulted]
  cases stop : after.tripped with
  | true => exact continues_returns ⟨since', set, rfl, found'⟩
  | false =>
    have complete : ∀ y, y ∈ set ↔ directed forward (ctx.relation op) node y :=
      fun y => ⟨found'.sound y, found'.complete stop y⟩
    apply continues_returns
    exact ⟨⟨since'.memos.insertReach complete, since'.stays, since'.caused⟩, set, rfl,
      found'.sound, found'.complete⟩

theorem finish_request {adds : Bool} {callee : Frame I E} {make : PathSet I E → Value I E}
    {target : I → Prop} (taken : ∀ set, (make set).intoSet = some set)
    (yields : (machine ctx).Yields callee none state (Settles ctx state make target))
    (since : Since ctx start state)
    (same : ∀ y, (adds = true ∧ y = node) ∨ target y ↔ directed forward (ctx.relation op) node y) :
    (machine ctx).Continues (calls callee (.reach ⟨op, node, forward, adds⟩) state)
      (Settles ctx start .reach (directed forward (ctx.relation op) node)) := by
  apply yields.mono
  rintro value later ⟨since', set, rfl, found⟩
  apply Machine.Yields.of_step
  show (machine ctx).Continues
    (ReachFrame.step ctx ⟨op, node, forward, adds⟩ (some (make set)) later) _
  unfold ReachFrame.step
  dsimp only
  rw [taken, Option.bind_eq_bind, Option.bind_some]
  apply finish_reach (since.trans since')
  have members : ∀ y, y ∈ (if adds then set.insert node else set) ↔
      (adds = true ∧ y = node) ∨ y ∈ set := by
    intro y
    cases adds <;> simp
  refine ⟨?_, ?_⟩
  · intro y member
    apply (same y).mp
    exact ((members y).mp member).imp_right (found.sound y)
  · intro runs y step
    apply (members y).mpr
    exact ((same y).mpr step).imp_right (found.complete runs y)

theorem finish_leaf {adds : Bool} {entry : PathOp I} {answer : PathSet I E × PathState I E}
    (since : Since ctx start state) (answers : Answers ctx entry node forward state answer)
    (meaning : ctx.relation op = entry.relation ctx.graph ctx.relation) :
    (machine ctx).Continues (ReachFrame.finish ctx ⟨op, node, forward, adds⟩ answer.1 answer.2)
      (Settles ctx start .reach (directed forward (ctx.relation op) node)) := by
  apply finish_reach (since.trans (.of_polled since.memos answers.1))
  rw [meaning]
  exact answers.2 _

theorem closed_singleton {inner : Nat} :
    Closed ctx inner (.fromIter [node] : PathSet I E) forward y ↔
      TransGen (directed forward (ctx.relation inner)) node y := by
  constructor
  · rintro ⟨seed, member, steps⟩
    rw [List.mem_singleton.mp (PathSet.mem_fromIter.mp member)] at steps
    exact steps
  · intro steps
    exact ⟨node, PathSet.mem_fromIter.mpr (List.mem_singleton.mpr rfl), steps⟩

variable [WellFoundedGT E]

theorem enter_reach {entry : PathOp I} (plain : ∀ inner, entry ≠ .reverse inner)
    (held : ctx.program.ops[op]? = some entry)
    (meaning : ctx.relation op = entry.relation ctx.graph ctx.relation)
    (children : ∀ child ∈ entry.children, Reaches ctx child) (since : Since ctx start state) :
    (machine ctx).Continues (ReachFrame.enter ctx ⟨op, node, forward, false⟩ entry state)
      (Settles ctx start .reach (directed forward (ctx.relation op) node)) := by
  have built : ∀ set : PathSet I E, (Value.built set).intoSet = some set := fun _ => rfl
  have reached : ∀ set : PathSet I E, (Value.reach set).intoSet = some set := fun _ => rfl
  cases entry with
  | predicate predicate =>
    exact finish_leaf since (stepPredicate_spec predicate node forward state) meaning
  | negated sets => exact finish_leaf since (stepNegated_spec sets node forward state) meaning
  | wildcard ns => exact finish_leaf since (stepWildcard_spec ns node forward state) meaning
  | reverse inner => exact (plain inner rfl).elim
  | sequence elements =>
    have listed : elementsOf ctx.program op = some elements := by rw [elementsOf, held]
    apply finish_request built (yields_sequence children listed since.memos) since
    intro y
    rw [meaning]
    simp [PathOp.relation, PathOp.children]
  | alternative elements =>
    have listed : elementsOf ctx.program op = some elements := by rw [elementsOf, held]
    apply finish_request built (yields_alternative children listed since.memos) since
    intro y
    rw [meaning]
    simp [PathOp.relation, PathOp.children]
  | zeroOrOne inner =>
    have child := children inner List.mem_cons_self
    apply finish_request reached (child node forward state since.memos) since
    intro y
    rw [meaning, PathOp.relation, directed_optional]
    exact or_congr_left (and_iff_right rfl)
  | zeroOrMore inner =>
    have child := children inner List.mem_cons_self
    apply finish_request built (yields_closure child since.memos) since
    intro y
    rw [meaning, PathOp.relation, directed_reflTransGen, reflTransGen_iff_eq_or_transGen,
      closed_singleton]
    exact or_congr_left (and_iff_right rfl)
  | oneOrMore inner =>
    have child := children inner List.mem_cons_self
    apply finish_request built (yields_closure child since.memos) since
    intro y
    rw [meaning, PathOp.relation, directed_transGen, closed_singleton]
    simp
  | range inner min max =>
    have child := children inner List.mem_cons_self
    apply finish_request built (yields_range child node forward min max since.memos) since
    intro y
    rw [meaning, PathOp.relation, directed_range]
    simp

theorem reaches_op (numbered : WellNumbered ctx.program.ops) (op : Nat)
    (inside : op < ctx.program.ops.length) : Reaches ctx op := by
  induction later : ctx.program.ops.length - op using Nat.strong_induction_on generalizing op with
  | _ left ih =>
  intro node forward state memos
  apply Machine.Yields.of_step
  show (machine ctx).Continues (ReachFrame.step ctx (.new op node forward) none state) _
  obtain ⟨between, consulted, polled⟩ := stopped_cases ctx state
  have since := Since.of_polled memos polled
  unfold ReachFrame.step
  dsimp only
  rw [consulted]
  cases stop : between.tripped with
  | true =>
    apply continues_returns
    refine ⟨since, ∅, rfl, .of_tripped stop ?_⟩
    intro y member
    exact (PathSet.notMem_empty member).elim
  | false =>
    obtain ⟨op', forward', entry, resolved, order, held, plain, same⟩ :=
      resolveReverse_spec numbered ctx.program.ops.length op forward inside (Nat.le_add_right _ _)
    dsimp only [ReachFrame.new]
    rw [resolved, Option.bind_eq_bind, Option.bind_some, same]
    dsimp only
    split
    · rename_i cached found
      have complete := since.memos.reach op' node forward' cached found
      apply continues_returns
      exact ⟨since, cached, rfl, fun y => (complete y).mp, fun _ y => (complete y).mpr⟩
    · rw [held, Option.bind_eq_bind, Option.bind_some]
      apply enter_reach plain held (PathProgram.relation_eq numbered held) ?_ since
      intro child member
      obtain ⟨after, within⟩ := numbered op' entry held child member
      exact ih (ctx.program.ops.length - child) (by omega) child within rfl

end

/-! ### Paths -/

section
variable [WellFoundedGT E]

/-- What a traversal answers from a node, with the state it leaves: the nodes are in the
relation, and all of it unless a governor stopped the execution, which is for good; the memos
are complete. -/
structure ReachedFrom (ctx : PathCtx I E) (relation : I → I → Prop) (node : I) (forward : Bool)
    (state : PathState I E) (set : PathSet I E) (after : PathState I E) : Prop where
  sound : ∀ y ∈ set, directed forward relation node y
  complete : after.tripped = false → ∀ y, directed forward relation node y → y ∈ set
  memos : Memos ctx after
  stays : state.tripped = true → after.tripped = true
  caused : after.tripped = true → state.tripped = true ∨ ∃ poll, ctx.trips poll = true

omit [RowEvidence E] [DecidableEq E] [WellFoundedGT E] in
theorem ReachedFrom.mem_iff {ctx : PathCtx I E} {relation : I → I → Prop} {node : I}
    {forward : Bool} {state after : PathState I E} {set : PathSet I E}
    (reached : ReachedFrom ctx relation node forward state set after)
    (free : ∀ poll, ctx.trips poll = false) (running : state.tripped = false) (y : I) :
    y ∈ set ↔ directed forward relation node y := by
  have runs : after.tripped = false := by
    by_contra stop
    rcases reached.caused (Bool.of_not_eq_false stop) with earlier | ⟨poll, trips⟩
    · rw [running] at earlier
      cases earlier
    · rw [free poll] at trips
      cases trips
  exact ⟨reached.sound y, reached.complete runs y⟩

theorem reach_compiled {path : PropertyPathExpression} (ctx : PathCtx I E)
    (numbered : WellNumbered ctx.program.ops) (inside : rootOp < ctx.program.ops.length)
    (meaning : ctx.relation rootOp = path.relation ctx.graph) (node : I) (forward : Bool)
    (state : PathState I E) (memos : Memos ctx state) :
    ∃ set after steps,
      (∀ fuel, reach ctx (fuel + steps) rootOp node forward state = some (set, after)) ∧
      ReachedFrom ctx (path.relation ctx.graph) node forward state set after := by
  obtain ⟨value, after, steps, ⟨since, set, rfl, found⟩, runs⟩ :=
    (reaches_op numbered rootOp inside node forward state memos).run
  refine ⟨set, after, steps, ?_, ?_⟩
  · intro fuel
    unfold reach
    rw [runs fuel]
    rfl
  · rw [meaning] at found
    exact ⟨found.sound, found.complete, since.memos, since.stays, since.caused⟩

/-- A path compiles, and from any state whose memos are complete its traversals end, in either
direction, with the path's relation, or with a part of it after a stop. Where no governor stops
them, the two directions agree. -/
theorem reach_relation (dataset : DatasetView I) (path : PropertyPathExpression) :
    ∃ program, compile dataset path = some program ∧
      ∀ ctx : PathCtx I E, ctx.dataset = dataset → ctx.program = program →
        (∀ node forward state, Memos ctx state → ∃ set after steps,
          (∀ fuel, reach ctx (fuel + steps) rootOp node forward state = some (set, after)) ∧
          ReachedFrom ctx (path.relation ctx.graph) node forward state set after ∧
          ((∀ poll, ctx.trips poll = false) → state.tripped = false →
            ∀ y, y ∈ set ↔ directed forward (path.relation ctx.graph) node y)) ∧
        ∀ x y state state', Memos ctx state → Memos ctx state' →
          (∀ poll, ctx.trips poll = false) → state.tripped = false → state'.tripped = false →
          ∃ fuel set set' after after', reach ctx fuel rootOp x true state = some (set, after) ∧
            reach ctx fuel rootOp y false state' = some (set', after') ∧ (y ∈ set ↔ x ∈ set') := by
  have compiles : ∀ scope, ∃ program, compile dataset path = some program ∧
      WellNumbered program.ops ∧ rootOp < program.ops.length ∧
      program.relation (dataset.graph scope) rootOp = path.relation (dataset.graph scope) :=
    fun _ => compile_relation path
  obtain ⟨program, compiled, numbered, inside, _⟩ := compiles (.one .any)
  refine ⟨program, compiled, ?_⟩
  rintro ctx rfl rfl
  have meaning : ctx.relation rootOp = path.relation ctx.graph := by
    obtain ⟨program', compiled', _, _, meaning⟩ := compiles ctx.scope
    cases compiled.symm.trans compiled'
    exact meaning
  have reaches := reach_compiled ctx numbered inside meaning
  refine ⟨?_, ?_⟩
  · intro node forward state memos
    obtain ⟨set, after, steps, runs, reached⟩ := reaches node forward state memos
    exact ⟨set, after, steps, runs, reached, reached.mem_iff⟩
  · intro x y state state' memos memos' free running running'
    obtain ⟨set, after, steps, runs, reached⟩ := reaches x true state memos
    obtain ⟨set', after', steps', runs', reached'⟩ := reaches y false state' memos'
    refine ⟨steps' + steps, set, set', after, after', runs steps', ?_, ?_⟩
    · rw [Nat.add_comm]
      exact runs' steps
    · rw [reached.mem_iff free running, reached'.mem_iff free running']
      exact Iff.rfl

def twoHops : RdfDataset where
  terms := [.iri "a", .iri "p", .iri "b", .iri "c"]
  quads := [⟨0, 1, 2, none⟩, ⟨2, 1, 3, none⟩]
  reifiers := []
  annotations := []
  namedGraphs := []
  terms_nodup := by decide
  terms_canonical := by simp [TermValue.canonical]
  quads_nodup := by decide
  reifiers_nodup := RdfDataset.empty.reifiers_nodup
  annotations_nodup := RdfDataset.empty.annotations_nodup
  quads_valid := by decide
  reifiers_valid := by simp
  annotations_valid := by simp
  namedGraphs_valid := by simp
  quads_named := by simp
  reifiers_named := RdfDataset.empty.reifiers_named
  annotations_named := RdfDataset.empty.annotations_named
  reifies_interned := by simp
  reifiers_sorted := RdfDataset.empty.reifiers_sorted
  annotations_sorted := RdfDataset.empty.annotations_sorted

theorem reach_relation_twoHops :
    ∃ program set after fuel,
      compile (frozenView twoHops) (.oneOrMore (.namedNode "p")) = some program ∧
      reach (⟨frozenView twoHops, none, .one .any, program, none⟩ : PathCtx TermId Bool) fuel rootOp 0
        true ⟨∅, ∅, 0, 0, false⟩ = some (set, after) ∧ 3 ∈ set := by
  obtain ⟨program, compiled, traversals⟩ :=
    reach_relation (E := Bool) (frozenView twoHops) (.oneOrMore (.namedNode "p"))
  obtain ⟨reaches, _⟩ :=
    traversals ⟨frozenView twoHops, none, .one .any, program, none⟩ rfl rfl
  obtain ⟨set, after, steps, runs, _, whole⟩ :=
    reaches 0 true ⟨∅, ∅, 0, 0, false⟩ ⟨nofun, nofun⟩
  refine ⟨program, set, after, 0 + steps, compiled, runs 0, (whole (fun _ => rfl) rfl 3).mpr ?_⟩
  have first : (PropertyPathExpression.namedNode "p").relation
      ((frozenView twoHops).graph (.one .any)) 0 2 :=
    ⟨1, ⟨⟨0, 1, 2, none⟩, by decide, rfl, rfl, rfl, rfl⟩, rfl⟩
  have second : (PropertyPathExpression.namedNode "p").relation
      ((frozenView twoHops).graph (.one .any)) 2 3 :=
    ⟨1, ⟨⟨2, 1, 3, none⟩, by decide, rfl, rfl, rfl, rfl⟩, rfl⟩
  exact (TransGen.single first).tail second

end

end Purrdf.Path
