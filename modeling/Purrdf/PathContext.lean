import Purrdf.PathCompilation
import Purrdf.PathSet

/-!
# The relations of a program

Each op of a well-numbered program has a relation, from the relations of the ops it names. The
relation of a compiled path's root is the path's.
-/

namespace Purrdf.Path

open Relation RelationPowers

section
variable {I : Type}

/-- One step along a predicate outside the exclusion set; nothing when there is no set. -/
def Graph.excluding (graph : Graph I) (ids : Option (List I)) (x y : I) : Prop :=
  ∃ excluded, ids = some excluded ∧ graph.hop (· ∉ excluded) x y

def PathOp.relation (graph : Graph I) (of : Nat → I → I → Prop) : PathOp I → I → I → Prop
  | predicate id => graph.hop fun p => id = some p
  | reverse inner => flip (of inner)
  | sequence elements => Composed (elements.map of)
  | alternative elements => United (elements.map of)
  | zeroOrOne inner => fun x y => x = y ∨ of inner x y
  | zeroOrMore inner => ReflTransGen (of inner)
  | oneOrMore inner => TransGen (of inner)
  | range inner min max => fun x y => ∃ k, InWindow min max k ∧ Power (of inner) k x y
  | negated sets => fun x y => graph.excluding sets.forward x y ∨ graph.excluding sets.inverse y x
  | wildcard ns => graph.hop (graph.inNamespace ns)

def opRelation (graph : Graph I) (ops : List (PathOp I)) : Nat → Nat → I → I → Prop
  | 0, _ => fun _ _ => False
  | depth + 1, index =>
    match ops[index]? with
    | none => fun _ _ => False
    | some op => op.relation graph (opRelation graph ops depth)

/-- The relation of an op of a program; a child has a greater index, so the program is deep
enough. -/
def PathProgram.relation (program : PathProgram I) (graph : Graph I) : Nat → I → I → Prop :=
  opRelation graph program.ops program.ops.length

variable {graph : Graph I} {program : PathProgram I} {op : PathOp I} {index : Nat}

theorem PathOp.relation_congr {of of' : Nat → I → I → Prop}
    (same : ∀ child ∈ op.children, of child = of' child) :
    op.relation graph of = op.relation graph of' := by
  cases op with
  | predicate | negated | wildcard => rfl
  | reverse inner | zeroOrOne inner | zeroOrMore inner | oneOrMore inner | range inner =>
    have inner := same _ List.mem_cons_self
    simp only [relation, inner]
  | sequence elements | alternative elements =>
    have elements : elements.map of = elements.map of' := List.map_congr_left same
    simp only [relation, elements]

theorem opRelation_deep {ops : List (PathOp I)} (numbered : WellNumbered ops) (depth depth' : Nat)
    (deep : ops.length ≤ depth + index) (deep' : ops.length ≤ depth' + index) :
    opRelation graph ops depth index = opRelation graph ops depth' index := by
  induction depth generalizing index depth' with
  | zero =>
    have outside : ops[index]? = none := List.getElem?_eq_none (by omega)
    cases depth' with
    | zero => rfl
    | succ depth' => rw [opRelation, opRelation, outside]
  | succ depth ih =>
    cases depth' with
    | zero =>
      have outside : ops[index]? = none := List.getElem?_eq_none (by omega)
      rw [opRelation, opRelation, outside]
    | succ depth' =>
      rw [opRelation, opRelation]
      cases entry : ops[index]? with
      | none => rfl
      | some op =>
        apply PathOp.relation_congr
        intro child member
        have after := (numbered index op entry child member).1
        exact ih depth' (by omega) (by omega)

theorem PathProgram.relation_eq (numbered : WellNumbered program.ops)
    (entry : program.ops[index]? = some op) :
    program.relation graph index = op.relation graph (program.relation graph) := by
  have inside := (List.getElem?_eq_some_iff.mp entry).1
  unfold relation
  rw [opRelation_deep numbered _ (program.ops.length + 1) (Nat.le_add_right _ _) (by omega),
    opRelation, entry]

theorem relations_of_children {of : Nat → I → I → Prop}
    {paths : List PropertyPathExpression} {cs : List Nat} (count : cs.length = paths.length)
    (each : ∀ (k : Nat) path c, paths[k]? = some path → cs[k]? = some c →
      of c = path.relation graph) :
    cs.map of = paths.map (PropertyPathExpression.relation graph) := by
  apply List.ext_getElem?
  intro k
  rw [List.getElem?_map, List.getElem?_map]
  cases isIndex : cs[k]? with
  | none =>
    have past := List.getElem?_eq_none_iff.mp isIndex
    rw [List.getElem?_eq_none (count ▸ past)]
    rfl
  | some c =>
    have inside := (List.getElem?_eq_some_iff.mp isIndex).1
    have isPath := List.getElem?_eq_getElem (count ▸ inside)
    rw [isPath]
    exact congrArg some (each k _ c isPath isIndex)

end

section
variable {I : Type} [LinearOrder I] {dataset : DatasetView I} {scope : GraphScope I}
  {program : PathProgram I} {path : PropertyPathExpression} {index : Nat}

theorem hop_local {allowed : I → Prop} :
    Local ↑dataset.nodes ((dataset.graph scope).hop allowed) := by
  rintro x y ⟨predicate, triple, _⟩
  exact .inr (DatasetView.triple_mem_nodes triple)

theorem opRelation_local {ops : List (PathOp I)} (depth : Nat) :
    Local ↑dataset.nodes (opRelation (dataset.graph scope) ops depth index) := by
  induction depth generalizing index with
  | zero =>
    intro x y step
    exact step.elim
  | succ depth ih =>
    rw [opRelation]
    cases ops[index]? with
    | none =>
      intro x y step
      exact step.elim
    | some op =>
      cases op with
      | predicate id => exact hop_local
      | reverse inner => exact ih.flip
      | sequence elements =>
        apply Local.composed
        intro r member
        obtain ⟨child, _, rfl⟩ := List.mem_map.mp member
        exact ih
      | alternative elements =>
        rintro x y ⟨r, member, step⟩
        obtain ⟨child, _, rfl⟩ := List.mem_map.mp member
        exact ih x y step
      | zeroOrOne inner =>
        rintro x y (same | step)
        · exact .inl same
        · exact ih x y step
      | zeroOrMore inner => exact ih.reflTransGen
      | oneOrMore inner => exact ih.transGen
      | range inner min max =>
        rintro x y ⟨k, _, steps⟩
        exact ih.power k x y steps
      | negated sets =>
        rintro x y (⟨_, _, step⟩ | ⟨_, _, step⟩)
        · exact hop_local x y step
        · exact hop_local.flip x y step
      | wildcard ns => exact hop_local

/-! ### The relation of a compiled path -/

def NegatedSets.side {I : Type} (sets : NegatedSets I) (inverse : Bool) : Option (List I) :=
  if inverse then sets.inverse else sets.forward

theorem resolveElement_side (sets : NegatedSets I) (element : NegatedPathElement)
    (inverse : Bool) :
    (resolveElement dataset sets element).side inverse =
      if element.inverse = inverse then
        some (match dataset.termIdByValue (.iri element.predicate) with
          | some id => insertSorted ((sets.side inverse).getD []) id
          | none => (sets.side inverse).getD [])
      else sets.side inverse := by
  unfold resolveElement
  cases dataset.termIdByValue (.iri element.predicate) <;>
    cases direction : element.inverse <;> cases inverse <;> simp [NegatedSets.side]

variable (dataset) in
theorem isSome_resolveNegated (elements : List NegatedPathElement) (inverse : Bool) :
    ((resolveNegated dataset elements).side inverse).isSome = true ↔
      ∃ element ∈ elements, element.inverse = inverse := by
  induction elements using List.reverseRecOn with
  | nil => cases inverse <;> simp [resolveNegated, NegatedSets.side]
  | append_singleton elements last ih =>
    unfold resolveNegated at ih ⊢
    rw [List.foldl_concat, resolveElement_side]
    by_cases direction : last.inverse = inverse
    · simp [direction]
    · rw [if_neg direction, ih]
      simp [direction]

variable (dataset) in
theorem mem_resolveNegated (elements : List NegatedPathElement) (inverse : Bool) (id : I) :
    id ∈ ((resolveNegated dataset elements).side inverse).getD [] ↔
      ∃ element ∈ elements, element.inverse = inverse ∧
        dataset.termIdByValue (.iri element.predicate) = some id := by
  induction elements using List.reverseRecOn with
  | nil => cases inverse <;> simp [resolveNegated, NegatedSets.side]
  | append_singleton elements last ih =>
    unfold resolveNegated at ih ⊢
    rw [List.foldl_concat, resolveElement_side]
    by_cases direction : last.inverse = inverse
    · rw [if_pos direction, Option.getD_some]
      cases found : dataset.termIdByValue (.iri last.predicate) with
      | none => simp [ih, direction, found]
      | some other =>
        dsimp only
        rw [mem_insertSorted, ih]
        simp [direction, found, or_comm, eq_comm]
    · rw [if_neg direction, ih]
      simp [direction]

theorem excluding_resolveNegated {elements : List NegatedPathElement} (inverse : Bool) {x y : I} :
    (dataset.graph scope).excluding ((resolveNegated dataset elements).side inverse) x y ↔
      (dataset.graph scope).negated elements inverse x y := by
  have named := isSome_resolveNegated dataset elements inverse
  have listed := mem_resolveNegated dataset elements inverse
  constructor
  · rintro ⟨excluded, set, predicate, triple, outside⟩
    rw [set] at named listed
    refine ⟨named.mp rfl, predicate, triple, ?_⟩
    intro element member direction iri
    have found := (DatasetView.termId_iff triple element.predicate).mpr iri
    exact outside ((listed predicate).mpr ⟨element, member, direction, found⟩)
  · rintro ⟨some', predicate, triple, allowed⟩
    obtain ⟨excluded, set⟩ := Option.isSome_iff_exists.mp (named.mpr some')
    refine ⟨excluded, set, predicate, triple, ?_⟩
    intro member
    rw [set] at listed
    obtain ⟨element, inside, direction, found⟩ := (listed predicate).mp member
    exact allowed element inside direction
      ((DatasetView.termId_iff triple element.predicate).mp found)

theorem hop_termId {iri : String} :
    ((dataset.graph scope).hop fun p => dataset.termIdByValue (.iri iri) = some p) =
      (dataset.graph scope).hop fun p => (dataset.graph scope).iri p = some iri := by
  funext x y
  apply propext
  constructor
  · rintro ⟨predicate, triple, found⟩
    exact ⟨predicate, triple, (DatasetView.termId_iff triple iri).mp found⟩
  · rintro ⟨predicate, triple, found⟩
    exact ⟨predicate, triple, (DatasetView.termId_iff triple iri).mpr found⟩

theorem Describes.relation (numbered : WellNumbered program.ops)
    (describes : Describes dataset program path index) :
    program.relation (dataset.graph scope) index = path.relation (dataset.graph scope) := by
  induction describes with
  | @node path index cs held below ih =>
    rw [PathProgram.relation_eq numbered held.op]
    have count := held.count
    cases path with
    | namedNode iri => exact hop_termId
    | negatedPropertySet elements =>
      funext x y
      exact propext (or_congr (excluding_resolveNegated false)
        (excluding_resolveNegated true))
    | wildcard ns => rfl
    | reverse inner | zeroOrMore inner | oneOrMore inner | zeroOrOne inner | range inner =>
      obtain ⟨c, rfl⟩ := List.length_eq_one_iff.mp count
      have inner := ih 0 _ c rfl rfl
      simp only [linkedOp, PathOp.relation, PropertyPathExpression.relation, List.headD_cons, inner]
    | sequence elements | alternative elements =>
      have elements := relations_of_children count ih
      simp only [linkedOp, PathOp.relation, PropertyPathExpression.relation, elements,
        PropertyPathExpression.relations_eq_map, PropertyPathExpression.children]

theorem compile_relation (path : PropertyPathExpression) :
    ∃ program, compile dataset path = some program ∧ WellNumbered program.ops ∧
      rootOp < program.ops.length ∧
      program.relation (dataset.graph scope) rootOp = path.relation (dataset.graph scope) := by
  obtain ⟨program, compiled, numbered, described⟩ := compile_describes dataset path
  obtain ⟨cs, held⟩ := described.held
  exact ⟨program, compiled, numbered, (List.getElem?_eq_some_iff.mp held.op).1,
    described.relation numbered⟩

end

end Purrdf.Path

/-!
## The traversal's context

What every frame of the reach machine reads, and what the frames share: the memos and the
governor. A governor may stop the execution at any consultation, for good. A leaf op is one
scan of an indexed pattern, charged for each candidate.
-/

namespace Purrdf.Path

open RelationPowers

structure PowerMemoOwner where
  number : Nat
  inner : Nat
  forward : Bool
deriving DecidableEq, Repr

variable {I E : Type} [LinearOrder I] [RowEvidence E] [DecidableEq E]

/-- `governors` says at which consultations a governor stops the execution. -/
structure PathCtx (I E : Type) [LinearOrder I] where
  dataset : DatasetView I
  evidenceInput : Option (Quad I → E)
  scope : GraphScope I
  program : PathProgram I
  governors : Option (Nat → Bool)

/-- The shared state of a traversal. `powers` holds the entries of every power memo. -/
structure PathState (I E : Type) [LinearOrder I] where
  reachCache : FastMap (Nat × I × Bool) (PathSet I E)
  powers : FastMap (PowerMemoOwner × Nat × I) (PathSet I E)
  powerMemos : Nat
  polls : Nat
  tripped : Bool

namespace PathCtx

variable (ctx : PathCtx I E)

/-- Whether a governor stops the execution at a consultation. -/
def trips (poll : Nat) : Bool :=
  ctx.governors.any fun governor => governor poll

/-- Whether the execution has been stopped, latching a stop that fires now. -/
def stopped (state : PathState I E) : Bool × PathState I E :=
  let tripped := state.tripped || ctx.trips state.polls
  (tripped, { state with polls := state.polls + 1, tripped })

/-- Charge one candidate edge; `false` once the execution has stopped. -/
def chargeCandidate (state : PathState I E) : Bool × PathState I E :=
  let (stopped, state) := ctx.stopped state
  (!stopped, state)

def insertClaim (out : PathSet I E) (quad : Quad I) (target : I) : PathSet I E :=
  match ctx.evidenceInput with
  | none => out.insert target
  | some claim => (out.insertEvidence target (claim quad)).1

def scan (keep : Quad I → Bool) (target : Quad I → I) :
    List (Quad I) → PathSet I E → PathState I E → PathSet I E × PathState I E
  | [], out, state => (out, state)
  | q :: rest, out, state =>
    match ctx.chargeCandidate state with
    | (false, state) => (out, state)
    | (true, state) =>
      scan keep target rest (if keep q then ctx.insertClaim out q (target q) else out) state

/-- One hop along the predicates `keep` admits, found by subject or by object. -/
def hop (keep : Quad I → Bool) (predicate : Option I) (node : I) (forward : Bool)
    (state : PathState I E) : PathSet I E × PathState I E :=
  if forward then
    ctx.scan keep (·.o) (ctx.scope.forEachQuad ctx.dataset (some node) predicate none) ∅ state
  else ctx.scan keep (·.s) (ctx.scope.forEachQuad ctx.dataset none predicate (some node)) ∅ state

def stepPredicate (predicate : Option I) (node : I) (forward : Bool) (state : PathState I E) :
    PathSet I E × PathState I E :=
  match predicate with
  | none => (∅, state)
  | some pid => ctx.hop (fun _ => true) (some pid) node forward state

def stepExcluding (excluded : List I) (node : I) (forward : Bool) (state : PathState I E) :
    PathSet I E × PathState I E :=
  ctx.hop (fun q => q.p ∉ excluded) none node forward state

def stepSide (out : PathSet I E) (excluded : Option (List I)) (node : I) (forward : Bool)
    (state : PathState I E) : PathSet I E × PathState I E :=
  match excluded with
  | none => (out, state)
  | some excluded =>
    let (found, state) := ctx.stepExcluding excluded node forward state
    (out.extendWitnesses found, state)

def stepNegated (sets : NegatedSets I) (node : I) (forward : Bool) (state : PathState I E) :
    PathSet I E × PathState I E :=
  let (out, state) := ctx.stepSide ∅ sets.forward node forward state
  ctx.stepSide out sets.inverse node (!forward) state

/-- Whether a predicate's IRI begins with the namespace prefix. -/
def predOk (ns : Option String) (predicate : I) : Bool :=
  match ns with
  | none => true
  | some pfx =>
    match ctx.dataset.resolve predicate with
    | .iri iri => pfx.toList.isPrefixOf iri.toList
    | _ => false

def stepWildcard (ns : Option String) (node : I) (forward : Bool) (state : PathState I E) :
    PathSet I E × PathState I E :=
  ctx.hop (fun q => ctx.predOk ns q.p) none node forward state

def graph : Graph I := ctx.dataset.graph ctx.scope

end PathCtx

/-! ### Answers -/

def directed (forward : Bool) (r : I → I → Prop) : I → I → Prop :=
  if forward then r else flip r

/-- The nodes of an answer are in the target, and all of it unless the execution stopped. -/
structure Exact (state : PathState I E) (target : I → Prop) (set : PathSet I E) : Prop where
  sound : ∀ y ∈ set, target y
  complete : state.tripped = false → ∀ y, target y → y ∈ set

structure Polled (ctx : PathCtx I E) (state state' : PathState I E) : Prop where
  reachCache : state'.reachCache = state.reachCache
  powers : state'.powers = state.powers
  powerMemos : state'.powerMemos = state.powerMemos
  tripped : state.tripped = true → state'.tripped = true
  caused : state'.tripped = true → state.tripped = true ∨ ∃ poll, ctx.trips poll = true

section
variable {ctx : PathCtx I E} {state state' : PathState I E}

omit [RowEvidence E] [DecidableEq E]

theorem Polled.refl (state : PathState I E) : Polled ctx state state :=
  ⟨rfl, rfl, rfl, id, .inl⟩

theorem Polled.trans {state'' : PathState I E} (first : Polled ctx state state')
    (second : Polled ctx state' state'') : Polled ctx state state'' := by
  refine ⟨second.reachCache.trans first.reachCache, second.powers.trans first.powers,
    second.powerMemos.trans first.powerMemos, fun stop => second.tripped (first.tripped stop), ?_⟩
  intro stop
  rcases second.caused stop with earlier | cause
  · exact first.caused earlier
  · exact .inr cause

theorem Polled.running (polled : Polled ctx state state') (runs : state'.tripped = false) :
    state.tripped = false := by
  by_contra stop
  rw [polled.tripped (Bool.of_not_eq_false stop)] at runs
  cases runs

theorem stopped_cases (ctx : PathCtx I E) (state : PathState I E) :
    ∃ after, ctx.stopped state = (after.tripped, after) ∧ Polled ctx state after := by
  refine ⟨(ctx.stopped state).2, rfl, rfl, rfl, rfl, ?_, ?_⟩
  · intro stop
    unfold PathCtx.stopped
    dsimp only
    rw [stop, Bool.true_or]
  · intro stop
    rcases Bool.or_eq_true_iff.mp stop with earlier | now
    · exact .inl earlier
    · exact .inr ⟨state.polls, now⟩

theorem charge_cases (ctx : PathCtx I E) (state : PathState I E) :
    ∃ after, ctx.chargeCandidate state = (!after.tripped, after) ∧ Polled ctx state after := by
  obtain ⟨after, same, polled⟩ := stopped_cases ctx state
  refine ⟨after, ?_, polled⟩
  unfold PathCtx.chargeCandidate
  rw [same]

variable {target target' : I → Prop} {set : PathSet I E}

theorem Exact.later (exact' : Exact state target set)
    (stays : state.tripped = true → state'.tripped = true) : Exact state' target set := by
  refine ⟨exact'.sound, ?_⟩
  intro runs
  apply exact'.complete
  by_contra stop
  rw [stays (Bool.of_not_eq_false stop)] at runs
  cases runs

theorem Exact.of_iff (exact' : Exact state target set) (same : ∀ y, target y ↔ target' y) :
    Exact state target' set :=
  ⟨fun y member => (same y).mp (exact'.sound y member),
    fun runs y inside => exact'.complete runs y ((same y).mpr inside)⟩

theorem Exact.of_tripped (stop : state.tripped = true) (sound : ∀ y ∈ set, target y) :
    Exact state target set := by
  refine ⟨sound, ?_⟩
  intro runs
  rw [stop] at runs
  cases runs

end

end Purrdf.Path
