import Mathlib.Data.List.Sort
import Purrdf.PathDataset
import Purrdf.PathSet

/-!
# Path programs

A path expression compiled to a flat program: one op per node of the expression, numbered in
pre-order, each naming its children by index, with every predicate and negated set resolved to
ids. The compiler keeps a stack of steps: entering a node numbers it, exiting it links its
children.
-/

namespace Purrdf.Path

/-- The exclusion sets of a negated property set. A direction without elements has none. -/
structure NegatedSets (I : Type) where
  forward : Option (List I)
  inverse : Option (List I)
deriving DecidableEq, Repr

inductive PathOp (I : Type) where
  | predicate (id : Option I)
  | reverse (inner : Nat)
  | sequence (elements : List Nat)
  | alternative (elements : List Nat)
  | zeroOrOne (inner : Nat)
  | zeroOrMore (inner : Nat)
  | oneOrMore (inner : Nat)
  | range (inner min : Nat) (max : Option Nat)
  | negated (sets : NegatedSets I)
  | wildcard (ns : Option String)
deriving DecidableEq, Repr

def rootOp : Nat := 0

/-- `reflexive` and `repetition` say, for each op, whether it admits the zero-length identity
and whether a repetition operator occurs in it. -/
structure PathProgram (I : Type) where
  ops : List (PathOp I)
  reflexive : List Bool
  repetition : List Bool
deriving DecidableEq, Repr

section
variable {I : Type} [LinearOrder I]

/-- `binary_search` and, when the id is absent, its insertion where it belongs. -/
def insertSorted (ids : List I) (id : I) : List I :=
  if id ∈ ids then ids else ids.orderedInsert (· ≤ ·) id

theorem mem_insertSorted {ids : List I} {id other : I} :
    other ∈ insertSorted ids id ↔ other = id ∨ other ∈ ids := by
  unfold insertSorted
  split
  · rename_i member
    constructor
    · exact .inr
    · rintro (rfl | present)
      · exact member
      · exact present
  · exact List.mem_orderedInsert _

variable (dataset : DatasetView I)

/-- File one element's predicate under the direction it excludes. -/
def resolveElement (sets : NegatedSets I) (element : NegatedPathElement) : NegatedSets I :=
  let target := (if element.inverse then sets.inverse else sets.forward).getD []
  let target := match dataset.termIdByValue (.iri element.predicate) with
    | some id => insertSorted target id
    | none => target
  if element.inverse then { sets with inverse := some target }
  else { sets with forward := some target }

def resolveNegated (elements : List NegatedPathElement) : NegatedSets I :=
  elements.foldl (resolveElement dataset) ⟨none, none⟩

inductive Build where
  | enter (node : PropertyPathExpression)
  | exit (index : Nat) (node : PropertyPathExpression)

/-- The compiler's buffers. `built` and `pending` are stacks, their tops first. -/
structure Compiler (I : Type) where
  program : PathProgram I
  built : List Nat
  pending : List Build

/-- The op a node is entered as: a leaf resolved, an operator's place held. -/
def enteredOp : PropertyPathExpression → PathOp I
  | .namedNode predicate => .predicate (dataset.termIdByValue (.iri predicate))
  | .negatedPropertySet elements => .negated (resolveNegated dataset elements)
  | .wildcard ns => .wildcard ns
  | _ => .predicate none

def PathProgram.push (program : PathProgram I) (op : PathOp I) : PathProgram I where
  ops := program.ops ++ [op]
  reflexive := program.reflexive ++ [false]
  repetition := program.repetition ++ [false]

def PathProgram.link (program : PathProgram I) (index : Nat) (op : PathOp I)
    (reflexive repetition : Bool) : PathProgram I where
  ops := program.ops.set index op
  reflexive := program.reflexive.set index reflexive
  repetition := program.repetition.set index repetition

/-- Pop the children of a node and link it. `none` is a panic: a child not built, or an index
out of bounds. -/
def exitNode (program : PathProgram I) (built : List Nat) (index : Nat) :
    PropertyPathExpression → Option (PathProgram I × List Nat)
  | .namedNode _ | .negatedPropertySet _ | .wildcard _ => some (program, built)
  | .reverse _ => do
    let inner ← built.head?
    let reflexive ← program.reflexive[inner]?
    let repetition ← program.repetition[inner]?
    return (program.link index (.reverse inner) reflexive repetition, built.tail)
  | .zeroOrOne _ => do
    let inner ← built.head?
    return (program.link index (.zeroOrOne inner) true true, built.tail)
  | .zeroOrMore _ => do
    let inner ← built.head?
    return (program.link index (.zeroOrMore inner) true true, built.tail)
  | .oneOrMore _ => do
    let inner ← built.head?
    let reflexive ← program.reflexive[index]?
    return (program.link index (.oneOrMore inner) reflexive true, built.tail)
  | .range _ min max => do
    let inner ← built.head?
    return (program.link index (.range inner min max) (min == 0) true, built.tail)
  | .sequence elements => do
    let elements ← popChildren built elements.length
    let reflexive ← elements.mapM fun child => program.reflexive[child]?
    let repetition ← elements.mapM fun child => program.repetition[child]?
    return (program.link index (.sequence elements) (reflexive.all id) (repetition.any id),
      built.drop elements.length)
  | .alternative elements => do
    let elements ← popChildren built elements.length
    let reflexive ← elements.mapM fun child => program.reflexive[child]?
    let repetition ← elements.mapM fun child => program.repetition[child]?
    return (program.link index (.alternative elements) (reflexive.any id) (repetition.any id),
      built.drop elements.length)
where
  /-- The last `count` children built, in source order. -/
  popChildren (built : List Nat) (count : Nat) : Option (List Nat) :=
    if count ≤ built.length then some (built.take count).reverse else none

def compileStep (compiler : Compiler I) : Option (Compiler I) :=
  match compiler.pending with
  | [] => none
  | .enter node :: pending =>
    let index := compiler.program.ops.length
    some { compiler with
      program := compiler.program.push (enteredOp dataset node)
      pending := node.children.map .enter ++ .exit index node :: pending }
  | .exit index node :: pending => do
    let (program, built) ← exitNode compiler.program compiler.built index node
    return ⟨program, index :: built, pending⟩

def compileLoop : Nat → Compiler I → Option (PathProgram I)
  | _, ⟨program, _, []⟩ => some program
  | 0, _ => none
  | fuel + 1, compiler =>
    match compileStep dataset compiler with
    | none => none
    | some compiler => compileLoop fuel compiler

/-- The loop enters and exits every node of the path once. -/
def compile (path : PropertyPathExpression) : Option (PathProgram I) :=
  compileLoop dataset (2 * path.size) ⟨⟨[], [], []⟩, [], [.enter path]⟩

end

/-- Whether a path admits the zero-length identity whatever the graph. -/
def PropertyPathExpression.isReflexive : PropertyPathExpression → Bool
  | zeroOrMore _ | zeroOrOne _ => true
  | range _ min _ => min == 0
  | reverse inner => inner.isReflexive
  | sequence elements => (flags elements).all id
  | alternative elements => (flags elements).any id
  | namedNode _ | negatedPropertySet _ | wildcard _ | oneOrMore _ => false
where
  flags : List PropertyPathExpression → List Bool
    | [] => []
    | first :: rest => first.isReflexive :: flags rest

def PropertyPathExpression.hasRepetition : PropertyPathExpression → Bool
  | zeroOrMore _ | zeroOrOne _ | oneOrMore _ | range _ _ _ => true
  | reverse inner => inner.hasRepetition
  | sequence elements | alternative elements => (flags elements).any id
  | namedNode _ | negatedPropertySet _ | wildcard _ => false
where
  flags : List PropertyPathExpression → List Bool
    | [] => []
    | first :: rest => first.hasRepetition :: flags rest

end Purrdf.Path

/-!
## Compiled paths

`Describes program path index` says that the op at an index is the path's, linked to the ops of
its children, which come later. Compiling a path lays such a program out, and the relation
read off the ops is the relation of the path.
-/

namespace Purrdf.Path

open Relation RelationPowers

def PathOp.children {I : Type} : PathOp I → List Nat
  | reverse inner | zeroOrOne inner | zeroOrMore inner | oneOrMore inner | range inner _ _ => [inner]
  | sequence elements | alternative elements => elements
  | predicate _ | negated _ | wildcard _ => []

def WellNumbered {I : Type} (ops : List (PathOp I)) : Prop :=
  ∀ index op, ops[index]? = some op → ∀ child ∈ op.children, index < child ∧ child < ops.length

section
variable {I : Type} {program program' : PathProgram I} {index : Nat}

/-! ### Growth of a program -/

def PathProgram.Aligned (program : PathProgram I) : Prop :=
  program.reflexive.length = program.ops.length ∧ program.repetition.length = program.ops.length

structure Keeps (low : Nat) (program program' : PathProgram I) : Prop where
  op : ∀ k op, low ≤ k → program.ops[k]? = some op → program'.ops[k]? = some op
  reflexive : ∀ k flag, low ≤ k → program.reflexive[k]? = some flag →
    program'.reflexive[k]? = some flag
  repetition : ∀ k flag, low ≤ k → program.repetition[k]? = some flag →
    program'.repetition[k]? = some flag

structure Extends (program program' : PathProgram I) : Prop where
  ops : program.ops <+: program'.ops
  reflexive : program.reflexive <+: program'.reflexive
  repetition : program.repetition <+: program'.repetition

theorem Extends.refl (program : PathProgram I) : Extends program program :=
  ⟨List.prefix_rfl, List.prefix_rfl, List.prefix_rfl⟩

theorem Extends.trans {program'' : PathProgram I} (first : Extends program program')
    (second : Extends program' program'') : Extends program program'' :=
  ⟨first.ops.trans second.ops, first.reflexive.trans second.reflexive,
    first.repetition.trans second.repetition⟩

theorem getElem?_of_prefix {α : Type} {shorter longer : List α} (grown : shorter <+: longer)
    {k : Nat} {x : α} (entry : shorter[k]? = some x) : longer[k]? = some x := by
  obtain ⟨more, rfl⟩ := grown
  rw [List.getElem?_append_left (List.getElem?_eq_some_iff.mp entry).1]
  exact entry

theorem Extends.keeps (extends' : Extends program program') (low : Nat) :
    Keeps low program program' :=
  ⟨fun _ _ _ => getElem?_of_prefix extends'.ops,
    fun _ _ _ => getElem?_of_prefix extends'.reflexive,
    fun _ _ _ => getElem?_of_prefix extends'.repetition⟩

theorem extends_push (program : PathProgram I) (op : PathOp I) :
    Extends program (program.push op) :=
  ⟨List.prefix_append _ _, List.prefix_append _ _, List.prefix_append _ _⟩

theorem keeps_link {low : Nat} (before : index < low) (op : PathOp I) (reflexive repetition : Bool) :
    Keeps low program (program.link index op reflexive repetition) := by
  constructor
  all_goals
    intro k entry order held
    unfold PathProgram.link
    rw [List.getElem?_set_ne (by omega)]
    exact held

theorem Extends.link {older : PathProgram I} (grown : Extends older program)
    (aligned : older.Aligned) (past : older.ops.length ≤ index) (op : PathOp I)
    (reflexive repetition : Bool) : Extends older (program.link index op reflexive repetition) := by
  obtain ⟨more, ops⟩ := grown.ops
  obtain ⟨more', reflexives⟩ := grown.reflexive
  obtain ⟨more'', repetitions⟩ := grown.repetition
  unfold PathProgram.link
  refine ⟨?_, ?_, ?_⟩
  · rw [← ops, List.set_append_right _ _ past]
    exact List.prefix_append _ _
  · rw [← reflexives, List.set_append_right _ _ (aligned.1.le.trans past)]
    exact List.prefix_append _ _
  · rw [← repetitions, List.set_append_right _ _ (aligned.2.le.trans past)]
    exact List.prefix_append _ _

theorem PathProgram.Aligned.push (aligned : program.Aligned) (op : PathOp I) :
    (program.push op).Aligned := by
  unfold PathProgram.push
  exact ⟨by simp [aligned.1], by simp [aligned.2]⟩

theorem PathProgram.Aligned.link (aligned : program.Aligned) (index : Nat) (op : PathOp I)
    (reflexive repetition : Bool) : (program.link index op reflexive repetition).Aligned := by
  unfold PathProgram.link
  exact ⟨by simp [aligned.1], by simp [aligned.2]⟩

theorem wellNumbered_push {op : PathOp I} (numbered : WellNumbered program.ops)
    (leaf : op.children = []) : WellNumbered (program.push op).ops := by
  intro k entry held child member
  unfold PathProgram.push at held ⊢
  rw [List.length_append]
  rcases Nat.lt_or_ge k program.ops.length with old | new
  · rw [List.getElem?_append_left old] at held
    have inside := numbered k entry held child member
    exact ⟨inside.1, Nat.lt_add_right _ inside.2⟩
  · rw [List.getElem?_append_right new] at held
    obtain rfl := List.mem_singleton.mp (List.mem_of_getElem? held)
    rw [leaf] at member
    cases member

theorem wellNumbered_link {op : PathOp I} {reflexive repetition : Bool}
    (numbered : WellNumbered program.ops)
    (inside : ∀ child ∈ op.children, index < child ∧ child < program.ops.length) :
    WellNumbered (program.link index op reflexive repetition).ops := by
  intro k entry held child member
  unfold PathProgram.link at held ⊢
  rw [List.length_set]
  rw [List.getElem?_set] at held
  split at held
  · rename_i same
    subst same
    split at held
    · cases held
      exact inside child member
    · cases held
  · exact numbered k entry held child member

end

/-! ### Described ops -/

section
variable {I : Type} [LinearOrder I] (dataset : DatasetView I)

/-- The op of a node whose children are at `cs`. -/
def linkedOp (path : PropertyPathExpression) (cs : List Nat) : PathOp I :=
  match path with
  | .reverse _ => .reverse (cs.headD 0)
  | .zeroOrOne _ => .zeroOrOne (cs.headD 0)
  | .zeroOrMore _ => .zeroOrMore (cs.headD 0)
  | .oneOrMore _ => .oneOrMore (cs.headD 0)
  | .range _ min max => .range (cs.headD 0) min max
  | .sequence _ => .sequence cs
  | .alternative _ => .alternative cs
  | leaf => enteredOp dataset leaf

structure Holds (program : PathProgram I) (path : PropertyPathExpression) (index : Nat)
    (cs : List Nat) : Prop where
  op : program.ops[index]? = some (linkedOp dataset path cs)
  reflexive : program.reflexive[index]? = some path.isReflexive
  repetition : program.repetition[index]? = some path.hasRepetition
  count : cs.length = path.children.length
  later : ∀ c ∈ cs, index < c

inductive Describes (program : PathProgram I) : PropertyPathExpression → Nat → Prop where
  | node {path : PropertyPathExpression} {index : Nat} (cs : List Nat)
      (held : Holds dataset program path index cs)
      (below : ∀ (k : Nat) child c, path.children[k]? = some child → cs[k]? = some c →
        Describes program child c) :
      Describes program path index

variable {dataset} {program program' : PathProgram I} {path : PropertyPathExpression}
  {index : Nat} {cs : List Nat}

theorem children_linkedOp (count : cs.length = path.children.length) :
    (linkedOp dataset path cs).children = cs := by
  cases path with
  | namedNode | negatedPropertySet | wildcard => exact (List.length_eq_zero_iff.mp count).symm
  | sequence | alternative => rfl
  | reverse | zeroOrMore | oneOrMore | zeroOrOne | range =>
    obtain ⟨c, rfl⟩ := List.length_eq_one_iff.mp count
    rfl

theorem Describes.mono (describes : Describes dataset program path index)
    (keeps : Keeps index program program') : Describes dataset program' path index := by
  induction describes with
  | @node path index cs held below ih =>
    refine .node cs ⟨keeps.op _ _ le_rfl held.op, keeps.reflexive _ _ le_rfl held.reflexive,
      keeps.repetition _ _ le_rfl held.repetition, held.count, held.later⟩ ?_
    intro k child c isChild isIndex
    have after := held.later c (List.mem_of_getElem? isIndex)
    exact ih k child c isChild isIndex
      ⟨fun k op order => keeps.op k op (after.le.trans order),
        fun k flag order => keeps.reflexive k flag (after.le.trans order),
        fun k flag order => keeps.repetition k flag (after.le.trans order)⟩

/-! ### Leaving a node -/

theorem isReflexive_flags (paths : List PropertyPathExpression) :
    PropertyPathExpression.isReflexive.flags paths = paths.map PropertyPathExpression.isReflexive := by
  induction paths with
  | nil => rfl
  | cons first rest ih => rw [PropertyPathExpression.isReflexive.flags, ih, List.map_cons]

theorem hasRepetition_flags (paths : List PropertyPathExpression) :
    PropertyPathExpression.hasRepetition.flags paths = paths.map PropertyPathExpression.hasRepetition := by
  induction paths with
  | nil => rfl
  | cons first rest ih => rw [PropertyPathExpression.hasRepetition.flags, ih, List.map_cons]

theorem mapM_flags {table : List Bool} {flag : PropertyPathExpression → Bool}
    {paths : List PropertyPathExpression} {cs : List Nat} (count : cs.length = paths.length)
    (held : ∀ (k : Nat) path c, paths[k]? = some path → cs[k]? = some c →
      table[c]? = some (flag path)) :
    (cs.mapM fun c => table[c]?) = some (paths.map flag) := by
  induction paths generalizing cs with
  | nil =>
    obtain rfl := List.length_eq_zero_iff.mp count
    rfl
  | cons first rest ih =>
    obtain ⟨c, cs, rfl⟩ := List.exists_cons_of_length_eq_add_one count
    have here := held 0 first c rfl rfl
    have later := ih (Nat.succ.inj count) fun k path c isPath isIndex =>
      held (k + 1) path c isPath isIndex
    rw [List.mapM_cons, here, later]
    rfl

theorem set_of_getElem? {α : Type} {entries : List α} {k : Nat} {entry : α}
    (held : entries[k]? = some entry) : entries.set k entry = entries := by
  obtain ⟨inside, rfl⟩ := List.getElem?_eq_some_iff.mp held
  exact List.set_getElem_self inside

theorem popChildren_append (cs built : List Nat) :
    exitNode.popChildren (cs.reverse ++ built) cs.length = some cs := by
  unfold exitNode.popChildren
  rw [if_pos (by simp)]
  have front : (cs.reverse ++ built).take cs.length = cs.reverse :=
    List.take_left' (List.length_reverse)
  rw [front, List.reverse_reverse]

theorem exitNode_eq (built : List Nat) (count : cs.length = path.children.length)
    (entered : program.ops[index]? = some (enteredOp dataset path))
    (reflexive : program.reflexive[index]? = some false)
    (repetition : program.repetition[index]? = some false)
    (reflexives : ∀ (k : Nat) child c, path.children[k]? = some child → cs[k]? = some c →
      program.reflexive[c]? = some child.isReflexive)
    (repetitions : ∀ (k : Nat) child c, path.children[k]? = some child → cs[k]? = some c →
      program.repetition[c]? = some child.hasRepetition) :
    exitNode program (cs.reverse ++ built) index path =
      some (program.link index (linkedOp dataset path cs) path.isReflexive path.hasRepetition,
        built) := by
  cases path with
  | namedNode | negatedPropertySet | wildcard =>
    obtain rfl := List.length_eq_zero_iff.mp count
    unfold PathProgram.link PropertyPathExpression.isReflexive PropertyPathExpression.hasRepetition
    rw [set_of_getElem? reflexive, set_of_getElem? repetition]
    unfold linkedOp
    rw [set_of_getElem? entered]
    rfl
  | reverse inner =>
    obtain ⟨c, rfl⟩ := List.length_eq_one_iff.mp count
    have held := reflexives 0 inner c rfl rfl
    have held' := repetitions 0 inner c rfl rfl
    simp [exitNode, linkedOp, PropertyPathExpression.isReflexive,
      PropertyPathExpression.hasRepetition, held, held']
  | zeroOrMore inner | zeroOrOne inner | oneOrMore inner | range inner =>
    obtain ⟨c, rfl⟩ := List.length_eq_one_iff.mp count
    simp [exitNode, linkedOp, PropertyPathExpression.isReflexive,
      PropertyPathExpression.hasRepetition, reflexive]
  | sequence elements | alternative elements =>
    have held := mapM_flags count reflexives
    have held' := mapM_flags count repetitions
    have popped := popChildren_append cs built
    have rest : (cs.reverse ++ built).drop cs.length = built :=
      List.drop_left' List.length_reverse
    have sized : elements.length = cs.length := count.symm
    simp [exitNode, linkedOp, PropertyPathExpression.isReflexive, isReflexive_flags,
      PropertyPathExpression.hasRepetition, hasRepetition_flags, held, held', popped, rest, sized,
      PropertyPathExpression.children]

/-! ### The compiler's loop -/

variable (dataset) in
/-- A path entered at the top of the pending steps is compiled at the end of the program. -/
def Compiles (path : PropertyPathExpression) : Prop :=
  ∀ (program : PathProgram I) built pending fuel, program.Aligned → WellNumbered program.ops →
    ∃ program' : PathProgram I, Extends program program' ∧ program'.Aligned ∧ WellNumbered program'.ops ∧
      Describes dataset program' path program.ops.length ∧
      program.ops.length < program'.ops.length ∧
      compileLoop dataset (fuel + 2 * path.size) ⟨program, built, .enter path :: pending⟩ =
        compileLoop dataset fuel ⟨program', program.ops.length :: built, pending⟩

theorem compiles_all {paths : List PropertyPathExpression}
    (each : ∀ path ∈ paths, Compiles dataset path) (program : PathProgram I) (built : List Nat)
    (pending : List Build) (fuel : Nat) (aligned : program.Aligned)
    (numbered : WellNumbered program.ops) :
    ∃ (program' : PathProgram I) (cs : List Nat), Extends program program' ∧ program'.Aligned ∧ WellNumbered program'.ops ∧
      cs.length = paths.length ∧
      (∀ (k : Nat) path c, paths[k]? = some path → cs[k]? = some c →
        Describes dataset program' path c) ∧
      (∀ c ∈ cs, program.ops.length ≤ c ∧ c < program'.ops.length) ∧
      compileLoop dataset (fuel + 2 * PropertyPathExpression.size.sizes paths)
          ⟨program, built, paths.map .enter ++ pending⟩ =
        compileLoop dataset fuel ⟨program', cs.reverse ++ built, pending⟩ := by
  induction paths generalizing program built fuel with
  | nil =>
    refine ⟨program, [], .refl program, aligned, numbered, rfl, ?_, ?_, rfl⟩
    · intro k path c isPath
      cases isPath
    · intro c member
      cases member
  | cons first rest ih =>
    obtain ⟨between, grown, aligned', numbered', described, longer, ran⟩ :=
      each first List.mem_cons_self program built (rest.map .enter ++ pending)
        (fuel + 2 * PropertyPathExpression.size.sizes rest) aligned numbered
    obtain ⟨program', cs, grown', aligned'', numbered'', count, described', inside, ran'⟩ :=
      ih (fun path member => each path (List.mem_cons_of_mem first member)) between
        (program.ops.length :: built) fuel aligned' numbered'
    refine ⟨program', program.ops.length :: cs, grown.trans grown', aligned'', numbered'',
      congrArg Nat.succ count, ?_, ?_, ?_⟩
    · intro k path c isPath isIndex
      cases k with
      | zero =>
        cases isPath
        cases isIndex
        exact described.mono (grown'.keeps _)
      | succ k => exact described' k path c isPath isIndex
    · intro c member
      rcases List.mem_cons.mp member with rfl | later
      · exact ⟨le_rfl, longer.trans_le grown'.ops.length_le⟩
      · exact ⟨longer.le.trans (inside c later).1, (inside c later).2⟩
    · rw [PropertyPathExpression.size.sizes, List.map_cons, List.cons_append,
        show fuel + 2 * (first.size + PropertyPathExpression.size.sizes rest) =
          fuel + 2 * PropertyPathExpression.size.sizes rest + 2 * first.size by omega, ran, ran',
        List.reverse_cons, List.append_assoc, List.singleton_append]

theorem Describes.held (describes : Describes dataset program path index) :
    ∃ cs, Holds dataset program path index cs := by
  cases describes with
  | node cs held _ => exact ⟨cs, held⟩

variable (dataset) in
theorem children_enteredOp (path : PropertyPathExpression) :
    (enteredOp dataset path).children = [] := by
  cases path <;> rfl

theorem compileLoop_step {compiler next : Compiler I} {fuel : Nat}
    (turn : compileStep dataset compiler = some next) :
    compileLoop dataset (fuel + 1) compiler = compileLoop dataset fuel next := by
  obtain ⟨program, built, pending⟩ := compiler
  cases pending with
  | nil => cases turn
  | cons step pending =>
    rw [compileLoop, turn]
    intro program' built' same
    cases same

variable (dataset) in
theorem compiles (path : PropertyPathExpression) : Compiles dataset path := by
  induction path using PropertyPathExpression.children_induction with
  | step path ih =>
    intro program built pending fuel aligned numbered
    have numbered' := wellNumbered_push numbered (children_enteredOp dataset path)
    obtain ⟨between, cs, grown, aligned', numbered', count, described, inside, ran⟩ :=
      compiles_all ih (program.push (enteredOp dataset path)) built
        (.exit program.ops.length path :: pending) (fuel + 1) (aligned.push _) numbered'
    have entered : between.ops[program.ops.length]? = some (enteredOp dataset path) :=
      getElem?_of_prefix grown.ops List.getElem?_concat_length
    have reflexive : between.reflexive[program.ops.length]? = some false := by
      rw [← aligned.1]
      exact getElem?_of_prefix grown.reflexive List.getElem?_concat_length
    have repetition : between.repetition[program.ops.length]? = some false := by
      rw [← aligned.2]
      exact getElem?_of_prefix grown.repetition List.getElem?_concat_length
    have place := (List.getElem?_eq_some_iff.mp entered).1
    have later : ∀ c ∈ cs, program.ops.length < c := by
      intro c member
      have low := (inside c member).1
      unfold PathProgram.push at low
      rw [List.length_append] at low
      exact low
    have exits := exitNode_eq built count entered reflexive repetition
      (fun k child c isChild isIndex => (described k child c isChild isIndex).held.choose_spec.reflexive)
      (fun k child c isChild isIndex => (described k child c isChild isIndex).held.choose_spec.repetition)
    refine ⟨between.link program.ops.length (linkedOp dataset path cs) path.isReflexive
      path.hasRepetition, ?_, aligned'.link _ _ _ _, ?_, ?_, ?_, ?_⟩
    · exact ((extends_push program _).trans grown).link aligned le_rfl _ _ _
    · apply wellNumbered_link numbered'
      rw [children_linkedOp count]
      intro c member
      exact ⟨later c member, (inside c member).2⟩
    · refine .node cs ⟨?_, ?_, ?_, count, later⟩ ?_
      · exact List.getElem?_set_self place
      · exact List.getElem?_set_self (aligned'.1 ▸ place)
      · exact List.getElem?_set_self (aligned'.2 ▸ place)
      · intro k child c isChild isIndex
        exact (described k child c isChild isIndex).mono
          (keeps_link (later c (List.mem_of_getElem? isIndex)) _ _ _)
    · unfold PathProgram.link
      rw [List.length_set]
      exact place
    · rw [PropertyPathExpression.size_eq,
        show fuel + 2 * (PropertyPathExpression.size.sizes path.children + 1) =
          fuel + 1 + 2 * PropertyPathExpression.size.sizes path.children + 1 by omega,
        compileLoop_step rfl, ran, compileLoop_step]
      unfold compileStep
      dsimp only
      rw [exits]
      rfl

variable (dataset) in
theorem compile_describes (path : PropertyPathExpression) :
    ∃ program, compile dataset path = some program ∧ WellNumbered program.ops ∧
      Describes dataset program path rootOp := by
  obtain ⟨program, _, _, numbered, described, _, ran⟩ :=
    compiles dataset path ⟨[], [], []⟩ [] [] 0 ⟨rfl, rfl⟩ (by intro k op held; cases held)
  refine ⟨program, ?_, numbered, described⟩
  rw [Nat.zero_add] at ran
  exact ran

end

end Purrdf.Path
