import Purrdf.RelationPowers
import Purrdf.RdfDataset

/-!
# Property path expressions

A path relates the two ends of a walk. `PropertyPathExpression.relation` says which pairs of
nodes, by recursion on the expression, over any graph of triples whose predicates have an
IRI.
-/

namespace Purrdf.Path

open Relation RelationPowers

/-- An element of a negated property set; `inverse` marks a `^iri` element. -/
structure NegatedPathElement where
  predicate : String
  inverse : Bool
deriving DecidableEq, Repr

/-- The elements of a sequence or an alternative are in source order; the source admits no
fewer than two. -/
inductive PropertyPathExpression where
  | namedNode (predicate : String)
  | reverse (inner : PropertyPathExpression)
  | sequence (elements : List PropertyPathExpression)
  | alternative (elements : List PropertyPathExpression)
  | zeroOrMore (inner : PropertyPathExpression)
  | oneOrMore (inner : PropertyPathExpression)
  | zeroOrOne (inner : PropertyPathExpression)
  | negatedPropertySet (elements : List NegatedPathElement)
  | range (inner : PropertyPathExpression) (min : Nat) (max : Option Nat)
  | wildcard (ns : Option String)

structure Graph (I : Type) where
  triple : I → I → I → Prop
  iri : I → Option String

section
variable {I : Type}

/-- One step along a predicate that `allowed` admits. -/
def Graph.hop (graph : Graph I) (allowed : I → Prop) (x y : I) : Prop :=
  ∃ predicate, graph.triple x predicate y ∧ allowed predicate

def Graph.excludes (graph : Graph I) (elements : List NegatedPathElement) (inverse : Bool)
    (predicate : I) : Prop :=
  ∀ element ∈ elements, element.inverse = inverse → graph.iri predicate ≠ some element.predicate

/-- The part of a negated set that its elements in one direction make up: nothing when there
are none. -/
def Graph.negated (graph : Graph I) (elements : List NegatedPathElement) (inverse : Bool)
    (x y : I) : Prop :=
  (∃ element ∈ elements, element.inverse = inverse) ∧
    graph.hop (graph.excludes elements inverse) x y

def Graph.inNamespace (graph : Graph I) (ns : Option String) (predicate : I) : Prop :=
  ∀ pfx, ns = some pfx → ∃ iri, graph.iri predicate = some iri ∧ pfx.toList <+: iri.toList

/-- The repetition counts of `{min,max}`. -/
def InWindow (min : Nat) (max : Option Nat) (k : Nat) : Prop :=
  min ≤ k ∧ ∀ bound, max = some bound → k ≤ bound

@[simp] theorem inWindow_some {min bound k : Nat} :
    InWindow min (some bound) k ↔ min ≤ k ∧ k ≤ bound := by
  simp [InWindow]

@[simp] theorem inWindow_none {min k : Nat} : InWindow min none k ↔ min ≤ k := by
  simp [InWindow]

def PropertyPathExpression.relation (graph : Graph I) : PropertyPathExpression → I → I → Prop
  | namedNode iri => graph.hop fun predicate => graph.iri predicate = some iri
  | reverse inner => flip (inner.relation graph)
  | sequence elements => Composed (relations graph elements)
  | alternative elements => United (relations graph elements)
  | zeroOrMore inner => ReflTransGen (inner.relation graph)
  | oneOrMore inner => TransGen (inner.relation graph)
  | zeroOrOne inner => fun x y => x = y ∨ inner.relation graph x y
  | negatedPropertySet elements => fun x y =>
    graph.negated elements false x y ∨ graph.negated elements true y x
  | range inner min max => fun x y => ∃ k, InWindow min max k ∧ Power (inner.relation graph) k x y
  | wildcard ns => graph.hop (graph.inNamespace ns)
where
  /-- The relations of the elements, in source order. -/
  relations (graph : Graph I) : List PropertyPathExpression → List (I → I → Prop)
    | [] => []
    | first :: rest => first.relation graph :: relations graph rest

theorem PropertyPathExpression.relations_eq_map {graph : Graph I}
    {elements : List PropertyPathExpression} :
    relation.relations graph elements = elements.map (relation graph) := by
  induction elements with
  | nil => rfl
  | cons first rest ih => rw [relation.relations, ih, List.map_cons]

end

namespace PropertyPathExpression

def size : PropertyPathExpression → Nat
  | namedNode _ | negatedPropertySet _ | wildcard _ => 1
  | reverse inner | zeroOrMore inner | oneOrMore inner | zeroOrOne inner
  | range inner _ _ => inner.size + 1
  | sequence elements | alternative elements => sizes elements + 1
where
  sizes : List PropertyPathExpression → Nat
    | [] => 0
    | first :: rest => first.size + sizes rest

def children : PropertyPathExpression → List PropertyPathExpression
  | reverse inner | zeroOrMore inner | oneOrMore inner | zeroOrOne inner
  | range inner _ _ => [inner]
  | sequence elements | alternative elements => elements
  | namedNode _ | negatedPropertySet _ | wildcard _ => []

theorem size_eq (path : PropertyPathExpression) : path.size = size.sizes path.children + 1 := by
  cases path <;> simp [size, children, size.sizes]

theorem size_le_sizes {path : PropertyPathExpression} {paths : List PropertyPathExpression}
    (member : path ∈ paths) : path.size ≤ size.sizes paths := by
  induction paths with
  | nil => cases member
  | cons first rest ih =>
    rw [size.sizes]
    rcases List.mem_cons.mp member with rfl | later
    · exact Nat.le_add_right _ _
    · exact Nat.le_add_left_of_le (ih later)

theorem children_induction {motive : PropertyPathExpression → Prop}
    (step : ∀ path, (∀ child ∈ path.children, motive child) → motive path)
    (path : PropertyPathExpression) : motive path := by
  induction size_lt : path.size using Nat.strong_induction_on generalizing path with
  | _ n ih =>
    apply step
    intro child member
    have smaller := size_le_sizes member
    have whole := path.size_eq
    exact ih child.size (by omega) child rfl

end PropertyPathExpression

end Purrdf.Path

/-!
## Read views of a dataset

What path evaluation reads of a dataset: its quads by pattern, and the terms behind its ids
in both directions. An active scope is one graph filter or the merge of some named graphs;
the graph of a scope is what paths are related over.
-/

namespace Purrdf.Path

section
variable {I : Type} [DecidableEq I]

/-- Whether a bound component matches; an unbound one matches anything. -/
def bound (component : Option I) (id : I) : Bool :=
  component.all (· == id)

theorem bound_some {component id : I} : bound (some component) id = true ↔ component = id :=
  beq_iff_eq

/-- The read surface of a dataset. A view may answer a pattern through any index, in any
order, with the quads that match; forward and reverse lookup of an IRI agree. -/
structure DatasetView (I : Type) [DecidableEq I] where
  quads : List (Quad I)
  quadsForPattern : Option I → Option I → Option I → GraphMatch I → List (Quad I)
  resolve : I → TermValue
  termIdByValue : TermValue → Option I
  mem_quadsForPattern : ∀ s p o g q, q ∈ quadsForPattern s p o g ↔
    q ∈ quads ∧ bound s q.s ∧ bound p q.p ∧ bound o q.o ∧ g.matches q.g
  resolve_of_termId : ∀ iri id, termIdByValue (.iri iri) = some id → resolve id = .iri iri
  termId_of_resolve : ∀ q ∈ quads, ∀ iri, resolve q.p = .iri iri →
    termIdByValue (.iri iri) = some q.p

def frozenView (base : RdfDataset) : DatasetView TermId where
  quads := base.quads
  quadsForPattern := base.quadsForPattern
  resolve id := (base.termValue id).getD (.iri "")
  termIdByValue := base.termIdByValue
  mem_quadsForPattern s p o g q := by
    have swapped : ∀ (component : Option TermId) (id : TermId),
        component.all (id == ·) = bound component id := by
      intro component id
      cases component with
      | none => rfl
      | some component => exact Bool.beq_comm
    simp only [RdfDataset.quadsForPattern, List.mem_filter, swapped, Bool.and_eq_true, and_assoc]
  resolve_of_termId iri id found := by
    rw [base.termIdByValue_eq_some.mp found]
    rfl
  termId_of_resolve q stored iri resolved := by
    have inside : q.p < base.terms.length := base.quads_valid q stored q.p (by simp [Quad.ids])
    have held : base.termValue q.p = some base.terms[q.p] := List.getElem?_eq_getElem inside
    rw [held, Option.getD_some] at resolved
    rw [resolved] at held
    exact base.termIdByValue_termValue held

/-- How the active graph is sourced: one filter, or the merge of named graphs. -/
inductive GraphScope (I : Type) where
  | one (graph : GraphMatch I)
  | merge (graphs : List I)
deriving DecidableEq, Repr

def GraphScope.admits (scope : GraphScope I) (slot : Option I) : Bool :=
  match scope with
  | one graph => graph.matches slot
  | merge graphs => graphs.any fun graph => (GraphMatch.named graph).matches slot

/-- The quads `for_each_quad` visits, in its order; a merge is not freed of duplicates. -/
def GraphScope.forEachQuad (scope : GraphScope I) (dataset : DatasetView I) (s p o : Option I) :
    List (Quad I) :=
  match scope with
  | one graph => dataset.quadsForPattern s p o graph
  | merge graphs => graphs.flatMap fun graph => dataset.quadsForPattern s p o (.named graph)

def DatasetView.graph (dataset : DatasetView I) (scope : GraphScope I) : Graph I where
  triple x predicate y := ∃ q ∈ dataset.quads,
    scope.admits q.g = true ∧ q.s = x ∧ q.p = predicate ∧ q.o = y
  iri id := match dataset.resolve id with
    | .iri value => some value
    | _ => none

variable {dataset : DatasetView I} {scope : GraphScope I} {s p o : Option I} {q : Quad I}

theorem GraphScope.mem_forEachQuad : q ∈ scope.forEachQuad dataset s p o ↔
    q ∈ dataset.quads ∧ scope.admits q.g = true ∧ bound s q.s ∧ bound p q.p ∧ bound o q.o := by
  cases scope with
  | one graph =>
    unfold forEachQuad admits
    rw [dataset.mem_quadsForPattern]
    tauto
  | merge graphs =>
    simp only [forEachQuad, admits, List.mem_flatMap, List.any_eq_true,
      dataset.mem_quadsForPattern]
    constructor
    · rintro ⟨graph, member, stored, left, middle, right, inside⟩
      exact ⟨stored, ⟨graph, member, inside⟩, left, middle, right⟩
    · rintro ⟨stored, ⟨graph, member, inside⟩, left, middle, right⟩
      exact ⟨graph, member, stored, left, middle, right, inside⟩

theorem DatasetView.iri_eq_some {id : I} {value : String} :
    (dataset.graph scope).iri id = some value ↔ dataset.resolve id = .iri value := by
  unfold graph
  cases resolved : dataset.resolve id <;> simp [resolved]

theorem DatasetView.termId_iff {x id y : I} (triple : (dataset.graph scope).triple x id y)
    (value : String) :
    dataset.termIdByValue (.iri value) = some id ↔ (dataset.graph scope).iri id = some value := by
  obtain ⟨q, stored, _, _, rfl, _⟩ := triple
  rw [iri_eq_some]
  constructor
  · exact dataset.resolve_of_termId _ _
  · intro resolved
    exact dataset.termId_of_resolve q stored value resolved

def DatasetView.nodes (dataset : DatasetView I) : Finset I :=
  (dataset.quads.flatMap fun q => [q.s, q.o]).toFinset

theorem DatasetView.triple_mem_nodes {x predicate y : I}
    (triple : (dataset.graph scope).triple x predicate y) :
    x ∈ dataset.nodes ∧ y ∈ dataset.nodes := by
  obtain ⟨q, stored, _, rfl, _, rfl⟩ := triple
  constructor
  · exact List.mem_toFinset.mpr (List.mem_flatMap.mpr ⟨q, stored, by simp⟩)
  · exact List.mem_toFinset.mpr (List.mem_flatMap.mpr ⟨q, stored, by simp⟩)

end

end Purrdf.Path
