import Mathlib.Logic.Function.Basic
import Purrdf.DepthFirst

/-!
# The statement layer of a fold

Terms and reifier rows in the order a segment brings them, with an index that answers for each row
whether it would let a quoted triple contain itself.
-/

namespace Purrdf.Reifiers

inductive TermKind where
  | iri
  | literal
  | bnode
  | triple
deriving DecidableEq, Repr

abbrev Triple3 := Nat × Nat × Nat

abbrev ReifierRow := Nat × Triple3 × Option Nat

structure Term where
  kind : TermKind
  /-- The reifier a quoted triple takes its components from. -/
  reifier : Option Nat
  /-- The components a quoted triple states itself. -/
  triple : Option Triple3
deriving DecidableEq, Repr

structure Graph where
  terms : List Term
  reifiers : List ReifierRow
deriving DecidableEq, Repr

def components (triple : Triple3) : List Nat :=
  [triple.1, triple.2.1, triple.2.2]

def Graph.reifier (graph : Graph) (rid : Nat) : Option Triple3 :=
  (graph.reifiers.find? fun row => row.1 == rid).map fun row => row.2.1

def Graph.termTriple (graph : Graph) (term : Term) : Option Triple3 :=
  if term.kind = .triple then term.triple.or (term.reifier.bind graph.reifier) else none

def Graph.tripleOf (graph : Graph) (termId : Nat) : Option Triple3 := do
  let term ← graph.terms[termId]?
  (graph.termTriple term).or
    (if term.kind = .triple ∧ term.reifier = none then graph.reifier termId else none)

/-! ### The index -/

structure ReifierIndex where
  /-- The quoted triples that name a reifier, or that are named by their own identifier. -/
  anchors : Nat → List Nat
  first : Nat → Option Triple3
  rows : List ReifierRow

def ReifierIndex.empty : ReifierIndex :=
  ⟨fun _ => [], fun _ => none, []⟩

def anchoredOn (termId : Nat) (term : Term) : Option Nat :=
  if term.kind = .triple then
    match term.reifier, term.triple with
    | some rid, _ => some rid
    | none, none => some termId
    | none, some _ => none
  else none

def ReifierIndex.observeTerm (index : ReifierIndex) (termId : Nat) (term : Term) : ReifierIndex :=
  match anchoredOn termId term with
  | none => index
  | some rid =>
    { index with
      anchors := Function.update index.anchors rid (index.anchors rid ++ [termId]) }

/-- A repeated row is recorded once, and the first binding is kept. -/
def ReifierIndex.record (index : ReifierIndex) (graph : Graph) (row : ReifierRow)
    (materialize : Bool) : ReifierIndex × Graph :=
  if materialize = false ∨ row ∉ index.rows then
    ({ index with
        first := Function.update index.first row.1 (some ((index.first row.1).getD row.2.1))
        rows := if materialize then row :: index.rows else index.rows },
      if materialize then { graph with reifiers := graph.reifiers ++ [row] } else graph)
  else (index, graph)

/-- What a quoted triple would resolve to with a row in the place of its reifier's binding. -/
def ReifierIndex.pendingBinding (index : ReifierIndex) (terms : List Term) (termId : Nat)
    (pending : Nat × Triple3) : Option Triple3 := do
  let term ← terms[termId]?
  if term.kind = .triple then
    match term.triple with
    | some triple => some triple
    | none =>
      let rid := term.reifier.getD termId
      if rid = pending.1 then some pending.2 else index.first rid
  else none

def ReifierIndex.dependsOnAnchor (index : ReifierIndex) (terms : List Term) (anchor : Nat)
    (pending : Nat × Triple3) : Nat → Nat → List Nat → Option (Bool × List Nat)
  | 0, _, _ => none
  | turns + 1, termId, seen =>
    if termId = anchor then some (true, seen)
    else if termId ∈ seen then some (false, seen)
    else
      match index.pendingBinding terms termId pending with
      | none => some (false, termId :: seen)
      | some triple =>
        DepthFirst.searchAny (index.dependsOnAnchor terms anchor pending turns)
          (components triple) (termId :: seen)

/-- Every anchor is looked for from every component, each time with nothing seen. -/
def ReifierIndex.bindingIsRecursive (index : ReifierIndex) (terms : List Term) (rid : Nat)
    (triple : Triple3) : Option Bool :=
  (index.anchors rid).anyM fun anchor =>
    (components triple).anyM fun component =>
      (index.dependsOnAnchor terms anchor (rid, triple) (terms.length + 1) component []).map
        Prod.fst

/-! ### The fold -/

structure Fold where
  graph : Graph
  index : ReifierIndex

def Fold.empty : Fold :=
  ⟨⟨[], []⟩, ReifierIndex.empty⟩

inductive Event where
  | term (term : Term)
  | row (row : ReifierRow)
deriving DecidableEq, Repr

/-- A term is appended, and a row is recorded unless it is refused. -/
def Fold.step (fold : Fold) : Event → Option Fold
  | .term term =>
    some ⟨{ fold.graph with terms := fold.graph.terms ++ [term] },
      fold.index.observeTerm fold.graph.terms.length term⟩
  | .row row => do
      let recursive ← fold.index.bindingIsRecursive fold.graph.terms row.1 row.2.1
      if recursive then some fold
      else
        let recorded := fold.index.record fold.graph row true
        some ⟨recorded.2, recorded.1⟩

def Introduced (fold : Fold) : Event → Prop
  | .term term => (∀ rid, term.reifier = some rid → rid ≤ fold.graph.terms.length) ∧
      ∀ triple, term.triple = some triple →
        ∀ component ∈ components triple, component < fold.graph.terms.length
  | .row _ => True

def Known (fold : Fold) : Event → Prop
  | .term _ => True
  | .row row => ∀ component ∈ components row.2.1, component < fold.graph.terms.length

inductive Run (admits : Fold → Event → Prop) : Fold → Prop
  | empty : Run admits Fold.empty
  | step {fold next : Fold} {event : Event} (hrun : Run admits fold) (hadmits : admits fold event)
      (hstep : fold.step event = some next) : Run admits next

end Purrdf.Reifiers

/-!
## No fold holds a quoted triple inside itself

The index refuses every row that would close a loop, so the components of quoted triples are well
founded in every fold.
-/

namespace Purrdf.Reifiers

open DepthFirst

def Contains (graph : Graph) (component termId : Nat) : Prop :=
  ∃ triple, graph.tripleOf termId = some triple ∧ component ∈ components triple

def Graph.binding (graph : Graph) (row : ReifierRow) : Graph :=
  { graph with reifiers := row :: graph.reifiers }

/-! ### Components -/

theorem tripleOf_eq (graph : Graph) (termId : Nat) :
    graph.tripleOf termId = graph.terms[termId]?.bind fun term =>
      if term.kind = .triple then term.triple.or (graph.reifier (term.reifier.getD termId))
      else none := by
  unfold Graph.tripleOf Graph.termTriple
  cases graph.terms[termId]? with
  | none => rfl
  | some term =>
    rw [Option.bind_eq_bind, Option.bind_some, Option.bind_some]
    by_cases hkind : term.kind = .triple
    · cases htriple : term.triple with
      | some triple => simp [hkind]
      | none =>
        cases hreifier : term.reifier with
        | some rid => simp [hkind]
        | none => simp [hkind]
    · simp [hkind]

theorem reifier_binding (graph : Graph) (row : ReifierRow) (rid : Nat) :
    (graph.binding row).reifier rid = if rid = row.1 then some row.2.1 else graph.reifier rid := by
  unfold Graph.reifier Graph.binding
  by_cases hsame : rid = row.1
  · simp [hsame]
  · simp [hsame, Ne.symm hsame]

def Supplied (terms : List Term) (termId rid : Nat) : Prop :=
  ∃ term, terms[termId]? = some term ∧ term.kind = .triple ∧ term.triple = none ∧
    term.reifier.getD termId = rid

variable {graph : Graph} {index : ReifierIndex}

theorem tripleOf_supplied {termId rid : Nat} (hsupplied : Supplied graph.terms termId rid) :
    graph.tripleOf termId = graph.reifier rid := by
  obtain ⟨term, hterm, hkind, htriple, hrid⟩ := hsupplied
  rw [tripleOf_eq, hterm, Option.bind_some, if_pos hkind, htriple, hrid]
  rfl

theorem tripleOf_congr {graph other : Graph} (hterms : other.terms = graph.terms) {termId : Nat}
    (hreifiers : ∀ rid, Supplied graph.terms termId rid →
      other.reifier rid = graph.reifier rid) :
    other.tripleOf termId = graph.tripleOf termId := by
  rw [tripleOf_eq, tripleOf_eq, hterms]
  cases hterm : graph.terms[termId]? with
  | none => rfl
  | some term =>
    rw [Option.bind_some, Option.bind_some]
    by_cases hkind : term.kind = .triple
    · rw [if_pos hkind, if_pos hkind]
      cases htriple : term.triple with
      | some triple => rfl
      | none => exact hreifiers _ ⟨term, hterm, hkind, htriple, rfl⟩
    · rw [if_neg hkind, if_neg hkind]

theorem contains_congr {graph other : Graph} (hterms : other.terms = graph.terms)
    (hreifiers : ∀ rid, other.reifier rid = graph.reifier rid) :
    Contains other = Contains graph := by
  funext component termId
  unfold Contains
  rw [tripleOf_congr hterms fun rid _ => hreifiers rid]

/-! ### The search -/

theorem pendingBinding_eq (hfirst : ∀ rid, index.first rid = graph.reifier rid) (row : ReifierRow)
    (termId : Nat) :
    index.pendingBinding graph.terms termId (row.1, row.2.1) =
      (graph.binding row).tripleOf termId := by
  rw [tripleOf_eq]
  unfold ReifierIndex.pendingBinding
  have hterms : (graph.binding row).terms = graph.terms := rfl
  rw [hterms]
  cases graph.terms[termId]? with
  | none => rfl
  | some term =>
    rw [Option.bind_eq_bind, Option.bind_some, Option.bind_some]
    cases term.triple with
    | some triple => rfl
    | none => simp [reifier_binding, hfirst]

def componentsOf (graph : Graph) (termId : Nat) : List Nat :=
  (graph.tripleOf termId).elim [] components

theorem mem_componentsOf {component termId : Nat} :
    component ∈ componentsOf graph termId ↔ Contains graph component termId := by
  unfold componentsOf Contains
  cases graph.tripleOf termId with
  | none => simp
  | some triple => simp

theorem dependsOnAnchor_eq (hfirst : ∀ rid, index.first rid = graph.reifier rid)
    (row : ReifierRow) (anchor turns : Nat) (termId : Nat) (seen : List Nat) :
    index.dependsOnAnchor graph.terms anchor (row.1, row.2.1) turns termId seen =
      search (componentsOf (graph.binding row)) anchor turns termId seen := by
  induction turns generalizing termId seen with
  | zero => rfl
  | succ turns ih =>
    have hvisit : index.dependsOnAnchor graph.terms anchor (row.1, row.2.1) turns =
        search (componentsOf (graph.binding row)) anchor turns := by
      funext other more
      exact ih other more
    rw [ReifierIndex.dependsOnAnchor, search, pendingBinding_eq hfirst, hvisit, componentsOf]
    cases (graph.binding row).tripleOf termId <;> rfl

theorem dependsOnAnchor_total (hfirst : ∀ rid, index.first rid = graph.reifier rid)
    (row : ReifierRow) (anchor component : Nat) :
    ∃ answer, index.dependsOnAnchor graph.terms anchor (row.1, row.2.1) (graph.terms.length + 1)
      component [] = some answer := by
  rw [dependsOnAnchor_eq hfirst]
  have hbound : ∀ termId, termId ∉ Finset.range graph.terms.length →
      componentsOf (graph.binding row) termId = [] := by
    intro termId hpast
    have hnone : graph.terms[termId]? = none := by simpa using hpast
    have hterms : (graph.binding row).terms = graph.terms := rfl
    rw [componentsOf, tripleOf_eq, hterms, hnone]
    rfl
  obtain ⟨answer, hanswer, -⟩ := search_total (componentsOf (graph.binding row)) anchor hbound
    (graph.terms.length + 1) component [] (by simp)
  exact ⟨answer, hanswer⟩

theorem anyM_answers {α : Type} (ask : α → Option Bool) (items : List α)
    (hask : ∀ item ∈ items, ∃ answer, ask item = some answer) :
    ∃ answer, items.anyM ask = some answer ∧
      (answer = true ↔ ∃ item ∈ items, ask item = some true) := by
  induction items with
  | nil => exact ⟨false, rfl, by simp⟩
  | cons item items ih =>
    obtain ⟨first, hfirst⟩ := hask item List.mem_cons_self
    obtain ⟨rest, hrest, hiff⟩ := ih fun other hother => hask other (List.mem_cons_of_mem _ hother)
    cases first with
    | true =>
      refine ⟨true, ?_, by simp [hfirst]⟩
      simp [List.anyM, hfirst]
    | false =>
      refine ⟨rest, ?_, ?_⟩
      · simp [List.anyM, hfirst, hrest]
      · rw [hiff]
        simp [hfirst]

theorem bindingIsRecursive_iff (hfirst : ∀ rid, index.first rid = graph.reifier rid)
    (row : ReifierRow) :
    ∃ recursive, index.bindingIsRecursive graph.terms row.1 row.2.1 = some recursive ∧
      (recursive = true ↔ ∃ anchor ∈ index.anchors row.1, ∃ component ∈ components row.2.1,
        Reaches (componentsOf (graph.binding row)) component anchor) := by
  have hdepends : ∀ anchor component, ∃ answer, (index.dependsOnAnchor graph.terms anchor
      (row.1, row.2.1) (graph.terms.length + 1) component []).map Prod.fst = some answer ∧
      (answer = true ↔ Reaches (componentsOf (graph.binding row)) component anchor) := by
    intro anchor component
    obtain ⟨answer, hanswer⟩ := dependsOnAnchor_total hfirst row anchor component
    refine ⟨answer.1, by rw [hanswer, Option.map_some], ?_⟩
    rw [dependsOnAnchor_eq hfirst] at hanswer
    obtain ⟨found, after⟩ := answer
    cases found with
    | true => simpa using reaches_of_found hanswer
    | false => simpa using not_reaches_of_missed hanswer
  have hanchor : ∀ anchor, ∃ answer, ((components row.2.1).anyM fun component =>
      (index.dependsOnAnchor graph.terms anchor (row.1, row.2.1) (graph.terms.length + 1)
        component []).map Prod.fst) = some answer ∧ (answer = true ↔
          ∃ component ∈ components row.2.1,
            Reaches (componentsOf (graph.binding row)) component anchor) := by
    intro anchor
    obtain ⟨answer, hanswer, hiff⟩ := anyM_answers (fun component =>
      (index.dependsOnAnchor graph.terms anchor (row.1, row.2.1) (graph.terms.length + 1)
        component []).map Prod.fst) (components row.2.1) (fun component _ => by
          obtain ⟨found, hfound, -⟩ := hdepends anchor component
          exact ⟨found, hfound⟩)
    refine ⟨answer, hanswer, hiff.trans (exists_congr fun component => and_congr_right fun _ => ?_)⟩
    obtain ⟨found, hfound, hreaches⟩ := hdepends anchor component
    rw [hfound, Option.some.injEq, hreaches]
  obtain ⟨recursive, hrecursive, hiff⟩ := anyM_answers _ (index.anchors row.1)
    (fun anchor _ => by
      obtain ⟨found, hfound, -⟩ := hanchor anchor
      exact ⟨found, hfound⟩)
  refine ⟨recursive, hrecursive,
    hiff.trans (exists_congr fun anchor => and_congr_right fun _ => ?_)⟩
  obtain ⟨found, hfound, hreaches⟩ := hanchor anchor
  rw [hfound, Option.some.injEq, hreaches]

structure Kept (fold : Fold) : Prop where
  wellFounded : WellFounded (Contains fold.graph)
  anchors : ∀ rid termId, termId ∈ fold.index.anchors rid ↔
    ∃ term, fold.graph.terms[termId]? = some term ∧ anchoredOn termId term = some rid
  first : ∀ rid, fold.index.first rid = fold.graph.reifier rid
  known : ∀ row ∈ fold.graph.reifiers, ∀ component ∈ components row.2.1,
    component < fold.graph.terms.length
  described : ∀ termId term triple, fold.graph.terms[termId]? = some term →
    term.triple = some triple → ∀ component ∈ components triple, component < termId

theorem supplied_anchor {terms : List Term} {termId rid : Nat}
    (hsupplied : Supplied terms termId rid) :
    ∃ term, terms[termId]? = some term ∧ anchoredOn termId term = some rid := by
  obtain ⟨term, hterm, hkind, htriple, hrid⟩ := hsupplied
  refine ⟨term, hterm, ?_⟩
  rw [anchoredOn, if_pos hkind, htriple]
  cases hreifier : term.reifier with
  | none => simpa [hreifier] using hrid
  | some named => simpa [hreifier] using hrid

theorem wellFounded_binding (hgraph : WellFounded (Contains graph)) {row : ReifierRow}
    (hmissed : ∀ anchor, Supplied graph.terms anchor row.1 →
      ∀ component ∈ components row.2.1,
        ¬ Reaches (componentsOf (graph.binding row)) component anchor) :
    WellFounded (Contains (graph.binding row)) := by
  have hsame : ∀ termId, ¬ Supplied graph.terms termId row.1 →
      (graph.binding row).tripleOf termId = graph.tripleOf termId := by
    intro termId hnot
    have hterms : (graph.binding row).terms = graph.terms := rfl
    apply tripleOf_congr hterms
    intro rid hsupplied
    rw [reifier_binding, if_neg]
    exact fun hrid => hnot (hrid ▸ hsupplied)
  -- what a component reaches is no anchor, and so has the components it had before
  have hmet : ∀ termId, (∃ component ∈ components row.2.1,
      Reaches (componentsOf (graph.binding row)) component termId) →
        Acc (Contains (graph.binding row)) termId := by
    intro termId
    induction hgraph.apply termId with
    | intro termId _ ih =>
      rintro ⟨component, hcomponent, hreaches⟩
      constructor
      intro next hnext
      have hfree : ¬ Supplied graph.terms termId row.1 :=
        fun hsupplied => hmissed termId hsupplied component hcomponent hreaches
      apply ih next
      · unfold Contains at hnext ⊢
        rwa [hsame termId hfree] at hnext
      · exact ⟨component, hcomponent, hreaches.tail (mem_componentsOf.mpr hnext)⟩
  constructor
  intro termId
  induction hgraph.apply termId with
  | intro termId _ ih =>
    constructor
    intro next hnext
    by_cases hsupplied : Supplied graph.terms termId row.1
    · apply hmet
      obtain ⟨triple, htriple, hmember⟩ := hnext
      have hterms : Supplied (graph.binding row).terms termId row.1 := hsupplied
      rw [tripleOf_supplied hterms, reifier_binding, if_pos rfl] at htriple
      exact ⟨next, Option.some.inj htriple ▸ hmember, Relation.ReflTransGen.refl⟩
    · apply ih next
      unfold Contains at hnext ⊢
      rwa [hsame termId hsupplied] at hnext

theorem not_wellFounded_binding {row : ReifierRow} {anchor component : Nat}
    (hsupplied : Supplied graph.terms anchor row.1) (hcomponent : component ∈ components row.2.1)
    (hreaches : Reaches (componentsOf (graph.binding row)) component anchor) :
    ¬ WellFounded (Contains (graph.binding row)) := by
  intro hwell
  have hstep : Contains (graph.binding row) component anchor := by
    have hterms : Supplied (graph.binding row).terms anchor row.1 := hsupplied
    refine ⟨row.2.1, ?_, hcomponent⟩
    rw [tripleOf_supplied hterms, reifier_binding, if_pos rfl]
  have hback : ∀ termId, Reaches (componentsOf (graph.binding row)) component termId →
      Relation.TransGen (Contains (graph.binding row)) termId anchor := by
    intro termId hmet
    induction hmet with
    | refl => exact Relation.TransGen.single hstep
    | tail _ hnext ih => exact Relation.TransGen.head (mem_componentsOf.mp hnext) ih
  have hloop := hback anchor hreaches
  exact hwell.transGen.asymmetric _ _ hloop hloop

/-! ### Steps -/

theorem Kept.empty : Kept Fold.empty := by
  have hnothing : ∀ termId, Fold.empty.graph.tripleOf termId = none := fun termId => by
    rw [tripleOf_eq]
    rfl
  refine ⟨⟨fun termId => ⟨_, fun next hnext => ?_⟩⟩, ?_, fun _ => rfl, ?_, ?_⟩
  · obtain ⟨triple, htriple, -⟩ := hnext
    rw [hnothing] at htriple
    cases htriple
  · simp [Fold.empty, ReifierIndex.empty]
  · simp [Fold.empty]
  · simp [Fold.empty]

theorem contains_lt {bound : Nat}
    (hknown : ∀ row ∈ graph.reifiers, ∀ component ∈ components row.2.1, component < bound)
    (hdescribed : ∀ (termId : Nat) (term : Term) (triple : Triple3),
      graph.terms[termId]? = some term → term.triple = some triple →
        ∀ component ∈ components triple, component < bound) {component termId : Nat}
    (hcontains : Contains graph component termId) :
    component < bound := by
  obtain ⟨triple, htriple, hmember⟩ := hcontains
  rw [tripleOf_eq] at htriple
  obtain ⟨term, hterm, htriple⟩ := Option.bind_eq_some_iff.mp htriple
  split at htriple
  · rcases Option.or_eq_some_iff.mp htriple with hown | ⟨-, hfirst⟩
    · exact hdescribed termId term triple hterm hown component hmember
    · unfold Graph.reifier at hfirst
      obtain ⟨row, hrow, rfl⟩ := Option.map_eq_some_iff.mp hfirst
      exact hknown row (List.mem_of_find?_eq_some hrow) component hmember
  · cases htriple

theorem Kept.component_lt {fold : Fold} (hkept : Kept fold) {component termId : Nat}
    (hcontains : Contains fold.graph component termId) :
    component < fold.graph.terms.length := by
  refine contains_lt hkept.known ?_ hcontains
  intro whole term triple hterm htriple other hother
  exact (hkept.described whole term triple hterm htriple other hother).trans
    (List.getElem?_eq_some_iff.mp hterm).1

theorem observe_anchors (index : ReifierIndex) (termId : Nat) (term : Term) (rid other : Nat) :
    other ∈ (index.observeTerm termId term).anchors rid ↔
      other ∈ index.anchors rid ∨ other = termId ∧ anchoredOn termId term = some rid := by
  unfold ReifierIndex.observeTerm
  cases hanchored : anchoredOn termId term with
  | none => simp
  | some named =>
    by_cases hsame : rid = named
    · simp [hsame]
    · simp [hsame, Ne.symm hsame]

theorem observe_first (index : ReifierIndex) (termId : Nat) (term : Term) :
    (index.observeTerm termId term).first = index.first := by
  unfold ReifierIndex.observeTerm
  split <;> rfl

theorem Kept.term {fold : Fold} (hkept : Kept fold) {term : Term}
    (hintroduced : Introduced fold (.term term)) :
    Kept ⟨{ fold.graph with terms := fold.graph.terms ++ [term] },
      fold.index.observeTerm fold.graph.terms.length term⟩ := by
  have hsame : ∀ termId < fold.graph.terms.length,
      (⟨fold.graph.terms ++ [term], fold.graph.reifiers⟩ : Graph).tripleOf termId =
        fold.graph.tripleOf termId := by
    intro termId hinside
    rw [tripleOf_eq, tripleOf_eq, List.getElem?_append_left hinside]
    rfl
  have hold : ∀ termId < fold.graph.terms.length,
      Acc (Contains ⟨fold.graph.terms ++ [term], fold.graph.reifiers⟩) termId := by
    intro termId
    induction hkept.wellFounded.apply termId with
    | intro termId _ ih =>
      intro hinside
      constructor
      intro next hnext
      have hbefore : Contains fold.graph next termId := by
        unfold Contains at hnext ⊢
        rwa [hsame termId hinside] at hnext
      exact ih next hbefore (hkept.component_lt hbefore)
  have hdescribed : ∀ termId other triple, (fold.graph.terms ++ [term])[termId]? = some other →
      other.triple = some triple → ∀ component ∈ components triple, component < termId := by
    intro termId other triple hother htriple
    rcases Nat.lt_or_ge termId fold.graph.terms.length with hinside | hpast
    · rw [List.getElem?_append_left hinside] at hother
      exact hkept.described termId other triple hother htriple
    · rw [List.getElem?_append_right hpast, List.getElem?_singleton] at hother
      split at hother
      · obtain rfl := Option.some.inj hother
        intro component hcomponent
        have hbound := hintroduced.2 triple htriple component hcomponent
        omega
      · cases hother
  have hcomponents : ∀ next termId,
      Contains ⟨fold.graph.terms ++ [term], fold.graph.reifiers⟩ next termId →
        next < fold.graph.terms.length := by
    intro next termId hcontains
    have hknown : ∀ row ∈ (⟨fold.graph.terms ++ [term], fold.graph.reifiers⟩ : Graph).reifiers,
        ∀ component ∈ components row.2.1, component < fold.graph.terms.length := hkept.known
    refine contains_lt hknown ?_ hcontains
    intro whole other triple hother htriple component hcomponent
    have hearlier := hdescribed whole other triple hother htriple component hcomponent
    have hinside := (List.getElem?_eq_some_iff.mp hother).1
    rw [List.length_append, List.length_singleton] at hinside
    omega
  refine ⟨⟨fun termId => ⟨_, fun next hnext => hold next (hcomponents next termId hnext)⟩⟩, ?_, ?_,
    ?_, hdescribed⟩
  · intro rid termId
    dsimp only
    rw [observe_anchors, hkept.anchors]
    constructor
    · rintro (⟨other, hother, hanchored⟩ | ⟨rfl, hanchored⟩)
      · have hinside := (List.getElem?_eq_some_iff.mp hother).1
        exact ⟨other, by rw [List.getElem?_append_left hinside, hother], hanchored⟩
      · exact ⟨term, by simp, hanchored⟩
    · rintro ⟨other, hother, hanchored⟩
      rcases Nat.lt_or_ge termId fold.graph.terms.length with hinside | hpast
      · rw [List.getElem?_append_left hinside] at hother
        exact Or.inl ⟨other, hother, hanchored⟩
      · rw [List.getElem?_append_right hpast, List.getElem?_singleton] at hother
        split at hother
        · obtain rfl := Option.some.inj hother
          have hlast : termId = fold.graph.terms.length := by omega
          exact Or.inr ⟨hlast, hlast ▸ hanchored⟩
        · cases hother
  · intro rid
    dsimp only
    rw [observe_first, hkept.first]
    rfl
  · intro row hrow component hcomponent
    have hbound := hkept.known row hrow component hcomponent
    dsimp only
    rw [List.length_append]
    omega

theorem reifier_append (graph : Graph) (row : ReifierRow) (rid : Nat) :
    (⟨graph.terms, graph.reifiers ++ [row]⟩ : Graph).reifier rid =
      (graph.reifier rid).or (if rid = row.1 then some row.2.1 else none) := by
  unfold Graph.reifier
  rw [List.find?_append]
  cases graph.reifiers.find? fun other => other.1 == rid with
  | some other => rfl
  | none =>
    by_cases hsame : rid = row.1
    · simp [hsame]
    · simp [hsame, Ne.symm hsame]

theorem Kept.row {fold : Fold} (hkept : Kept fold) {row : ReifierRow}
    (hknown : Known fold (.row row))
    (hbinding : WellFounded (Contains (fold.graph.binding row))) :
    Kept ⟨(fold.index.record fold.graph row true).2,
      (fold.index.record fold.graph row true).1⟩ := by
  unfold ReifierIndex.record
  split
  · have hreifier := reifier_append fold.graph row
    refine ⟨?_, hkept.anchors, ?_, ?_, hkept.described⟩
    · -- the row is first for its reifier, or it changes nothing that is resolved
      cases hbound : fold.graph.reifier row.1 with
      | some triple =>
        have hsame : Contains ⟨fold.graph.terms, fold.graph.reifiers ++ [row]⟩ =
            Contains fold.graph := by
          refine contains_congr rfl ?_
          intro rid
          rw [hreifier]
          by_cases hrid : rid = row.1
          · rw [hrid, hbound, Option.some_or]
          · rw [if_neg hrid, Option.or_none]
        simp only [if_true]
        rw [hsame]
        exact hkept.wellFounded
      | none =>
        have hsame : Contains ⟨fold.graph.terms, fold.graph.reifiers ++ [row]⟩ =
            Contains (fold.graph.binding row) := by
          refine contains_congr rfl ?_
          intro rid
          rw [hreifier, reifier_binding]
          by_cases hrid : rid = row.1
          · rw [hrid, hbound, Option.none_or]
          · rw [if_neg hrid, if_neg hrid, Option.or_none]
        simp only [if_true]
        rw [hsame]
        exact hbinding
    · intro rid
      simp only [if_true]
      rw [hreifier, ← hkept.first]
      by_cases hrid : rid = row.1
      · rw [hrid, Function.update_self, if_pos rfl]
        cases fold.index.first row.1 <;> rfl
      · rw [Function.update_of_ne hrid, if_neg hrid, Option.or_none]
    · simp only [if_true]
      intro other hother
      rcases List.mem_append.mp hother with hearlier | hlast
      · exact hkept.known other hearlier
      · rw [List.mem_singleton.mp hlast]
        exact hknown
  · exact hkept

/-! ### Folds -/

/-- No term that names a reifier states its own components. -/
def Indirect (graph : Graph) (rid : Nat) : Prop :=
  ∀ (termId : Nat) (term : Term), graph.terms[termId]? = some term → term.kind = .triple →
    term.reifier = some rid → term.triple = none

theorem Kept.answers {fold : Fold} (hkept : Kept fold) (row : ReifierRow) :
    ∃ recursive, fold.index.bindingIsRecursive fold.graph.terms row.1 row.2.1 = some recursive ∧
      (¬ WellFounded (Contains (fold.graph.binding row)) → recursive = true) ∧
      (recursive = true → Indirect fold.graph row.1 →
        ¬ WellFounded (Contains (fold.graph.binding row))) := by
  obtain ⟨recursive, hanswer, hiff⟩ := bindingIsRecursive_iff hkept.first row
  refine ⟨recursive, hanswer, ?_, ?_⟩
  · intro hloop
    by_contra hno
    apply hloop
    apply wellFounded_binding hkept.wellFounded
    intro anchor hsupplied component hcomponent hreaches
    apply hno
    rw [hiff]
    exact ⟨anchor, (hkept.anchors row.1 anchor).mpr (supplied_anchor hsupplied), component,
      hcomponent, hreaches⟩
  · intro hyes hindirect
    obtain ⟨anchor, hanchor, component, hcomponent, hreaches⟩ := hiff.mp hyes
    obtain ⟨term, hterm, hanchored⟩ := (hkept.anchors row.1 anchor).mp hanchor
    have hsupplied : Supplied fold.graph.terms anchor row.1 := by
      unfold anchoredOn at hanchored
      split at hanchored
      · rename_i hkind
        cases hreifier : term.reifier with
        | some named =>
          rw [hreifier] at hanchored
          obtain rfl : named = row.1 := Option.some.inj hanchored
          exact ⟨term, hterm, hkind, hindirect anchor term hterm hkind hreifier, by
            rw [hreifier, Option.getD_some]⟩
        | none =>
          cases htriple : term.triple with
          | some triple => simp [hreifier, htriple] at hanchored
          | none =>
            rw [hreifier, htriple] at hanchored
            exact ⟨term, hterm, hkind, htriple, by
              rw [hreifier, Option.getD_none]
              exact Option.some.inj hanchored⟩
      · cases hanchored
    exact not_wellFounded_binding hsupplied hcomponent hreaches

theorem Kept.step {fold next : Fold} (hkept : Kept fold) {event : Event}
    (hintroduced : Introduced fold event) (hknown : Known fold event)
    (hstep : fold.step event = some next) : Kept next := by
  cases event with
  | term term =>
    obtain rfl := Option.some.inj hstep
    exact hkept.term hintroduced
  | row row =>
    obtain ⟨recursive, hanswer, hloop, -⟩ := hkept.answers row
    rw [Fold.step, hanswer, Option.bind_eq_bind, Option.bind_some] at hstep
    split at hstep
    · obtain rfl := Option.some.inj hstep
      exact hkept
    · rename_i hno
      obtain rfl := Option.some.inj hstep
      exact hkept.row hknown (not_not.mp fun hbad => hno (hloop hbad))

theorem kept_of_run {fold : Fold}
    (hrun : Run (fun fold event => Introduced fold event ∧ Known fold event) fold) : Kept fold := by
  induction hrun with
  | empty => exact Kept.empty
  | step _ hadmits hstep ih => exact ih.step hadmits.1 hadmits.2 hstep

/-- The components of quoted triples are well founded in every fold; a row that would close a loop
as its reifier's binding is refused; and a row over a reifier that only indirect terms name is
refused for no other reason. -/
theorem folds_well_founded {fold : Fold}
    (hrun : Run (fun fold event => Introduced fold event ∧ Known fold event) fold) :
    WellFounded (Contains fold.graph) ∧ ∀ row : ReifierRow,
      ∃ recursive, fold.index.bindingIsRecursive fold.graph.terms row.1 row.2.1 =
          some recursive ∧
        (¬ WellFounded (Contains (fold.graph.binding row)) → recursive = true) ∧
        (recursive = true → Indirect fold.graph row.1 →
          ¬ WellFounded (Contains (fold.graph.binding row))) := by
  have hkept := kept_of_run hrun
  exact ⟨hkept.wellFounded, hkept.answers⟩

def plain : Term :=
  ⟨.iri, none, none⟩

/-- A quoted triple that takes its components from the row keyed by its own identifier. -/
def selfBound : Term :=
  ⟨.triple, none, none⟩

theorem Run.next {admits : Fold → Event → Prop} {fold next : Fold} (hrun : Run admits fold)
    (event : Event) (hadmits : admits fold event) (hstep : fold.step event = some next) :
    Run admits next :=
  Run.step hrun hadmits hstep

theorem selfBound_run : ∃ fold, Run (fun fold event => Introduced fold event ∧ Known fold event)
    fold ∧ fold.graph = ⟨[plain, selfBound], [(1, (0, 0, 0), none)]⟩ ∧
      fold.index.bindingIsRecursive fold.graph.terms 1 (1, 1, 1) = some true ∧
      (fold.index.record fold.graph (1, (1, 1, 1), none) true).2 =
        ⟨[plain, selfBound], [(1, (0, 0, 0), none), (1, (1, 1, 1), none)]⟩ := by
  refine ⟨_, ((Run.empty.next (.term plain) ?_ rfl).next (.term selfBound) ?_ rfl).next
    (.row (1, (0, 0, 0), none)) ?_ rfl, rfl, rfl, rfl⟩
  · simp [Introduced, Known, plain]
  · simp [Introduced, Known, selfBound]
  · simp [Introduced, Known, components]

theorem folds_well_founded_selfBound :
    ∃ fold : Fold, fold.graph = ⟨[plain, selfBound], [(1, (0, 0, 0), none)]⟩ ∧
      WellFounded (Contains fold.graph) := by
  obtain ⟨fold, hrun, hgraph, -⟩ := selfBound_run
  exact ⟨fold, hgraph, (folds_well_founded hrun).1⟩

/-- A row over terms that are still to come closes a loop when they come; and a row is refused
that would not be resolved, because its reifier is bound before. -/
theorem loop_admitted_and_row_refused :
    (∃ fold, Run Introduced fold ∧ ¬ WellFounded (Contains fold.graph)) ∧
    ∃ (fold : Fold) (row : ReifierRow),
      Run (fun fold event => Introduced fold event ∧ Known fold event) fold ∧
      fold.index.bindingIsRecursive fold.graph.terms row.1 row.2.1 = some true ∧
      WellFounded (Contains (fold.index.record fold.graph row true).2) := by
  constructor
  · refine ⟨_, ((Run.empty.next (.row (0, (1, 1, 1), none)) ?_ rfl).next (.term selfBound) ?_
      rfl).next (.term ⟨.triple, none, some (0, 0, 0)⟩) ?_ rfl, ?_⟩
    · trivial
    · simp [Introduced, selfBound]
    · simp [Introduced, components, Fold.empty]
    · intro hwell
      exact hwell.asymmetric 0 1 ⟨(0, 0, 0), rfl, by simp [components]⟩
        ⟨(1, 1, 1), rfl, by simp [components]⟩
  · obtain ⟨fold, hrun, hgraph, hrefused, hrecord⟩ := selfBound_run
    refine ⟨fold, (1, (1, 1, 1), none), hrun, hrefused, ?_⟩
    have hwell := (kept_of_run hrun).wellFounded
    rw [hgraph] at hwell
    rw [hrecord]
    have hsame : Contains ⟨[plain, selfBound], [(1, (0, 0, 0), none), (1, (1, 1, 1), none)]⟩ =
        Contains ⟨[plain, selfBound], [(1, (0, 0, 0), none)]⟩ := by
      refine contains_congr rfl ?_
      intro rid
      by_cases hrid : rid = 1
      · simp [Graph.reifier, hrid]
      · simp [Graph.reifier, Ne.symm hrid]
    rwa [hsame]

end Purrdf.Reifiers
