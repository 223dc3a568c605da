import Purrdf.HistoryIndependence

/-!
# Named graphs of a branch

The graphs a caller creates, declares and withdraws, next to the rows it inserts and
removes: what the branch answers for one graph name, and what a snapshot enumerates.
-/

namespace Purrdf

namespace MutableDataset

variable (st : MutableDataset)

/-! ### One graph name -/

/-- Whether a graph a mutation touched has a live row now. -/
def holdsRows (graph : TermValue) : Bool :=
  (st.findValue graph).any fun id => (st.graphRows.lookup id).any (0 < ·)

def hasNamedGraph (graph : TermValue) : Bool :=
  if decide (graph ∈ st.declaredGraphs) ||
      (st.baseGraph graph).any fun id => decide (id ∉ st.withdrawnGraphs) then true
  else st.holdsRows graph

def checkGraphName (rules : LexicalRules) (graph : TermValue) : Except RdfDiagnostic Unit :=
  match graph with
  | .iri _ | .blank _ _ => graph.checkValueAbsolute rules.checkAbsolute
  | .literal .. | .triple .. =>
    .error ⟨"rdf-ir-graph-name-invalid",
      "a declared named graph must be an IRI or blank node"⟩

def declareNamedGraph (rules : LexicalRules) (graph : TermValue) :
    MutableDataset × Except RdfDiagnostic Bool :=
  match checkGraphName rules graph with
  | .error error => (st, .error error)
  | .ok () => ((st.declareGraph graph).1, .ok (st.declareGraph graph).2)

def createNamedGraph (rules : LexicalRules) (graph : TermValue) :
    MutableDataset × Except RdfDiagnostic Bool :=
  match checkGraphName rules graph with
  | .error error => (st, .error error)
  | .ok () =>
    match st.graphExistence with
    | .implicit => (st, .ok false)
    | .rememberEmpty =>
      if st.hasNamedGraph graph then
        (st, .error ⟨"rdf-ir-graph-already-exists", "the named graph already exists"⟩)
      else ((st.declareGraph graph).1, .ok (st.declareGraph graph).2)

/-- Withdraw a base graph that holds no row. Asking for its rows seeds their count. -/
def withdrawBaseGraph (graph : TermId) : MutableDataset :=
  let rows := st.graphRowsOf (.base graph)
  let st := { st with graphRows := st.graphRows.insert (.base graph) rows }
  if rows = 0 ∧ graph ∉ st.withdrawnGraphs then
    { st with withdrawnGraphs := Insert.insert graph st.withdrawnGraphs }
  else st

/-- Withdraw a declaration made in this branch. A remembered graph that holds rows
keeps its slot. -/
def withdrawDeclared (graph : TermValue) : MutableDataset :=
  match st.graphExistence with
  | .rememberEmpty =>
    if decide (graph ∈ st.declaredGraphs) && !st.holdsRows graph then
      { st with declaredGraphs := st.declaredGraphs.erase graph }
    else st
  | .implicit => { st with declaredGraphs := st.declaredGraphs.filter fun g => g ≠ graph }

def withdrawGraphDeclaration (graph : TermValue) : MutableDataset :=
  match st.base.termIdByValue graph with
  | some id => (st.withdrawBaseGraph id).withdrawDeclared graph
  | none => st.withdrawDeclared graph

/-- Drop from the last of the first `index` declarations each graph without rows. -/
def dropRowless : Nat → List TermValue → List TermValue
  | 0, graphs => graphs
  | index + 1, graphs =>
    match graphs[index]? with
    | some graph => dropRowless index (if st.holdsRows graph then graphs else graphs.eraseIdx index)
    | none => dropRowless index graphs

def withdrawNamedGraphDeclarations : MutableDataset :=
  let st := st.base.namedGraphs.foldl withdrawBaseGraph st
  match st.graphExistence with
  | .rememberEmpty =>
    { st with declaredGraphs := st.dropRowless st.declaredGraphs.length st.declaredGraphs }
  | .implicit => { st with declaredGraphs := [] }

def baseNamedGraphs : Option (List TermValue) :=
  (st.base.namedGraphs.filter fun id => decide (id ∉ st.withdrawnGraphs)).mapM st.base.termValue

/-- The graphs of a snapshot's delta: those of the rows it adds, and those declared. -/
def deltaNamedGraphs : Option (List TermValue) :=
  (st.addedInOrder.mapM fun key => st.quadValuesOf key.quad).map fun quads =>
    (quads.filterMap (·.g) ++ st.declaredGraphs).map TermValue.canonical

/-- The named graphs a snapshot enumerates when it is published; `none` is an
out-of-range index panic. -/
def snapshotNamedGraphs : Option (Finset TermValue) :=
  st.baseNamedGraphs.bind fun base => st.deltaNamedGraphs.map fun delta => (base ++ delta).toFinset

inductive GraphCall where
  | insert (quad : QuadValues)
  | remove (quad : QuadValues)
  | createNamedGraph (graph : TermValue)
  | declareNamedGraph (graph : TermValue)
  | withdrawGraphDeclaration (graph : TermValue)
  | withdrawNamedGraphDeclarations
deriving DecidableEq, Repr

/-- One call, with whether it was accepted; `none` is a panic. -/
def graphCall (rules : LexicalRules) : GraphCall → Option (MutableDataset × Bool)
  | .insert quad => (st.insert rules quad).map fun (st, outcome) => (st, outcome.isOk)
  | .remove quad => (st.remove quad).map fun (st, _) => (st, true)
  | .createNamedGraph graph =>
    some ((st.createNamedGraph rules graph).1, (st.createNamedGraph rules graph).2.isOk)
  | .declareNamedGraph graph =>
    some ((st.declareNamedGraph rules graph).1, (st.declareNamedGraph rules graph).2.isOk)
  | .withdrawGraphDeclaration graph => some (st.withdrawGraphDeclaration graph, true)
  | .withdrawNamedGraphDeclarations => some (st.withdrawNamedGraphDeclarations, true)

/-- A call made in a state, whether it was accepted, and the state it left. -/
structure GraphEvent where
  before : MutableDataset
  call : GraphCall
  accepted : Bool
  after : MutableDataset

def graphRun (rules : LexicalRules) (st : MutableDataset) :
    List GraphCall → Option (MutableDataset × List GraphEvent)
  | [] => some (st, [])
  | request :: rest =>
    (st.graphCall rules request).bind fun (after, accepted) =>
      (graphRun rules after rest).map fun (last, events) =>
        (last, ⟨st, request, accepted, after⟩ :: events)

/-! ### What the history of a graph says -/

def holdsGraph (graph : TermValue) : Bool :=
  st.effectiveQuads.any fun quad => quad.g == some graph

namespace GraphEvent

variable (event : GraphEvent) (graph : TermValue)

def withdraws : Bool :=
  decide (event.call = .withdrawGraphDeclaration graph) ||
    decide (event.call = .withdrawNamedGraphDeclarations)

/-- The call took the last row of the graph. -/
def empties : Bool := event.before.holdsGraph graph && !event.after.holdsGraph graph

def declares : Bool := decide (event.call = .declareNamedGraph graph) && event.accepted

def creates : Bool := decide (event.call = .createNamedGraph graph) && event.accepted

/-- Whether the graph counts as declared after the event: a declaration lasts until the
graph is emptied or withdrawn. -/
def declaredAfter (declared : Bool) : Bool :=
  if event.declares graph then true
  else if event.withdraws graph || event.empties graph then false
  else declared

/-- Whether the graph is remembered after the event: a row, a declaration or a creation
makes it so until it is withdrawn without rows. -/
def rememberedAfter (remembered : Bool) : Bool :=
  if event.after.holdsGraph graph || event.declares graph || event.creates graph then true
  else if event.withdraws graph then false
  else remembered

end GraphEvent

/-- Declared, by the base as an empty graph or by a call, and neither emptied nor
withdrawn since. -/
def declaredSince (base : RdfDataset) (events : List GraphEvent) (graph : TermValue) : Bool :=
  events.foldl (fun declared event => event.declaredAfter graph declared)
    ((base.termIdByValue graph).any fun id =>
      base.hasNamedGraph id && decide (base.namedGraphRowCount id = 0))

/-- Listed by the base, declared, created or holding a row at some time, and not
withdrawn without rows since. -/
def rememberedSince (base : RdfDataset) (events : List GraphEvent) (graph : TermValue) : Bool :=
  events.foldl (fun remembered event => event.rememberedAfter graph remembered)
    ((base.termIdByValue graph).any base.hasNamedGraph)

end MutableDataset

/-- A name a graph can be declared under. -/
inductive GraphName where
  | iri (name : String)
  | blank (label : String) (scope : Nat)
deriving DecidableEq, Repr

def GraphName.value : GraphName → TermValue
  | iri name => .iri name
  | blank label scope => .blank label scope

end Purrdf

/-!
## Named-graph presence

Presence is spread over four tables with different keys. Read together they say one thing:
a graph is present when it is declared or holds a row, and that is what the branch answers
and what its snapshots enumerate.
-/

namespace Purrdf

open PhysicalRows ClassifiedRows

theorem TermValue.canonical_eq_name {value : TermValue} {name : GraphName} :
    value.canonical = name.value ↔ value = name.value := by
  cases name <;> cases value <;> try simp [canonical, GraphName.value]
  all_goals
    rename_i language _
    cases language <;> simp [canonical]

theorem GraphName.canonical (name : GraphName) : name.value.canonical = name.value :=
  TermValue.canonical_eq_name.mpr rfl

namespace MutableDataset

variable {st st' : MutableDataset} {name : GraphName} {value : TermValue} {id : MutTermId}
  {base : RdfDataset} {t : ClassifiedRows} {churn : CallerChurn}

/-! ### Rows of a graph -/

theorem termIdByValue_name {id : TermId} :
    base.termIdByValue name.value = some id ↔ base.termValue id = some name.value := by
  rw [base.termIdByValue_eq_some, name.canonical]

theorem findValue_name (fresh : st.delta.Fresh st.base) :
    st.findValue name.value = some id ↔ st.mutValue id = some name.value := by
  rw [findValue_eq]
  constructor
  · intro found
    have read := mutValue_of_idIn fresh found
    simpa [name.canonical] using read
  · exact idIn_of_mutValue fresh

theorem baseGraph_eq_some {id : TermId} :
    st.baseGraph value = some id ↔
      st.base.termIdByValue value = some id ∧ st.base.hasNamedGraph id = true := by
  simp [baseGraph, Option.filter_eq_some_iff]

theorem valid_of_live (h : ValueState st) {key : RecordKey} (live : key ∈ st.effective st.base) :
    st.Valid key.quad := by
  obtain ⟨kind, authored⟩ := h.consistent.coherent.live_iff_authored.mp ⟨key.kind, live⟩
  exact h.valid ⟨kind, key.quad⟩ authored

theorem exists_values (h : ValueState st) {key : RecordKey} (live : key ∈ st.effective st.base) :
    ∃ quad, st.quadValuesOf key.quad = some quad :=
  Quad.exists_traverse (valid_of_live h live)

theorem graph_of_read {key : QuadKey} {quad : QuadValues} (read : st.quadValuesOf key = some quad) :
    quad.g = some value ↔ ∃ id, key.g = some id ∧ st.mutValue id = some value := by
  have graph := (quadValuesOf_eq_some.mp read).2.2.2
  rcases slot : key.g with - | id <;> rcases own : quad.g with - | other <;>
    simp [slot, own] at graph ⊢
  simp [graph]

theorem rowsIn_pos {graph : Option MutTermId} :
    0 < rowsIn base t graph ↔ ∃ key ∈ t.effective base, key.quad.g = graph := by
  simp [rowsIn, Finset.card_pos, Finset.Nonempty]

theorem holdsGraph_iff (h : ValueState st) :
    st.holdsGraph value = true ↔
      ∃ key ∈ st.effective st.base, ∃ id, key.quad.g = some id ∧ st.mutValue id = some value := by
  simp only [holdsGraph, List.any_eq_true, beq_iff_eq]
  constructor
  · rintro ⟨quad, member, slot⟩
    obtain ⟨key, live, read⟩ := (mem_effectiveQuads h.consistent).mp member
    exact ⟨key, live, (graph_of_read read).mp slot⟩
  · rintro ⟨key, live, named⟩
    obtain ⟨quad, read⟩ := exists_values h live
    exact ⟨quad, (mem_effectiveQuads h.consistent).mpr ⟨key, live, read⟩,
      (graph_of_read read).mpr named⟩

theorem holdsGraph_iff_rowsIn (h : ValueState st) (read : st.mutValue id = some value) :
    st.holdsGraph value = true ↔ 0 < rowsIn st.base st.toClassifiedRows (some id) := by
  rw [holdsGraph_iff h, rowsIn_pos]
  constructor
  · rintro ⟨key, live, other, slot, named⟩
    rw [mutValue_injective h.consistent.fresh named read] at slot
    exact ⟨key, live, slot⟩
  · rintro ⟨key, live, slot⟩
    exact ⟨key, live, id, slot, read⟩

/-! ### What the tables say -/

structure GraphSlots (st : MutableDataset) : Prop where
  withdrawn : ∀ id ∈ st.withdrawnGraphs, st.graphRows.lookup (.base id) = some 0
  nodup : st.declaredGraphs.Nodup

structure GraphTables (st : MutableDataset) : Prop extends GraphSlots st where
  touched : ∀ key ∈ st.added, ∀ id ∈ key.quad.g, (st.graphRows.lookup id).isSome

def BaseListed (st : MutableDataset) (value : TermValue) : Prop :=
  ∃ id, st.baseGraph value = some id ∧ id ∉ st.withdrawnGraphs

/-- The graph has a slot, whatever rows it holds. -/
def Declared (st : MutableDataset) (value : TermValue) : Prop :=
  value ∈ st.declaredGraphs ∨ BaseListed st value

theorem graphTables_branch (base : RdfDataset) (order : HashOrder) (mode : GraphExistenceMode) :
    GraphTables (newWithGraphExistence base order mode) := by
  refine ⟨⟨?_, ?_⟩, ?_⟩ <;> simp [newWithGraphExistence]

theorem rowsIn_of_lookup (h : Consistent st) {rows : Nat}
    (counted : st.graphRows.lookup id = some rows) :
    rowsIn st.base st.toClassifiedRows (some id) = rows := by
  have exact := h.exact id
  simp only [graphRowsOf, counted] at exact
  exact exact.symm

theorem holdsRows_iff (h : Consistent st) :
    st.holdsRows name.value = true ↔ ∃ id, st.mutValue id = some name.value ∧
      (st.graphRows.lookup id).isSome ∧ 0 < rowsIn st.base st.toClassifiedRows (some id) := by
  simp only [holdsRows, Option.any_eq_true, decide_eq_true_eq, findValue_name h.fresh]
  constructor
  · rintro ⟨id, read, rows, counted, pos⟩
    exact ⟨id, read, by simp [counted], by rwa [rowsIn_of_lookup h counted]⟩
  · rintro ⟨id, read, counted, pos⟩
    obtain ⟨rows, counted⟩ := Option.isSome_iff_exists.mp counted
    exact ⟨id, read, rows, counted, by rwa [rowsIn_of_lookup h counted] at pos⟩

theorem hasNamedGraph_of_record {row : Record TermId} (member : row ∈ base.recordIds)
    {id : TermId} (slot : row.quad.g = some id) : base.hasNamedGraph id = true := by
  rw [RdfDataset.hasNamedGraph, List.contains_iff_mem]
  simp only [RdfDataset.recordIds, List.mem_append, List.mem_map] at member
  rcases member with (⟨q, inQuads, rfl⟩ | ⟨q, inReifiers, rfl⟩) | ⟨q, inAnnotations, rfl⟩
  · exact base.quads_named q inQuads id slot
  · simp only [RdfDataset.reifierQuads, List.mem_flatMap, List.mem_map] at inReifiers
    obtain ⟨reifies, -, reifier, inTable, rfl⟩ := inReifiers
    exact base.reifiers_named reifier inTable id slot
  · exact base.annotations_named q inAnnotations id slot

theorem graph_of_live {key : RecordKey} (wf : WellFormed st.base st.toPhysicalRows)
    (live : key ∈ st.effective st.base) (slot : key.quad.g = some id) :
    key ∈ st.added ∨ ∃ own, id = .base own ∧ st.base.hasNamedGraph own = true := by
  by_cases inBase : key ∈ st.base.records
  · right
    obtain ⟨q, same, member⟩ := RdfDataset.mem_records.mp inBase
    rw [same] at slot
    rcases graph : q.g with - | own
    · simp [baseKey, graph] at slot
    · refine ⟨own, ?_, hasNamedGraph_of_record member graph⟩
      simpa [baseKey, graph] using slot.symm
  · left
    exact wf.mem_added_iff.mpr ⟨live, inBase⟩

theorem not_withdrawn (h : Consistent st) (tables : GraphTables st) {own : TermId}
    (pos : 0 < rowsIn st.base st.toClassifiedRows (some (.base own))) :
    own ∉ st.withdrawnGraphs := by
  intro withdrawn
  rw [rowsIn_of_lookup h (tables.withdrawn own withdrawn)] at pos
  exact Nat.lt_irrefl 0 pos

theorem holdsRows_or_baseListed (h : ValueState st) (tables : GraphTables st)
    (holds : st.holdsGraph name.value = true) :
    st.holdsRows name.value = true ∨ BaseListed st name.value := by
  obtain ⟨key, live, id, slot, read⟩ := (holdsGraph_iff h).mp holds
  have pos := rowsIn_pos.mpr ⟨key, live, slot⟩
  rcases graph_of_live h.consistent.coherent.rows live slot with added | ⟨own, rfl, listed⟩
  · left
    exact (holdsRows_iff h.consistent).mpr ⟨id, read, tables.touched key added id slot, pos⟩
  · right
    exact ⟨own, baseGraph_eq_some.mpr ⟨termIdByValue_name.mpr read, listed⟩,
      not_withdrawn h.consistent tables pos⟩

theorem holdsGraph_of_holdsRows (h : ValueState st) (holds : st.holdsRows name.value = true) :
    st.holdsGraph name.value = true := by
  obtain ⟨id, read, -, pos⟩ := (holdsRows_iff h.consistent).mp holds
  exact (holdsGraph_iff_rowsIn h read).mpr pos

theorem hasNamedGraph_iff (h : ValueState st) (tables : GraphTables st) :
    st.hasNamedGraph name.value = true ↔ Declared st name.value ∨ st.holdsGraph name.value = true := by
  have slot : (decide (name.value ∈ st.declaredGraphs) ||
      (st.baseGraph name.value).any fun id => decide (id ∉ st.withdrawnGraphs)) = true ↔
        Declared st name.value := by
    simp [Declared, BaseListed, Option.any_eq_true]
  rw [hasNamedGraph]
  by_cases declared : Declared st name.value
  · rw [if_pos (slot.mpr declared)]
    simp [declared]
  · rw [if_neg (slot.not.mpr declared), or_iff_right declared]
    refine ⟨holdsGraph_of_holdsRows h, fun holds => ?_⟩
    exact (holdsRows_or_baseListed h tables holds).resolve_right fun listed =>
      declared (Or.inr listed)

theorem mapM_eq_some {α β : Type} {f : α → Option β} {xs : List α}
    (all : ∀ x ∈ xs, ∃ y, f x = some y) :
    ∃ ys, xs.mapM f = some ys ∧ ∀ y, y ∈ ys ↔ ∃ x ∈ xs, f x = some y := by
  induction xs with
  | nil => exact ⟨[], by simp⟩
  | cons x xs ih =>
    obtain ⟨y, read⟩ := all x (by simp)
    obtain ⟨ys, reads, members⟩ := ih fun x member => all x (by simp [member])
    refine ⟨y :: ys, by simp [read, reads], ?_⟩
    intro other
    simp [members, read, eq_comm]

theorem baseNamedGraphs_spec (st : MutableDataset) :
    ∃ listed, st.baseNamedGraphs = some listed ∧
      ∀ name : GraphName, name.value ∈ listed ↔ BaseListed st name.value := by
  have interned : ∀ id ∈ st.base.namedGraphs.filter fun id => decide (id ∉ st.withdrawnGraphs),
      ∃ value, st.base.termValue id = some value := by
    intro id member
    have bound := st.base.namedGraphs_valid id (List.mem_filter.mp member).1
    exact ⟨_, List.getElem?_eq_getElem bound⟩
  obtain ⟨listed, run, members⟩ := mapM_eq_some interned
  refine ⟨listed, run, fun name => ?_⟩
  rw [members]
  simp only [BaseListed, baseGraph_eq_some, termIdByValue_name, RdfDataset.hasNamedGraph,
    List.contains_iff_mem, List.mem_filter, decide_eq_true_eq]
  constructor
  · rintro ⟨id, ⟨inBase, kept⟩, read⟩
    exact ⟨id, ⟨read, inBase⟩, kept⟩
  · rintro ⟨id, ⟨read, inBase⟩, kept⟩
    exact ⟨id, ⟨inBase, kept⟩, read⟩

theorem deltaNamedGraphs_spec (h : ValueState st) :
    ∃ listed, st.deltaNamedGraphs = some listed ∧
      ∀ name : GraphName, name.value ∈ listed ↔ name.value ∈ st.declaredGraphs ∨
        ∃ key ∈ st.added, ∃ id, key.quad.g = some id ∧ st.mutValue id = some name.value := by
  have wf := h.consistent.coherent.rows
  have mem_added := (addedInOrder_perm wf).2
  have live : ∀ key ∈ st.added, key ∈ st.effective st.base :=
    fun key added => (wf.mem_added_iff.mp added).1
  have readable : ∀ key ∈ st.addedInOrder, ∃ quad, st.quadValuesOf key.quad = some quad :=
    fun key member => exists_values h (live key ((mem_added key).mp member))
  obtain ⟨quads, run, members⟩ := mapM_eq_some readable
  refine ⟨_, by rw [deltaNamedGraphs, run, Option.map_some], fun name => ?_⟩
  simp only [List.mem_map, List.mem_append, List.mem_filterMap, TermValue.canonical_eq_name,
    exists_eq_right, members, mem_added]
  rw [or_comm]
  apply or_congr_right
  constructor
  · rintro ⟨quad, ⟨key, added, read⟩, slot⟩
    exact ⟨key, added, (graph_of_read read).mp slot⟩
  · rintro ⟨key, added, named⟩
    obtain ⟨quad, read⟩ := exists_values h (live key added)
    exact ⟨quad, ⟨key, added, read⟩, (graph_of_read read).mpr named⟩

theorem snapshotNamedGraphs_spec (h : ValueState st) (tables : GraphTables st) :
    ∃ listed, st.snapshotNamedGraphs = some listed ∧ ∀ name : GraphName,
      name.value ∈ listed ↔ Declared st name.value ∨ st.holdsGraph name.value = true := by
  obtain ⟨baseGraphs, baseRun, baseMembers⟩ := baseNamedGraphs_spec st
  obtain ⟨deltaGraphs, deltaRun, deltaMembers⟩ := deltaNamedGraphs_spec h
  refine ⟨(baseGraphs ++ deltaGraphs).toFinset, ?_, fun name => ?_⟩
  · rw [snapshotNamedGraphs, baseRun, Option.bind_some, deltaRun, Option.map_some]
  · rw [List.mem_toFinset, List.mem_append, baseMembers, deltaMembers, Declared, holdsGraph_iff h]
    have wf := h.consistent.coherent.rows
    constructor
    · rintro (listed | declared | ⟨key, added, row⟩)
      · exact Or.inl (Or.inr listed)
      · exact Or.inl (Or.inl declared)
      · exact Or.inr ⟨key, (wf.mem_added_iff.mp added).1, row⟩
    · rintro ((declared | listed) | ⟨key, live, id, slot, read⟩)
      · exact Or.inr (Or.inl declared)
      · exact Or.inl listed
      · rcases graph_of_live wf live slot with added | ⟨own, rfl, inBase⟩
        · exact Or.inr (Or.inr ⟨key, added, id, slot, read⟩)
        · left
          have pos := rowsIn_pos.mpr ⟨key, live, slot⟩
          exact ⟨own, baseGraph_eq_some.mpr ⟨termIdByValue_name.mpr read, inBase⟩,
            not_withdrawn h.consistent tables pos⟩

end MutableDataset

end Purrdf
