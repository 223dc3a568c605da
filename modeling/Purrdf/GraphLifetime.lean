import Purrdf.MutableTerms
import Purrdf.SubjectNormalization

/-!
# Churn counts and graph lifetime

The caller's churn is counted by value at every mutation, and each named graph the
branch touches keeps its live row count. Neither subtraction goes below zero.
-/

namespace Purrdf

open PhysicalRows

namespace CallerChurn

variable {base : RdfDataset} {rows : PhysicalRows} {churn : CallerChurn} {key : RecordKey}

structure Counted (churn : CallerChurn) : Prop where
  added : churn.addedValues.Counts churn.callerAdded.keys.toFinset (·.quad)
  suppressed : churn.suppressedValues.Counts churn.callerSuppressed (·.quad)

theorem counted_empty : Counted {} := by
  constructor
  · exact FastMap.Counts.empty _
  · exact FastMap.Counts.empty _

theorem keys_insert (m : FastMap RecordKey Nat) (key : RecordKey) (n : Nat) :
    (m.insert key n).keys.toFinset = Insert.insert key m.keys.toFinset := by
  ext other
  rw [List.mem_toFinset, ← AList.mem_keys, AList.mem_insert, Finset.mem_insert, List.mem_toFinset,
    AList.mem_keys]

theorem keys_erase (m : FastMap RecordKey Nat) (key : RecordKey) :
    (m.erase key).keys.toFinset = m.keys.toFinset.erase key := by
  ext other
  simp [m.keys_nodup.mem_erase_iff]

theorem insert_spec (wf : WellFormed base rows) (h : churn.Counted)
    (live : key ∈ rows.effective base) :
    ∃ churn', churn.insert base rows key = some churn' ∧ churn'.Counted := by
  rw [insert]
  by_cases inBase : baseContainsRecord base key = true
  · rw [if_pos inBase]
    by_cases removed : key ∈ churn.callerSuppressed
    · obtain ⟨values, run, counts⟩ := h.suppressed.decrement removed
      rw [if_pos removed, run, Option.map_some]
      exact ⟨_, rfl, h.added, counts⟩
    · exact ⟨churn, if_neg removed, h⟩
  · rw [if_neg inBase]
    by_cases known : key ∈ churn.callerAdded
    · exact ⟨churn, if_pos known, h⟩
    · have fresh : key ∉ base.records := fun member =>
        inBase (RdfDataset.baseContainsRecord_iff.mpr member)
      obtain ⟨ordinal, found⟩ := Option.isSome_iff_exists.mp
        ((wf.ord_added key).mpr (wf.mem_added_iff.mpr ⟨live, fresh⟩))
      rw [if_neg known, found, Option.map_some]
      refine ⟨_, rfl, ?_, h.suppressed⟩
      rw [keys_insert]
      exact h.added.increment (by simpa [← AList.mem_keys] using known)

theorem forgetAdded_spec (h : churn.Counted) (key : RecordKey) :
    ∃ churn', churn.forgetAdded key = some churn' ∧ churn'.Counted := by
  rw [forgetAdded]
  by_cases known : key ∈ churn.callerAdded
  · have member : key ∈ churn.callerAdded.keys.toFinset := by
      simpa [← AList.mem_keys] using known
    obtain ⟨values, run, counts⟩ := h.added.decrement member
    rw [if_pos known, run, Option.map_some]
    refine ⟨_, rfl, ?_, h.suppressed⟩
    rw [keys_erase]
    exact counts
  · exact ⟨churn, if_neg known, h⟩

theorem removeOrigin_spec (h : churn.Counted) (base : RdfDataset) (key : RecordKey) :
    ∃ churn', churn.removeOrigin base key = some churn' ∧ churn'.Counted := by
  obtain ⟨churn₁, run, counted⟩ := forgetAdded_spec h key
  rw [removeOrigin, run, Option.map_some]
  refine ⟨_, rfl, ?_⟩
  split
  · rename_i hides
    have fresh : key ∉ churn₁.callerSuppressed := by
      simp only [Bool.and_eq_true, decide_eq_true_eq] at hides
      exact hides.2
    exact ⟨counted.added, counted.suppressed.increment fresh⟩
  · exact counted

theorem removeOrigins_spec (h : churn.Counted) (base : RdfDataset) (keys : List RecordKey) :
    ∃ churn', churn.removeOrigins base keys = some churn' ∧ churn'.Counted := by
  induction keys generalizing churn with
  | nil => exact ⟨churn, rfl, h⟩
  | cons key rest ih =>
    obtain ⟨churn₁, run, counted⟩ := removeOrigin_spec h base key
    obtain ⟨churn', run', counted'⟩ := ih counted
    exact ⟨churn', by rw [removeOrigins, run, Option.bind_some, run'], counted'⟩

end CallerChurn

namespace MutableDataset

open ClassifiedRows

variable {st : MutableDataset} {graph : MutTermId}

/-! ### The two counts -/

theorem effectiveCount_eq (wf : WellFormed st.base st.toPhysicalRows) :
    st.effectiveCount = some (st.effective st.base).card := by
  have := wf.card_effective
  rw [effectiveCount, if_pos (by omega)]
  congr 1
  omega

def rowsIn (base : RdfDataset) (t : ClassifiedRows) (graph : Option MutTermId) : Nat :=
  ((t.effective base).filter (·.quad.g = graph)).card

/-- Every graph's row count is exact, also before its first touch. -/
def GraphsExact (st : MutableDataset) : Prop :=
  ∀ graph, st.graphRowsOf graph = rowsIn st.base st.toClassifiedRows (some graph)

theorem card_filter_toFinset {keys : List RecordKey} (nodup : keys.Nodup)
    {graph : Option MutTermId} :
    (keys.toFinset.filter (·.quad.g = graph)).card = keys.countP (·.quad.g == graph) := by
  rw [List.countP_eq_length_filter, ← List.toFinset_card_of_nodup (nodup.filter _)]
  congr 1
  ext key
  simp

theorem countP_reifierQuads (base : RdfDataset) (graph : TermId) :
    base.reifierQuads.countP (·.g == some graph) =
      base.reifiers.countP (·.graph == some graph) := by
  rcases interned : base.rdfReifiesId with - | reifies
  · have empty : base.reifierQuads = [] := by simp [RdfDataset.reifierQuads, interned]
    have := base.reifierQuads_length
    rw [empty] at this
    simp [empty, List.eq_nil_of_length_eq_zero this.symm]
  · simp only [RdfDataset.reifierQuads, interned, Option.toList_some, List.flatMap_cons,
      List.flatMap_nil, List.append_nil, List.countP_map]
    rfl

theorem card_records_graph (base : RdfDataset) (graph : TermId) :
    (base.records.filter (·.quad.g = some (.base graph))).card = base.namedGraphRowCount graph := by
  have inGraph : ∀ q : QuadIds,
      ((baseKey q).g == some (.base graph)) = (q.g == some graph) := by
    intro q
    rw [Bool.eq_iff_iff]
    rcases slot : q.g with - | id <;> simp [baseKey, slot]
  rw [RdfDataset.records, card_filter_toFinset base.recordKeys_nodup, List.countP_map,
    RdfDataset.recordIds, List.countP_append, List.countP_append, List.countP_map, List.countP_map,
    List.countP_map]
  simp only [Function.comp_def, inGraph]
  rw [countP_reifierQuads, RdfDataset.namedGraphRowCount, RdfDataset.annotationQuads, Nat.add_assoc]

theorem graphsExact_branch (base : RdfDataset) (order : HashOrder) (mode : GraphExistenceMode) :
    GraphsExact (newWithGraphExistence base order mode) := by
  intro graph
  have rows : effective base (newWithGraphExistence base order mode).toPhysicalRows =
      base.records := by
    simp [effective, newWithGraphExistence]
  have untouched : (newWithGraphExistence base order mode).graphRows.lookup graph = none :=
    AList.lookup_empty graph
  simp only [graphRowsOf, untouched, rowsIn]
  rcases graph with id | id
  · exact (card_records_graph base id).symm.trans (by rw [← rows]; rfl)
  · symm
    rw [Finset.card_eq_zero, Finset.filter_eq_empty_iff]
    intro key member inGraph
    have member : key ∈ base.records := rows ▸ member
    obtain ⟨q, same, -⟩ := RdfDataset.mem_records.mp member
    rw [same] at inGraph
    rcases slot : q.g with - | id' <;> simp [baseKey, slot] at inGraph

/-! ### Settling a change -/

/-- What settling a change may alter: the graph tables, and those of one graph only. -/
structure SettledGraph (st : MutableDataset) (graph : MutTermId) (now : Nat)
    (st' : MutableDataset) : Prop where
  rows : st'.toClassifiedRows = st.toClassifiedRows
  churn : st'.toCallerChurn = st.toCallerChurn
  base : st'.base = st.base
  order : st'.order = st.order
  delta : st'.delta = st.delta
  graphExistence : st'.graphExistence = st.graphExistence
  counts : st'.graphRows = st.graphRows.insert graph now

theorem declareGraph_rows (st : MutableDataset) (value : TermValue) :
    ∃ declared withdrawn, (st.declareGraph value).1 =
      { st with declaredGraphs := declared, withdrawnGraphs := withdrawn } := by
  rw [declareGraph]
  split <;> split <;> exact ⟨_, _, rfl⟩

theorem withdrawEmptiedDeclaration_rows {value : TermValue}
    (found : st.mutValue graph = some value) :
    ∃ declared, st.withdrawEmptiedDeclaration graph =
      some { st with declaredGraphs := declared } := by
  rw [withdrawEmptiedDeclaration]
  split
  · exact ⟨st.declaredGraphs, rfl⟩
  · exact ⟨_, by rw [found]; rfl⟩

theorem emptied_rows {value : TermValue} (found : st.mutValue graph = some value) :
    ∃ declared withdrawn, st.emptied graph =
      some { st with declaredGraphs := declared, withdrawnGraphs := withdrawn } := by
  rcases graph with id | id
  · have found' : ({ st with withdrawnGraphs := Insert.insert id st.withdrawnGraphs } :
        MutableDataset).mutValue (.base id) = some value := found
    obtain ⟨declared, run⟩ := withdrawEmptiedDeclaration_rows found'
    exact ⟨declared, _, run⟩
  · obtain ⟨declared, run⟩ := withdrawEmptiedDeclaration_rows found
    exact ⟨declared, st.withdrawnGraphs, run⟩

theorem populated_rows {value : TermValue} (found : st.mutValue graph = some value) :
    ∃ declared withdrawn, st.populated graph =
      some { st with declaredGraphs := declared, withdrawnGraphs := withdrawn } := by
  rcases graph with id | id
  · obtain ⟨declared, withdrawn, run⟩ := declareGraph_rows
      { st with withdrawnGraphs := st.withdrawnGraphs.erase id } value
    have found' : ({ st with withdrawnGraphs := st.withdrawnGraphs.erase id } :
        MutableDataset).mutValue (.base id) = some value := found
    rw [populated]
    split
    · rw [found', Option.map_some, run]
      exact ⟨declared, withdrawn, rfl⟩
    · exact ⟨st.declaredGraphs, st.withdrawnGraphs.erase id, rfl⟩
  · obtain ⟨declared, withdrawn, run⟩ := declareGraph_rows st value
    rw [populated]
    split
    · exact ⟨declared, withdrawn, by rw [found, Option.map_some, run]⟩
    · exact ⟨st.declaredGraphs, st.withdrawnGraphs, rfl⟩

theorem setGraphRows_spec {value : TermValue} (found : st.mutValue graph = some value)
    (old now : Nat) : ∃ st', st.setGraphRows graph old now = some st' ∧
      SettledGraph st graph now st' := by
  have found' : ({ st with graphRows := st.graphRows.insert graph now } : MutableDataset).mutValue
      graph = some value := by
    rcases graph with id | id <;> exact found
  rw [setGraphRows]
  split
  · obtain ⟨declared, withdrawn, run⟩ := emptied_rows found'
    exact ⟨_, run, by constructor <;> rfl⟩
  · split
    · obtain ⟨declared, withdrawn, run⟩ := populated_rows found'
      exact ⟨_, run, by constructor <;> rfl⟩
    · exact ⟨_, rfl, by constructor <;> rfl⟩

theorem card_change {before after : Finset RecordKey} {graph : Option MutTermId}
    (outside : ∀ key : RecordKey, key.quad.g ≠ graph → (key ∈ after ↔ key ∈ before)) :
    after.card + (before.filter (·.quad.g = graph)).card =
      before.card + (after.filter (·.quad.g = graph)).card := by
  have rest : after.filter (¬·.quad.g = graph) = before.filter (¬·.quad.g = graph) := by
    ext key
    simp only [Finset.mem_filter]
    constructor
    · rintro ⟨member, elsewhere⟩
      exact ⟨(outside key elsewhere).mp member, elsewhere⟩
    · rintro ⟨member, elsewhere⟩
      exact ⟨(outside key elsewhere).mpr member, elsewhere⟩
  have splitBefore := Finset.card_filter_add_card_filter_not (s := before) (·.quad.g = graph)
  have splitAfter := Finset.card_filter_add_card_filter_not (s := after) (·.quad.g = graph)
  rw [rest] at splitAfter
  omega

theorem rowsIn_congr {base : RdfDataset} {t t' : ClassifiedRows} {graph : Option MutTermId}
    (same : ∀ key : RecordKey, key.quad.g = graph →
      (key ∈ t'.effective base ↔ key ∈ t.effective base)) :
    rowsIn base t' graph = rowsIn base t graph := by
  rw [rowsIn, rowsIn]
  congr 1
  ext key
  simp only [Finset.mem_filter]
  constructor
  · rintro ⟨member, inGraph⟩
    exact ⟨(same key inGraph).mp member, inGraph⟩
  · rintro ⟨member, inGraph⟩
    exact ⟨(same key inGraph).mpr member, inGraph⟩

/-- The state an operation leaves: new rows and churn, exact graph counts, and the
graph it worked in counted from now on. -/
structure Published (st : MutableDataset) (graph : Option MutTermId) (t : ClassifiedRows)
    (churn : CallerChurn) (st' : MutableDataset) : Prop where
  rows : st'.toClassifiedRows = t
  churn : st'.toCallerChurn = churn
  base : st'.base = st.base
  order : st'.order = st.order
  delta : st'.delta = st.delta
  exact : st'.GraphsExact
  touched : ∀ id ∈ graph, (st'.graphRows.lookup id).isSome
  kept : ∀ id, (st.graphRows.lookup id).isSome → (st'.graphRows.lookup id).isSome

theorem lookup_insert_isSome (m : FastMap MutTermId Nat) (graph id : MutTermId) (n : Nat) :
    ((m.insert graph n).lookup id).isSome ↔ id = graph ∨ (m.lookup id).isSome := by
  by_cases same : id = graph
  · subst same
    simp
  · rw [AList.lookup_insert_ne same]
    simp [same]

/-- Settling never goes below zero, and leaves every graph's count exact. -/
theorem applyGraphChange_spec {graph : Option MutTermId} {t : ClassifiedRows}
    {churn : CallerChurn} (wf : WellFormed st.base t.toPhysicalRows) (exact : st.GraphsExact)
    (valid : ∀ id ∈ graph, (st.mutValue id).isSome)
    (outside : ∀ key : RecordKey, key.quad.g ≠ graph →
      (key ∈ t.effective st.base ↔ key ∈ st.effective st.base)) :
    ∃ st', ((st.withRows t).withChurn churn).applyGraphChange graph (st.effective st.base).card =
      some st' ∧ Published st graph t churn st' := by
  have after : ((st.withRows t).withChurn churn).effectiveCount =
      some (t.effective st.base).card := effectiveCount_eq wf
  rw [applyGraphChange, after, Option.bind_some]
  rcases graph with - | graph
  · refine ⟨_, rfl, rfl, rfl, rfl, rfl, rfl, ?_, ?_, fun _ held => held⟩
    · intro id
      have same : rowsIn st.base t (some id) = rowsIn st.base st.toClassifiedRows (some id) :=
        rowsIn_congr fun key inGraph => outside key (by simp [inGraph])
      exact (exact id).trans same.symm
    · simp
  · have change := card_change outside
    have old : ((st.withRows t).withChurn churn).graphRowsOf graph =
        rowsIn st.base st.toClassifiedRows (some graph) := exact graph
    obtain ⟨value, found⟩ := Option.isSome_iff_exists.mp (valid graph rfl)
    have settle : ∀ old now, now = rowsIn st.base t (some graph) → ∃ st',
        ((st.withRows t).withChurn churn).setGraphRows graph old now = some st' ∧
          Published st (some graph) t churn st' := by
      intro old now counted
      have found' : ((st.withRows t).withChurn churn).mutValue graph = some value := by
        rcases graph with id | id <;> exact found
      obtain ⟨st', run, settled⟩ := setGraphRows_spec found' old now
      refine ⟨st', run, settled.rows, settled.churn, settled.base, settled.order, settled.delta,
        ?_, ?_, ?_⟩
      · intro id
        rw [settled.base, settled.rows]
        by_cases same : id = graph
        · subst same
          simp only [graphRowsOf, settled.counts, AList.lookup_insert]
          exact counted
        · have untouched : ((st.withRows t).withChurn churn).graphRows.lookup id =
              st.graphRows.lookup id := rfl
          have unchanged : st'.graphRowsOf id = st.graphRowsOf id := by
            simp only [graphRowsOf, settled.counts, settled.base, AList.lookup_insert_ne same,
              untouched]
            rfl
          rw [unchanged, exact id]
          refine (rowsIn_congr fun key inGraph => outside key ?_).symm
          rw [inGraph]
          simpa using same
      · intro id member
        rw [settled.counts, lookup_insert_isSome]
        exact Or.inl (Option.some.inj member).symm
      · intro id held
        rw [settled.counts, lookup_insert_isSome]
        exact Or.inr held
    simp only [old, rowsIn] at *
    split
    · exact settle _ _ (by omega)
    · rw [if_pos (by omega)]
      exact settle _ _ (by omega)

end MutableDataset

end Purrdf
