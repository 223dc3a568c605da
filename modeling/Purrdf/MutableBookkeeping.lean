import Purrdf.QuadRemoval

/-!
# The bookkeeping of a branch

What every operation preserves: the row tables agree with the base and with each
other, and every count is exact. An operation that starts from such a state never
panics.
-/

namespace Purrdf

open PhysicalRows ClassifiedRows

namespace MutableDataset

variable {st st' : MutableDataset} {t : ClassifiedRows} {key : RecordKey} {quad : QuadKey}
  {rules : LexicalRules}

structure Consistent (st : MutableDataset) : Prop where
  coherent : Coherent st.base st.toClassifiedRows
  counted : st.toCallerChurn.Counted
  fresh : st.delta.Fresh st.base
  exact : st.GraphsExact

theorem consistent_branch (base : RdfDataset) (order : HashOrder) (mode : GraphExistenceMode) :
    Consistent (newWithGraphExistence base order mode) := by
  constructor
  · exact coherent_empty
  · exact CallerChurn.counted_empty
  · constructor <;> simp [newWithGraphExistence]
  · exact graphsExact_branch base order mode

structure Advanced (st : MutableDataset) (graph : Option MutTermId) (st' : MutableDataset) :
    Prop where
  consistent : Consistent st'
  base : st'.base = st.base
  order : st'.order = st.order
  touched : ∀ id ∈ graph, (st'.graphRows.lookup id).isSome
  kept : ∀ id, (st.graphRows.lookup id).isSome → (st'.graphRows.lookup id).isSome

theorem Valid.graph (valid : st.Valid quad) : ∀ id ∈ quad.g, (st.mutValue id).isSome := by
  intro id member
  refine valid id ?_
  rw [Quad.ids, Option.mem_def.mp member]
  simp

theorem settle_spec (h : Consistent st) (valid : st.Valid quad) {churn : CallerChurn}
    (coherent : Coherent st.base t) (counted : churn.Counted)
    (outside : ∀ key : RecordKey, key.quad.g ≠ quad.g →
      (key ∈ t.effective st.base ↔ key ∈ st.effective st.base)) :
    ∃ st', (st.stage t churn).applyGraphChange quad.g (st.effective st.base).card = some st' ∧
      Advanced st quad.g st' ∧ st'.toClassifiedRows = t ∧ st'.delta = st.delta := by
  obtain ⟨st', run, published⟩ := applyGraphChange_spec coherent.rows h.exact valid.graph outside
  refine ⟨st', run, ?_, published.rows, published.delta⟩
  refine ⟨⟨?_, ?_, ?_, published.exact⟩, published.base, published.order, published.touched,
    published.kept⟩
  · rw [published.base, published.rows]
    exact coherent
  · rw [published.churn]
    exact counted
  · rw [published.base, published.delta]
    exact h.fresh

theorem not_touched {declaration : Bool} (outside : key.quad.g ≠ quad.g) :
    ¬Touched declaration quad key.quad := by
  rintro (same | ⟨-, same⟩)
  · exact outside (by rw [same])
  · exact outside (Prod.ext_iff.mp same).2

theorem insertKey_spec (h : Consistent st) (valid : st.Valid quad) :
    ∃ st' changed declaration, st.insertKey quad = some (st', changed) ∧
      Advanced st quad.g st' ∧ st'.delta = st.delta ∧
      st.declarationKey quad = some declaration ∧
      Admitted st.base quad declaration changed st.toClassifiedRows st'.toClassifiedRows := by
  obtain ⟨declaration, declared⟩ := declarationKey_isSome valid
  obtain ⟨t, churn, changed, counted, admitted, run⟩ := insertKey_rows h.coherent h.counted declared
  obtain ⟨st', settle, advanced, rows, delta⟩ := settle_spec h valid admitted.coherent counted
    fun key outside => admitted.live_other key (not_touched outside)
  refine ⟨st', changed, declaration, ?_, advanced, delta, declared, ?_⟩
  · rw [run _ (effectiveCount_eq h.coherent.rows), settle, Option.map_some]
  · rw [rows]
    exact admitted

theorem removeKey_spec (h : Consistent st) (valid : st.Valid quad) :
    ∃ st' changed declaration, st.removeKey quad = some (st', changed) ∧
      Advanced st quad.g st' ∧ st'.delta = st.delta ∧
      st.declarationKey quad = some declaration ∧
      Withdrawn st.base quad declaration changed st.toClassifiedRows st'.toClassifiedRows := by
  obtain ⟨declaration, declared⟩ := declarationKey_isSome valid
  obtain ⟨t, churn, changed, counted, withdrawn, run⟩ := removeKey_rows h.coherent h.counted declared
  obtain ⟨st', settle, advanced, rows, delta⟩ := settle_spec h valid withdrawn.coherent counted
    fun key outside => withdrawn.live_other key (not_touched outside)
  refine ⟨st', changed, declaration, ?_, advanced, delta, declared, ?_⟩
  · rw [run _ (effectiveCount_eq h.coherent.rows), settle, Option.map_some]
  · rw [rows]
    exact withdrawn

theorem insertRecordKey_spec (key : RecordKey) (h : Consistent st) (valid : st.Valid key.quad) :
    ∃ st', st.insertRecordKey key = some (st', decide (key ∉ st.effective st.base)) ∧
      Advanced st key.quad.g st' := by
  have coherent : Coherent st.base (st.inserted st.base key) := h.coherent.insertRecordRows key
  have effective : (st.inserted st.base key).effective st.base =
      Insert.insert key (st.effective st.base) := insertRecordRows_effective h.coherent.rows
  have outside : ∀ other : RecordKey, other.quad.g ≠ key.quad.g →
      (other ∈ (st.inserted st.base key).effective st.base ↔ other ∈ st.effective st.base) := by
    intro other elsewhere
    have differs : other ≠ key := fun same => elsewhere (by rw [same])
    simp [effective, differs]
  have changed : (st.insertRows key).2 = decide (key ∉ st.effective st.base) :=
    insertRecordRows_changed h.coherent.rows
  have account : ∃ churn, churn.Counted ∧
      (if (st.insertRows key).2 then (st.insertRows key).1.callerInsert key
        else some (st.insertRows key).1) = some (st.stage (st.inserted st.base key) churn) := by
    by_cases fresh : (st.insertRows key).2 = true
    · obtain ⟨churn, run, counted⟩ := callerInsert_spec h.coherent h.counted key
      exact ⟨churn, counted, by rw [if_pos fresh]; exact run⟩
    · exact ⟨st.toCallerChurn, h.counted, if_neg fresh⟩
  obtain ⟨churn, counted, run⟩ := account
  obtain ⟨st', settle, advanced, -, -⟩ := settle_spec h valid coherent counted outside
  refine ⟨st', ?_, advanced⟩
  rw [← changed]
  simp only [insertRecordKey, effectiveCount_eq h.coherent.rows, Option.bind_some, run, settle,
    Option.map_some]

theorem removeRecordRows_missing {rows : PhysicalRows} {base : RdfDataset}
    (missing : key ∉ rows.effective base) :
    rows.removeRecordRows base key = some (rows, false) := by
  rw [mem_effective, not_or, not_and] at missing
  rw [removeRecordRows, if_neg missing.2, if_neg]
  simp only [Bool.and_eq_true, decide_eq_true_eq, RdfDataset.baseContainsRecord_iff]
  exact fun held => missing.1 held.1 held.2

theorem removeRecordKey_spec (key : RecordKey) (h : Consistent st) (valid : st.Valid key.quad) :
    ∃ st', st.removeRecordKey key = some (st', decide (key ∈ st.effective st.base)) ∧
      Advanced st key.quad.g st' := by
  by_cases live : key ∈ st.effective st.base
  · obtain ⟨t, churn, run, counted, dropped⟩ := removeRole_spec h.coherent h.counted key
    have outside : ∀ other : RecordKey, other.quad.g ≠ key.quad.g →
        (other ∈ t.effective st.base ↔ other ∈ st.effective st.base) := by
      intro other elsewhere
      rw [dropped.live, List.mem_singleton]
      exact ⟨And.left, fun live => ⟨live, fun same => elsewhere (by rw [same])⟩⟩
    obtain ⟨st', settle, advanced, -, -⟩ := settle_spec h valid dropped.coherent counted outside
    refine ⟨st', ?_, advanced⟩
    obtain ⟨rows, removed, -⟩ := removeRecordRows_spec h.coherent.rows key
    have run : (st.removeRecordRows st.base key).bind (fun removed =>
        ((st.withPhysical removed.1).settleRemoval key).map fun st => (st, removed.2)) =
          some (st.stage t churn, decide (key ∈ st.effective st.base)) := run
    rw [removed, Option.bind_some, Option.map_eq_some_iff] at run
    obtain ⟨staged, settled, same⟩ := run
    obtain ⟨rfl, -⟩ := Prod.ext_iff.mp same
    rw [removeRecordKey, effectiveCount_eq h.coherent.rows, Option.bind_some, removed]
    simp only [Option.bind_some, live, decide_true, if_true, settled, settle, Option.map_some]
  · obtain ⟨st', settle, advanced, -, -⟩ := settle_spec h valid h.coherent h.counted
      fun _ _ => Iff.rfl
    refine ⟨st', ?_, advanced⟩
    rw [removeRecordKey, effectiveCount_eq h.coherent.rows, Option.bind_some,
      removeRecordRows_missing live, Option.bind_some, if_neg Bool.false_ne_true, Option.bind_some]
    have settle : (st.withPhysical st.toPhysicalRows).applyGraphChange key.quad.g
        (st.effective st.base).card = some st' := settle
    rw [settle, Option.map_some, decide_eq_false live]

/-! ### Value-level and typed operations -/

theorem Valid.extended {delta : DeltaBuilder} (extended : st.delta.Extends delta)
    (valid : st.Valid quad) : ({ st with delta := delta } : MutableDataset).Valid quad := by
  intro id member
  have held := valid id member
  rcases id with id | id
  · exact held
  · obtain ⟨suffix, same⟩ := extended.2
    obtain ⟨value, found⟩ := Option.isSome_iff_exists.mp held
    have found : st.delta.values[id]? = some value := found
    have grown : delta.values[id]? = some value := by
      rw [← same, List.getElem?_append_left (List.getElem?_eq_some_iff.mp found).1, found]
    exact Option.isSome_iff_exists.mpr ⟨value, grown⟩

theorem Consistent.minted {delta : DeltaBuilder} (h : Consistent st) (fresh : delta.Fresh st.base) :
    Consistent { st with delta := delta } :=
  ⟨h.coherent, h.counted, fresh, h.exact⟩

theorem keyOf_cases (h : Consistent st) (rules : LexicalRules) (quad : QuadValues) :
    (∃ key st₁, st.keyOf rules quad = (.ok key, st₁) ∧ Consistent st₁ ∧ st₁.Valid key ∧
      st₁.base = st.base ∧ st₁.order = st.order ∧ st₁.toClassifiedRows = st.toClassifiedRows ∧
      st₁.graphRows = st.graphRows ∧ st.delta.Extends st₁.delta ∧
      quad.traverse (idIn st₁.base st₁.delta) = some key) ∨
    ∃ error, st.keyOf rules quad = (.error error, st) := by
  rcases keyOf_spec h.fresh rules quad with ⟨key, delta, run, extended, fresh, found⟩ | refused
  · left
    exact ⟨key, _, run, h.minted fresh, valid_of_traverse fresh found, rfl, rfl, rfl, rfl, extended,
      found⟩
  · right
    exact refused

theorem valid_existing (h : Consistent st) {quad : QuadValues} {key : QuadKey}
    (found : st.keyOfExisting quad = some key) : st.Valid key := by
  rw [keyOfExisting_eq] at found
  exact valid_of_traverse h.fresh found

/-- The mutations a caller can make. -/
inductive Operation where
  | insert (quad : QuadValues)
  | remove (quad : QuadValues)
  | insertRecord (record : RecordValues)
  | removeRecord (record : RecordValues)
deriving DecidableEq, Repr

def perform (rules : LexicalRules) (st : MutableDataset) : Operation → Option MutableDataset
  | .insert quad => (st.insert rules quad).map (·.1)
  | .remove quad => (st.remove quad).map (·.1)
  | .insertRecord record => (st.insertRecord rules record).map (·.1)
  | .removeRecord record => (st.removeRecord record).map (·.1)

def keyed (rules : LexicalRules) (st : MutableDataset) : Operation → Option QuadKey
  | .insert quad => (st.keyOf rules quad).1.toOption
  | .remove quad => st.keyOfExisting quad
  | .insertRecord record =>
    match validateRecord rules record with
    | .ok () => (st.keyOf rules record.quad).1.toOption
    | .error _ => none
  | .removeRecord record => st.keyOfExisting record.quad

def touchedGraph (rules : LexicalRules) (st : MutableDataset) (op : Operation) :
    Option MutTermId := (st.keyed rules op).bind (·.g)

theorem Advanced.refl (h : Consistent st) : Advanced st none st :=
  ⟨h, rfl, rfl, by simp, fun _ held => held⟩

theorem Advanced.minted {st₁ : MutableDataset} {graph : Option MutTermId} (base : st₁.base = st.base)
    (order : st₁.order = st.order) (rows : st₁.graphRows = st.graphRows)
    (h : Advanced st₁ graph st') : Advanced st graph st' :=
  ⟨h.consistent, h.base.trans base, h.order.trans order, h.touched,
    fun id held => h.kept id (rows.symm ▸ held)⟩

theorem perform_spec (h : Consistent st) (rules : LexicalRules) (op : Operation) :
    ∃ st', st.perform rules op = some st' ∧ Advanced st (st.touchedGraph rules op) st' := by
  cases op with
  | insert quad =>
    rcases keyOf_cases h rules quad with
      ⟨key, st₁, run, h₁, valid, base, order, -, rows, -, -⟩ | ⟨error, run⟩
    · obtain ⟨st', changed, -, inserted, advanced, -⟩ := insertKey_spec h₁ valid
      refine ⟨st', by simp [perform, insert, run, inserted], ?_⟩
      have touched : st.touchedGraph rules (.insert quad) = key.g := by
        simp [touchedGraph, keyed, run, Except.toOption]
      rw [touched]
      exact advanced.minted base order rows
    · refine ⟨st, by simp [perform, insert, run], ?_⟩
      have touched : st.touchedGraph rules (.insert quad) = none := by
        simp [touchedGraph, keyed, run, Except.toOption]
      rw [touched]
      exact Advanced.refl h
  | remove quad =>
    rcases found : st.keyOfExisting quad with - | key
    · refine ⟨st, by simp [perform, remove, found], ?_⟩
      rw [show st.touchedGraph rules (.remove quad) = none by simp [touchedGraph, keyed, found]]
      exact Advanced.refl h
    · obtain ⟨st', changed, -, removed, advanced, -⟩ := removeKey_spec h (valid_existing h found)
      refine ⟨st', by simp [perform, remove, found, removed], ?_⟩
      rw [show st.touchedGraph rules (.remove quad) = key.g by simp [touchedGraph, keyed, found]]
      exact advanced
  | insertRecord record =>
    rcases checked : validateRecord rules record with error | ⟨⟩
    · refine ⟨st, by simp [perform, insertRecord, checked], ?_⟩
      rw [show st.touchedGraph rules (.insertRecord record) = none by
        simp [touchedGraph, keyed, checked]]
      exact Advanced.refl h
    · rcases keyOf_cases h rules record.quad with
        ⟨key, st₁, run, h₁, valid, base, order, -, rows, -, -⟩ | ⟨error, run⟩
      · obtain ⟨st', inserted, advanced⟩ := insertRecordKey_spec ⟨record.kind, key⟩ h₁ valid
        refine ⟨st', by simp [perform, insertRecord, checked, run, inserted], ?_⟩
        have touched : st.touchedGraph rules (.insertRecord record) = key.g := by
          simp [touchedGraph, keyed, checked, run, Except.toOption]
        rw [touched]
        exact advanced.minted base order rows
      · refine ⟨st, by simp [perform, insertRecord, checked, run], ?_⟩
        have touched : st.touchedGraph rules (.insertRecord record) = none := by
          simp [touchedGraph, keyed, checked, run, Except.toOption]
        rw [touched]
        exact Advanced.refl h
  | removeRecord record =>
    rcases found : st.keyOfExisting record.quad with - | key
    · refine ⟨st, by simp [perform, removeRecord, found], ?_⟩
      rw [show st.touchedGraph rules (.removeRecord record) = none by
        simp [touchedGraph, keyed, found]]
      exact Advanced.refl h
    · obtain ⟨st', removed, advanced⟩ :=
        removeRecordKey_spec ⟨record.kind, key⟩ h (valid_existing h found)
      refine ⟨st', by simp [perform, removeRecord, found, removed], ?_⟩
      rw [show st.touchedGraph rules (.removeRecord record) = key.g by
        simp [touchedGraph, keyed, found]]
      exact advanced

/-- The states a branch can be in, with the named graphs touched on the way. -/
inductive Reached (rules : LexicalRules) (base : RdfDataset) (order : HashOrder)
    (mode : GraphExistenceMode) : MutableDataset → List MutTermId → Prop where
  | branch : Reached rules base order mode (newWithGraphExistence base order mode) []
  | step {st st' : MutableDataset} {touched : List MutTermId} {op : Operation} :
      Reached rules base order mode st touched → st.perform rules op = some st' →
      Reached rules base order mode st' ((st.touchedGraph rules op).toList ++ touched)

variable {base : RdfDataset} {order : HashOrder} {mode : GraphExistenceMode}
  {touched : List MutTermId}

theorem Reached.consistent (reached : Reached rules base order mode st touched) :
    Consistent st ∧ st.base = base ∧ ∀ id ∈ touched, (st.graphRows.lookup id).isSome := by
  induction reached with
  | branch => exact ⟨consistent_branch base order mode, rfl, by simp⟩
  | step _ run ih =>
    obtain ⟨h, sameBase, counted⟩ := ih
    obtain ⟨st', run', advanced⟩ := perform_spec h rules _
    rw [run'] at run
    cases run
    refine ⟨advanced.consistent, advanced.base.trans sameBase, fun id member => ?_⟩
    rcases List.mem_append.mp member with now | before
    · exact advanced.touched id (Option.mem_toList.mp now)
    · exact advanced.kept id (counted id before)

/-! ### The rows as a stream -/

theorem addedInOrder_perm (wf : WellFormed st.base st.toPhysicalRows) :
    st.addedInOrder.Nodup ∧ ∀ key, key ∈ st.addedInOrder ↔ key ∈ st.added := by
  have sorted := st.addedOrd.entries.perm_insertionSort fun a b => a.2 ≤ b.2
  have keys : st.addedInOrder.Perm st.addedOrd.keys := sorted.map _
  refine ⟨keys.nodup_iff.mpr st.addedOrd.keys_nodup, fun key => ?_⟩
  rw [keys.mem_iff, ← AList.mem_keys, ← AList.lookup_isSome, wf.ord_added]

theorem effectiveRecordKeys_perm (wf : WellFormed st.base st.toPhysicalRows) :
    st.effectiveRecordKeys.Nodup ∧
      ∀ key, key ∈ st.effectiveRecordKeys ↔ key ∈ st.effective st.base := by
  obtain ⟨nodup, mem_added⟩ := addedInOrder_perm wf
  have baseKeys : ∀ key, key ∈ (st.base.recordIds.map fun row =>
      (⟨row.kind, baseKey row.quad⟩ : RecordKey)) ↔ key ∈ st.base.records := by
    intro key
    rw [RdfDataset.records, List.mem_toFinset]
  have distinct : (st.base.recordIds.map fun row =>
      (⟨row.kind, baseKey row.quad⟩ : RecordKey)).Nodup := st.base.recordKeys_nodup
  constructor
  · rw [effectiveRecordKeys, List.nodup_append]
    refine ⟨distinct.filter _, nodup, ?_⟩
    rintro key member _ added rfl
    exact wf.added_fresh key ((mem_added key).mp added)
      ((baseKeys key).mp (List.mem_filter.mp member).1)
  · intro key
    rw [effectiveRecordKeys, List.mem_append, List.mem_filter, baseKeys, mem_added, mem_effective,
      decide_eq_true_eq]

/-- The relations between the tables, as the code relies on them. -/
structure Bookkeeping (st : MutableDataset) (touched : List MutTermId) : Prop where
  suppressed_base : ∀ key ∈ st.suppressed, baseContainsRecord st.base key = true
  added_fresh : ∀ key ∈ st.added, baseContainsRecord st.base key = false
  disjoint : Disjoint st.added st.suppressed
  ordinals : st.addedOrd.keys.toFinset = st.added
  ordinals_distinct : ∀ key key' n, st.addedOrd.lookup key = some n →
    st.addedOrd.lookup key' = some n → key = key'
  records : ∀ key, key ∈ st.effectiveRecordKeys ↔ st.containsRecordKey st.base key = true
  records_nodup : st.effectiveRecordKeys.Nodup
  count : st.effectiveCount = some st.effectiveRecordKeys.length
  graphs : ∀ graph ∈ touched, st.graphRows.lookup graph =
    some (st.effectiveRecordKeys.countP (·.quad.g == some graph))

theorem Consistent.bookkeeping (h : Consistent st)
    (counted : ∀ id ∈ touched, (st.graphRows.lookup id).isSome) : Bookkeeping st touched := by
  have wf := h.coherent.rows
  obtain ⟨nodup, mem_keys⟩ := effectiveRecordKeys_perm wf
  have rows : st.effectiveRecordKeys.toFinset = st.effective st.base := by
    ext key
    rw [List.mem_toFinset, mem_keys]
  constructor
  · exact fun key member => RdfDataset.baseContainsRecord_iff.mpr (wf.suppressed_base key member)
  · intro key member
    rw [← Bool.not_eq_true, RdfDataset.baseContainsRecord_iff]
    exact wf.added_fresh key member
  · rw [Finset.disjoint_left]
    exact fun key added suppressed => wf.added_fresh key added (wf.suppressed_base key suppressed)
  · ext key
    rw [List.mem_toFinset, ← AList.mem_keys, ← AList.lookup_isSome, wf.ord_added]
  · exact wf.ord_inj
  · intro key
    rw [mem_keys, containsRecordKey_iff]
  · exact nodup
  · rw [effectiveCount_eq wf, ← rows, List.toFinset_card_of_nodup nodup]
  · intro graph member
    obtain ⟨n, found⟩ := Option.isSome_iff_exists.mp (counted graph member)
    have exact := h.exact graph
    simp only [graphRowsOf, found] at exact
    rw [found, exact, rowsIn, ← rows, card_filter_toFinset nodup]

/-- Whatever operations led to a state, its bookkeeping is exact and the next operation,
whichever it is, does not panic. -/
theorem bookkeeping_of_reached (reached : Reached rules base order mode st touched) :
    Bookkeeping st touched ∧ ∀ op, (st.perform rules op).isSome := by
  obtain ⟨h, -, counted⟩ := reached.consistent
  constructor
  · exact h.bookkeeping counted
  · intro op
    obtain ⟨st', run, -⟩ := perform_spec h rules op
    rw [run]
    rfl

theorem bookkeeping_of_reached_insert : ∃ st,
    (newWithGraphExistence RdfDataset.empty .listed .implicit).perform .permissive
      (.insert ⟨.iri "a:s", .iri "a:p", .iri "a:o", some (.iri "a:g")⟩) = some st ∧
    Bookkeeping st [.delta 3] ∧ ∀ op, (st.perform .permissive op).isSome := by
  have runs : ((newWithGraphExistence RdfDataset.empty .listed .implicit).perform .permissive
      (.insert ⟨.iri "a:s", .iri "a:p", .iri "a:o", some (.iri "a:g")⟩)).isSome := by
    decide +kernel
  have graph : (newWithGraphExistence RdfDataset.empty .listed .implicit).touchedGraph .permissive
      (.insert ⟨.iri "a:s", .iri "a:p", .iri "a:o", some (.iri "a:g")⟩) = some (.delta 3) := by
    decide +kernel
  obtain ⟨st, run⟩ := Option.isSome_iff_exists.mp runs
  have reached := Reached.step Reached.branch run
  rw [graph] at reached
  exact ⟨st, run, bookkeeping_of_reached reached⟩

end MutableDataset

end Purrdf
