import Purrdf.GraphPresence

/-!
# The history of a named graph

What each call does to the slot of one graph, and from it the presence of every graph after
any sequence of calls, under both existence policies.
-/

namespace Purrdf

open PhysicalRows ClassifiedRows

namespace MutableDataset

variable {st st' : MutableDataset} {name : GraphName} {value : TermValue} {graph : MutTermId}
  {base : RdfDataset} {own : TermId} {old now : Nat}

/-! ### Slots -/

theorem baseGraph_name :
    st.baseGraph name.value = some own ↔
      st.base.termValue own = some name.value ∧ st.base.hasNamedGraph own = true := by
  rw [baseGraph_eq_some, termIdByValue_name]

theorem baseListed_withdraw :
    BaseListed { st with withdrawnGraphs := Insert.insert own st.withdrawnGraphs } name.value ↔
      BaseListed st name.value ∧ st.base.termValue own ≠ some name.value := by
  constructor
  · rintro ⟨id, listed, kept⟩
    rw [Finset.mem_insert, not_or] at kept
    refine ⟨⟨id, listed, kept.2⟩, fun same => kept.1 ?_⟩
    exact st.base.termValue_injective (baseGraph_name.mp listed).1 same
  · rintro ⟨⟨id, listed, kept⟩, differs⟩
    refine ⟨id, listed, ?_⟩
    rw [Finset.mem_insert, not_or]
    refine ⟨?_, kept⟩
    rintro rfl
    exact differs (baseGraph_name.mp listed).1

theorem baseListed_restore :
    BaseListed { st with withdrawnGraphs := st.withdrawnGraphs.erase own } name.value ↔
      BaseListed st name.value ∨ st.baseGraph name.value = some own := by
  constructor
  · rintro ⟨id, listed, kept⟩
    by_cases same : id = own
    · exact Or.inr (same ▸ listed)
    · exact Or.inl ⟨id, listed, fun withdrawn => kept (Finset.mem_erase.mpr ⟨same, withdrawn⟩)⟩
  · rintro (⟨id, listed, kept⟩ | listed)
    · exact ⟨id, listed, fun withdrawn => kept (Finset.mem_of_mem_erase withdrawn)⟩
    · exact ⟨own, listed, Finset.notMem_erase own st.withdrawnGraphs⟩

theorem declareGraph_declared
    (canonical : ∀ id, st.baseGraph value = some id → st.base.termValue id = some value) :
    Declared (st.declareGraph value).1 name.value ↔
      Declared st name.value ∨ value = name.value := by
  rw [declareGraph]
  split
  · rename_i id listed
    have read := canonical id listed
    have names : st.baseGraph name.value = some id ↔ value = name.value := by
      constructor
      · intro found
        rw [(baseGraph_name.mp found).1] at read
        exact (Option.some.inj read).symm
      · rintro rfl
        exact listed
    split
    · dsimp only
      rw [Declared, baseListed_restore, names, Declared, or_assoc]
    · rename_i kept
      refine ⟨Or.inl, ?_⟩
      rintro (declared | rfl)
      · exact declared
      · exact Or.inr ⟨id, listed, kept⟩
  · split
    · rename_i known
      refine ⟨Or.inl, ?_⟩
      rintro (declared | rfl)
      · exact declared
      · exact Or.inl known
    · have listed : BaseListed { st with declaredGraphs := st.declaredGraphs ++ [value] } name.value ↔
          BaseListed st name.value := Iff.rfl
      rw [Declared, listed, Declared]
      simp only [List.mem_append, List.mem_singleton, eq_comm (a := name.value)]
      tauto

theorem declareGraph_withdrawn (st : MutableDataset) (value : TermValue) :
    (st.declareGraph value).1.withdrawnGraphs ⊆ st.withdrawnGraphs := by
  rw [declareGraph]
  split <;> split
  · exact Finset.erase_subset _ _
  · exact Finset.Subset.refl _
  · exact Finset.Subset.refl _
  · exact Finset.Subset.refl _

theorem declareGraph_nodup (nodup : st.declaredGraphs.Nodup) (value : TermValue) :
    (st.declareGraph value).1.declaredGraphs.Nodup := by
  rw [declareGraph]
  split
  · split <;> exact nodup
  · split
    · exact nodup
    · rename_i unknown
      dsimp only
      rw [List.nodup_append]
      refine ⟨nodup, List.nodup_singleton value, ?_⟩
      rintro other known new member rfl
      exact unknown (List.mem_singleton.mp member ▸ known)

theorem declareGraph_slots (slots : GraphSlots st) (value : TermValue) :
    GraphSlots (st.declareGraph value).1 := by
  refine ⟨fun own member => ?_, declareGraph_nodup slots.nodup value⟩
  obtain ⟨declared, withdrawn, same⟩ := declareGraph_rows st value
  have counts : (st.declareGraph value).1.graphRows = st.graphRows := by rw [same]
  rw [counts]
  exact slots.withdrawn own (declareGraph_withdrawn st value member)

/-! ### Settling the rows of a graph -/

theorem baseGraph_of_read (fresh : st.delta.Fresh st.base) (read : st.mutValue graph = some value)
    (listed : st.baseGraph value = some own) : graph = .base own := by
  have found := idIn_of_mutValue fresh read
  rw [idIn, (baseGraph_eq_some.mp listed).1] at found
  exact (Option.some.inj found).symm

theorem withdrawEmptiedDeclaration_eq (read : st.mutValue graph = some value) :
    st.withdrawEmptiedDeclaration graph =
      some { st with declaredGraphs := st.declaredGraphs.erase value } := by
  rw [withdrawEmptiedDeclaration]
  split
  · rename_i none
    rw [none]
    cases st
    simp_all
  · rw [read, Option.map_some]

theorem emptied_declared (fresh : st.delta.Fresh st.base) (nodup : st.declaredGraphs.Nodup)
    (read : st.mutValue graph = some value) (run : st.emptied graph = some st') :
    Declared st' name.value ↔ Declared st name.value ∧ value ≠ name.value := by
  have erased : ∀ declared : List TermValue, declared.Nodup →
      (name.value ∈ declared.erase value ↔ name.value ∈ declared ∧ value ≠ name.value) := by
    intro declared nodup
    rw [nodup.mem_erase_iff, and_comm, ne_comm]
  rcases graph with id | id
  · have read' : st.base.termValue id = some value := read
    have settled : ({ st with withdrawnGraphs := Insert.insert id st.withdrawnGraphs } :
        MutableDataset).withdrawEmptiedDeclaration (.base id) = some _ :=
      withdrawEmptiedDeclaration_eq read
    rw [emptied, settled] at run
    cases run
    have listed : BaseListed { st with
        declaredGraphs := st.declaredGraphs.erase value
        withdrawnGraphs := Insert.insert id st.withdrawnGraphs } name.value ↔
        BaseListed st name.value ∧ st.base.termValue id ≠ some name.value := baseListed_withdraw
    have differs : st.base.termValue id ≠ some name.value ↔ value ≠ name.value := by
      rw [read', ne_eq, Option.some.injEq]
    rw [Declared, listed, differs, erased _ nodup, Declared]
    tauto
  · rw [emptied, withdrawEmptiedDeclaration_eq read] at run
    cases run
    have listed : BaseListed { st with declaredGraphs := st.declaredGraphs.erase value } name.value ↔
        BaseListed st name.value := Iff.rfl
    rw [Declared, listed, erased _ nodup, Declared]
    have elsewhere : BaseListed st name.value → value ≠ name.value := by
      rintro ⟨own, found, -⟩ rfl
      cases baseGraph_of_read fresh read found
    tauto

theorem emptied_slots (slots : GraphSlots st) (read : st.mutValue graph = some value)
    (counted : st.graphRows.lookup graph = some 0) (run : st.emptied graph = some st') :
    GraphSlots st' := by
  rcases graph with id | id
  · have settled : ({ st with withdrawnGraphs := Insert.insert id st.withdrawnGraphs } :
        MutableDataset).withdrawEmptiedDeclaration (.base id) = some _ :=
      withdrawEmptiedDeclaration_eq read
    rw [emptied, settled] at run
    cases run
    refine ⟨fun own member => ?_, slots.nodup.erase value⟩
    rcases Finset.mem_insert.mp member with rfl | member
    · exact counted
    · exact slots.withdrawn own member
  · rw [emptied, withdrawEmptiedDeclaration_eq read] at run
    cases run
    exact ⟨slots.withdrawn, slots.nodup.erase value⟩

/-- The base withdrawals that stand once a graph holds rows again. -/
def restored (st : MutableDataset) (graph : MutTermId) : MutableDataset :=
  match graph with
  | .base id => { st with withdrawnGraphs := st.withdrawnGraphs.erase id }
  | .delta _ => st

theorem populated_eq (read : st.mutValue graph = some value) :
    (st.populated graph = some (st.restored graph) ∧ (st.graphExistence = .rememberEmpty →
      ∃ own, graph = .base own ∧ st.base.hasNamedGraph own = true)) ∨
    st.populated graph = some ((st.restored graph).declareGraph value).1 := by
  rcases graph with id | id
  · have read' : (st.restored (.base id)).mutValue (.base id) = some value := read
    by_cases unlisted : st.graphExistence = .rememberEmpty ∧ st.base.hasNamedGraph id = false
    · right
      exact (if_pos unlisted).trans (congrArg (Option.map _) read')
    · left
      refine ⟨if_neg unlisted, fun remembered => ⟨id, rfl, ?_⟩⟩
      by_contra missing
      exact unlisted ⟨remembered, Bool.not_eq_true _ ▸ missing⟩
  · by_cases remembered : st.graphExistence = .rememberEmpty
    · right
      exact (if_pos ⟨remembered, rfl⟩).trans (congrArg (Option.map _) read)
    · left
      exact ⟨if_neg fun both => remembered both.1, fun remembers => absurd remembers remembered⟩

theorem restored_declared (read : st.mutValue graph = some value) :
    Declared (st.restored graph) name.value ↔
      Declared st name.value ∨ (value = name.value ∧ ∃ own, graph = .base own ∧
        st.base.hasNamedGraph own = true) := by
  rcases graph with id | id
  · have read' : st.base.termValue id = some value := read
    have listed : BaseListed (st.restored (.base id)) name.value ↔
        BaseListed st name.value ∨ st.baseGraph name.value = some id := baseListed_restore
    have declared : name.value ∈ (st.restored (.base id)).declaredGraphs ↔
        name.value ∈ st.declaredGraphs := Iff.rfl
    rw [Declared, declared, listed, baseGraph_name, read', Option.some.injEq, Declared, or_assoc]
    simp
  · simp [restored]

theorem populated_declared (fresh : st.delta.Fresh st.base) (read : st.mutValue graph = some value)
    (run : st.populated graph = some st') :
    (value ≠ name.value → (Declared st' name.value ↔ Declared st name.value)) ∧
      (st.graphExistence = .rememberEmpty → value = name.value → Declared st' name.value) := by
  rcases populated_eq read with ⟨restored, listed⟩ | declared
  · rw [restored] at run
    cases run
    rw [restored_declared read]
    constructor
    · intro differs
      simp [differs]
    · intro remembered same
      exact Or.inr ⟨same, listed remembered⟩
  · rw [declared] at run
    cases run
    have canonical : ∀ id, (st.restored graph).baseGraph value = some id →
        (st.restored graph).base.termValue id = some value := by
      intro id listed
      rcases graph with own | own
      · have listed : st.baseGraph value = some id := listed
        cases baseGraph_of_read fresh read listed
        exact read
      · cases baseGraph_of_read fresh read listed
    rw [declareGraph_declared canonical, restored_declared read]
    constructor
    · intro differs
      simp [differs]
    · intro _ same
      exact Or.inr same

theorem populated_slots (nodup : st.declaredGraphs.Nodup) (read : st.mutValue graph = some value)
    (run : st.populated graph = some st') :
    st'.declaredGraphs.Nodup ∧
      ∀ own ∈ st'.withdrawnGraphs, own ∈ st.withdrawnGraphs ∧ graph ≠ .base own := by
  have kept : ∀ own ∈ (st.restored graph).withdrawnGraphs,
      own ∈ st.withdrawnGraphs ∧ graph ≠ .base own := by
    rcases graph with id | id
    · intro own member
      obtain ⟨differs, member⟩ := Finset.mem_erase.mp member
      exact ⟨member, fun same => differs (MutTermId.base.inj same).symm⟩
    · exact fun own member => ⟨member, by simp⟩
  have nodup : (st.restored graph).declaredGraphs.Nodup := by
    rcases graph with id | id <;> exact nodup
  rcases populated_eq read with ⟨restored, -⟩ | declared
  · rw [restored] at run
    cases run
    exact ⟨nodup, kept⟩
  · rw [declared] at run
    cases run
    exact ⟨declareGraph_nodup nodup value,
      fun own member => kept own (declareGraph_withdrawn _ value member)⟩

/-- The state with a graph's new row count, before its existence is settled. -/
def counted (st : MutableDataset) (graph : MutTermId) (now : Nat) : MutableDataset :=
  { st with graphRows := st.graphRows.insert graph now }

theorem setGraphRows_slots (slots : GraphSlots st) (read : st.mutValue graph = some value)
    (seeded : st.graphRowsOf graph = old) (run : st.setGraphRows graph old now = some st') :
    GraphSlots st' := by
  obtain ⟨settledState, settles, settled⟩ := setGraphRows_spec read old now
  rw [run] at settles
  cases settles
  have held : ∀ own, graph = .base own → own ∈ st.withdrawnGraphs → old = 0 := by
    rintro own rfl withdrawn
    rw [← seeded]
    simp [graphRowsOf, slots.withdrawn own withdrawn]
  have elsewhere : ∀ own, graph ≠ .base own → own ∈ st.withdrawnGraphs →
      st'.graphRows.lookup (.base own) = some 0 := by
    intro own differs withdrawn
    rw [settled.counts, AList.lookup_insert_ne (Ne.symm differs)]
    exact slots.withdrawn own withdrawn
  change (if _ then (st.counted graph now).emptied graph
    else if _ then (st.counted graph now).populated graph else some (st.counted graph now)) = _ at run
  split at run
  · rename_i emptied
    have zero : (st.graphRows.insert graph now).lookup graph = some 0 := by
      rw [AList.lookup_insert, emptied.1]
    have slots : GraphSlots (st.counted graph now) := by
      refine ⟨fun own withdrawn => ?_, slots.nodup⟩
      by_cases same : graph = .base own
      · rw [← same]
        exact zero
      · rw [← elsewhere own same withdrawn, settled.counts, counted]
    exact emptied_slots slots read zero run
  · rename_i kept
    split at run
    · have nodup : (st.counted graph now).declaredGraphs.Nodup := slots.nodup
      obtain ⟨nodup, withdrawn⟩ := populated_slots nodup read run
      refine ⟨fun own member => ?_, nodup⟩
      obtain ⟨member, differs⟩ := withdrawn own member
      exact elsewhere own differs member
    · rename_i unpopulated
      cases run
      refine ⟨fun own withdrawn => ?_, slots.nodup⟩
      by_cases same : graph = .base own
      · have zero := held own same withdrawn
        have : now = 0 := by omega
        rw [settled.counts, same, AList.lookup_insert, this]
      · exact elsewhere own same withdrawn

/-- What a new row count does to the slots: a graph without rows keeps its slot unless it
had some, and a remembered graph has one as soon as it holds a row. -/
theorem setGraphRows_declared (name : GraphName) (fresh : st.delta.Fresh st.base)
    (slots : GraphSlots st) (read : st.mutValue graph = some value)
    (run : st.setGraphRows graph old now = some st') :
    (value ≠ name.value → (Declared st' name.value ↔ Declared st name.value)) ∧
    (value = name.value → st.graphExistence = .implicit → now = 0 →
      (Declared st' name.value ↔ Declared st name.value ∧ old = 0)) ∧
    (value = name.value → st.graphExistence = .rememberEmpty →
      (Declared st' name.value ↔ Declared st name.value ∨ (old = 0 ∧ 0 < now))) := by
  have fresh : (st.counted graph now).delta.Fresh (st.counted graph now).base := fresh
  have nodup : (st.counted graph now).declaredGraphs.Nodup := slots.nodup
  have same : Declared (st.counted graph now) name.value ↔ Declared st name.value := Iff.rfl
  have read : (st.counted graph now).mutValue graph = some value := read
  change (if _ then (st.counted graph now).emptied graph
    else if _ then (st.counted graph now).populated graph else some (st.counted graph now)) = _ at run
  split at run
  · rename_i emptied
    obtain ⟨zero, pos, implicit⟩ := emptied
    rw [emptied_declared fresh nodup read run, same]
    refine ⟨fun differs => and_iff_left differs, fun own _ _ => ?_, fun _ remembered => ?_⟩
    · simp [own, Nat.ne_of_gt pos]
    · rw [implicit] at remembered
      cases remembered
  · rename_i kept
    split at run
    · rename_i populated
      obtain ⟨pos, zero⟩ := populated
      obtain ⟨others, remembers⟩ := populated_declared fresh read run
      refine ⟨fun differs => (others differs).trans same, fun _ _ none => ?_, fun own remembered => ?_⟩
      · omega
      · exact iff_of_true (remembers remembered own) (Or.inr ⟨zero, pos⟩)
    · rename_i unpopulated
      cases run
      refine ⟨fun _ => same, fun _ implicit none => ?_, fun _ _ => ?_⟩
      · have : old = 0 := by
          by_contra nonzero
          exact kept ⟨none, Nat.pos_of_ne_zero nonzero, implicit⟩
        simp [same, this]
      · rw [same, or_iff_left]
        exact fun both => unpopulated ⟨both.2, both.1⟩

/-! ### Calls that change rows -/

structure RowChange (st st' : MutableDataset) : Prop where
  graphExistence : st'.graphExistence = st.graphExistence
  implicit : st.graphExistence = .implicit → ∀ name : GraphName,
    st'.holdsGraph name.value = false →
      (Declared st' name.value ↔ Declared st name.value ∧ st.holdsGraph name.value = false)
  remembered : st.graphExistence = .rememberEmpty →
    (∀ name : GraphName, st.holdsGraph name.value = true → Declared st name.value) →
      ∀ name : GraphName, Declared st' name.value ↔
        Declared st name.value ∨ st'.holdsGraph name.value = true

theorem RowChange.refl (st : MutableDataset) : RowChange st st := by
  refine ⟨rfl, fun _ name empty => ?_, fun _ slots name => ?_⟩
  · simp [empty]
  · exact ⟨Or.inl, fun either => either.elim id (slots name)⟩

variable {t : ClassifiedRows} {churn : CallerChurn} {quad : QuadKey}

theorem holdsGraph_congr (h : ValueState st) (h' : ValueState st') (sameBase : st'.base = st.base)
    (sameDelta : st'.delta = st.delta)
    (rows : ∀ key : RecordKey, ∀ id, key.quad.g = some id → st.mutValue id = some name.value →
      (key ∈ st'.effective st'.base ↔ key ∈ st.effective st.base)) :
    st'.holdsGraph name.value = true ↔ st.holdsGraph name.value = true := by
  have values : ∀ id, st'.mutValue id = st.mutValue id := by
    intro id
    rcases id with id | id
    · rw [mutValue, mutValue, sameBase]
    · rw [mutValue, mutValue, sameDelta]
  rw [holdsGraph_iff h', holdsGraph_iff h]
  simp only [values]
  constructor
  · rintro ⟨key, live, id, slot, read⟩
    exact ⟨key, (rows key id slot read).mp live, id, slot, read⟩
  · rintro ⟨key, live, id, slot, read⟩
    exact ⟨key, (rows key id slot read).mpr live, id, slot, read⟩

theorem setGraphRows_of_applyGraphChange {before : Nat}
    (run : st.applyGraphChange (some graph) before = some st') :
    ∃ now, st.setGraphRows graph (st.graphRowsOf graph) now = some st' := by
  unfold applyGraphChange at run
  obtain ⟨after, -, run⟩ := Option.bind_eq_some_iff.mp run
  dsimp only at run
  split at run
  · exact ⟨_, run⟩
  · split at run
    · exact ⟨_, run⟩
    · cases run

theorem settled_presence (h : ValueState st) (tables : GraphTables st) (valid : st.Valid quad)
    (coherent : Coherent st.base t)
    (outside : ∀ key : RecordKey, key.quad.g ≠ quad.g →
      (key ∈ t.effective st.base ↔ key ∈ st.effective st.base))
    (run : (st.stage t churn).applyGraphChange quad.g (st.effective st.base).card = some st')
    (h' : ValueState st') (published : Published st quad.g t churn st') :
    GraphTables st' ∧ RowChange st st' := by
  have touched : ∀ key ∈ st'.added, ∀ id ∈ key.quad.g, (st'.graphRows.lookup id).isSome := by
    intro key added id slot
    rw [published.rows] at added
    by_cases same : key.quad.g = quad.g
    · exact published.touched id (same ▸ slot)
    · obtain ⟨live, fresh⟩ := coherent.rows.mem_added_iff.mp added
      have added := h.consistent.coherent.rows.mem_added_iff.mpr ⟨(outside key same).mp live, fresh⟩
      exact published.kept id (tables.touched key added id slot)
  have elsewhere : ∀ name : GraphName, (∀ id, quad.g = some id → st.mutValue id ≠ some name.value) →
      (st'.holdsGraph name.value = true ↔ st.holdsGraph name.value = true) := by
    intro name differs
    apply holdsGraph_congr h h' published.base published.delta
    intro key id slot read
    rw [published.rows, published.base]
    exact outside key fun same => differs id (same ▸ slot) read
  rcases slot : quad.g with - | id
  · rw [slot] at run
    have same : st' = st.stage t churn := by
      unfold applyGraphChange at run
      obtain ⟨after, -, run⟩ := Option.bind_eq_some_iff.mp run
      exact (Option.some.inj run).symm
    have declared : ∀ name : GraphName, Declared st' name.value ↔ Declared st name.value := by
      intro name
      rw [same]
      rfl
    have holds : ∀ name : GraphName, st'.holdsGraph name.value = st.holdsGraph name.value := by
      intro name
      rw [Bool.eq_iff_iff]
      exact elsewhere name (by simp [slot])
    refine ⟨⟨?_, touched⟩, ?_, fun _ name empty => ?_, fun _ slots name => ?_⟩
    · rw [same]
      exact ⟨tables.withdrawn, tables.nodup⟩
    · rw [same]
      rfl
    · rw [holds] at empty
      simp [declared, empty]
    · rw [declared, holds]
      exact ⟨Or.inl, fun either => either.elim (fun own => own) (slots name)⟩
  · obtain ⟨value, read⟩ := Option.isSome_iff_exists.mp (valid.graph id slot)
    rw [slot] at run
    obtain ⟨now, settles⟩ := setGraphRows_of_applyGraphChange run
    have slots : GraphSlots (st.stage t churn) := ⟨tables.withdrawn, tables.nodup⟩
    have read' : (st.stage t churn).mutValue id = some value := read
    have fresh : (st.stage t churn).delta.Fresh (st.stage t churn).base := h.consistent.fresh
    obtain ⟨settledState, settles', settled⟩ := setGraphRows_spec read' _ now
    rw [settles] at settles'
    cases settles'
    have declared : ∀ name : GraphName,
        Declared (st.stage t churn) name.value ↔ Declared st name.value := fun _ => Iff.rfl
    have seeded : (st.stage t churn).graphRowsOf id = rowsIn st.base st.toClassifiedRows (some id) :=
      h.consistent.exact id
    have final : now = rowsIn st'.base st'.toClassifiedRows (some id) := by
      have counted : st'.graphRows.lookup id = some now := by rw [settled.counts, AList.lookup_insert]
      exact (rowsIn_of_lookup h'.consistent counted).symm
    have own : ∀ name : GraphName, value = name.value →
        (st.holdsGraph name.value = true ↔ 0 < (st.stage t churn).graphRowsOf id) ∧
        (st'.holdsGraph name.value = true ↔ 0 < now) := by
      rintro name rfl
      have read'' : st'.mutValue id = some name.value := by
        rcases id with id | id
        · rw [mutValue, published.base]
          exact read
        · rw [mutValue, published.delta]
          exact read
      rw [seeded, final]
      exact ⟨holdsGraph_iff_rowsIn h read, holdsGraph_iff_rowsIn h' read''⟩
    have others : ∀ name : GraphName, value ≠ name.value →
        (st'.holdsGraph name.value = true ↔ st.holdsGraph name.value = true) := by
      intro name differs
      apply elsewhere name
      intro other same
      rw [slot] at same
      cases same
      rw [read, ne_eq, Option.some.injEq]
      exact differs
    refine ⟨⟨setGraphRows_slots slots read' rfl settles, touched⟩, settled.graphExistence,
      fun implicit name empty => ?_, fun remembered held name => ?_⟩
    · have step := setGraphRows_declared name fresh slots read' settles
      by_cases same : value = name.value
      · obtain ⟨before, after⟩ := own name same
        have none : now = 0 := by
          rw [← Bool.not_eq_true, after] at empty
          omega
        rw [step.2.1 same implicit none, declared, ← Bool.not_eq_true, before]
        simp
      · rw [step.1 same, declared, ← Bool.not_eq_true, ← others name same, empty]
        simp
    · have step := setGraphRows_declared name fresh slots read' settles
      by_cases same : value = name.value
      · obtain ⟨before, after⟩ := own name same
        rw [step.2.2 same remembered, declared, after]
        constructor
        · rintro (already | ⟨-, pos⟩)
          · exact Or.inl already
          · exact Or.inr pos
        · rintro (already | pos)
          · exact Or.inl already
          · by_cases zero : (st.stage t churn).graphRowsOf id = 0
            · exact Or.inr ⟨zero, pos⟩
            · exact Or.inl (held name (before.mpr (Nat.pos_of_ne_zero zero)))
      · rw [step.1 same, declared, others name same]
        exact ⟨Or.inl, fun either => either.elim (fun own => own) (held name)⟩

theorem insertKey_presence (h : ValueState st) (tables : GraphTables st) (valid : st.Valid quad) :
    ∃ st' changed, st.insertKey quad = some (st', changed) ∧ ValueState st' ∧ GraphTables st' ∧
      RowChange st st' ∧ st'.base = st.base := by
  obtain ⟨declaration, declared⟩ := declarationKey_isSome valid
  obtain ⟨t, churn, changed, -, admitted, run⟩ :=
    insertKey_rows h.consistent.coherent h.consistent.counted declared
  have outside : ∀ key : RecordKey, key.quad.g ≠ quad.g →
      (key ∈ t.effective st.base ↔ key ∈ st.effective st.base) :=
    fun key outside => admitted.live_other key (not_touched outside)
  obtain ⟨st', settle, published⟩ :=
    applyGraphChange_spec admitted.coherent.rows h.consistent.exact valid.graph outside
  have inserted : st.insertKey quad = some (st', changed) := by
    rw [run _ (effectiveCount_eq h.consistent.coherent.rows), stage, settle, Option.map_some]
  obtain ⟨after, member, state, sameBase, -⟩ := insertKey_member h valid
  rw [inserted] at member
  cases member
  obtain ⟨tables', change⟩ :=
    settled_presence h tables valid admitted.coherent outside settle state published
  exact ⟨st', _, inserted, state, tables', change, sameBase⟩

theorem removeKey_presence (h : ValueState st) (tables : GraphTables st) (valid : st.Valid quad) :
    ∃ st' changed, st.removeKey quad = some (st', changed) ∧ ValueState st' ∧ GraphTables st' ∧
      RowChange st st' ∧ st'.base = st.base := by
  obtain ⟨declaration, declared⟩ := declarationKey_isSome valid
  obtain ⟨t, churn, changed, -, withdrawn, run⟩ :=
    removeKey_rows h.consistent.coherent h.consistent.counted declared
  have outside : ∀ key : RecordKey, key.quad.g ≠ quad.g →
      (key ∈ t.effective st.base ↔ key ∈ st.effective st.base) :=
    fun key outside => withdrawn.live_other key (not_touched outside)
  obtain ⟨st', settle, published⟩ :=
    applyGraphChange_spec withdrawn.coherent.rows h.consistent.exact valid.graph outside
  have removed : st.removeKey quad = some (st', changed) := by
    rw [run _ (effectiveCount_eq h.consistent.coherent.rows), stage, settle, Option.map_some]
  obtain ⟨after, member, state, sameBase, -⟩ := removeKey_member h valid
  rw [removed] at member
  cases member
  obtain ⟨tables', change⟩ :=
    settled_presence h tables valid withdrawn.coherent outside settle state published
  exact ⟨st', _, removed, state, tables', change, sameBase⟩

theorem holdsGraph_minted (h : ValueState st) {delta : DeltaBuilder}
    (extended : st.delta.Extends delta) (fresh : delta.Fresh st.base) (value : TermValue) :
    ({ st with delta := delta } : MutableDataset).holdsGraph value = st.holdsGraph value := by
  have minted : ValueState { st with delta := delta } :=
    ⟨h.consistent.minted fresh, h.whole, fun key authored => (h.valid key authored).extended extended⟩
  have values : ∀ id, (st.mutValue id).isSome →
      ({ st with delta := delta } : MutableDataset).mutValue id = st.mutValue id := by
    intro id interned
    obtain ⟨value, read⟩ := Option.isSome_iff_exists.mp interned
    have found := idIn_extends extended h.consistent.fresh fresh
      (idIn_of_mutValue h.consistent.fresh read)
    rcases id with id | id
    · rfl
    · obtain ⟨suffix, same⟩ := extended.2
      have read : st.delta.values[id]? = some value := read
      rw [mutValue, mutValue, ← same, List.getElem?_append_left (List.getElem?_eq_some_iff.mp read).1]
  rw [Bool.eq_iff_iff, holdsGraph_iff h, holdsGraph_iff minted]
  have interned : ∀ key ∈ st.effective st.base, ∀ id, key.quad.g = some id →
      (st.mutValue id).isSome :=
    fun key live id slot => (valid_of_live h live).graph id slot
  constructor
  · rintro ⟨key, live, id, slot, read⟩
    exact ⟨key, live, id, slot, values id (interned key live id slot) ▸ read⟩
  · rintro ⟨key, live, id, slot, read⟩
    exact ⟨key, live, id, slot, (values id (interned key live id slot)).trans read⟩

theorem insert_presence (h : ValueState st) (tables : GraphTables st) (rules : LexicalRules)
    (quad : QuadValues) :
    ∃ st' outcome, st.insert rules quad = some (st', outcome) ∧ ValueState st' ∧ GraphTables st' ∧
      RowChange st st' ∧ st'.base = st.base := by
  rcases keyOf_spec h.consistent.fresh rules quad with
    ⟨key, delta, resolved, extended, fresh, found⟩ | ⟨error, refused⟩
  · have minted : ValueState { st with delta := delta } :=
      ⟨h.consistent.minted fresh, h.whole, fun key authored =>
        (h.valid key authored).extended extended⟩
    have tables : GraphTables { st with delta := delta } :=
      ⟨⟨tables.withdrawn, tables.nodup⟩, tables.touched⟩
    obtain ⟨st', changed, run, state, tables', change, sameBase⟩ :=
      insertKey_presence minted tables (valid_of_traverse fresh found)
    refine ⟨st', .ok changed, by rw [insert, resolved]; simp only [run, Option.map_some], state,
      tables', ?_, sameBase⟩
    have holds := holdsGraph_minted h extended fresh
    have declared : ∀ value, Declared ({ st with delta := delta } : MutableDataset) value ↔
        Declared st value := fun _ => Iff.rfl
    refine ⟨change.graphExistence, fun implicit name empty => ?_, fun remembered slots name => ?_⟩
    · rw [change.implicit implicit name empty, declared, holds]
    · rw [← declared]
      apply change.remembered remembered
      intro name held
      exact slots name (holds name.value ▸ held)
  · exact ⟨st, .error error, by rw [insert, refused], h, tables, RowChange.refl st, rfl⟩

theorem remove_presence (h : ValueState st) (tables : GraphTables st) (quad : QuadValues) :
    ∃ st' changed, st.remove quad = some (st', changed) ∧ ValueState st' ∧ GraphTables st' ∧
      RowChange st st' ∧ st'.base = st.base := by
  rcases found : st.keyOfExisting quad with - | key
  · exact ⟨st, false, by rw [remove, found], h, tables, RowChange.refl st, rfl⟩
  · obtain ⟨st', changed, run, rest⟩ :=
      removeKey_presence h tables (valid_existing h.consistent found)
    exact ⟨st', changed, by rw [remove, found]; exact run, rest⟩

/-! ### Withdrawals -/

structure SlotChange (st st' : MutableDataset) : Prop where
  rows : st'.toClassifiedRows = st.toClassifiedRows
  churn : st'.toCallerChurn = st.toCallerChurn
  base : st'.base = st.base
  delta : st'.delta = st.delta
  graphExistence : st'.graphExistence = st.graphExistence
  counts : ∀ id, st'.graphRowsOf id = st.graphRowsOf id
  kept : ∀ id, (st.graphRows.lookup id).isSome → (st'.graphRows.lookup id).isSome

theorem SlotChange.trans {st'' : MutableDataset} (first : SlotChange st st')
    (second : SlotChange st' st'') : SlotChange st st'' where
  rows := second.rows.trans first.rows
  churn := second.churn.trans first.churn
  base := second.base.trans first.base
  delta := second.delta.trans first.delta
  graphExistence := second.graphExistence.trans first.graphExistence
  counts id := (second.counts id).trans (first.counts id)
  kept id held := second.kept id (first.kept id held)

theorem SlotChange.valueState (change : SlotChange st st') (h : ValueState st) : ValueState st' := by
  refine ⟨⟨?_, ?_, ?_, ?_⟩, ?_, ?_⟩
  · rw [change.base, change.rows]
    exact h.consistent.coherent
  · rw [change.churn]
    exact h.consistent.counted
  · rw [change.base, change.delta]
    exact h.consistent.fresh
  · intro id
    rw [change.counts, change.base, change.rows]
    exact h.consistent.exact id
  · rw [change.base, change.rows]
    exact h.whole
  · rw [change.base, change.rows]
    intro key authored
    exact (h.valid key authored).congr change.base change.delta

theorem SlotChange.holdsGraph (change : SlotChange st st') (h : ValueState st) (name : GraphName) :
    st'.holdsGraph name.value = st.holdsGraph name.value := by
  rw [Bool.eq_iff_iff]
  apply holdsGraph_congr h (change.valueState h) change.base change.delta
  intro key _ _ _
  rw [change.base, change.rows]

theorem SlotChange.touched (change : SlotChange st st') (tables : GraphTables st) :
    ∀ key ∈ st'.added, ∀ id ∈ key.quad.g, (st'.graphRows.lookup id).isSome := by
  intro key added id slot
  rw [change.rows] at added
  exact change.kept id (tables.touched key added id slot)

/-- A withdrawal within a scope: a graph in it without rows loses its slot; nothing else
does, and a remembered graph with rows keeps its own. -/
structure Withdrawal (st : MutableDataset) (scope : TermValue → Prop) (st' : MutableDataset) :
    Prop where
  change : SlotChange st st'
  tables : GraphTables st'
  outside : ∀ name : GraphName, ¬scope name.value →
    (Declared st' name.value ↔ Declared st name.value)
  rowless : ∀ name : GraphName, scope name.value → st.holdsGraph name.value = false →
    ¬Declared st' name.value
  remembered : st.graphExistence = .rememberEmpty → ∀ name : GraphName,
    st.holdsGraph name.value = true → (Declared st' name.value ↔ Declared st name.value)

theorem graphRowsOf_seeded (st : MutableDataset) (graph id : MutTermId) :
    (st.counted graph (st.graphRowsOf graph)).graphRowsOf id = st.graphRowsOf id := by
  by_cases same : id = graph
  · subst same
    simp [graphRowsOf, counted]
  · simp only [graphRowsOf, counted, AList.lookup_insert_ne same]

theorem withdrawBaseGraph_spec (h : ValueState st) (tables : GraphTables st) (own : TermId) :
    SlotChange st (st.withdrawBaseGraph own) ∧ GraphTables (st.withdrawBaseGraph own) ∧
      (st.withdrawBaseGraph own).declaredGraphs = st.declaredGraphs ∧
      ∀ name : GraphName, BaseListed (st.withdrawBaseGraph own) name.value ↔
        BaseListed st name.value ∧
          (st.base.termValue own = some name.value → st.holdsGraph name.value = true) := by
  have seeded : SlotChange st (st.counted (.base own) (st.graphRowsOf (.base own))) := by
    refine ⟨rfl, rfl, rfl, rfl, rfl, graphRowsOf_seeded st _, fun id held => ?_⟩
    exact (lookup_insert_isSome _ _ _ _).mpr (Or.inr held)
  have slots : ∀ id ∈ st.withdrawnGraphs,
      (st.graphRows.insert (.base own) (st.graphRowsOf (.base own))).lookup (.base id) = some 0 := by
    intro id withdrawn
    have zero := tables.withdrawn id withdrawn
    by_cases same : id = own
    · subst same
      simp [graphRowsOf, zero]
    · rw [AList.lookup_insert_ne (by simpa using same)]
      exact zero
  have holds : ∀ name : GraphName, st.base.termValue own = some name.value →
      (st.holdsGraph name.value = true ↔ 0 < st.graphRowsOf (.base own)) := by
    intro name read
    have read : st.mutValue (.base own) = some name.value := read
    rw [h.consistent.exact]
    exact holdsGraph_iff_rowsIn h read
  change SlotChange st (if st.graphRowsOf (.base own) = 0 ∧ own ∉ st.withdrawnGraphs then _ else _) ∧ _
  unfold withdrawBaseGraph
  dsimp only
  by_cases rowless : st.graphRowsOf (.base own) = 0 ∧ own ∉ st.withdrawnGraphs
  · rw [if_pos rowless]
    refine ⟨⟨rfl, rfl, rfl, rfl, rfl, seeded.counts, seeded.kept⟩, ⟨⟨?_, tables.nodup⟩, ?_⟩, rfl, ?_⟩
    · intro id member
      rcases Finset.mem_insert.mp member with rfl | member
      · rw [AList.lookup_insert, rowless.1]
      · exact slots id member
    · exact seeded.touched tables
    · intro name
      refine baseListed_withdraw.trans (and_congr_right fun _ => ?_)
      constructor
      · exact fun differs read => absurd read differs
      · intro held read
        have pos := (holds name read).mp (held read)
        omega
  · rw [if_neg rowless]
    refine ⟨seeded, ⟨⟨slots, tables.nodup⟩, seeded.touched tables⟩, rfl, fun name => ?_⟩
    refine ⟨fun listed => ⟨listed, fun read => ?_⟩, And.left⟩
    rw [holds name read]
    obtain ⟨id, found, kept⟩ := listed
    cases st.base.termValue_injective (baseGraph_name.mp found).1 read
    by_contra zero
    exact rowless ⟨by omega, kept⟩

theorem dropRowless_eq (st : MutableDataset) (index : Nat) (graphs : List TermValue) (bound : index ≤ graphs.length) :
    st.dropRowless index graphs =
      (graphs.take index).filter (fun graph => st.holdsRows graph) ++ graphs.drop index := by
  induction index generalizing graphs with
  | zero => simp [dropRowless]
  | succ index ih =>
    have inside : index < graphs.length := bound
    have split := List.take_append_getElem inside
    have rest := List.drop_eq_getElem_cons inside
    rw [dropRowless, List.getElem?_eq_getElem inside]
    dsimp only
    split
    · rename_i holds
      rw [ih graphs (Nat.le_of_lt inside), ← split, rest, List.filter_append]
      simp [holds]
    · rename_i rowless
      have shorter : index ≤ (graphs.eraseIdx index).length := by
        rw [List.length_eraseIdx_of_lt inside]
        omega
      rw [ih _ shorter, List.eraseIdx_eq_take_drop_succ, ← split, List.filter_append]
      simp [rowless, Nat.min_eq_left (Nat.le_of_lt inside)]

theorem withdrawal_of_stages {st₁ : MutableDataset} {scope : TermValue → Prop} (h : ValueState st)
    (first : SlotChange st st₁) (tables : GraphTables st₁)
    (same : st₁.declaredGraphs = st.declaredGraphs)
    (listed : ∀ name : GraphName, BaseListed st₁ name.value ↔
      BaseListed st name.value ∧ (scope name.value → st.holdsGraph name.value = true))
    {declarations : List TermValue} (nodup : declarations.Nodup)
    (declared : ∀ name : GraphName, name.value ∈ declarations ↔
      name.value ∈ st₁.declaredGraphs ∧ (scope name.value →
        st₁.graphExistence = .rememberEmpty ∧ st₁.holdsRows name.value = true)) :
    Withdrawal st scope { st₁ with declaredGraphs := declarations } := by
  have second : SlotChange st₁ { st₁ with declaredGraphs := declarations } :=
    ⟨rfl, rfl, rfl, rfl, rfl, fun _ => rfl, fun _ held => held⟩
  have h₁ := first.valueState h
  have slots : ∀ name : GraphName,
      Declared { st₁ with declaredGraphs := declarations } name.value ↔
        name.value ∈ declarations ∨ BaseListed st₁ name.value := fun _ => Iff.rfl
  refine ⟨first.trans second, ⟨⟨tables.withdrawn, nodup⟩, second.touched tables⟩, ?_, ?_, ?_⟩
  · intro name outside
    rw [slots, declared, listed, same, Declared]
    simp [outside]
  · intro name inside rowless
    rw [slots, declared, listed]
    rintro (⟨-, kept⟩ | ⟨-, kept⟩)
    · have holds := holdsGraph_of_holdsRows h₁ (kept inside).2
      rw [first.holdsGraph h, rowless] at holds
      cases holds
    · have holds := kept inside
      rw [rowless] at holds
      cases holds
  · intro remembers name holds
    have mode : st₁.graphExistence = .rememberEmpty := first.graphExistence.trans remembers
    have listed : BaseListed st₁ name.value ↔ BaseListed st name.value := by
      rw [listed]
      exact and_iff_left fun _ => holds
    have holds : st₁.holdsGraph name.value = true := by
      rw [first.holdsGraph h]
      exact holds
    rw [slots, declared, same, Declared, ← listed]
    rcases holdsRows_or_baseListed h₁ tables holds with counted | inBase
    · simp [mode, counted]
    · simp [inBase]

theorem withdrawDeclared_eq (st : MutableDataset) (nodup : st.declaredGraphs.Nodup)
    (value : TermValue) : ∃ declarations, st.withdrawDeclared value =
      { st with declaredGraphs := declarations } ∧ declarations.Nodup ∧
      ∀ name : GraphName, name.value ∈ declarations ↔ name.value ∈ st.declaredGraphs ∧
        (name.value = value → st.graphExistence = .rememberEmpty ∧
          st.holdsRows name.value = true) := by
  rw [withdrawDeclared]
  split
  · rename_i mode
    by_cases dropped : (decide (value ∈ st.declaredGraphs) && !st.holdsRows value) = true
    · rw [if_pos dropped]
      refine ⟨_, rfl, nodup.erase value, fun name => ?_⟩
      simp only [Bool.and_eq_true, decide_eq_true_eq, Bool.not_eq_true'] at dropped
      rw [nodup.mem_erase_iff, and_comm]
      refine and_congr_right fun _ => ?_
      constructor
      · exact fun differs same => absurd same differs
      · rintro kept same
        have holds := (kept same).2
        rw [same, dropped.2] at holds
        cases holds
    · rw [if_neg dropped]
      refine ⟨st.declaredGraphs, rfl, nodup, fun name => ?_⟩
      simp only [Bool.and_eq_true, decide_eq_true_eq, Bool.not_eq_true', not_and,
        Bool.not_eq_false] at dropped
      refine ⟨fun known => ⟨known, ?_⟩, And.left⟩
      rintro rfl
      exact ⟨mode, dropped known⟩
  · rename_i mode
    refine ⟨_, rfl, nodup.filter _, fun name => ?_⟩
    simp [mode]

theorem withdrawGraphDeclaration_spec (h : ValueState st) (tables : GraphTables st)
    (value : TermValue) : Withdrawal st (· = value) (st.withdrawGraphDeclaration value) := by
  rw [withdrawGraphDeclaration]
  rcases known : st.base.termIdByValue value with - | id
  · obtain ⟨declarations, same, nodup, declared⟩ := withdrawDeclared_eq st tables.nodup value
    dsimp only
    rw [same]
    refine withdrawal_of_stages h ⟨rfl, rfl, rfl, rfl, rfl, fun _ => rfl, fun _ held => held⟩ tables
      rfl ?_ nodup declared
    intro name
    refine ⟨fun listed => ⟨listed, ?_⟩, And.left⟩
    rintro rfl
    obtain ⟨id, listed, -⟩ := listed
    rw [(baseGraph_eq_some.mp listed).1] at known
    cases known
  · obtain ⟨change, tables', unchanged, listed⟩ := withdrawBaseGraph_spec h tables id
    obtain ⟨declarations, same, nodup, declared⟩ :=
      withdrawDeclared_eq (st.withdrawBaseGraph id) tables'.nodup value
    dsimp only
    rw [same]
    refine withdrawal_of_stages h change tables' unchanged ?_ nodup declared
    intro name
    rw [listed, st.base.termIdByValue_eq_some.mp known, Option.some.injEq,
      TermValue.canonical_eq_name, eq_comm]

theorem withdrawBaseGraphs_spec (graphs : List TermId) (h : ValueState st)
    (tables : GraphTables st) :
    SlotChange st (graphs.foldl withdrawBaseGraph st) ∧
      GraphTables (graphs.foldl withdrawBaseGraph st) ∧
      (graphs.foldl withdrawBaseGraph st).declaredGraphs = st.declaredGraphs ∧
      ∀ name : GraphName, BaseListed (graphs.foldl withdrawBaseGraph st) name.value ↔
        BaseListed st name.value ∧ ∀ own ∈ graphs, st.base.termValue own = some name.value →
          st.holdsGraph name.value = true := by
  induction graphs generalizing st with
  | nil =>
    refine ⟨⟨rfl, rfl, rfl, rfl, rfl, fun _ => rfl, fun _ held => held⟩, tables, rfl, ?_⟩
    simp
  | cons own rest ih =>
    obtain ⟨change, tables', same, listed⟩ := withdrawBaseGraph_spec h tables own
    obtain ⟨changes, tables'', same', listed'⟩ := ih (change.valueState h) tables'
    refine ⟨change.trans changes, tables'', same'.trans same, fun name => ?_⟩
    rw [List.foldl_cons, listed', listed, change.base, change.holdsGraph h, List.forall_mem_cons,
      and_assoc]

theorem withdrawNamedGraphDeclarations_spec (h : ValueState st) (tables : GraphTables st) :
    Withdrawal st (fun _ => True) st.withdrawNamedGraphDeclarations := by
  obtain ⟨change, tables', same, listed⟩ := withdrawBaseGraphs_spec st.base.namedGraphs h tables
  have stage : ∀ name : GraphName,
      BaseListed (st.base.namedGraphs.foldl withdrawBaseGraph st) name.value ↔
        BaseListed st name.value ∧ (True → st.holdsGraph name.value = true) := by
    intro name
    rw [listed]
    refine and_congr_right fun inBase => ⟨fun kept _ => ?_, fun holds _ _ _ => holds trivial⟩
    obtain ⟨id, found, -⟩ := inBase
    obtain ⟨read, named⟩ := baseGraph_name.mp found
    exact kept id (List.contains_iff_mem.mp named) read
  rw [withdrawNamedGraphDeclarations]
  split
  · rename_i mode
    have kept := dropRowless_eq (st.base.namedGraphs.foldl withdrawBaseGraph st) _
      (st.base.namedGraphs.foldl withdrawBaseGraph st).declaredGraphs (Nat.le_refl _)
    rw [List.take_length, List.drop_length, List.append_nil] at kept
    rw [kept]
    refine withdrawal_of_stages h change tables' same stage (tables'.nodup.filter _) fun name => ?_
    simp [mode]
  · rename_i mode
    refine withdrawal_of_stages h change tables' same stage List.nodup_nil fun name => ?_
    simp [mode]

/-! ### One call -/

theorem checkGraphName_ok {rules : LexicalRules} (checked : checkGraphName rules value = .ok ()) :
    ∃ name : GraphName, value = name.value := by
  cases value with
  | iri name => exact ⟨.iri name, rfl⟩
  | blank label scope => exact ⟨.blank label scope, rfl⟩
  | literal => cases checked
  | triple => cases checked

theorem declareGraph_change (st : MutableDataset) (value : TermValue) :
    SlotChange st (st.declareGraph value).1 := by
  obtain ⟨declared, withdrawn, same⟩ := declareGraph_rows st value
  rw [same]
  exact ⟨rfl, rfl, rfl, rfl, rfl, fun _ => rfl, fun _ held => held⟩

structure Advances (event : GraphEvent) : Prop where
  state : ValueState event.after
  tables : GraphTables event.after
  graphExistence : event.after.graphExistence = event.before.graphExistence
  implicit : event.before.graphExistence = .implicit → ∀ (name : GraphName) (declared : Bool),
    (event.before.holdsGraph name.value = false →
      (Declared event.before name.value ↔ declared = true)) →
    event.after.holdsGraph name.value = false →
      (Declared event.after name.value ↔ event.declaredAfter name.value declared = true)
  remembered : event.before.graphExistence = .rememberEmpty →
    (∀ name : GraphName, event.before.holdsGraph name.value = true →
      Declared event.before name.value) →
    ∀ (name : GraphName) (remembered : Bool),
      (Declared event.before name.value ↔ remembered = true) →
        (Declared event.after name.value ↔ event.rememberedAfter name.value remembered = true)

theorem advances_of_rowChange {event : GraphEvent} (state : ValueState event.after)
    (tables : GraphTables event.after) (change : RowChange event.before event.after)
    (plain : ∀ value, event.declares value = false ∧ event.creates value = false ∧
      event.withdraws value = false) : Advances event := by
  refine ⟨state, tables, change.graphExistence, fun implicit name declared known empty => ?_,
    fun remembers held name remembered known => ?_⟩
  · obtain ⟨declares, -, withdraws⟩ := plain name.value
    rw [change.implicit implicit name empty]
    rcases before : event.before.holdsGraph name.value
    · simp [GraphEvent.declaredAfter, GraphEvent.empties, declares, withdraws, before, known before]
    · simp [GraphEvent.declaredAfter, GraphEvent.empties, declares, withdraws, before, empty]
  · obtain ⟨declares, creates, withdraws⟩ := plain name.value
    rw [change.remembered remembers held, known]
    rcases after : event.after.holdsGraph name.value <;>
      simp [GraphEvent.rememberedAfter, declares, creates, withdraws, after]

theorem advances_of_declared {event : GraphEvent} (value : TermValue) (opens : Bool)
    (h : ValueState event.before) (change : SlotChange event.before event.after)
    (tables : GraphTables event.after)
    (declared : ∀ name : GraphName, Declared event.after name.value ↔
      Declared event.before name.value ∨ (opens = true ∧ value = name.value))
    (declares : event.before.graphExistence = .implicit → ∀ other,
      event.declares other = (opens && decide (value = other)))
    (either : event.before.graphExistence = .rememberEmpty → ∀ other,
      (event.declares other || event.creates other) = (opens && decide (value = other)))
    (withdraws : ∀ value, event.withdraws value = false) : Advances event := by
  have holds := change.holdsGraph h
  refine ⟨change.valueState h, tables, change.graphExistence,
    fun implicit name was known empty => ?_, fun remembers held name was known => ?_⟩
  · have before : event.before.holdsGraph name.value = false := holds name ▸ empty
    rw [declared, known before]
    simp only [GraphEvent.declaredAfter, GraphEvent.empties, declares implicit, withdraws, before]
    cases opens <;> by_cases same : value = name.value <;> simp [same]
  · rw [declared]
    simp only [GraphEvent.rememberedAfter, Bool.or_assoc, either remembers, withdraws, holds]
    rcases before : event.before.holdsGraph name.value
    · cases opens <;> by_cases same : value = name.value <;> simp [same, known]
    · simp [held name before]

theorem advances_of_withdrawal {event : GraphEvent} {scope : TermValue → Prop}
    (h : ValueState event.before) (withdrawal : Withdrawal event.before scope event.after)
    (plain : ∀ value, event.declares value = false ∧ event.creates value = false)
    (withdraws : ∀ value, event.withdraws value = true ↔ scope value) : Advances event := by
  have holds := withdrawal.change.holdsGraph h
  refine ⟨withdrawal.change.valueState h, withdrawal.tables, withdrawal.change.graphExistence,
    fun implicit name was known empty => ?_, fun remembers held name was known => ?_⟩
  · have before : event.before.holdsGraph name.value = false := holds name ▸ empty
    by_cases inside : scope name.value
    · rw [iff_false_left (withdrawal.rowless name inside before)]
      simp [GraphEvent.declaredAfter, plain, (withdraws name.value).mpr inside]
    · have outside : event.withdraws name.value = false := by
        rw [← Bool.not_eq_true, withdraws]
        exact inside
      rw [withdrawal.outside name inside, known before]
      simp [GraphEvent.declaredAfter, GraphEvent.empties, plain, outside, before]
  · rcases before : event.before.holdsGraph name.value
    · by_cases inside : scope name.value
      · rw [iff_false_left (withdrawal.rowless name inside before)]
        simp [GraphEvent.rememberedAfter, plain, (withdraws name.value).mpr inside, holds, before]
      · have outside : event.withdraws name.value = false := by
          rw [← Bool.not_eq_true, withdraws]
          exact inside
        rw [withdrawal.outside name inside, known]
        simp [GraphEvent.rememberedAfter, plain, outside, holds, before]
    · rw [withdrawal.remembered remembers name before]
      simp [GraphEvent.rememberedAfter, holds, before, held name before]

theorem SlotChange.refl (st : MutableDataset) : SlotChange st st :=
  ⟨rfl, rfl, rfl, rfl, rfl, fun _ => rfl, fun _ held => held⟩

theorem declareGraph_name (st : MutableDataset) (own name : GraphName) :
    Declared (st.declareGraph own.value).1 name.value ↔
      Declared st name.value ∨ own.value = name.value :=
  declareGraph_declared fun _ listed => (baseGraph_name.mp listed).1

theorem declareNamedGraph_advances (h : ValueState st) (tables : GraphTables st)
    (rules : LexicalRules) (value : TermValue) :
    Advances ⟨st, .declareNamedGraph value, (st.declareNamedGraph rules value).2.isOk,
      (st.declareNamedGraph rules value).1⟩ := by
  rcases checked : checkGraphName rules value with error | ⟨⟩
  · have refused : st.declareNamedGraph rules value = (st, .error error) := by
      rw [declareNamedGraph, checked]
    rw [refused]
    apply advances_of_declared value false h (SlotChange.refl st) tables <;>
      simp [GraphEvent.declares, GraphEvent.creates, GraphEvent.withdraws, Except.isOk, Except.toBool]
  · obtain ⟨own, rfl⟩ := checkGraphName_ok checked
    have accepted : st.declareNamedGraph rules own.value =
        ((st.declareGraph own.value).1, .ok (st.declareGraph own.value).2) := by
      rw [declareNamedGraph, checked]
    rw [accepted]
    apply advances_of_declared own.value true h (declareGraph_change st own.value)
      ⟨declareGraph_slots tables.toGraphSlots own.value,
        (declareGraph_change st own.value).touched tables⟩
    · intro name
      simpa using declareGraph_name st own name
    all_goals
      simp [GraphEvent.declares, GraphEvent.creates, GraphEvent.withdraws, Except.isOk, Except.toBool]

theorem createNamedGraph_advances (h : ValueState st) (tables : GraphTables st)
    (rules : LexicalRules) (value : TermValue) :
    Advances ⟨st, .createNamedGraph value, (st.createNamedGraph rules value).2.isOk,
      (st.createNamedGraph rules value).1⟩ := by
  have idle : ∀ outcome, outcome.isOk = false ∨ st.graphExistence = .implicit →
      st.createNamedGraph rules value = (st, outcome) →
      Advances ⟨st, .createNamedGraph value, (st.createNamedGraph rules value).2.isOk,
        (st.createNamedGraph rules value).1⟩ := by
    intro outcome refused same
    rw [same]
    apply advances_of_declared value false h (SlotChange.refl st) tables
    · simp
    · simp [GraphEvent.declares]
    · intro remembers
      have remembers : st.graphExistence = .rememberEmpty := remembers
      have refused := refused.resolve_right (by rw [remembers]; simp)
      simp [GraphEvent.declares, GraphEvent.creates, refused]
    · simp [GraphEvent.withdraws]
  rcases checked : checkGraphName rules value with error | ⟨⟩
  · exact idle (.error error) (Or.inl rfl) (by rw [createNamedGraph, checked])
  · obtain ⟨own, rfl⟩ := checkGraphName_ok checked
    by_cases implicit : st.graphExistence = .implicit
    · exact idle (.ok false) (Or.inr implicit) (by rw [createNamedGraph, checked, implicit])
    · have remembers : st.graphExistence = .rememberEmpty := by
        rcases mode : st.graphExistence with - | -
        · exact absurd mode implicit
        · rfl
      by_cases present : st.hasNamedGraph own.value = true
      · refine idle (.error ⟨"rdf-ir-graph-already-exists", "the named graph already exists"⟩)
          (Or.inl rfl) ?_
        rw [createNamedGraph, checked, remembers]
        exact if_pos present
      · have accepted : st.createNamedGraph rules own.value =
            ((st.declareGraph own.value).1, .ok (st.declareGraph own.value).2) := by
          rw [createNamedGraph, checked, remembers]
          exact if_neg present
        rw [accepted]
        apply advances_of_declared own.value true h (declareGraph_change st own.value)
          ⟨declareGraph_slots tables.toGraphSlots own.value,
            (declareGraph_change st own.value).touched tables⟩
        · intro name
          simpa using declareGraph_name st own name
        all_goals
          simp [GraphEvent.declares, GraphEvent.creates, GraphEvent.withdraws, Except.isOk,
            Except.toBool, remembers]

theorem graphCall_spec (h : ValueState st) (tables : GraphTables st) (rules : LexicalRules)
    (request : GraphCall) : ∃ after accepted, st.graphCall rules request = some (after, accepted) ∧
      Advances ⟨st, request, accepted, after⟩ := by
  cases request with
  | insert quad =>
    obtain ⟨after, outcome, run, state, tables', change, -⟩ := insert_presence h tables rules quad
    refine ⟨after, outcome.isOk, by rw [graphCall, run, Option.map_some], ?_⟩
    apply advances_of_rowChange state tables' change
    simp [GraphEvent.declares, GraphEvent.creates, GraphEvent.withdraws]
  | remove quad =>
    obtain ⟨after, changed, run, state, tables', change, -⟩ := remove_presence h tables quad
    refine ⟨after, true, by rw [graphCall, run, Option.map_some], ?_⟩
    apply advances_of_rowChange state tables' change
    simp [GraphEvent.declares, GraphEvent.creates, GraphEvent.withdraws]
  | createNamedGraph graph => exact ⟨_, _, rfl, createNamedGraph_advances h tables rules graph⟩
  | declareNamedGraph graph => exact ⟨_, _, rfl, declareNamedGraph_advances h tables rules graph⟩
  | withdrawGraphDeclaration graph =>
    refine ⟨_, _, rfl, ?_⟩
    apply advances_of_withdrawal h (withdrawGraphDeclaration_spec h tables graph)
    · simp [GraphEvent.declares, GraphEvent.creates]
    · simp [GraphEvent.withdraws, eq_comm]
  | withdrawNamedGraphDeclarations =>
    refine ⟨_, _, rfl, ?_⟩
    apply advances_of_withdrawal h (withdrawNamedGraphDeclarations_spec h tables)
    · simp [GraphEvent.declares, GraphEvent.creates]
    · simp [GraphEvent.withdraws]

/-! ### Whole runs -/

theorem graphRun_spec (h : ValueState st) (tables : GraphTables st) (rules : LexicalRules)
    (requests : List GraphCall) :
    ∃ last events, graphRun rules st requests = some (last, events) ∧
      events.map (·.call) = requests ∧ ValueState last ∧ GraphTables last ∧
      (st.graphExistence = .implicit → ∀ (name : GraphName) (declared : Bool),
        (st.holdsGraph name.value = false → (Declared st name.value ↔ declared = true)) →
        last.holdsGraph name.value = false → (Declared last name.value ↔
          events.foldl (fun declared event => event.declaredAfter name.value declared) declared
            = true)) ∧
      (st.graphExistence = .rememberEmpty →
        (∀ name : GraphName, st.holdsGraph name.value = true → Declared st name.value) →
        (∀ name : GraphName, last.holdsGraph name.value = true → Declared last name.value) ∧
        ∀ (name : GraphName) (remembered : Bool),
          (Declared st name.value ↔ remembered = true) → (Declared last name.value ↔
            events.foldl (fun remembered event => event.rememberedAfter name.value remembered)
              remembered = true)) := by
  induction requests generalizing st with
  | nil =>
    refine ⟨st, [], rfl, rfl, h, tables, fun _ name declared known empty => known empty,
      fun _ held => ⟨held, fun name remembered known => known⟩⟩
  | cons request rest ih =>
    obtain ⟨after, accepted, step, advances⟩ := graphCall_spec h tables rules request
    obtain ⟨last, events, runs, calls, state, tables', implicit, remembered⟩ :=
      ih advances.state advances.tables
    have mode := advances.graphExistence
    dsimp only at mode
    refine ⟨last, ⟨st, request, accepted, after⟩ :: events, ?_, by simp [calls], state, tables',
      fun policy name declared known => ?_, fun policy held => ?_⟩
    · rw [graphRun, step, Option.bind_some]
      simp only [runs, Option.map_some]
    · rw [List.foldl_cons]
      exact implicit (mode.trans policy) name _ (advances.implicit policy name declared known)
    · have steps := advances.remembered policy held
      have held' : ∀ name : GraphName, after.holdsGraph name.value = true →
          Declared after name.value := by
        intro name holds
        obtain ⟨slot, was⟩ : ∃ slot : Bool, Declared st name.value ↔ slot = true := by
          by_cases declared : Declared st name.value
          · exact ⟨true, by simp [declared]⟩
          · exact ⟨false, by simp [declared]⟩
        rw [steps name slot was]
        simp [GraphEvent.rememberedAfter, holds]
      obtain ⟨heldLast, folded⟩ := remembered (mode.trans policy) held'
      refine ⟨heldLast, fun name before known => ?_⟩
      rw [List.foldl_cons]
      exact folded name _ (steps name before known)

variable {order : HashOrder} {mode : GraphExistenceMode}

theorem declared_branch : Declared (newWithGraphExistence base order mode) name.value ↔
    (base.termIdByValue name.value).any base.hasNamedGraph = true := by
  simp [Declared, BaseListed, baseGraph, newWithGraphExistence, Option.any_eq_true,
    Option.filter_eq_some_iff]

theorem declared_branch_empty
    (empty : (newWithGraphExistence base order mode).holdsGraph name.value = false) :
    Declared (newWithGraphExistence base order mode) name.value ↔
      ((base.termIdByValue name.value).any fun id =>
        base.hasNamedGraph id && decide (base.namedGraphRowCount id = 0)) = true := by
  rw [declared_branch]
  rcases known : base.termIdByValue name.value with - | id
  · simp
  · have read : (newWithGraphExistence base order mode).mutValue (.base id) = some name.value :=
      termIdByValue_name.mp known
    have state : ValueState (newWithGraphExistence base order mode) := valueState_branch
    have rows := (holdsGraph_iff_rowsIn state read).not.mp (by simp [empty])
    have exact := graphsExact_branch base order mode (.base id)
    have untouched : (newWithGraphExistence base order mode).graphRows.lookup (.base id) = none :=
      AList.lookup_empty _
    simp only [graphRowsOf, untouched] at exact
    have none : base.namedGraphRowCount id = 0 := by
      have : base.namedGraphRowCount id = _ := exact
      omega
    simp [none]

theorem declared_branch_of_holdsGraph
    (holds : (newWithGraphExistence base order mode).holdsGraph name.value = true) :
    Declared (newWithGraphExistence base order mode) name.value := by
  rcases holdsRows_or_baseListed valueState_branch (graphTables_branch base order mode) holds with
    counted | listed
  · obtain ⟨id, -, touched, -⟩ := (holdsRows_iff (consistent_branch base order mode)).mp counted
    have untouched : (newWithGraphExistence base order mode).graphRows.lookup id = none :=
      AList.lookup_empty id
    rw [untouched] at touched
    cases touched
  · exact Or.inr listed

/-- After any sequence of calls the branch and its snapshots agree on every graph name. A
graph with a row is listed; one without is listed, where graphs exist implicitly, exactly
when it was declared and neither emptied nor withdrawn since, and where they are remembered,
as long as it once held a row or was declared and was not withdrawn without rows since. -/
theorem named_graph_presence (rules : LexicalRules) (base : RdfDataset) (order : HashOrder)
    (mode : GraphExistenceMode) (calls : List GraphCall) :
    ∃ st events, (newWithGraphExistence base order mode).graphRun rules calls = some (st, events) ∧
      events.map (·.call) = calls ∧ ∃ listed, st.snapshotNamedGraphs = some listed ∧
      ∀ name : GraphName,
        (st.hasNamedGraph name.value = true ↔ name.value ∈ listed) ∧
        (st.holdsGraph name.value = true → name.value ∈ listed) ∧
        match mode with
        | .implicit => st.holdsGraph name.value = false →
            (name.value ∈ listed ↔ declaredSince base events name.value = true)
        | .rememberEmpty =>
          (name.value ∈ listed ↔ rememberedSince base events name.value = true) := by
  obtain ⟨st, events, runs, requested, state, tables, implicit, remembered⟩ :=
    graphRun_spec valueState_branch (graphTables_branch base order mode) rules calls
  obtain ⟨listed, enumerated, members⟩ := snapshotNamedGraphs_spec state tables
  refine ⟨st, events, runs, requested, listed, enumerated, fun name => ⟨?_, ?_, ?_⟩⟩
  · rw [hasNamedGraph_iff state tables, members]
  · intro holds
    exact (members name).mpr (Or.inr holds)
  · cases mode with
    | implicit =>
      intro empty
      rw [members, empty, declaredSince]
      simp only [Bool.false_eq_true, or_false]
      exact implicit rfl name _ declared_branch_empty empty
    | rememberEmpty =>
      obtain ⟨held, folded⟩ := remembered rfl fun _ => declared_branch_of_holdsGraph
      rw [members, or_iff_left_of_imp (held name)]
      exact folded name _ declared_branch

end MutableDataset

end Purrdf
