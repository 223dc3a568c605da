import Purrdf.MutableRows
import Mathlib.Data.Finset.SDiff

/-!
# The effective rows of a branch

What the physical rows mean: the base records that are not suppressed, and the added
ones. Inserting and removing a row act on this set as insertion and erasure, and keep
the row tables consistent with each other.
-/

namespace Purrdf

def RdfDataset.records (base : RdfDataset) : Finset RecordKey :=
  (base.recordIds.map fun row => (⟨row.kind, baseKey row.quad⟩ : RecordKey)).toFinset

theorem baseKey_injective : Function.Injective baseKey :=
  Quad.mapIds_injective fun _ _ h => MutTermId.base.inj h

namespace RdfDataset

variable {base : RdfDataset}

theorem mem_records {key : RecordKey} :
    key ∈ base.records ↔ ∃ q, key.quad = baseKey q ∧ (⟨key.kind, q⟩ : Record TermId) ∈ base.recordIds := by
  obtain ⟨kind, quad⟩ := key
  simp only [records, List.mem_toFinset, List.mem_map, Record.mk.injEq]
  constructor
  · rintro ⟨⟨kind', q⟩, member, rfl, rfl⟩
    exact ⟨q, rfl, member⟩
  · rintro ⟨q, rfl, member⟩
    exact ⟨⟨kind, q⟩, member, rfl, rfl⟩

theorem recordKeys_nodup (base : RdfDataset) :
    (base.recordIds.map fun row => (⟨row.kind, baseKey row.quad⟩ : RecordKey)).Nodup := by
  apply base.recordIds_nodup.map
  rintro ⟨kind, q⟩ ⟨kind', q'⟩ same
  simp only [Record.mk.injEq] at same
  rw [same.1, baseKey_injective same.2]

theorem card_records : base.records.card = base.rdfRowCount := by
  rw [records, List.toFinset_card_of_nodup base.recordKeys_nodup, List.length_map,
    base.recordIds_length]

theorem matches_iff {g : Option MutTermId} {graph : GraphMatch TermId} {slot : Option TermId}
    (translated : baseGraphMatch g = some graph) :
    graph.matches slot = true ↔ slot.map MutTermId.base = g := by
  rcases g with - | ⟨id⟩ | ⟨id⟩ <;> cases translated <;> rcases slot with - | slot <;>
    simp [GraphMatch.matches]

theorem baseTableContains_iff {kind : RecordKind} {s p o : TermId} {g : Option MutTermId}
    {graph : GraphMatch TermId} (translated : baseGraphMatch g = some graph) :
    baseTableContains base kind s p o graph = true ↔
      ∃ q : QuadIds, (⟨kind, q⟩ : Record TermId) ∈ base.recordIds ∧ q.s = s ∧ q.p = p ∧ q.o = o ∧
        q.g.map MutTermId.base = g := by
  cases kind with
  | ordinary =>
    simp only [baseTableContains, quadsForPattern, Bool.not_eq_true', List.isEmpty_eq_false_iff,
      ne_eq, List.filter_eq_nil_iff, not_forall, mem_recordIds]
    constructor
    · rintro ⟨q, member, found⟩
      simp only [Option.all_some, Bool.and_eq_true, beq_iff_eq, not_not] at found
      obtain ⟨⟨⟨hs, hp⟩, ho⟩, hg⟩ := found
      exact ⟨q, by simp [member], hs, hp, ho, (matches_iff translated).mp hg⟩
    · rintro ⟨q, member, rfl, rfl, rfl, hg⟩
      refine ⟨q, by simpa using member, ?_⟩
      simp [(matches_iff translated).mpr hg]
  | reifier =>
    simp only [baseTableContains, List.any_eq_true, mem_reifierQuadsOf, Bool.and_eq_true,
      beq_iff_eq, mem_recordIds]
    constructor
    · rintro ⟨q, ⟨member, hs⟩, ⟨hp, ho⟩, hg⟩
      exact ⟨q, by simp [member], hs, hp, ho, (matches_iff translated).mp hg⟩
    · rintro ⟨q, member, rfl, rfl, rfl, hg⟩
      exact ⟨q, ⟨by simpa using member, rfl⟩, ⟨rfl, rfl⟩, (matches_iff translated).mpr hg⟩
  | annotationRow =>
    simp only [baseTableContains, List.any_eq_true, Prod.exists, mem_annotationsOfWithGraph,
      Bool.and_eq_true, beq_iff_eq, mem_recordIds]
    constructor
    · rintro ⟨p', o', g', member, ⟨rfl, rfl⟩, hg⟩
      exact ⟨⟨s, p', o', g'⟩, by simp [member], rfl, rfl, rfl, (matches_iff translated).mp hg⟩
    · rintro ⟨q, member, rfl, rfl, rfl, hg⟩
      exact ⟨q.p, q.o, q.g, by simpa using member, ⟨rfl, rfl⟩, (matches_iff translated).mpr hg⟩

/-- The indexed membership probe of the base decides membership in its tables. -/
theorem baseContainsRecord_iff {key : RecordKey} :
    baseContainsRecord base key = true ↔ key ∈ base.records := by
  obtain ⟨kind, s, p, o, g⟩ := key
  rw [mem_records]
  simp only [baseContainsRecord]
  split
  · rename_i s p o graph translated
    rw [baseTableContains_iff translated]
    constructor
    · rintro ⟨q, member, rfl, rfl, rfl, hg⟩
      exact ⟨q, by simp [baseKey, Quad.mapIds, hg], member⟩
    · rintro ⟨q, same, member⟩
      simp only [baseKey, Quad.mapIds, Quad.mk.injEq, MutTermId.base.injEq] at same
      obtain ⟨rfl, rfl, rfl, hg⟩ := same
      exact ⟨q, member, rfl, rfl, rfl, hg.symm⟩
  · rename_i untranslated
    constructor
    · intro absurd
      cases absurd
    · rintro ⟨q, same, -⟩
      simp only [baseKey, Quad.mapIds, Quad.mk.injEq] at same
      obtain ⟨rfl, rfl, rfl, rfl⟩ := same
      rcases hg : q.g with - | g
      · exact (untranslated q.s q.p q.o .default rfl rfl rfl (by simp [hg, baseGraphMatch])).elim
      · exact (untranslated q.s q.p q.o (.named g) rfl rfl rfl (by simp [hg, baseGraphMatch])).elim

end RdfDataset

namespace PhysicalRows

variable {base : RdfDataset} {rows : PhysicalRows} {key : RecordKey} {ordinal : Option Nat}

/-- `effective = (base ∪ added) − suppressed`. -/
def effective (base : RdfDataset) (rows : PhysicalRows) : Finset RecordKey :=
  (base.records \ rows.suppressed) ∪ rows.added

theorem mem_effective :
    key ∈ rows.effective base ↔ (key ∈ base.records ∧ key ∉ rows.suppressed) ∨ key ∈ rows.added := by
  simp [effective]

theorem containsRecordKey_iff :
    rows.containsRecordKey base key = true ↔ key ∈ rows.effective base := by
  simp only [containsRecordKey, mem_effective, Bool.or_eq_true, Bool.and_eq_true,
    decide_eq_true_eq, RdfDataset.baseContainsRecord_iff]
  constructor
  · rintro (added | ⟨live, inBase⟩)
    · exact Or.inr added
    · exact Or.inl ⟨inBase, live⟩
  · rintro (⟨inBase, live⟩ | added)
    · exact Or.inr ⟨live, inBase⟩
    · exact Or.inl added

theorem containsKey_iff {quad : QuadKey} :
    rows.containsKey base quad = true ↔ ∃ kind, (⟨kind, quad⟩ : RecordKey) ∈ rows.effective base := by
  simp only [containsKey, List.any_eq_true, containsRecordKey_iff]
  constructor
  · rintro ⟨kind, -, member⟩
    exact ⟨kind, member⟩
  · rintro ⟨kind, member⟩
    exact ⟨kind, RecordKind.mem_all kind, member⟩

structure WellFormed (base : RdfDataset) (rows : PhysicalRows) : Prop where
  suppressed_base : ∀ key ∈ rows.suppressed, key ∈ base.records
  added_fresh : ∀ key ∈ rows.added, key ∉ base.records
  ord_added : ∀ key, (rows.addedOrd.lookup key).isSome ↔ key ∈ rows.added
  ord_lt : ∀ key n, rows.addedOrd.lookup key = some n → n < rows.nextAddedOrd
  ord_inj : ∀ key key' n, rows.addedOrd.lookup key = some n →
    rows.addedOrd.lookup key' = some n → key = key'
  reifiers : rows.addedReifiers.Counts (rows.added.filter (·.kind = .reifier)) (·.quad.scope)

theorem wellFormed_empty : WellFormed base {} := by
  constructor <;> simp
  exact FastMap.Counts.empty _

namespace WellFormed

theorem not_added_of_base (h : WellFormed base rows) (inBase : key ∈ base.records) :
    key ∉ rows.added := fun added => h.added_fresh key added inBase

theorem mem_added_iff (h : WellFormed base rows) :
    key ∈ rows.added ↔ key ∈ rows.effective base ∧ key ∉ base.records := by
  rw [mem_effective]
  constructor
  · intro added
    exact ⟨Or.inr added, h.added_fresh key added⟩
  · rintro ⟨⟨inBase, -⟩ | added, fresh⟩
    · exact absurd inBase fresh
    · exact added

theorem mem_suppressed_iff (h : WellFormed base rows) :
    key ∈ rows.suppressed ↔ key ∈ base.records ∧ key ∉ rows.effective base := by
  rw [mem_effective]
  constructor
  · intro suppressed
    have inBase := h.suppressed_base key suppressed
    refine ⟨inBase, ?_⟩
    rintro (⟨-, live⟩ | added)
    · exact live suppressed
    · exact h.added_fresh key added inBase
  · rintro ⟨inBase, dead⟩
    by_contra live
    exact dead (Or.inl ⟨inBase, live⟩)

theorem ord_none (h : WellFormed base rows) :
    rows.addedOrd.lookup key = none ↔ key ∉ rows.added := by
  rw [← h.ord_added key]
  cases rows.addedOrd.lookup key <;> simp

/-- The constant-time count: no base scan, and no subtraction below zero. -/
theorem card_effective (h : WellFormed base rows) :
    (rows.effective base).card + rows.suppressed.card = base.rdfRowCount + rows.added.card := by
  have disjoint : Disjoint (base.records \ rows.suppressed) rows.added := by
    rw [Finset.disjoint_right]
    intro key added inBase
    exact h.added_fresh key added (Finset.mem_sdiff.mp inBase).1
  have sub : rows.suppressed ⊆ base.records := h.suppressed_base
  have split := Finset.card_sdiff_add_card_eq_card sub
  rw [effective, Finset.card_union_of_disjoint disjoint, ← base.card_records]
  omega

end WellFormed

/-! ### Inserting a row -/

theorem insertRecordRows_changed (h : WellFormed base rows) :
    (rows.insertRecordRows base key ordinal).2 = decide (key ∉ rows.effective base) := by
  rw [insertRecordRows]
  split
  · rename_i suppressed
    have := (h.mem_suppressed_iff.mp suppressed).2
    simp [this]
  · split
    · rename_i contained
      simp [containsRecordKey_iff.mp contained]
    · rename_i missing
      have := mt containsRecordKey_iff.mpr missing
      simp [this]

theorem insertRecordRows_effective (h : WellFormed base rows) :
    (rows.insertRecordRows base key ordinal).1.effective base =
      insert key (rows.effective base) := by
  rw [insertRecordRows]
  split
  · rename_i suppressed
    have inBase := h.suppressed_base key suppressed
    ext other
    simp only [mem_effective, Finset.mem_insert, Finset.mem_erase]
    by_cases same : other = key
    · simp [same, inBase]
    · simp [same]
  · split
    · rename_i contained
      rw [Finset.insert_eq_of_mem (containsRecordKey_iff.mp contained)]
    · ext other
      simp only [mem_effective, addRow, Finset.mem_insert]
      tauto

theorem insertRecordRows_ord (h : WellFormed base rows) (other : RecordKey) :
    (rows.insertRecordRows base key ordinal).1.addedOrd.lookup other =
      if other = key ∧ key ∉ rows.effective base ∧ key ∉ base.records then
        some (ordinal.getD rows.nextAddedOrd)
      else rows.addedOrd.lookup other := by
  rw [insertRecordRows]
  split
  · rename_i suppressed
    simp [h.suppressed_base key suppressed]
  · rename_i live
    split
    · rename_i contained
      simp [containsRecordKey_iff.mp contained]
    · rename_i missing
      have dead := mt containsRecordKey_iff.mpr missing
      have fresh : key ∉ base.records := fun inBase =>
        live (h.mem_suppressed_iff.mpr ⟨inBase, dead⟩)
      by_cases same : other = key
      · subst same
        simp [dead, fresh, addRow]
      · simp [same, addRow, AList.lookup_insert_ne]

theorem insertRecordRows_next (h : WellFormed base rows) :
    (rows.insertRecordRows base key ordinal).1.nextAddedOrd =
      if key ∉ rows.effective base ∧ key ∉ base.records ∧ ordinal = none then
        rows.nextAddedOrd + 1
      else rows.nextAddedOrd := by
  rw [insertRecordRows]
  split
  · rename_i suppressed
    simp [h.suppressed_base key suppressed]
  · rename_i live
    split
    · rename_i contained
      simp [containsRecordKey_iff.mp contained]
    · rename_i missing
      have dead := mt containsRecordKey_iff.mpr missing
      have fresh : key ∉ base.records := fun inBase =>
        live (h.mem_suppressed_iff.mpr ⟨inBase, dead⟩)
      rcases ordinal with - | n <;> simp [dead, fresh, addRow]

theorem le_insertRecordRows_next (h : WellFormed base rows) :
    rows.nextAddedOrd ≤ (rows.insertRecordRows base key ordinal).1.nextAddedOrd := by
  rw [insertRecordRows_next h]
  split <;> omega

/-- A remembered ordinal may be reused only while no added row carries it. -/
def OrdinalFree (rows : PhysicalRows) (ordinal : Option Nat) : Prop :=
  ∀ n, ordinal = some n → n < rows.nextAddedOrd ∧
    ∀ key, rows.addedOrd.lookup key ≠ some n

theorem ordinalFree_none : OrdinalFree rows none := fun _ h => by cases h

theorem addRow_wellFormed (h : WellFormed base rows) (fresh : key ∉ base.records)
    (missing : key ∉ rows.added) (free : OrdinalFree rows ordinal) :
    WellFormed base (rows.addRow key ordinal) := by
  have bound : rows.nextAddedOrd ≤ (rows.addRow key ordinal).nextAddedOrd := by
    rcases ordinal with - | n <;> simp [addRow]
  have own : ordinal.getD rows.nextAddedOrd < (rows.addRow key ordinal).nextAddedOrd := by
    rcases ordinal with - | n
    · simp [addRow]
    · simpa [addRow] using (free n rfl).1
  have unused : ∀ other, rows.addedOrd.lookup other ≠ some (ordinal.getD rows.nextAddedOrd) := by
    intro other found
    rcases ordinal with - | n
    · exact Nat.lt_irrefl _ (h.ord_lt other _ found)
    · exact (free n rfl).2 other found
  have lookup : ∀ other, (rows.addRow key ordinal).addedOrd.lookup other =
      if other = key then some (ordinal.getD rows.nextAddedOrd)
      else rows.addedOrd.lookup other := by
    intro other
    split
    · rename_i same
      rw [same, addRow, AList.lookup_insert]
    · rename_i differs
      rw [addRow, AList.lookup_insert_ne differs]
  constructor
  · exact h.suppressed_base
  · intro other added
    rcases Finset.mem_insert.mp added with rfl | added
    · exact fresh
    · exact h.added_fresh other added
  · intro other
    rw [lookup other]
    split
    · rename_i same
      simp [same, addRow]
    · rename_i differs
      simp [addRow, differs, h.ord_added]
  · intro other n found
    rw [lookup other] at found
    split at found
    · cases found
      exact own
    · exact lt_of_lt_of_le (h.ord_lt other n found) bound
  · intro left right n hl hr
    rw [lookup] at hl hr
    split at hl <;> split at hr
    · rename_i a b
      rw [a, b]
    · rw [← hl] at hr
      exact absurd hr (unused right)
    · rw [← hr] at hl
      exact absurd hl (unused left)
    · exact h.ord_inj left right n hl hr
  · simp only [addRow]
    rw [Finset.filter_insert]
    split
    · refine h.reifiers.increment ?_
      intro member
      exact missing (Finset.mem_filter.mp member).1
    · exact h.reifiers

theorem insertRecordRows_wellFormed (h : WellFormed base rows)
    (free : key ∉ rows.effective base → OrdinalFree rows ordinal) :
    WellFormed base (rows.insertRecordRows base key ordinal).1 := by
  rw [insertRecordRows]
  split
  · exact { h with suppressed_base := fun other member => h.suppressed_base other (Finset.mem_of_mem_erase member) }
  · rename_i live
    split
    · exact h
    · rename_i missing
      have dead := mt containsRecordKey_iff.mpr missing
      have fresh : key ∉ base.records := fun inBase =>
        live (h.mem_suppressed_iff.mpr ⟨inBase, dead⟩)
      exact addRow_wellFormed h fresh (fun added => dead (mem_effective.mpr (Or.inr added))) (free dead)

/-! ### Removing a row -/

structure Removed (base : RdfDataset) (rows : PhysicalRows) (key : RecordKey)
    (rows' : PhysicalRows) : Prop where
  wellFormed : WellFormed base rows'
  effective : rows'.effective base = (rows.effective base).erase key
  next : rows'.nextAddedOrd = rows.nextAddedOrd
  ord : ∀ other, rows'.addedOrd.lookup other =
    if other = key then none else rows.addedOrd.lookup other

theorem lookup_erase (m : FastMap RecordKey Nat) (key other : RecordKey) :
    (m.erase key).lookup other = if other = key then none else m.lookup other := by
  split
  · rename_i same
    rw [same, AList.lookup_erase]
  · rename_i differs
    exact AList.lookup_erase_ne differs

theorem dropReifier_spec (h : WellFormed base rows) (added : key ∈ rows.added) :
    ∃ reifiers, rows.dropReifier key = some reifiers ∧
      reifiers.Counts ((rows.added.erase key).filter (·.kind = .reifier)) (·.quad.scope) := by
  rw [dropReifier, Finset.filter_erase]
  split
  · rename_i isReifier
    exact h.reifiers.decrement (Finset.mem_filter.mpr ⟨added, isReifier⟩)
  · rename_i notReifier
    refine ⟨_, rfl, ?_⟩
    rw [Finset.erase_eq_of_notMem]
    · exact h.reifiers
    · intro member
      exact notReifier (Finset.mem_filter.mp member).2

theorem removed_dropRow (h : WellFormed base rows) (added : key ∈ rows.added)
    {reifiers : FastMap Scope Nat}
    (counts : reifiers.Counts ((rows.added.erase key).filter (·.kind = .reifier)) (·.quad.scope)) :
    Removed base rows key (rows.dropRow key reifiers) := by
  have outside : key ∉ base.records := h.added_fresh key added
  have lookup := lookup_erase rows.addedOrd key
  constructor
  · constructor
    · exact h.suppressed_base
    · intro other member
      exact h.added_fresh other (Finset.mem_of_mem_erase member)
    · intro other
      simp only [dropRow, lookup, Finset.mem_erase, ← h.ord_added other]
      split <;> simp_all
    · intro other n found
      simp only [dropRow, lookup] at found
      split at found
      · cases found
      · exact h.ord_lt other n found
    · intro left right n hl hr
      simp only [dropRow, lookup] at hl hr
      split at hl
      · cases hl
      · split at hr
        · cases hr
        · exact h.ord_inj left right n hl hr
    · exact counts
  · ext other
    simp only [mem_effective, dropRow, Finset.mem_erase]
    constructor
    · rintro (⟨inBase, live⟩ | ⟨differs, member⟩)
      · refine ⟨?_, Or.inl ⟨inBase, live⟩⟩
        rintro rfl
        exact outside inBase
      · exact ⟨differs, Or.inr member⟩
    · rintro ⟨differs, live | member⟩
      · exact Or.inl live
      · exact Or.inr ⟨differs, member⟩
  · rfl
  · exact lookup

theorem ord_of_not_added (h : WellFormed base rows) (missing : key ∉ rows.added)
    (other : RecordKey) :
    rows.addedOrd.lookup other = if other = key then none else rows.addedOrd.lookup other := by
  split
  · rename_i same
    rw [same]
    exact h.ord_none.mpr missing
  · rfl

theorem removed_suppressRow (h : WellFormed base rows) (inBase : key ∈ base.records) :
    Removed base rows key (rows.suppressRow key) := by
  have missing : key ∉ rows.added := h.not_added_of_base inBase
  constructor
  · refine { h with suppressed_base := fun other member => ?_ }
    rcases Finset.mem_insert.mp member with rfl | member
    · exact inBase
    · exact h.suppressed_base other member
  · ext other
    simp only [mem_effective, suppressRow, Finset.mem_erase, Finset.mem_insert]
    constructor
    · rintro (⟨member, notNew⟩ | member)
      · exact ⟨fun same => notNew (Or.inl same),
          Or.inl ⟨member, fun suppressed => notNew (Or.inr suppressed)⟩⟩
      · refine ⟨?_, Or.inr member⟩
        rintro rfl
        exact missing member
    · rintro ⟨differs, ⟨member, notSuppressed⟩ | member⟩
      · refine Or.inl ⟨member, ?_⟩
        rintro (same | suppressed)
        · exact differs same
        · exact notSuppressed suppressed
      · exact Or.inr member
  · rfl
  · intro other
    exact ord_of_not_added h missing other

theorem removeRecordRows_spec (h : WellFormed base rows) (key : RecordKey) :
    ∃ rows', rows.removeRecordRows base key =
        some (rows', decide (key ∈ rows.effective base)) ∧ Removed base rows key rows' := by
  rw [removeRecordRows]
  by_cases added : key ∈ rows.added
  · obtain ⟨reifiers, dropped, counts⟩ := dropReifier_spec h added
    have live : key ∈ rows.effective base := mem_effective.mpr (Or.inr added)
    refine ⟨rows.dropRow key reifiers, ?_, removed_dropRow h added counts⟩
    simp [added, dropped, live]
  · rw [if_neg added]
    by_cases live : key ∈ rows.effective base
    · have inBase : key ∈ base.records ∧ key ∉ rows.suppressed :=
        (mem_effective.mp live).resolve_right added
      refine ⟨rows.suppressRow key, ?_, removed_suppressRow h inBase.1⟩
      simp [RdfDataset.baseContainsRecord_iff.mpr inBase.1, inBase.2, live]
    · refine ⟨rows, ?_, h, (Finset.erase_eq_of_notMem live).symm, rfl, ord_of_not_added h added⟩
      rw [if_neg]
      · simp [live]
      · intro found
        simp only [Bool.and_eq_true, RdfDataset.baseContainsRecord_iff, decide_eq_true_eq] at found
        exact live (mem_effective.mpr (Or.inl found))

theorem hasEffectiveReifier_iff (h : WellFormed base rows) {scope : Scope} :
    rows.hasEffectiveReifier base scope = true ↔
      ∃ key ∈ rows.effective base, key.kind = .reifier ∧ key.quad.scope = scope := by
  have counted : ((rows.addedReifiers.lookup scope).any fun count => decide (0 < count)) = true ↔
      ∃ key ∈ rows.added, key.kind = .reifier ∧ key.quad.scope = scope := by
    have := h.reifiers.positive scope
    rw [Option.any_eq_true]
    simp only [decide_eq_true_eq]
    rw [this]
    simp only [Finset.mem_filter, and_assoc]
  rw [hasEffectiveReifier, Bool.or_eq_true, counted]
  constructor
  · rintro (inBase | ⟨key, added, found⟩)
    · obtain ⟨s, g⟩ := scope
      rcases s with id | id
      · simp only [List.any_eq_true, RdfDataset.mem_reifierQuadsOf, Bool.and_eq_true, beq_iff_eq,
          containsRecordKey_iff] at inBase
        obtain ⟨q, ⟨-, rfl⟩, rfl, live⟩ := inBase
        exact ⟨_, live, rfl, rfl⟩
      · cases inBase
    · exact ⟨key, mem_effective.mpr (Or.inr added), found⟩
  · rintro ⟨⟨kind, quad⟩, live, rfl, rfl⟩
    by_cases added : (⟨.reifier, quad⟩ : RecordKey) ∈ rows.added
    · exact Or.inr ⟨_, added, rfl, rfl⟩
    · left
      have inBase := (mem_effective.mp live).resolve_right added
      obtain ⟨q, rfl, member⟩ := RdfDataset.mem_records.mp inBase.1
      simp only [Quad.scope, baseKey, Quad.mapIds_s, List.any_eq_true,
        RdfDataset.mem_reifierQuadsOf, Bool.and_eq_true, beq_iff_eq, containsRecordKey_iff]
      refine ⟨q, ⟨?_, rfl⟩, rfl, live⟩
      rcases base.mem_recordIds.mp member with ⟨absurd, -⟩ | ⟨-, found⟩ | ⟨absurd, -⟩
      · cases absurd
      · exact found
      · cases absurd

end PhysicalRows

end Purrdf
