import Purrdf.Reclassification

/-!
# Normalizing a subject

Classifying rows one by one and undoing a scope's conversions both rearrange the
physical rows without touching the authored ones. Normalization is the composition:
undo, then classify every candidate under the declarations that are effective now.
-/

namespace Purrdf

namespace ClassifiedRows

open PhysicalRows

variable {base : RdfDataset} {t t' t'' : ClassifiedRows} {source : RecordKey}
  {effectiveReifier : Bool} {Q : QuadKey → Prop}

/-- The rows of `t'` are those of `t` after conversions among quads satisfying `Q`. -/
structure Rearranged (base : RdfDataset) (Q : QuadKey → Prop) (t t' : ClassifiedRows) : Prop where
  coherent : Coherent base t'
  authored : ∀ key, Authored base t' key ↔ Authored base t key
  live_other : ∀ key, ¬Q key.quad → (key ∈ t'.effective base ↔ key ∈ t.effective base)
  inPlace_other : ∀ key, ¬Q key.quad → t'.inPlace key = t.inPlace key
  declarations : ∀ key, key.kind = .reifier →
    (key ∈ t'.effective base ↔ key ∈ t.effective base)
  automatic : t'.automatic = t.automatic

namespace Rearranged

theorem refl (h : Coherent base t) : Rearranged base Q t t where
  coherent := h
  authored _ := Iff.rfl
  live_other _ _ := Iff.rfl
  inPlace_other _ _ := rfl
  declarations _ _ := Iff.rfl
  automatic := rfl

theorem trans (first : Rearranged base Q t t') (second : Rearranged base Q t' t'') :
    Rearranged base Q t t'' where
  coherent := second.coherent
  authored key := (second.authored key).trans (first.authored key)
  live_other key outside := (second.live_other key outside).trans (first.live_other key outside)
  inPlace_other key outside :=
    (second.inPlace_other key outside).trans (first.inPlace_other key outside)
  declarations key kind := (second.declarations key kind).trans (first.declarations key kind)
  automatic := second.automatic.trans first.automatic

end Rearranged

/-! ### Classifying one row -/

/-- Whether classification takes a row to the other table. -/
def Moves (base : RdfDataset) (effectiveReifier : Bool) (key : RecordKey) : Prop :=
  (key.kind = .ordinary ∧ effectiveReifier = true) ∨
    (key.kind = .annotationRow ∧ originalReifier base key.quad.scope = true ∧
      effectiveReifier = false)

theorem Moves.kind (h : Moves base effectiveReifier source) : source.kind ≠ .reifier := by
  rcases h with ⟨kind, -⟩ | ⟨kind, -⟩ <;> simp [kind]

theorem Moves.not_flip (h : Moves base effectiveReifier source) :
    ¬Moves base effectiveReifier source.flip := by
  rintro (⟨kind', live⟩ | ⟨kind', -, dead⟩)
  · rcases h with ⟨kind, -⟩ | ⟨-, -, dead⟩
    · simp [kind, RecordKind.flip] at kind'
    · rw [live] at dead
      cases dead
  · rcases h with ⟨-, live⟩ | ⟨kind, -⟩
    · rw [live] at dead
      cases dead
    · simp [kind, RecordKind.flip] at kind'

theorem classifyRecord_moves (moves : Moves base effectiveReifier source) :
    t.classifyRecord base source effectiveReifier = t.convert base source source.flip := by
  obtain ⟨kind, quad⟩ := source
  rcases moves with ⟨rfl, rfl⟩ | ⟨rfl, original, rfl⟩
  · simp [classifyRecord, RecordKind.statementKind, classifyStatement, StatementKind.recordKind,
      Record.flip, RecordKind.flip]
  · simp [classifyRecord, RecordKind.statementKind, classifyStatement, StatementKind.recordKind,
      Record.flip, RecordKind.flip, original]

theorem classifyRecord_stays (stays : ¬Moves base effectiveReifier source) :
    t.classifyRecord base source effectiveReifier = some t := by
  obtain ⟨kind, quad⟩ := source
  cases kind with
  | reifier => rfl
  | ordinary =>
    have dead : effectiveReifier = false := by
      by_contra live
      exact stays (Or.inl ⟨rfl, by simpa using live⟩)
    simp [classifyRecord, RecordKind.statementKind, classifyStatement, StatementKind.recordKind,
      dead]
  | annotationRow =>
    have kept : (originalReifier base quad.scope && !effectiveReifier) = false := by
      by_contra moves
      simp only [Bool.not_eq_false, Bool.and_eq_true, Bool.not_eq_true'] at moves
      exact stays (Or.inr ⟨rfl, moves⟩)
    simp [classifyRecord, RecordKind.statementKind, classifyStatement, StatementKind.recordKind,
      kept]

/-- The conversions on the quads of `Q` are the ones `effectiveReifier` calls for, and
no converted row is effective. -/
def Directed (base : RdfDataset) (effectiveReifier : Bool) (Q : QuadKey → Prop)
    (t : ClassifiedRows) : Prop :=
  ∀ key c, Q key.quad → t.inPlace key = some c →
    Moves base effectiveReifier key ∧ key ∉ t.effective base

/-- One classification step: it never panics, it keeps the conversions directed, and
the row ends up converted exactly when it has to move. -/
theorem classifyRecord_spec (h : Coherent base t) (directed : Directed base effectiveReifier Q t)
    (inQ : Q source.quad) (live : source ∈ t.effective base) :
    ∃ t', t.classifyRecord base source effectiveReifier = some t' ∧ Rearranged base Q t t' ∧
      Directed base effectiveReifier Q t' ∧
      (Moves base effectiveReifier source → (t'.inPlace source).isSome) ∧
      (∀ key, (t.inPlace key).isSome → (t'.inPlace key).isSome) ∧
      (∀ key, key ≠ source → key ∈ t.effective base → key ∈ t'.effective base) := by
  by_cases moves : Moves base effectiveReifier source
  · have free : t.inPlace source = none := by
      rcases found : t.inPlace source with - | c
      · rfl
      · exact absurd live (directed source c inQ found).2
    have unflipped : t.inPlace source.flip = none := by
      rcases found : t.inPlace source.flip with - | c
      · rfl
      · exact absurd (directed source.flip c inQ found).1 moves.not_flip
    obtain ⟨rows, run, removed⟩ := removeRecordRows_spec h.rows source
    have conv := inPlace_converted base t rows source
    have effective : (t.converted base rows source).effective base =
        insert source.flip ((t.effective base).erase source) := by
      rw [← removed.effective]
      exact insertRecordRows_effective removed.wellFormed
    refine ⟨t.converted base rows source, ?_, ?_, ?_, ?_, ?_, ?_⟩
    · rw [classifyRecord_moves moves, convert, run, Option.map_some]
      rfl
    · constructor
      · exact converted_coherent h removed moves.kind live free unflipped
      · exact converted_authored h removed moves.kind live free unflipped
      · intro key outside
        have notSource : key ≠ source := fun same => outside (same ▸ inQ)
        have notTarget : key ≠ source.flip := fun same => outside (same ▸ inQ)
        simp [effective, notSource, notTarget]
      · intro key outside
        rw [conv, if_neg]
        exact fun same => outside (same ▸ inQ)
      · intro key kind
        have notSource : key ≠ source := fun same => moves.kind (same ▸ kind)
        have notTarget : key ≠ source.flip := by
          rintro rfl
          have := moves.kind
          obtain ⟨sourceKind, quad⟩ := source
          cases sourceKind <;> simp_all [RecordKind.flip]
        simp [effective, notSource, notTarget]
      · rfl
    · intro key c inQ' found
      rw [conv] at found
      rw [effective]
      split at found
      · rename_i same
        subst same
        exact ⟨moves, by simp [(Record.flip_ne moves.kind).symm]⟩
      · rename_i differs
        obtain ⟨moves', dead⟩ := directed key c inQ' found
        refine ⟨moves', ?_⟩
        have notTarget : key ≠ source.flip := fun same => moves.not_flip (same ▸ moves')
        simp [dead, notTarget]
    · intro _
      rw [conv, if_pos rfl, Option.isSome_some]
    · intro key converted
      rw [conv]
      split
      · rfl
      · exact converted
    · intro key differs live'
      rw [effective]
      exact Finset.mem_insert_of_mem (Finset.mem_erase.mpr ⟨differs, live'⟩)
  · refine ⟨t, classifyRecord_stays moves, Rearranged.refl h, directed, ?_, ?_, ?_⟩
    · intro absurd
      exact (moves absurd).elim
    · exact fun _ converted => converted
    · exact fun _ _ live' => live'

variable {conv : RecordKey → Option Reclassification} {scope : Scope} {key : RecordKey}

theorem classifyAll_spec (candidates : List RecordKey) (h : Coherent base t)
    (directed : Directed base effectiveReifier (·.scope = scope) t) :
    ∃ t', t.classifyAll base scope effectiveReifier candidates = some t' ∧
      Rearranged base (·.scope = scope) t t' ∧
      Directed base effectiveReifier (·.scope = scope) t' ∧
      (∀ key ∈ candidates, key.quad.scope = scope → Authored base t key →
        Moves base effectiveReifier key → (t'.inPlace key).isSome) ∧
      (∀ key, (t.inPlace key).isSome → (t'.inPlace key).isSome) := by
  induction candidates generalizing t with
  | nil =>
    refine ⟨t, rfl, Rearranged.refl h, directed, ?_, fun _ converted => converted⟩
    intro key member
    cases member
  | cons source rest ih =>
    by_cases skipped : source.quad.scope ≠ scope ∨ t.containsRecordKey base source = false
    · obtain ⟨t', run, rearranged, directed', settled, kept⟩ := ih h directed
      refine ⟨t', ?_, rearranged, directed', ?_, kept⟩
      · rw [classifyAll, if_pos skipped, run]
      · intro key member inScope authored moves
        rcases List.mem_cons.mp member with rfl | member
        · -- a skipped authored row of the scope is not effective, so it is converted already
          rcases skipped with outside | absent
          · exact absurd inScope outside
          · have dead : key ∉ t.effective base := by
              rw [← containsRecordKey_iff, absent]
              simp
            rcases authored with ⟨live, -⟩ | converted
            · exact absurd live dead
            · exact kept key converted
        · exact settled key member inScope authored moves
    · rw [not_or, ne_eq, not_not, Bool.not_eq_false, containsRecordKey_iff] at skipped
      obtain ⟨t₁, run₁, rearranged₁, directed₁, moved, kept₁, -⟩ :=
        classifyRecord_spec h directed skipped.1 skipped.2
      obtain ⟨t', run, rearranged, directed', settled, kept⟩ := ih rearranged₁.coherent directed₁
      refine ⟨t', ?_, rearranged₁.trans rearranged, directed', ?_, ?_⟩
      · rw [classifyAll, if_neg, run₁, Option.bind_some, run]
        simp [skipped.1, containsRecordKey_iff, skipped.2]
      · intro key member inScope authored moves
        rcases List.mem_cons.mp member with rfl | member
        · exact kept key (moved moves)
        · exact settled key member inScope ((rearranged₁.authored key).mpr authored) moves
      · exact fun key converted => kept key (kept₁ key converted)

/-! ### Undoing a scope's conversions -/

/-- The first loop: every generated target leaves the rows, nothing else does. -/
theorem dropTargets_spec (old : List (RecordKey × Reclassification))
    (wf : WellFormed base t.toPhysicalRows)
    (remembers : Remembers base t.toPhysicalRows t.classificationCreated conv) :
    ∃ t', t.dropTargets base old = some t' ∧ WellFormed base t'.toPhysicalRows ∧
      Remembers base t'.toPhysicalRows t'.classificationCreated conv ∧
      (∀ key, key ∈ t'.effective base ↔ key ∈ t.effective base ∧
        ¬(key ∈ t.classificationCreated ∧ ∃ entry ∈ old, entry.2.target = key)) ∧
      (∀ key, key ∈ t'.classificationCreated ↔ key ∈ t.classificationCreated ∧
        ∀ entry ∈ old, entry.2.target ≠ key) ∧
      t'.automatic = t.automatic ∧ t'.reclassified = t.reclassified := by
  induction old generalizing t with
  | nil => exact ⟨t, rfl, wf, remembers, by simp, by simp, rfl, rfl⟩
  | cons entry rest ih =>
    obtain ⟨source, conversion⟩ := entry
    by_cases created : conversion.target ∈ t.classificationCreated
    · obtain ⟨rows, run, removed⟩ := removeRecordRows_spec wf conversion.target
      obtain ⟨t', run', wf', remembers', live, kept, automatic, reclassified⟩ :=
        ih (t := { t with
            toPhysicalRows := rows
            classificationCreated := t.classificationCreated.erase conversion.target })
          removed.wellFormed (remembers.removed removed)
      refine ⟨t', ?_, wf', remembers', ?_, ?_, automatic, reclassified⟩
      · rw [dropTargets, if_pos created, run]
        exact run'
      · intro key
        rw [live key]
        simp only [removed.effective, Finset.mem_erase, List.mem_cons, exists_eq_or_imp]
        constructor
        · rintro ⟨⟨differs, member⟩, kept⟩
          refine ⟨member, ?_⟩
          rintro ⟨wasCreated, same | later⟩
          · exact differs same.symm
          · exact kept ⟨⟨differs, wasCreated⟩, later⟩
        · rintro ⟨member, kept⟩
          refine ⟨⟨?_, member⟩, ?_⟩
          · rintro rfl
            exact kept ⟨created, Or.inl rfl⟩
          · rintro ⟨⟨-, wasCreated⟩, later⟩
            exact kept ⟨wasCreated, Or.inr later⟩
      · intro key
        rw [kept key]
        simp only [Finset.mem_erase, List.mem_cons, forall_eq_or_imp, and_assoc]
        constructor
        · rintro ⟨differs, wasCreated, later⟩
          exact ⟨wasCreated, Ne.symm differs, later⟩
        · rintro ⟨wasCreated, differs, later⟩
          exact ⟨Ne.symm differs, wasCreated, later⟩
    · obtain ⟨t', run', wf', remembers', live, kept, automatic, reclassified⟩ := ih wf remembers
      refine ⟨t', ?_, wf', remembers', ?_, ?_, automatic, reclassified⟩
      · rw [dropTargets, if_neg created, run']
      · intro key
        rw [live key]
        simp only [List.mem_cons, exists_eq_or_imp]
        constructor
        · rintro ⟨member, kept⟩
          refine ⟨member, ?_⟩
          rintro ⟨wasCreated, rfl | later⟩
          · exact created wasCreated
          · exact kept ⟨wasCreated, later⟩
        · rintro ⟨member, kept⟩
          exact ⟨member, fun dropped => kept ⟨dropped.1, Or.inr dropped.2⟩⟩
      · intro key
        rw [kept key]
        simp only [List.mem_cons, forall_eq_or_imp]
        constructor
        · rintro ⟨wasCreated, later⟩
          refine ⟨wasCreated, ?_, later⟩
          rintro rfl
          exact created wasCreated
        · rintro ⟨wasCreated, -, later⟩
          exact ⟨wasCreated, later⟩

theorem Remembers.restored {rows : PhysicalRows} {created : Finset RecordKey}
    {conversion : Reclassification} (wf : WellFormed base rows)
    (h : Remembers base rows created conv) (inPlace : conv source = some conversion) :
    Remembers base (rows.insertRecordRows base source conversion.ordinal).1 created
      fun key => if key = source then none else conv key := by
  have sub : ∀ key c, (if key = source then none else conv key) = some c →
      conv key = some c ∧ key ≠ source := by
    intro key c found
    split at found
    · cases found
    · rename_i differs
      exact ⟨found, differs⟩
  have rest := h.restrict (fun key c found => (sub key c found).1)
  refine { rest with ordinal_lt := ?_, ordinal_free := ?_ }
  · intro key c n found remembered
    exact lt_of_lt_of_le (rest.ordinal_lt key c n found remembered) (le_insertRecordRows_next wf)
  · intro key c n other found remembered stored
    rw [insertRecordRows_ord wf] at stored
    split at stored
    · rename_i fresh
      exfalso
      rcases own : conversion.ordinal with - | m
      · exact fresh.2.2 ((h.origin source conversion inPlace).mp own)
      · rw [own] at stored
        cases stored
        exact (sub key c found).2
          (h.ordinal_inj key source c conversion _ (sub key c found).1 inPlace remembered own)
    · exact rest.ordinal_free key c n other found remembered stored

theorem ordinalFree_pending {rows : PhysicalRows} {created : Finset RecordKey}
    {conversion : Reclassification} (h : Remembers base rows created conv)
    (inPlace : conv source = some conversion) (dropped : source.flip ∉ created) :
    OrdinalFree rows conversion.ordinal := by
  intro n own
  constructor
  · exact h.ordinal_lt source conversion n inPlace own
  · intro key stored
    obtain ⟨rfl, member⟩ := h.ordinal_free source conversion n key inPlace own stored
    exact dropped member

theorem restoreSources_spec (old : List (RecordKey × Reclassification))
    (wf : WellFormed base t.toPhysicalRows)
    (remembers : Remembers base t.toPhysicalRows t.classificationCreated conv)
    (pending : ∀ entry ∈ old, conv entry.1 = some entry.2 ∧
      entry.1.flip ∉ t.classificationCreated) (distinct : (old.map (·.1)).Nodup) :
    WellFormed base (t.restoreSources base old).toPhysicalRows ∧
      Remembers base (t.restoreSources base old).toPhysicalRows
        (t.restoreSources base old).classificationCreated
        (fun key => if key ∈ old.map (·.1) then none else conv key) ∧
      (∀ key, key ∈ (t.restoreSources base old).effective base ↔
        key ∈ t.effective base ∨ key ∈ old.map (·.1)) ∧
      (t.restoreSources base old).classificationCreated = t.classificationCreated ∧
      (t.restoreSources base old).automatic = t.automatic ∧
      (t.restoreSources base old).reclassified = t.reclassified := by
  induction old generalizing t conv with
  | nil =>
    refine ⟨wf, ?_, by simp [restoreSources], rfl, rfl, rfl⟩
    simpa [restoreSources] using remembers
  | cons entry rest ih =>
    obtain ⟨source, conversion⟩ := entry
    rw [List.map_cons, List.nodup_cons] at distinct
    obtain ⟨inPlace, dropped⟩ := pending (source, conversion) (by simp)
    have wf₁ : WellFormed base (t.insertRecordRows base source conversion.ordinal).1 :=
      insertRecordRows_wellFormed wf fun _ => ordinalFree_pending remembers inPlace dropped
    have remembers₁ := remembers.restored wf inPlace
    have pending₁ : ∀ entry ∈ rest,
        (if entry.1 = source then none else conv entry.1) = some entry.2 ∧
          entry.1.flip ∉ t.classificationCreated := by
      intro entry member
      obtain ⟨found, notCreated⟩ := pending entry (by simp [member])
      refine ⟨?_, notCreated⟩
      rw [if_neg, found]
      intro same
      have repeated := List.mem_map_of_mem (f := fun e : RecordKey × Reclassification => e.1) member
      exact distinct.1 (same ▸ repeated)
    obtain ⟨wf', remembers', live, created, automatic, reclassified⟩ :=
      ih (t := { t with
          toPhysicalRows := (t.insertRecordRows base source conversion.ordinal).1 })
        wf₁ remembers₁ pending₁ distinct.2
    refine ⟨wf', ?_, ?_, created, automatic, reclassified⟩
    · refine remembers'.restrict fun key c found => ?_
      simp only [List.map_cons, List.mem_cons] at found
      split at found
      · cases found
      · rename_i outside
        rw [not_or] at outside
        rw [if_neg outside.2, if_neg outside.1, found]
    · intro key
      rw [restoreSources, live key]
      simp only [insertRecordRows_effective wf, Finset.mem_insert, List.map_cons, List.mem_cons]
      tauto

structure Undone (base : RdfDataset) (scope : Scope) (t t' : ClassifiedRows) : Prop where
  rows : WellFormed base t'.toPhysicalRows
  remembers : Remembers base t'.toPhysicalRows t'.classificationCreated t'.inPlace
  conversions : ∀ other, t'.conversionsOf other =
    if other = scope then ∅ else t.conversionsOf other
  created : ∀ key, key ∈ t'.classificationCreated ↔
    key ∈ t.classificationCreated ∧ key.quad.scope ≠ scope
  live : ∀ key, key ∈ t'.effective base ↔
    (key ∈ t.effective base ∧ ¬(key ∈ t.classificationCreated ∧ key.quad.scope = scope)) ∨
      ((t.inPlace key).isSome ∧ key.quad.scope = scope)
  automatic : t'.automatic = t.automatic

theorem inPlace_of_conversions (conversions : ∀ other, t'.conversionsOf other =
      if other = scope then ∅ else t.conversionsOf other) (key : RecordKey) :
    t'.inPlace key = if key.quad.scope = scope then none else t.inPlace key := by
  rw [inPlace, conversions]
  split
  · exact AList.lookup_empty key
  · rfl

theorem Undone.inPlace (undone : Undone base scope t t') (key : RecordKey) :
    t'.inPlace key = if key.quad.scope = scope then none else t.inPlace key :=
  inPlace_of_conversions undone.conversions key

/-- With its conversions undone, a scope's rows are exactly the authored ones. -/
theorem Undone.rearranged (h : Coherent base t) (undone : Undone base scope t t') :
    Rearranged base (·.scope = scope) t t' := by
  have conv := undone.inPlace
  constructor
  · constructor
    · exact undone.rows
    · exact undone.remembers
    · constructor
      · intro source c found
        rw [conv] at found
        split at found
        · cases found
        · rename_i outside
          refine (undone.live _).mpr (Or.inl ⟨h.placed.target_live source c found, ?_⟩)
          exact fun created => outside created.2
      · intro source c found
        rw [conv] at found ⊢
        split at found
        · cases found
        · rename_i outside
          rw [Record.flip_quad, if_neg outside]
          exact h.placed.one_way source c found
      · intro key member
        obtain ⟨wasCreated, outside⟩ := (undone.created key).mp member
        obtain ⟨source, c, found, same⟩ := h.placed.created_target key wasCreated
        refine ⟨source, c, ?_, same⟩
        rw [conv, if_neg, found]
        rwa [← source.flip_quad, same]
    · intro other source c found
      rw [undone.conversions] at found
      split at found
      · rw [AList.lookup_empty] at found
        cases found
      · exact h.in_scope other source c found
  · intro key
    simp only [Authored, undone.live, undone.created, conv]
    by_cases inScope : key.quad.scope = scope
    · simp [inScope]
    · simp [inScope]
  · intro key outside
    rw [undone.live]
    simp [outside]
  · intro key outside
    rw [conv, if_neg outside]
  · intro key kind
    have unconverted : t.inPlace key = none := by
      rcases found : t.inPlace key with - | c
      · rfl
      · exact absurd kind (h.remembers.target key c found).1
    have notCreated : key ∉ t.classificationCreated := by
      refine h.not_created ?_
      rcases found : t.inPlace key.flip with - | c
      · rfl
      · exact absurd (by simp [kind, RecordKind.flip]) (h.remembers.target _ c found).1
    rw [undone.live]
    simp [unconverted, notCreated]
  · exact undone.automatic

theorem mem_visit (order : HashOrder) (h : Coherent base t) {entry : RecordKey × Reclassification} :
    entry ∈ order.visit (t.conversionsOf scope) ↔
      t.inPlace entry.1 = some entry.2 ∧ entry.1.quad.scope = scope := by
  obtain ⟨source, c⟩ := entry
  rw [(order.visit_perm _).mem_iff, List.mem_map]
  constructor
  · rintro ⟨⟨source', c'⟩, member, same⟩
    cases same
    have found := FastMap.mem_entries.mp member
    have inScope := h.in_scope scope source' c' found
    exact ⟨by rw [ClassifiedRows.inPlace, inScope, found], inScope⟩
  · rintro ⟨found, rfl⟩
    exact ⟨⟨source, c⟩, FastMap.mem_entries.mpr found, rfl⟩

theorem visit_nodup (order : HashOrder) (conversions : Conversions) :
    ((order.visit conversions).map (·.1)).Nodup := by
  rw [((order.visit_perm conversions).map (·.1)).nodup_iff, List.map_map]
  exact conversions.keys_nodup

theorem mem_visit_sources (order : HashOrder) (h : Coherent base t) :
    key ∈ (order.visit (t.conversionsOf scope)).map (·.1) ↔
      (t.inPlace key).isSome ∧ key.quad.scope = scope := by
  rw [List.mem_map, Option.isSome_iff_exists]
  constructor
  · rintro ⟨entry, member, rfl⟩
    obtain ⟨found, inScope⟩ := (mem_visit order h).mp member
    exact ⟨⟨_, found⟩, inScope⟩
  · rintro ⟨⟨c, found⟩, inScope⟩
    exact ⟨(key, c), (mem_visit order h).mpr ⟨found, inScope⟩, rfl⟩

theorem mem_visit_targets (order : HashOrder) (h : Coherent base t) :
    (∃ entry ∈ order.visit (t.conversionsOf scope), entry.2.target = key) ↔
      (t.inPlace key.flip).isSome ∧ key.quad.scope = scope := by
  constructor
  · rintro ⟨entry, member, rfl⟩
    obtain ⟨found, inScope⟩ := (mem_visit order h).mp member
    rw [(h.remembers.target _ _ found).2, Record.flip_flip, found]
    exact ⟨rfl, inScope⟩
  · rintro ⟨converted, inScope⟩
    obtain ⟨c, found⟩ := Option.isSome_iff_exists.mp converted
    refine ⟨(key.flip, c), (mem_visit order h).mpr ⟨found, inScope⟩, ?_⟩
    rw [(h.remembers.target _ _ found).2, Record.flip_flip]

theorem Coherent.created_converted (h : Coherent base t) (created : key ∈ t.classificationCreated) :
    (t.inPlace key.flip).isSome := by
  obtain ⟨source, c, found, same⟩ := h.placed.created_target key created
  rw [← same, Record.flip_flip, found]
  rfl

theorem undo_spec (order : HashOrder) (h : Coherent base t) (scope : Scope) :
    ∃ t₁, { t with reclassified := t.reclassified.erase scope }.dropTargets base
        (order.visit (t.conversionsOf scope)) = some t₁ ∧
      Undone base scope t (t₁.restoreSources base (order.visit (t.conversionsOf scope))) := by
  obtain ⟨t₁, run, wf₁, remembers₁, live₁, created₁, automatic₁, reclassified₁⟩ :=
    dropTargets_spec (t := { t with reclassified := t.reclassified.erase scope })
      (order.visit (t.conversionsOf scope)) h.rows h.remembers
  have pending : ∀ entry ∈ order.visit (t.conversionsOf scope),
      t.inPlace entry.1 = some entry.2 ∧ entry.1.flip ∉ t₁.classificationCreated := by
    intro entry member
    have found := ((mem_visit order h).mp member).1
    refine ⟨found, fun created => ?_⟩
    exact ((created₁ _).mp created).2 entry member (h.remembers.target _ _ found).2
  obtain ⟨wf₂, remembers₂, live₂, created₂, automatic₂, reclassified₂⟩ :=
    restoreSources_spec _ wf₁ remembers₁ pending (visit_nodup order _)
  have conversions : ∀ other,
      (t₁.restoreSources base (order.visit (t.conversionsOf scope))).conversionsOf other =
        if other = scope then ∅ else t.conversionsOf other := by
    intro other
    rw [conversionsOf, reclassified₂, reclassified₁]
    split
    · rename_i same
      rw [same, AList.lookup_erase, Option.getD_none]
    · rename_i differs
      rw [AList.lookup_erase_ne differs, conversionsOf]
  refine ⟨t₁, run, wf₂, ?_, conversions, ?_, ?_, ?_⟩
  · refine remembers₂.restrict fun key c found => ?_
    rw [inPlace_of_conversions conversions] at found
    split at found
    · cases found
    · rename_i outside
      rw [if_neg, found]
      exact fun member => outside ((mem_visit_sources order h).mp member).2
  · intro key
    rw [created₂, created₁]
    constructor
    · rintro ⟨member, notTarget⟩
      refine ⟨member, fun inScope => ?_⟩
      obtain ⟨entry, visited, target⟩ :=
        (mem_visit_targets order h).mpr ⟨h.created_converted member, inScope⟩
      exact notTarget entry visited target
    · rintro ⟨member, outside⟩
      exact ⟨member, fun entry visited target =>
        outside ((mem_visit_targets order h).mp ⟨entry, visited, target⟩).2⟩
  · intro key
    rw [live₂, live₁, mem_visit_targets order h, mem_visit_sources order h]
    constructor
    · rintro (⟨member, notTarget⟩ | restored)
      · refine Or.inl ⟨member, ?_⟩
        rintro ⟨wasCreated, inScope⟩
        exact notTarget ⟨wasCreated, h.created_converted wasCreated, inScope⟩
      · exact Or.inr restored
    · rintro (⟨member, notTarget⟩ | restored)
      · refine Or.inl ⟨member, ?_⟩
        rintro ⟨wasCreated, -, inScope⟩
        exact notTarget ⟨wasCreated, inScope⟩
      · exact Or.inr restored
  · rw [automatic₂, automatic₁]

/-! ### The whole normalization -/

theorem mem_eraseReps_loop {α : Type} [DecidableEq α] {x a : α} (rest seen : List α) :
    x ∈ List.eraseRepsBy.loop (fun b c : α => b == c) a rest seen ↔
      x = a ∨ x ∈ rest ∨ x ∈ seen := by
  induction rest generalizing a seen with
  | nil => simp [List.eraseRepsBy.loop, or_comm]
  | cons next rest ih =>
    rw [List.eraseRepsBy.loop]
    split
    · rename_i same
      rw [ih, eq_of_beq same, List.mem_cons]
      tauto
    · rw [ih, List.mem_cons, List.mem_cons]
      tauto

theorem mem_eraseReps {α : Type} [DecidableEq α] {x : α} {l : List α} :
    x ∈ l.eraseReps ↔ x ∈ l := by
  rcases l with - | ⟨a, rest⟩
  · rfl
  · have := mem_eraseReps_loop (x := x) (a := a) rest []
    simpa [List.eraseReps, List.eraseRepsBy] using this

theorem mem_candidates :
    key ∈ t.candidates base scope ↔
      key ∈ baseCandidates base scope ∨ key ∈ (t.automatic.lookup scope).getD [] := by
  rw [candidates, mem_eraseReps, (List.perm_insertionSort _ _).mem_iff, List.mem_append]

theorem mem_baseCandidates (inBase : key ∈ base.records) (kind : key.kind ≠ .reifier) :
    key ∈ baseCandidates base key.quad.scope := by
  obtain ⟨q, same, member⟩ := RdfDataset.mem_records.mp inBase
  obtain ⟨kind', quad⟩ := key
  cases same
  simp only [baseCandidates, Quad.scope, baseKey, List.mem_append]
  rcases base.mem_recordIds.mp member with ⟨rfl, ordinary⟩ | ⟨rfl, -⟩ | ⟨rfl, annotation'⟩
  · left
    refine List.mem_map.mpr ⟨q, ?_, rfl⟩
    simp only [RdfDataset.quadsForPattern, List.mem_filter]
    refine ⟨ordinary, ?_⟩
    rcases q.g with - | g <;> simp [GraphMatch.matches]
  · exact absurd rfl kind
  · right
    refine List.mem_filter.mpr ⟨?_, by simp⟩
    refine List.mem_map.mpr ⟨(q.p, q.o, q.g), ?_, rfl⟩
    exact base.mem_annotationsOfWithGraph.mpr annotation'

/-- Normalization never panics. It rearranges the scope's rows: afterwards the
conversions of the scope are exactly those its effective declarations call for. -/
theorem normalizeSubject_spec (order : HashOrder) (h : Coherent base t) (scope : Scope) :
    ∃ t' effectiveReifier, t.normalizeSubject base order scope = some t' ∧
      Rearranged base (·.scope = scope) t t' ∧
      (effectiveReifier = true ↔
        ∃ key ∈ t'.effective base, key.kind = .reifier ∧ key.quad.scope = scope) ∧
      Directed base effectiveReifier (·.scope = scope) t' ∧
      (∀ key : RecordKey, key.quad.scope = scope → Authored base t' key →
        key ∈ base.records ∨ key ∈ (t.automatic.lookup scope).getD [] →
        Moves base effectiveReifier key → (t'.inPlace key).isSome) := by
  obtain ⟨t₁, run₁, undone⟩ := undo_spec order h scope
  have rearranged := undone.rearranged h
  generalize restored : t₁.restoreSources base (order.visit (t.conversionsOf scope)) = t₂
    at undone rearranged
  have nothing : Directed base (t₂.hasEffectiveReifier base scope) (·.scope = scope) t₂ := by
    intro key c inScope found
    rw [undone.inPlace, if_pos inScope] at found
    cases found
  obtain ⟨t', run', rearranged', directed, settled, -⟩ :=
    classifyAll_spec (t₂.candidates base scope) rearranged.coherent nothing
  refine ⟨t', t₂.hasEffectiveReifier base scope, ?_, rearranged.trans rearranged', ?_, directed, ?_⟩
  · rw [normalizeSubject, run₁, Option.bind_some, restored]
    exact run'
  · rw [hasEffectiveReifier_iff undone.rows]
    constructor
    · rintro ⟨key, live, kind, inScope⟩
      exact ⟨key, (rearranged'.declarations key kind).mpr live, kind, inScope⟩
    · rintro ⟨key, live, kind, inScope⟩
      exact ⟨key, (rearranged'.declarations key kind).mp live, kind, inScope⟩
  · intro key inScope authored origin moves
    refine settled key ?_ inScope ((rearranged'.authored key).mp authored) moves
    rw [mem_candidates, undone.automatic]
    rcases origin with inBase | automatic
    · exact Or.inl (inScope ▸ mem_baseCandidates inBase moves.kind)
    · exact Or.inr automatic

end ClassifiedRows

end Purrdf
