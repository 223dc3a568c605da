import Purrdf.QuadInsertion

/-!
# Removing a quad

What a removal does to the rows: every role of the quad leaves, with the conversions
into it, and the rows of a withdrawn declaration are classified afresh.
-/

namespace Purrdf

open PhysicalRows ClassifiedRows

namespace ClassifiedRows

variable {base : RdfDataset} {t t' t'' : ClassifiedRows} {key : RecordKey} {quad : QuadKey}
  {declaration : Bool}

/-! ### Dropping rows -/

/-- The rows of `gone` left, and with them what the classification knew of their quads. -/
structure Dropped (base : RdfDataset) (gone : List RecordKey) (t t' : ClassifiedRows) : Prop where
  coherent : Coherent base t'
  live : ∀ key, key ∈ t'.effective base ↔ key ∈ t.effective base ∧ key ∉ gone
  inPlace_other : ∀ key : RecordKey, (∀ row ∈ gone, row.quad ≠ key.quad) →
    t'.inPlace key = t.inPlace key
  created_other : ∀ key : RecordKey, (∀ row ∈ gone, row.quad ≠ key.quad) →
    (key ∈ t'.classificationCreated ↔ key ∈ t.classificationCreated)
  automatic_sub : ∀ scope key, key ∈ (t'.automatic.lookup scope).getD [] →
    key ∈ (t.automatic.lookup scope).getD []
  automatic_other : ∀ scope (key : RecordKey), (∀ row ∈ gone, row.quad ≠ key.quad) →
    key ∈ (t.automatic.lookup scope).getD [] → key ∈ (t'.automatic.lookup scope).getD []

theorem automatic_forget_sub {scope : Scope} {other : RecordKey}
    (member : other ∈ ((t.forgetClassification key).automatic.lookup scope).getD []) :
    other ∈ (t.automatic.lookup scope).getD [] := by
  simp only [forgetClassification, FastMap.lookup_adjust] at member
  split at member
  · rename_i same
    subst same
    rcases noted : t.automatic.lookup key.quad.scope with - | rows
    · rw [noted] at member
      exact member
    · rw [noted] at member
      exact (List.mem_filter.mp member).1
  · exact member

theorem automatic_forget_other (h : Coherent base t) {scope : Scope} {other : RecordKey}
    (outside : key.quad ≠ other.quad) (member : other ∈ (t.automatic.lookup scope).getD []) :
    other ∈ ((t.forgetClassification key).automatic.lookup scope).getD [] := by
  simp only [forgetClassification, FastMap.lookup_adjust]
  split
  · rename_i same
    subst same
    rcases noted : t.automatic.lookup key.quad.scope with - | rows
    · rw [noted] at member
      exact member
    · rw [noted] at member
      refine List.mem_filter.mpr ⟨member, decide_eq_true ⟨?_, ?_⟩⟩
      · rintro rfl
        exact outside rfl
      · intro origin
        obtain ⟨⟨source, c⟩, entry, rfl⟩ := List.mem_map.mp origin
        obtain ⟨held, target⟩ := List.mem_filter.mp entry
        have found := FastMap.mem_entries.mp held
        have inScope := h.in_scope _ source c found
        have inPlace : t.inPlace source = some c := by rw [inPlace, inScope, found]
        have flip := (h.remembers.target source c inPlace).2
        refine outside ?_
        rw [← of_decide_eq_true target, flip, Record.flip_quad]
  · exact member

namespace Dropped

variable {gone gone' : List RecordKey}

theorem nil (h : Coherent base t) : Dropped base [] t t := by
  constructor
  · exact h
  · simp
  · exact fun _ _ => rfl
  · exact fun _ _ => Iff.rfl
  · exact fun _ _ member => member
  · exact fun _ _ _ member => member

theorem trans (first : Dropped base gone t t') (second : Dropped base gone' t' t'') :
    Dropped base (gone ++ gone') t t'' := by
  have left : ∀ key : RecordKey, (∀ row ∈ gone ++ gone', row.quad ≠ key.quad) →
      ∀ row ∈ gone, row.quad ≠ key.quad := fun key outside row member =>
    outside row (List.mem_append_left _ member)
  have right : ∀ key : RecordKey, (∀ row ∈ gone ++ gone', row.quad ≠ key.quad) →
      ∀ row ∈ gone', row.quad ≠ key.quad := fun key outside row member =>
    outside row (List.mem_append_right _ member)
  constructor
  · exact second.coherent
  · intro key
    rw [second.live, first.live, List.mem_append, not_or, and_assoc]
  · intro key outside
    rw [second.inPlace_other key (right key outside), first.inPlace_other key (left key outside)]
  · intro key outside
    rw [second.created_other key (right key outside), first.created_other key (left key outside)]
  · exact fun scope key member => first.automatic_sub scope key (second.automatic_sub scope key member)
  · exact fun scope key outside member => second.automatic_other scope key (right key outside)
      (first.automatic_other scope key (left key outside) member)

theorem one (h : Coherent base t) {rows : PhysicalRows}
    (removed : Removed base t.toPhysicalRows key rows) :
    Dropped base [key] t ({ t with toPhysicalRows := rows }.forgetClassification key) := by
  have outside : ∀ other : RecordKey, (∀ row ∈ [key], row.quad ≠ other.quad) →
      key.quad ≠ other.quad := fun other differs => differs key (by simp)
  constructor
  · exact h.forget removed
  · intro other
    have live : ({ t with toPhysicalRows := rows }.forgetClassification key).effective base =
        (t.effective base).erase key := removed.effective
    rw [live, Finset.mem_erase, List.mem_singleton, and_comm]
  · intro other differs
    have lookup : ∀ c,
        ({ t with toPhysicalRows := rows }.forgetClassification key).inPlace other = some c ↔
          t.inPlace other = some c ∧ other.flip ≠ key := inPlace_forget h key other
    refine Option.ext fun c => (lookup c).trans ⟨And.left, fun found => ⟨found, ?_⟩⟩
    rintro rfl
    exact outside other differs rfl
  · intro other differs
    have differs := outside other differs
    simp only [forgetClassification, Finset.mem_erase, and_iff_right_iff_imp]
    rintro - rfl
    exact differs rfl
  · intro scope other member
    exact automatic_forget_sub member
  · intro scope other differs member
    exact automatic_forget_other h (outside other differs) member

end Dropped

/-! ### What removing a quad does to the rows -/

structure Withdrawn (base : RdfDataset) (quad : QuadKey) (declaration changed : Bool)
    (t t' : ClassifiedRows) : Prop where
  coherent : Coherent base t'
  authored : ∀ key, Authored base t' key ↔ Authored base t key ∧ key.quad ≠ quad
  changed_iff : changed = true ↔ ¬Absent base t quad
  live_other : ∀ key : RecordKey, ¬Touched declaration quad key.quad →
    (key ∈ t'.effective base ↔ key ∈ t.effective base)
  inPlace_other : ∀ key : RecordKey, ¬Touched declaration quad key.quad →
    t'.inPlace key = t.inPlace key
  unchanged : changed = false →
    (∀ key, key ∈ t'.effective base ↔ key ∈ t.effective base) ∧
      ∀ key, t'.inPlace key = t.inPlace key
  settled : changed = true → declaration = true →
    Settled base quad.scope (·.scope = quad.scope)
      (fun key => key ∈ base.records ∨ key ∈ (t'.automatic.lookup quad.scope).getD []) t'
  automatic_sub : ∀ scope key, key ∈ (t'.automatic.lookup scope).getD [] →
    key ∈ (t.automatic.lookup scope).getD []
  automatic_other : ∀ scope (key : RecordKey), key.quad ≠ quad →
    key ∈ (t.automatic.lookup scope).getD [] → key ∈ (t'.automatic.lookup scope).getD []

variable {gone : List RecordKey} {t₁ : ClassifiedRows}

theorem Dropped.authored (dropped : Dropped base gone t t')
    (mem_gone : ∀ key, key ∈ gone ↔ key.quad = quad ∧ key ∈ t.effective base) (key : RecordKey) :
    Authored base t' key ↔ Authored base t key ∧ key.quad ≠ quad := by
  have absent : Absent base t' quad := by
    intro kind live
    obtain ⟨live, kept⟩ := (dropped.live _).mp live
    exact kept ((mem_gone _).mpr ⟨rfl, live⟩)
  by_cases inQuad : key.quad = quad
  · constructor
    · intro authored
      subst inQuad
      exact absurd authored (absent.not_authored dropped.coherent key.kind)
    · exact fun ⟨_, differs⟩ => absurd inQuad differs
  · have outside : ∀ row ∈ gone, row.quad ≠ key.quad := by
      intro row member same
      exact inQuad (same.symm.trans ((mem_gone row).mp member).1)
    have kept : key ∉ gone := fun member => inQuad ((mem_gone key).mp member).1
    rw [Authored, Authored, dropped.live, dropped.created_other key outside,
      dropped.inPlace_other key outside]
    simp [kept, inQuad]

theorem Dropped.withdrawn (dropped : Dropped base gone t t₁)
    (mem_gone : ∀ key, key ∈ gone ↔ key.quad = quad ∧ key ∈ t.effective base)
    (rearranged : Rearranged base (Touched declaration quad) t₁ t')
    (settled : declaration = true → gone ≠ [] → Settled base quad.scope (·.scope = quad.scope)
      (fun key => key ∈ base.records ∨ key ∈ (t'.automatic.lookup quad.scope).getD []) t')
    (still : gone = [] → t' = t₁) :
    Withdrawn base quad declaration (decide (gone ≠ [])) t t' := by
  have outside : ∀ key : RecordKey, ¬Touched declaration quad key.quad →
      key ∉ gone ∧ ∀ row ∈ gone, row.quad ≠ key.quad := by
    intro key untouched
    constructor
    · exact fun member => untouched (Or.inl ((mem_gone key).mp member).1)
    · intro row member same
      exact untouched (Or.inl (same.symm.trans ((mem_gone row).mp member).1))
  constructor
  · exact rearranged.coherent
  · intro key
    rw [rearranged.authored, dropped.authored mem_gone]
  · rw [decide_eq_true_eq, ← not_iff_not, not_not, not_not, List.eq_nil_iff_forall_not_mem]
    constructor
    · exact fun nothing kind live => nothing _ ((mem_gone _).mpr ⟨rfl, live⟩)
    · rintro absent ⟨kind, quad'⟩ member
      obtain ⟨rfl, live⟩ := (mem_gone _).mp member
      exact absent kind live
  · intro key untouched
    rw [rearranged.live_other key untouched, dropped.live]
    simp [(outside key untouched).1]
  · intro key untouched
    rw [rearranged.inPlace_other key untouched,
      dropped.inPlace_other key (outside key untouched).2]
  · intro unchanged
    have nothing : gone = [] := by simpa using unchanged
    have kept := dropped.inPlace_other
    rw [still nothing]
    constructor
    · intro key
      rw [dropped.live]
      simp [nothing]
    · exact fun key => kept key (by simp [nothing])
  · intro changed isDeclaration
    exact settled isDeclaration (of_decide_eq_true changed)
  · intro scope key member
    rw [rearranged.automatic] at member
    exact dropped.automatic_sub scope key member
  · intro scope key differs member
    rw [rearranged.automatic]
    refine dropped.automatic_other scope key ?_ member
    intro row gone' same
    exact differs (same.symm.trans ((mem_gone row).mp gone').1)

end ClassifiedRows

namespace MutableDataset

variable {st : MutableDataset} {t t' : ClassifiedRows} {churn churn' : CallerChurn}
  {key : RecordKey} {quad : QuadKey}

theorem callerRemove_spec (counted : st.toCallerChurn.Counted) (key : RecordKey) :
    ∃ churn', st.callerRemove key = some (st.withChurn churn') ∧ churn'.Counted := by
  obtain ⟨churn', run, counted'⟩ := CallerChurn.removeOrigins_spec counted st.base
    (key :: (st.order.visit (st.conversionsOf key.quad.scope)).filterMap fun entry =>
      if entry.2.target = key then some entry.1 else none)
  refine ⟨churn', ?_, counted'⟩
  have account : st.toCallerChurn.remove st.base st.order st.toClassifiedRows key = some churn' := run
  rw [callerRemove, account]
  rfl

theorem removeRole_spec (h : Coherent st.base t) (counted : churn.Counted) (key : RecordKey) :
    ∃ t' churn', (st.stage t churn).removeRole key =
        some (st.stage t' churn', decide (key ∈ t.effective st.base)) ∧ churn'.Counted ∧
      Dropped st.base [key] t t' := by
  obtain ⟨rows, run, removed⟩ := removeRecordRows_spec h.rows key
  have counted₁ : ((st.stage t churn).withPhysical rows).toCallerChurn.Counted := counted
  obtain ⟨churn', account, counted'⟩ := callerRemove_spec counted₁ key
  refine ⟨_, churn', ?_, counted', Dropped.one h removed⟩
  have run' : (st.stage t churn).removeRecordRows (st.stage t churn).base key =
      some (rows, decide (key ∈ t.effective st.base)) := run
  rw [removeRole, run', Option.bind_some]
  simp only [settleRemoval, account, Option.map_some]
  rfl

theorem removeRoles_spec (quad : QuadKey) (changed : Bool) (kinds : List RecordKind)
    (distinct : kinds.Nodup) (h : Coherent st.base t) (counted : churn.Counted) :
    ∃ t' churn' gone, (st.stage t churn).removeRoles quad changed kinds =
        some (st.stage t' churn', changed || decide (gone ≠ [])) ∧ churn'.Counted ∧
      Dropped st.base gone t t' ∧
      ∀ key, key ∈ gone ↔ key.quad = quad ∧ key.kind ∈ kinds ∧ key ∈ t.effective st.base := by
  induction kinds generalizing t churn changed with
  | nil => exact ⟨t, churn, [], by simp [removeRoles], counted, Dropped.nil h, by simp⟩
  | cons kind rest ih =>
    rw [List.nodup_cons] at distinct
    have contained : (st.stage t churn).containsRecordKey (st.stage t churn).base ⟨kind, quad⟩ =
        true ↔ (⟨kind, quad⟩ : RecordKey) ∈ t.effective st.base := containsRecordKey_iff
    by_cases live : (⟨kind, quad⟩ : RecordKey) ∈ t.effective st.base
    · obtain ⟨t₁, churn₁, run₁, counted₁, dropped₁⟩ := removeRole_spec h counted ⟨kind, quad⟩
      obtain ⟨t', churn', gone, run, counted', dropped, mem_gone⟩ :=
        ih (changed || true) distinct.2 dropped₁.coherent counted₁
      refine ⟨t', churn', ⟨kind, quad⟩ :: gone, ?_, counted', dropped₁.trans dropped, ?_⟩
      · rw [decide_eq_true live] at run₁
        rw [removeRoles, if_pos (contained.mpr live), run₁, Option.bind_some]
        refine run.trans ?_
        simp
      · rintro ⟨kind', quad'⟩
        rw [List.mem_cons, mem_gone, dropped₁.live]
        simp only [List.mem_cons, List.not_mem_nil, or_false, Record.mk.injEq]
        constructor
        · rintro (⟨rfl, rfl⟩ | ⟨rfl, member, live', -⟩)
          · exact ⟨rfl, Or.inl rfl, live⟩
          · exact ⟨rfl, Or.inr member, live'⟩
        · rintro ⟨rfl, rfl | member, live'⟩
          · exact Or.inl ⟨rfl, rfl⟩
          · refine Or.inr ⟨rfl, member, live', ?_⟩
            rintro ⟨rfl, -⟩
            exact distinct.1 member
    · obtain ⟨t', churn', gone, run, counted', dropped, mem_gone⟩ := ih changed distinct.2 h counted
      refine ⟨t', churn', gone, ?_, counted', dropped, ?_⟩
      · rw [removeRoles, if_neg (mt contained.mp live), run]
      · rintro ⟨kind', quad'⟩
        rw [mem_gone, List.mem_cons]
        constructor
        · rintro ⟨same, member, live'⟩
          exact ⟨same, Or.inr member, live'⟩
        · rintro ⟨rfl, rfl | member, live'⟩
          · exact absurd live' live
          · exact ⟨rfl, member, live'⟩

theorem removeKey_rows (h : Coherent st.base st.toClassifiedRows)
    (counted : st.toCallerChurn.Counted) {declaration : Bool}
    (declared : st.declarationKey quad = some declaration) :
    ∃ t' churn' changed, churn'.Counted ∧
      Withdrawn st.base quad declaration changed st.toClassifiedRows t' ∧
      ∀ before, st.effectiveCount = some before → st.removeKey quad =
        ((st.stage t' churn').applyGraphChange quad.g before).map fun st => (st, changed) := by
  obtain ⟨t₁, churn₁, gone, run, counted₁, dropped, mem_gone⟩ :=
    removeRoles_spec quad false RecordKind.all (by decide) h counted
  have run : st.removeRoles quad false RecordKind.all =
      some (st.stage t₁ churn₁, decide (gone ≠ [])) := run.trans (by simp)
  have mem_gone : ∀ key, key ∈ gone ↔ key.quad = quad ∧ key ∈ st.effective st.base := by
    intro key
    rw [mem_gone]
    simp [RecordKind.mem_all]
  have kept : gone = [] ∨ declaration = false → Withdrawn st.base quad declaration
      (decide (gone ≠ [])) st.toClassifiedRows t₁ := by
    intro unsettled
    refine dropped.withdrawn mem_gone (Rearranged.refl dropped.coherent) ?_ fun _ => rfl
    intro isDeclaration changed
    rcases unsettled with nothing | notDeclaration
    · exact absurd nothing changed
    · rw [isDeclaration] at notDeclaration
      cases notDeclaration
  by_cases nothing : gone = []
  · refine ⟨t₁, churn₁, _, counted₁, kept (Or.inl nothing), fun before count => ?_⟩
    simp only [removeKey, count, run, Option.bind_some]
    rw [decide_eq_false (not_not.mpr nothing)]
    rfl
  · have changes : (st.stage t₁ churn₁).changesDeclaration (decide (gone ≠ [])) quad =
        some declaration := by
      rw [decide_eq_true nothing]
      exact declared
    cases declaration with
    | false =>
      refine ⟨t₁, churn₁, _, counted₁, kept (Or.inr rfl), fun before count => ?_⟩
      simp only [removeKey, count, run, changes, Option.bind_some]
      rfl
    | true =>
      obtain ⟨t', settle, rearranged, settled⟩ := normalize_spec churn₁ dropped.coherent quad.scope
      refine ⟨t', churn₁, _, counted₁, dropped.withdrawn mem_gone
        (rearranged.mono fun _ => touched_declaration.mpr) (fun _ _ => settled)
        (fun absurd => (nothing absurd).elim), fun before count => ?_⟩
      simp only [removeKey, count, run, changes, Option.bind_some, if_true, settle]

end MutableDataset

end Purrdf
