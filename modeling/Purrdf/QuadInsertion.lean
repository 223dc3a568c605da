import Purrdf.GraphLifetime

/-!
# Inserting a quad

What an insertion does to the rows: which rows it authors, which quads it may
reclassify, and that it never panics.
-/

namespace Purrdf

open PhysicalRows ClassifiedRows

namespace ClassifiedRows

variable {base : RdfDataset} {t t' t'' : ClassifiedRows} {key : RecordKey} {quad : QuadKey}

/-! ### Adding rows -/

def inserted (base : RdfDataset) (t : ClassifiedRows) (key : RecordKey) : ClassifiedRows :=
  { t with toPhysicalRows := (t.toPhysicalRows.insertRecordRows base key none).1 }

/-- Every row of `added` was absent, is a row now, and nothing else changed. -/
structure Added (base : RdfDataset) (added : List RecordKey) (t t' : ClassifiedRows) : Prop where
  coherent : Coherent base t'
  live : ∀ key, key ∈ t'.effective base ↔ key ∈ t.effective base ∨ key ∈ added
  authored : ∀ key, Authored base t' key ↔ Authored base t key ∨ key ∈ added
  inPlace : ∀ key, t'.inPlace key = t.inPlace key

namespace Added

variable {rows rows' : List RecordKey}

theorem nil (h : Coherent base t) : Added base [] t t := by
  constructor
  · exact h
  · simp
  · simp
  · exact fun _ => rfl

theorem one (h : Coherent base t) (missing : key ∉ t.effective base) :
    Added base [key] t (t.inserted base key) := by
  constructor
  · exact h.insertRecordRows key
  · intro other
    have live : (t.inserted base key).effective base = insert key (t.effective base) :=
      insertRecordRows_effective h.rows
    rw [live, Finset.mem_insert, List.mem_singleton, or_comm]
  · intro other
    rw [List.mem_singleton]
    exact (h.authored_insertRecordRows key other).trans (by simp [missing])
  · exact fun _ => rfl

theorem trans (first : Added base rows t t') (second : Added base rows' t' t'') :
    Added base (rows ++ rows') t t'' := by
  constructor
  · exact second.coherent
  · intro key
    rw [second.live, first.live, List.mem_append, or_assoc]
  · intro key
    rw [second.authored, first.authored, List.mem_append, or_assoc]
  · exact fun key => (second.inPlace key).trans (first.inPlace key)

end Added

/-! ### Rows a caller removed -/

/-- A base row that neither stands nor is replaced by a conversion. -/
def Hidden (base : RdfDataset) (t : ClassifiedRows) (key : RecordKey) : Prop :=
  key ∈ base.records ∧ key ∉ t.effective base ∧ t.inPlace key = none

def Absent (base : RdfDataset) (t : ClassifiedRows) (quad : QuadKey) : Prop :=
  ∀ kind, (⟨kind, quad⟩ : RecordKey) ∉ t.effective base

theorem Absent.not_authored (h : Coherent base t) (absent : Absent base t quad)
    (kind : RecordKind) : ¬Authored base t ⟨kind, quad⟩ := by
  intro authored
  obtain ⟨kind', live⟩ := h.live_iff_authored.mpr ⟨kind, authored⟩
  exact absent kind' live

theorem Absent.inPlace (h : Coherent base t) (absent : Absent base t quad) (key : RecordKey)
    (same : key.quad = quad) : t.inPlace key = none := by
  rcases found : t.inPlace key with - | c
  · rfl
  · subst same
    refine absurd (Or.inr ?_) (absent.not_authored h key.kind)
    rw [found]
    rfl

theorem Hidden.not_authored (hidden : Hidden base t key) :
    ¬Authored base t key := by
  rintro (⟨live, -⟩ | converted)
  · exact hidden.2.1 live
  · rw [hidden.2.2] at converted
    cases converted

/-! ### What inserting a quad does to the rows -/

/-- The quads an operation may reclassify: its own, and the whole scope of a declaration. -/
def Touched (declaration : Bool) (quad other : QuadKey) : Prop :=
  other = quad ∨ (declaration = true ∧ other.scope = quad.scope)

/-- The role a quad takes when no table holds it. -/
def homeKind (declaration : Bool) : RecordKind := if declaration then .reifier else .ordinary

def Unheld (base : RdfDataset) (t : ClassifiedRows) (quad : QuadKey) : Prop :=
  (∀ kind, ¬Hidden base t ⟨kind, quad⟩) ∧ Absent base t quad

/-- The rows an insertion authors: the hidden roles of its quad, or else the role the
quad's shape asks for. -/
def NewRow (base : RdfDataset) (t : ClassifiedRows) (quad : QuadKey) (declaration : Bool)
    (key : RecordKey) : Prop :=
  key.quad = quad ∧
    (Hidden base t key ∨ (Unheld base t quad ∧ key.kind = homeKind declaration))

/-- The conversions on `Q` are the ones the scope's declarations call for, and none is
missing among `rows`. -/
structure Settled (base : RdfDataset) (scope : Scope) (Q : QuadKey → Prop)
    (rows : RecordKey → Prop) (t : ClassifiedRows) : Prop where
  directed : Directed base (t.hasEffectiveReifier base scope) Q t
  complete : ∀ key : RecordKey, Q key.quad → rows key → Authored base t key →
    Moves base (t.hasEffectiveReifier base scope) key → (t.inPlace key).isSome

def Inserted (base : RdfDataset) (t t' : ClassifiedRows) (quad : QuadKey) (declaration : Bool)
    (key : RecordKey) : Prop :=
  NewRow base t quad declaration key ∨ (declaration = true ∧
    (key ∈ base.records ∨ key ∈ (t'.automatic.lookup quad.scope).getD []))

structure Admitted (base : RdfDataset) (quad : QuadKey) (declaration changed : Bool)
    (t t' : ClassifiedRows) : Prop where
  coherent : Coherent base t'
  authored : ∀ key, Authored base t' key ↔
    Authored base t key ∨ NewRow base t quad declaration key
  changed_iff : changed = true ↔ ∃ key, NewRow base t quad declaration key
  live_other : ∀ key : RecordKey, ¬Touched declaration quad key.quad →
    (key ∈ t'.effective base ↔ key ∈ t.effective base)
  inPlace_other : ∀ key : RecordKey, ¬Touched declaration quad key.quad →
    t'.inPlace key = t.inPlace key
  declarations : declaration = false → ∀ key : RecordKey, key.kind = .reifier →
    (key ∈ t'.effective base ↔ key ∈ t.effective base)
  unchanged : changed = false →
    (∀ key, key ∈ t'.effective base ↔ key ∈ t.effective base) ∧
      ∀ key, t'.inPlace key = t.inPlace key
  settled : changed = true → Settled base quad.scope (Touched declaration quad)
    (Inserted base t t' quad declaration) t'
  automatic : ∀ scope key, key ∈ (t'.automatic.lookup scope).getD [] ↔
    key ∈ (t.automatic.lookup scope).getD [] ∨
      (declaration = false ∧ scope = quad.scope ∧ key = ⟨.ordinary, quad⟩ ∧ Unheld base t quad)

variable {news : List RecordKey} {t₁ : ClassifiedRows} {declaration : Bool}
  {Q Q' : QuadKey → Prop}

theorem Rearranged.mono (sub : ∀ quad, Q quad → Q' quad) (h : Rearranged base Q t t') :
    Rearranged base Q' t t' :=
  { h with
    live_other := fun key outside => h.live_other key fun inside => outside (sub _ inside)
    inPlace_other := fun key outside => h.inPlace_other key fun inside => outside (sub _ inside) }

theorem Rearranged.hasEffectiveReifier (h : Rearranged base Q t t') (coherent : Coherent base t)
    (scope : Scope) : t'.hasEffectiveReifier base scope = t.hasEffectiveReifier base scope := by
  rw [Bool.eq_iff_iff, hasEffectiveReifier_iff h.coherent.rows,
    hasEffectiveReifier_iff coherent.rows]
  constructor
  · rintro ⟨key, live, kind, inScope⟩
    exact ⟨key, (h.declarations key kind).mp live, kind, inScope⟩
  · rintro ⟨key, live, kind, inScope⟩
    exact ⟨key, (h.declarations key kind).mpr live, kind, inScope⟩

theorem Added.admitted (added : Added base news t t₁)
    (mem_news : ∀ key, key ∈ news ↔ NewRow base t quad declaration key) (some_new : news ≠ [])
    (plain : declaration = false → ∀ key ∈ news, key.kind ≠ .reifier)
    (rearranged : Rearranged base (Touched declaration quad) t₁ t')
    (settled : Settled base quad.scope (Touched declaration quad)
      (Inserted base t t' quad declaration) t')
    (automatic : ∀ scope key, key ∈ (t'.automatic.lookup scope).getD [] ↔
      key ∈ (t.automatic.lookup scope).getD [] ∨
        (declaration = false ∧ scope = quad.scope ∧ key = ⟨.ordinary, quad⟩ ∧
          Unheld base t quad)) :
    Admitted base quad declaration true t t' := by
  have elsewhere : ∀ key : RecordKey, ¬Touched declaration quad key.quad → key ∉ news := by
    intro key outside member
    exact outside (Or.inl ((mem_news key).mp member).1)
  constructor
  · exact rearranged.coherent
  · intro key
    rw [rearranged.authored, added.authored, mem_news]
  · obtain ⟨key, member⟩ := List.exists_mem_of_ne_nil news some_new
    exact ⟨fun _ => ⟨key, (mem_news key).mp member⟩, fun _ => rfl⟩
  · intro key outside
    rw [rearranged.live_other key outside, added.live]
    simp [elsewhere key outside]
  · intro key outside
    rw [rearranged.inPlace_other key outside, added.inPlace]
  · intro notDeclaration key kind
    rw [rearranged.declarations key kind, added.live]
    have : key ∉ news := fun member => plain notDeclaration key member kind
    simp [this]
  · intro absurd
    cases absurd
  · exact fun _ => settled
  · exact automatic

theorem Added.unchanged (added : Added base [] t t')
    (held : ∃ key, key.quad = quad ∧ key ∈ t.effective base)
    (visible : ∀ kind, ¬Hidden base t ⟨kind, quad⟩) (automatic : t'.automatic = t.automatic) :
    Admitted base quad declaration false t t' := by
  have none_new : ∀ key, ¬NewRow base t quad declaration key := by
    obtain ⟨⟨kind', quad'⟩, rfl, live⟩ := held
    rintro ⟨kind, quad''⟩ ⟨rfl, hidden | ⟨unheld, -⟩⟩
    · exact visible kind hidden
    · exact unheld.2 kind' live
  have not_unheld : ¬Unheld base t quad := by
    obtain ⟨⟨kind', quad'⟩, rfl, live⟩ := held
    exact fun unheld => unheld.2 kind' live
  constructor
  · exact added.coherent
  · intro key
    rw [added.authored]
    simp [none_new key]
  · simp [none_new]
  · intro key _
    rw [added.live]
    simp
  · exact fun key _ => added.inPlace key
  · intro _ key _
    rw [added.live]
    simp
  · intro _
    exact ⟨fun key => by rw [added.live]; simp, added.inPlace⟩
  · intro absurd
    cases absurd
  · intro scope key
    rw [automatic]
    simp [not_unheld]

end ClassifiedRows

namespace MutableDataset

variable {st : MutableDataset} {t t' : ClassifiedRows} {churn churn' : CallerChurn}
  {key : RecordKey} {quad : QuadKey}

def stage (st : MutableDataset) (t : ClassifiedRows) (churn : CallerChurn) : MutableDataset :=
  (st.withRows t).withChurn churn

theorem callerInsert_spec (h : Coherent st.base t) (counted : churn.Counted) (key : RecordKey) :
    ∃ churn', ((st.stage t churn).insertRows key).1.callerInsert key =
      some (st.stage (t.inserted st.base key) churn') ∧ churn'.Counted := by
  have live : key ∈ (t.inserted st.base key).effective st.base := by
    have grown : (t.inserted st.base key).effective st.base = Insert.insert key (t.effective st.base) :=
      insertRecordRows_effective h.rows
    rw [grown]
    exact Finset.mem_insert_self _ _
  obtain ⟨churn', run, counted'⟩ :=
    CallerChurn.insert_spec (h.insertRecordRows key).rows counted live
  refine ⟨churn', ?_, counted'⟩
  have account : ((st.stage t churn).insertRows key).1.callerInsert key =
      (churn.insert st.base (t.inserted st.base key).toPhysicalRows key).map
        ((st.stage t churn).insertRows key).1.withChurn := rfl
  rw [account]
  exact (congrArg _ run).trans rfl

theorem insertRows_changed (h : Coherent st.base t) (key : RecordKey) :
    ((st.stage t churn).insertRows key).2 = decide (key ∉ t.effective st.base) :=
  insertRecordRows_changed h.rows

theorem isReclassified_eq_false :
    (st.stage t churn).isReclassified key = false ↔ t.inPlace key = none := by
  rw [isReclassified, Option.isSome_eq_false_iff, Option.isNone_iff_eq_none]
  rfl

theorem restoreSuppressed_spec (quad : QuadKey) (restored : List RecordKey)
    (kinds : List RecordKind) (distinct : kinds.Nodup) (h : Coherent st.base t)
    (counted : churn.Counted) :
    ∃ t' churn' back, (st.stage t churn).restoreSuppressed quad restored kinds =
        some (st.stage t' churn', restored ++ back) ∧ churn'.Counted ∧
      Added st.base back t t' ∧ t'.automatic = t.automatic ∧ back.Nodup ∧
      ∀ key, key ∈ back ↔ key.quad = quad ∧ key.kind ∈ kinds ∧ Hidden st.base t key := by
  induction kinds generalizing t churn restored with
  | nil =>
    refine ⟨t, churn, [], by rw [restoreSuppressed, List.append_nil], counted, Added.nil h, rfl,
      List.nodup_nil, ?_⟩
    simp
  | cons kind rest ih =>
    rw [List.nodup_cons] at distinct
    have hidden : (⟨kind, quad⟩ : RecordKey) ∈ (st.stage t churn).suppressed ∧
        (st.stage t churn).isReclassified ⟨kind, quad⟩ = false ∧
        ((st.stage t churn).insertRows ⟨kind, quad⟩).2 = true ↔
          Hidden st.base t ⟨kind, quad⟩ := by
      rw [isReclassified_eq_false, insertRows_changed h, decide_eq_true_eq]
      have suppressed : (⟨kind, quad⟩ : RecordKey) ∈ (st.stage t churn).suppressed ↔ _ :=
        h.rows.mem_suppressed_iff
      rw [suppressed, Hidden]
      tauto
    by_cases back : Hidden st.base t ⟨kind, quad⟩
    · have added := Added.one h back.2.1
      obtain ⟨churn₁, run₁, counted₁⟩ := callerInsert_spec h counted ⟨kind, quad⟩
      obtain ⟨t', churn', later, run, counted', added', automatic, nodup, mem_later⟩ :=
        ih (restored ++ [⟨kind, quad⟩]) distinct.2 added.coherent counted₁
      refine ⟨t', churn', ⟨kind, quad⟩ :: later, ?_, counted', added.trans added', automatic,
        ?_, ?_⟩
      · rw [restoreSuppressed, if_pos (hidden.mpr back), run₁, Option.bind_some, run,
          List.append_assoc]
        rfl
      · refine List.nodup_cons.mpr ⟨fun member => ?_, nodup⟩
        exact distinct.1 ((mem_later _).mp member).2.1
      · intro key
        obtain ⟨kind', quad'⟩ := key
        rw [List.mem_cons, mem_later]
        simp only [Hidden, added.live, added.inPlace, List.mem_cons, List.not_mem_nil, or_false,
          Record.mk.injEq]
        constructor
        · rintro (⟨rfl, rfl⟩ | ⟨rfl, member, inBase, dead, free⟩)
          · exact ⟨rfl, Or.inl rfl, back⟩
          · exact ⟨rfl, Or.inr member, inBase, fun live => dead (Or.inl live), free⟩
        · rintro ⟨rfl, rfl | member, inBase, dead, free⟩
          · exact Or.inl ⟨rfl, rfl⟩
          · refine Or.inr ⟨rfl, member, inBase, ?_, free⟩
            rintro (live | ⟨rfl, -⟩)
            · exact dead live
            · exact distinct.1 member
    · obtain ⟨t', churn', later, run, counted', added', automatic, nodup, mem_later⟩ :=
        ih restored distinct.2 h counted
      refine ⟨t', churn', later, ?_, counted', added', automatic, nodup, ?_⟩
      · rw [restoreSuppressed, if_neg (mt hidden.mp back), run]
      · intro key
        rw [mem_later, List.mem_cons]
        constructor
        · rintro ⟨same, member, found⟩
          exact ⟨same, Or.inr member, found⟩
        · rintro ⟨rfl, rfl | member, found⟩
          · exact absurd found back
          · exact ⟨rfl, member, found⟩

/-! ### Classifying the new rows -/

theorem touched_declaration {other : QuadKey} :
    Touched true quad other ↔ other.scope = quad.scope := by
  constructor
  · rintro (rfl | ⟨-, same⟩)
    · rfl
    · exact same
  · exact fun same => Or.inr ⟨rfl, same⟩

theorem touched_plain {other : QuadKey} : Touched false quad other ↔ other = quad := by
  simp [Touched]

theorem normalize_spec (churn : CallerChurn) (h : Coherent st.base t) (scope : Scope) :
    ∃ t', (st.stage t churn).normalize scope = some (st.stage t' churn) ∧
      Rearranged st.base (·.scope = scope) t t' ∧
      Settled st.base scope (·.scope = scope)
        (fun key => key ∈ st.base.records ∨ key ∈ (t'.automatic.lookup scope).getD []) t' := by
  obtain ⟨t', effectiveReifier, run, rearranged, declared, directed, complete⟩ :=
    normalizeSubject_spec st.order h scope
  have same : t'.hasEffectiveReifier st.base scope = effectiveReifier := by
    rw [Bool.eq_iff_iff, hasEffectiveReifier_iff rearranged.coherent.rows, declared]
  refine ⟨t', ?_, rearranged, ?_, ?_⟩
  · exact (congrArg (Option.map (st.stage t churn).withRows) run).trans rfl
  · rw [same]
    exact directed
  · rw [same, rearranged.automatic]
    exact fun key inScope origin authored => complete key inScope authored origin

theorem classifyRestored_spec {effectiveReifier : Bool} (churn : CallerChurn) (back : List RecordKey)
    (h : Coherent st.base t) (directed : Directed st.base effectiveReifier (· = quad) t)
    (distinct : back.Nodup) (rows : ∀ key ∈ back, key.quad = quad ∧ key ∈ t.effective st.base) :
    ∃ t', (st.stage t churn).classifyRestored effectiveReifier back =
        some (st.stage t' churn) ∧ Rearranged st.base (· = quad) t t' ∧
      Directed st.base effectiveReifier (· = quad) t' ∧
      (∀ key ∈ back, Moves st.base effectiveReifier key → (t'.inPlace key).isSome) ∧
      (∀ key, (t.inPlace key).isSome → (t'.inPlace key).isSome) := by
  induction back generalizing t with
  | nil =>
    refine ⟨t, rfl, Rearranged.refl h, directed, ?_, fun _ converted => converted⟩
    intro key member
    cases member
  | cons source rest ih =>
    rw [List.nodup_cons] at distinct
    obtain ⟨inQuad, live⟩ := rows source (by simp)
    obtain ⟨t₁, run₁, rearranged₁, directed₁, moved, kept₁, others⟩ :=
      classifyRecord_spec h directed inQuad live
    have rows₁ : ∀ key ∈ rest, key.quad = quad ∧ key ∈ t₁.effective st.base := by
      intro key member
      obtain ⟨inQuad', live'⟩ := rows key (by simp [member])
      refine ⟨inQuad', others key ?_ live'⟩
      rintro rfl
      exact distinct.1 member
    obtain ⟨t', run, rearranged, directed', settled, kept⟩ :=
      ih rearranged₁.coherent directed₁ distinct.2 rows₁
    refine ⟨t', ?_, rearranged₁.trans rearranged, directed', ?_, ?_⟩
    · have step : (st.stage t churn).classifyRecord (st.stage t churn).base source
          effectiveReifier = some t₁ := run₁
      rw [classifyRestored, step, Option.bind_some]
      exact run
    · intro key member moves
      rcases List.mem_cons.mp member with rfl | member
      · exact kept key (moved moves)
      · exact settled key member moves
    · exact fun key converted => kept key (kept₁ key converted)

def noted (t : ClassifiedRows) (key : RecordKey) : ClassifiedRows :=
  { t with
    automatic := t.automatic.insert key.quad.scope
      (((t.automatic.lookup key.quad.scope).getD []).insert key) }

theorem mem_noted {scope : Scope} {other : RecordKey} :
    other ∈ ((noted t key).automatic.lookup scope).getD [] ↔
      other ∈ (t.automatic.lookup scope).getD [] ∨ (scope = key.quad.scope ∧ other = key) := by
  rw [noted]
  by_cases same : scope = key.quad.scope
  · subst same
    simp [or_comm]
  · rw [AList.lookup_insert_ne same]
    simp [same]

theorem coherent_noted {base : RdfDataset} (h : Coherent base t) : Coherent base (noted t key) :=
  ⟨h.rows, h.remembers, h.placed, h.in_scope⟩

theorem classifyNew_spec (churn : CallerChurn) (h : Coherent st.base t)
    (directed : Directed st.base (t.hasEffectiveReifier st.base key.quad.scope) (· = key.quad) t)
    (live : key ∈ t.effective st.base) :
    ∃ t', (st.stage t churn).classifyNew key = some (st.stage t' churn) ∧
      Rearranged st.base (· = key.quad) (noted t key) t' ∧
      Settled st.base key.quad.scope (· = key.quad) (· = key) t' := by
  have h' : Coherent st.base (noted t key) := coherent_noted h
  obtain ⟨t', run, rearranged, directed', moved, -, -⟩ :=
    classifyRecord_spec (t := noted t key) (Q := (· = key.quad)) h' directed rfl live
  have same : t'.hasEffectiveReifier st.base key.quad.scope =
      t.hasEffectiveReifier st.base key.quad.scope := rearranged.hasEffectiveReifier h' key.quad.scope
  refine ⟨t', ?_, rearranged, ?_, ?_⟩
  · exact (congrArg (Option.map (st.stage t churn).withRows) run).trans rfl
  · rw [same]
    exact directed'
  · rw [same]
    rintro other - rfl - moves
    exact moved moves

/-! ### The whole insertion -/

theorem declarationKey_of_reifier (inBase : (⟨.reifier, quad⟩ : RecordKey) ∈ st.base.records) :
    st.declarationKey quad = some true := by
  obtain ⟨q, same, member⟩ := RdfDataset.mem_records.mp inBase
  simp only at same
  subst same
  rcases st.base.mem_recordIds.mp member with ⟨absurd, -⟩ | ⟨-, row⟩ | ⟨absurd, -⟩
  · cases absurd
  · obtain ⟨predicate, s, p, o, object⟩ := st.base.reifierQuads_declaration row
    have predicate' : st.mutValue (baseKey q).p = some (.iri rdfReifies) := predicate
    have object' : st.mutValue (baseKey q).o = some (.triple s p o) := object
    rw [declarationKey, predicate', object']
    rfl
  · cases absurd

theorem insertKey_eq {before : Nat} {st₁ st₂ st₃ : MutableDataset} {back : List RecordKey}
    {changed declaration : Bool} (count : st.effectiveCount = some before)
    (restore : st.restoreSuppressed quad [] RecordKind.all = some (st₁, back))
    (admit' : st₁.admitValue quad back = some (st₂, changed))
    (declared : st₂.changesDeclaration changed quad = some declaration)
    (classify : (if declaration then st₂.normalize quad.scope
      else st₂.classifyRestored (st₂.hasEffectiveReifier st₂.base quad.scope) back) = some st₃) :
    st.insertKey quad = (st₃.applyGraphChange quad.g before).map fun st => (st, changed) := by
  simp only [insertKey, count, restore, admit', declared, classify, Option.bind_some]

theorem admitValue_eq {back : List RecordKey}
    (held : ¬(back = [] ∧ st.containsKey st.base quad = false)) :
    st.admitValue quad back = some (st, decide (back ≠ [])) := if_neg held

theorem classifyNews_spec {t₀ : ClassifiedRows} {back : List RecordKey} {declaration : Bool}
    (churn : CallerChurn)
    (added : Added st.base back t₀ t) (automatic : t.automatic = t₀.automatic)
    (distinct : back.Nodup) (mem_back : ∀ key, key ∈ back ↔ NewRow st.base t₀ quad declaration key)
    (some_new : back ≠ []) (plain : declaration = false → ∀ key ∈ back, key.kind ≠ .reifier)
    (free : declaration = false → ∀ key : RecordKey, key.quad = quad → t.inPlace key = none)
    (held : ¬Unheld st.base t₀ quad ∨ declaration = true) :
    ∃ t', (if declaration then (st.stage t churn).normalize quad.scope
        else (st.stage t churn).classifyRestored
          ((st.stage t churn).hasEffectiveReifier (st.stage t churn).base quad.scope) back) =
        some (st.stage t' churn) ∧
      Admitted st.base quad declaration true t₀ t' := by
  have unnoted : ¬(declaration = false ∧ Unheld st.base t₀ quad) := by
    rintro ⟨rfl, unheld⟩
    rcases held with held | absurd
    · exact held unheld
    · cases absurd
  have notes : ∀ t' : ClassifiedRows, t'.automatic = t.automatic → ∀ scope key,
      key ∈ (t'.automatic.lookup scope).getD [] ↔ key ∈ (t₀.automatic.lookup scope).getD [] ∨
        (declaration = false ∧ scope = quad.scope ∧ key = ⟨.ordinary, quad⟩ ∧
          Unheld st.base t₀ quad) := by
    intro t' same scope key
    rw [same, automatic]
    constructor
    · exact Or.inl
    · rintro (member | ⟨notDeclaration, -, -, unheld⟩)
      · exact member
      · exact absurd ⟨notDeclaration, unheld⟩ unnoted
  cases declaration with
  | true =>
    obtain ⟨t', run, rearranged, settled⟩ := normalize_spec churn added.coherent quad.scope
    refine ⟨t', by rw [if_pos rfl]; exact run, added.admitted mem_back some_new plain
      (rearranged.mono fun _ => touched_declaration.mpr) ?_ (notes t' rearranged.automatic)⟩
    constructor
    · exact fun key c touched => settled.directed key c (touched_declaration.mp touched)
    · intro key touched origin authored moves
      refine settled.complete key (touched_declaration.mp touched) ?_ authored moves
      rcases origin with ⟨-, hidden | ⟨-, home⟩⟩ | ⟨-, origin⟩
      · exact Or.inl hidden.1
      · exact absurd (home.trans rfl) moves.kind
      · exact origin
  | false =>
    have directed : Directed st.base (t.hasEffectiveReifier st.base quad.scope) (· = quad) t := by
      intro key c inQuad found
      rw [free rfl key inQuad] at found
      cases found
    have rows : ∀ key ∈ back, key.quad = quad ∧ key ∈ t.effective st.base := fun key member =>
      ⟨((mem_back key).mp member).1, (added.live key).mpr (Or.inr member)⟩
    obtain ⟨t', run, rearranged, directed', moved, -⟩ :=
      classifyRestored_spec churn back added.coherent directed distinct rows
    have same := rearranged.hasEffectiveReifier added.coherent quad.scope
    refine ⟨t', by rw [if_neg Bool.false_ne_true]; exact run, added.admitted mem_back some_new
      plain (rearranged.mono fun _ => touched_plain.mpr) ?_ (notes t' rearranged.automatic)⟩
    constructor
    · rw [same]
      exact fun key c touched => directed' key c (touched_plain.mp touched)
    · rw [same]
      rintro key - (new | ⟨absurd, -⟩) - moves
      · exact moved key ((mem_back key).mpr new) moves
      · cases absurd

theorem flip_eq_of_quad {key other : RecordKey} (same : key.quad = other.quad)
    (kind : key.kind ≠ .reifier) (kind' : other.kind ≠ .reifier) (differs : key ≠ other) :
    key.flip = other := by
  obtain ⟨k, q⟩ := key
  obtain ⟨k', q'⟩ := other
  simp only at same
  subst same
  cases k <;> cases k' <;> simp_all [Record.flip, RecordKind.flip]

theorem unconverted_of_hidden {base : RdfDataset} (h : Coherent base t) {hid : RecordKey}
    (hidden : Hidden base t hid) (kind : hid.kind ≠ .reifier) (key : RecordKey)
    (same : key.quad = hid.quad) : t.inPlace key = none := by
  rcases found : t.inPlace key with - | c
  · rfl
  · by_cases own : key = hid
    · rw [own, hidden.2.2] at found
      cases found
    · have statement := (h.remembers.target key c found).1
      have live := h.placed.target_live key c found
      rw [flip_eq_of_quad same statement kind own] at live
      exact absurd live hidden.2.1

theorem admitNew_spec {t₀ : ClassifiedRows} {declaration : Bool} (added : Added st.base [] t₀ t)
    (automatic : t.automatic = t₀.automatic) (counted : churn.Counted)
    (declared : st.declarationKey quad = some declaration) (unheld : Unheld st.base t₀ quad) :
    ∃ t₁ t' churn', (st.stage t churn).admitNew quad = some (st.stage t₁ churn', true) ∧
      churn'.Counted ∧ Admitted st.base quad declaration true t₀ t' ∧
      (if declaration then (st.stage t₁ churn').normalize quad.scope
        else some (st.stage t₁ churn')) = some (st.stage t' churn') := by
  have absent : Absent st.base t quad := by
    intro kind live
    rw [added.live] at live
    exact unheld.2 kind (by simpa using live)
  have missing := absent (homeKind declaration)
  have added' := added.trans (Added.one added.coherent missing)
  have mem_home : ∀ key, key ∈ [] ++ [(⟨homeKind declaration, quad⟩ : RecordKey)] ↔
      NewRow st.base t₀ quad declaration key := by
    rintro ⟨kind, quad'⟩
    simp only [List.nil_append, List.mem_singleton, Record.mk.injEq, NewRow]
    constructor
    · rintro ⟨rfl, rfl⟩
      exact ⟨rfl, Or.inr ⟨unheld, rfl⟩⟩
    · rintro ⟨rfl, hidden | ⟨-, rfl⟩⟩
      · exact absurd hidden (unheld.1 kind)
      · exact ⟨rfl, rfl⟩
  obtain ⟨churn', run, counted'⟩ := callerInsert_spec added.coherent counted
    ⟨homeKind declaration, quad⟩
  have changed : ((st.stage t churn).insertRows ⟨homeKind declaration, quad⟩).2 = true := by
    rw [insertRows_changed added.coherent, decide_eq_true missing]
  have declared' : (st.stage t churn).declarationKey quad = some declaration := declared
  cases declaration with
  | true =>
    obtain ⟨t', settle, admitted⟩ := classifyNews_spec churn' added' automatic (by simp)
      mem_home (by simp) (by simp) (by simp) (Or.inr rfl)
    refine ⟨t.inserted st.base ⟨homeKind true, quad⟩, t', churn', ?_, counted', admitted, ?_⟩
    · rw [admitNew, declared', Option.bind_some]
      simp only [homeKind, if_true] at changed run ⊢
      rw [changed, if_pos rfl, run]
      rfl
    · rw [if_pos rfl] at settle ⊢
      exact settle
  | false =>
    have live : (⟨homeKind false, quad⟩ : RecordKey) ∈
        (t.inserted st.base ⟨homeKind false, quad⟩).effective st.base := by
      rw [added'.live]
      simp
    have directed : Directed st.base ((t.inserted st.base ⟨homeKind false, quad⟩).hasEffectiveReifier
        st.base quad.scope) (· = quad) (t.inserted st.base ⟨homeKind false, quad⟩) := by
      intro key c inQuad found
      rw [(Added.one added.coherent missing).inPlace key,
        absent.inPlace added.coherent key inQuad] at found
      cases found
    obtain ⟨t', classify, rearranged, settled⟩ :=
      classifyNew_spec churn' added'.coherent directed live
    refine ⟨t', t', churn', ?_, counted', ?_, if_neg Bool.false_ne_true⟩
    · rw [admitNew, declared', Option.bind_some]
      simp only [homeKind, Bool.false_eq_true, if_false] at changed run classify ⊢
      rw [changed, if_pos rfl, run, Option.bind_some, classify]
      rfl
    · have noted' : Added st.base ([] ++ [⟨homeKind false, quad⟩]) t₀
          (noted (t.inserted st.base ⟨homeKind false, quad⟩) ⟨homeKind false, quad⟩) :=
        ⟨coherent_noted added'.coherent, added'.live, added'.authored, added'.inPlace⟩
      refine noted'.admitted mem_home (by simp) ?_
        (rearranged.mono fun _ => touched_plain.mpr) ?_ ?_
      · intro _ key member
        simp only [List.nil_append, List.mem_singleton] at member
        simp [member, homeKind]
      · constructor
        · exact fun key c touched => settled.directed key c (touched_plain.mp touched)
        · rintro key touched (new | ⟨absurd, -⟩) authored moves
          · have own := (mem_home key).mpr new
            rw [List.nil_append, List.mem_singleton] at own
            exact settled.complete key (touched_plain.mp touched) own authored moves
          · cases absurd
      · intro scope key
        have same : (t.inserted st.base ⟨homeKind false, quad⟩).automatic = t₀.automatic := automatic
        rw [rearranged.automatic, mem_noted, same]
        simp [unheld, homeKind]

theorem insertKey_rows (h : Coherent st.base st.toClassifiedRows)
    (counted : st.toCallerChurn.Counted) {declaration : Bool}
    (declared : st.declarationKey quad = some declaration) :
    ∃ t' churn' changed, churn'.Counted ∧
      Admitted st.base quad declaration changed st.toClassifiedRows t' ∧
      ∀ before, st.effectiveCount = some before → st.insertKey quad =
        ((st.stage t' churn').applyGraphChange quad.g before).map fun st => (st, changed) := by
  obtain ⟨t₁, churn₁, back, restore, counted₁, added, automatic, distinct, mem_back⟩ :=
    restoreSuppressed_spec quad [] RecordKind.all (by decide) h counted
  have restore : st.restoreSuppressed quad [] RecordKind.all = some (st.stage t₁ churn₁, back) :=
    restore
  have mem_back : ∀ key, key ∈ back ↔ key.quad = quad ∧ Hidden st.base st.toClassifiedRows key := by
    intro key
    rw [mem_back]
    simp [RecordKind.mem_all]
  have declared' : ∀ t churn, (st.stage t churn).changesDeclaration true quad = some declaration :=
    fun _ _ => declared
  by_cases empty : back = []
  · subst empty
    have visible : ∀ kind, ¬Hidden st.base st.toClassifiedRows ⟨kind, quad⟩ := by
      intro kind hidden
      have := (mem_back ⟨kind, quad⟩).mpr ⟨rfl, hidden⟩
      cases this
    by_cases held : t₁.containsKey st.base quad = true
    · refine ⟨t₁, churn₁, false, counted₁, added.unchanged ?_ visible automatic, fun before count => ?_⟩
      · obtain ⟨kind, live⟩ := containsKey_iff.mp held
        exact ⟨⟨kind, quad⟩, rfl, by simpa using (added.live _).mp live⟩
      · have declaration' : (st.stage t₁ churn₁).changesDeclaration false quad = some false := rfl
        refine insertKey_eq count restore (admitValue_eq ?_) declaration' rfl
        rintro ⟨-, missing⟩
        rw [show t₁.containsKey st.base quad = false from missing] at held
        cases held
    · have unheld : Unheld st.base st.toClassifiedRows quad := by
        refine ⟨visible, fun kind live => held (containsKey_iff.mpr ⟨kind, ?_⟩)⟩
        rw [added.live]
        exact Or.inl live
      obtain ⟨t₂, t', churn', admit', counted', admitted, classify⟩ :=
        admitNew_spec added automatic counted₁ declared unheld
      refine ⟨t', churn', true, counted', admitted, fun before count => ?_⟩
      refine insertKey_eq count restore ?_ (declared' t₂ churn') ?_
      · have missing : t₁.containsKey st.base quad = false := by simpa using held
        rw [admitValue, if_pos ⟨rfl, missing⟩]
        exact admit'
      · cases declaration with
        | true => exact classify
        | false => exact classify
  · obtain ⟨hid, member⟩ := List.exists_mem_of_ne_nil back empty
    obtain ⟨inQuad, hidden⟩ := (mem_back hid).mp member
    have visible : ¬Unheld st.base st.toClassifiedRows quad := by
      rintro ⟨none_hidden, -⟩
      subst inQuad
      exact none_hidden hid.kind hidden
    have plain : declaration = false → ∀ key ∈ back, key.kind ≠ .reifier := by
      rintro rfl ⟨kind, quad'⟩ member rfl
      obtain ⟨rfl, hidden⟩ := (mem_back _).mp member
      rw [declarationKey_of_reifier hidden.1] at declared
      cases declared
    have mem_news : ∀ key, key ∈ back ↔ NewRow st.base st.toClassifiedRows quad declaration key := by
      intro key
      rw [mem_back, NewRow]
      simp [visible]
    have free : declaration = false → ∀ key : RecordKey, key.quad = quad → t₁.inPlace key = none := by
      intro notDeclaration key same
      rw [added.inPlace]
      exact unconverted_of_hidden h hidden (plain notDeclaration hid member) key
        (same.trans inQuad.symm)
    obtain ⟨t', classify, admitted⟩ := classifyNews_spec churn₁ added automatic distinct mem_news
      empty plain free (Or.inl visible)
    refine ⟨t', churn₁, true, counted₁, admitted, fun before count => ?_⟩
    refine insertKey_eq count restore ?_ (declared' t₁ churn₁) classify
    rw [admitValue_eq fun held => empty held.1, decide_eq_true empty]

end MutableDataset

end Purrdf
