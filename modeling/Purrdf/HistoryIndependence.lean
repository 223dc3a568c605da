import Purrdf.NormalForm

/-!
# History independence of classification

The tables of a normal state, as a function of the base and of the effective quads,
and what follows for two runs that end with the same quads.
-/

namespace Purrdf

open PhysicalRows ClassifiedRows

namespace RdfDataset

variable (base : RdfDataset)

def holdsAs (kind : RecordKind) (q : QuadValues) : Bool :=
  base.recordIds.any fun row => row.kind == kind && row.quad.traverse base.termValue == some q

/-- `rdf:reifies` with a triple term as its object, by value. -/
def declares (q : QuadValues) : Bool := q.p.isReifies && q.o.isTriple

/-- The roles an effective quad is authored in: the base's, or else the one its shape
asks for. -/
def Role (q : QuadValues) (kind : RecordKind) : Prop :=
  base.holdsAs kind q = true ∨
    ((∀ kind', base.holdsAs kind' q = false) ∧ kind = homeKind (declares q))

/-- Whether the quads `V` declare a reifier for a subject in a graph. -/
def Declared (V : QuadValues → Prop) (s : TermValue) (g : Option TermValue) : Prop :=
  ∃ q, V q ∧ q.s = s ∧ q.g = g ∧ base.Role q .reifier

/-- Whether the base itself declares a reifier for a subject in a graph. -/
def OriginallyDeclared (s : TermValue) (g : Option TermValue) : Prop :=
  ∃ q, q.s = s ∧ q.g = g ∧ base.holdsAs .reifier q = true

/-- Whether the declarations of `V` take a role of a quad to the other table. -/
def Retyped (V : QuadValues → Prop) (q : QuadValues) (kind : RecordKind) : Prop :=
  (kind = .ordinary ∧ base.Declared V q.s q.g) ∨
    (kind = .annotationRow ∧ base.OriginallyDeclared q.s q.g ∧ ¬base.Declared V q.s q.g)

def Table (V : QuadValues → Prop) (q : QuadValues) (kind : RecordKind) : Prop :=
  V q ∧ ((base.Role q kind ∧ ¬base.Retyped V q kind) ∨
    (base.Role q kind.flip ∧ base.Retyped V q kind.flip))

/-- The quads whose classification depends on more: the ordinary rows of the base in a
scope that the base declares, while it is declared. -/
def Sealed (V : QuadValues → Prop) (q : QuadValues) : Prop :=
  base.holdsAs .ordinary q = true ∧ base.OriginallyDeclared q.s q.g ∧ base.Declared V q.s q.g

end RdfDataset

namespace MutableDataset

variable {st st' : MutableDataset} {key : RecordKey} {quad quad' : QuadKey} {q q' : QuadValues}
  {rules : LexicalRules}

def effectiveRecords (st : MutableDataset) : List RecordValues :=
  st.effectiveRecordKeys.filterMap fun key =>
    (st.quadValuesOf key.quad).map fun quad => ⟨key.kind, quad⟩

def effectiveQuads (st : MutableDataset) : List QuadValues :=
  st.effectiveRecords.map (·.quad)

theorem mem_effectiveRecords (h : Consistent st) {record : RecordValues} :
    record ∈ st.effectiveRecords ↔ ∃ key ∈ st.effective st.base,
      key.kind = record.kind ∧ st.quadValuesOf key.quad = some record.quad := by
  obtain ⟨kind, q⟩ := record
  simp only [effectiveRecords, List.mem_filterMap, Option.map_eq_some_iff, Record.mk.injEq,
    (effectiveRecordKeys_perm h.coherent.rows).2]
  constructor
  · rintro ⟨key, live, quad, read, rfl, rfl⟩
    exact ⟨key, live, rfl, read⟩
  · rintro ⟨key, live, rfl, read⟩
    exact ⟨key, live, q, read, rfl, rfl⟩

theorem mem_effectiveQuads (h : Consistent st) :
    q ∈ st.effectiveQuads ↔
      ∃ key ∈ st.effective st.base, st.quadValuesOf key.quad = some q := by
  simp only [effectiveQuads, List.mem_map, mem_effectiveRecords h]
  constructor
  · rintro ⟨record, ⟨key, live, -, read⟩, rfl⟩
    exact ⟨key, live, read⟩
  · rintro ⟨key, live, read⟩
    exact ⟨⟨key.kind, q⟩, ⟨key, live, rfl, read⟩, rfl⟩

/-! ### Keys and values -/

theorem quadValuesOf_eq_some :
    st.quadValuesOf quad = some q ↔ st.mutValue quad.s = some q.s ∧
      st.mutValue quad.p = some q.p ∧ st.mutValue quad.o = some q.o ∧
      quad.g.map st.mutValue = q.g.map some := Quad.traverse_eq_some

/-- Values of a key's graph slot agree exactly when the slots do. -/
theorem graph_injective (fresh : st.delta.Fresh st.base) {g g' : Option MutTermId}
    {v v' : Option TermValue} (read : g.map st.mutValue = v.map some)
    (read' : g'.map st.mutValue = v'.map some) : g = g' ↔ v = v' := by
  rcases g with - | id <;> rcases v with - | value <;> simp at read
  · rcases g' with - | id' <;> rcases v' with - | value' <;> simp at read' ⊢
  · rcases g' with - | id' <;> rcases v' with - | value' <;> simp at read' ⊢
    constructor
    · rintro rfl
      rw [read] at read'
      exact Option.some.inj read'
    · rintro rfl
      exact mutValue_injective fresh read read'

theorem id_injective (fresh : st.delta.Fresh st.base) {id id' : MutTermId} {value value' : TermValue}
    (read : st.mutValue id = some value) (read' : st.mutValue id' = some value') :
    id = id' ↔ value = value' := by
  constructor
  · rintro rfl
    rw [read] at read'
    exact Option.some.inj read'
  · rintro rfl
    exact mutValue_injective fresh read read'

theorem quadValuesOf_injective (fresh : st.delta.Fresh st.base)
    (read : st.quadValuesOf quad = some q) (read' : st.quadValuesOf quad' = some q) :
    quad = quad' := by
  obtain ⟨hs, hp, ho, hg⟩ := quadValuesOf_eq_some.mp read
  obtain ⟨hs', hp', ho', hg'⟩ := quadValuesOf_eq_some.mp read'
  obtain ⟨s, p, o, g⟩ := quad
  obtain ⟨s', p', o', g'⟩ := quad'
  rw [Quad.mk.injEq]
  exact ⟨(id_injective fresh hs hs').mpr rfl, (id_injective fresh hp hp').mpr rfl,
    (id_injective fresh ho ho').mpr rfl, (graph_injective fresh hg hg').mpr rfl⟩

theorem scope_eq_iff (fresh : st.delta.Fresh st.base) (read : st.quadValuesOf quad = some q)
    (read' : st.quadValuesOf quad' = some q') :
    quad.scope = quad'.scope ↔ q.s = q'.s ∧ q.g = q'.g := by
  obtain ⟨hs, -, -, hg⟩ := quadValuesOf_eq_some.mp read
  obtain ⟨hs', -, -, hg'⟩ := quadValuesOf_eq_some.mp read'
  rw [Quad.scope, Quad.scope, Prod.mk.injEq, id_injective fresh hs hs',
    graph_injective fresh hg hg']

theorem declarationKey_eq (read : st.quadValuesOf quad = some q) :
    st.declarationKey quad = some (RdfDataset.declares q) := by
  obtain ⟨-, hp, ho, -⟩ := quadValuesOf_eq_some.mp read
  rw [declarationKey, hp, ho, Option.bind_some, RdfDataset.declares]
  by_cases reifies : q.p.isReifies = true
  · rw [if_pos reifies, reifies]
    rfl
  · rw [if_neg reifies, (Bool.not_eq_true _).mp reifies]
    rfl

theorem quadValuesOf_baseKey (ids : QuadIds) :
    st.quadValuesOf (baseKey ids) = ids.traverse st.base.termValue := by
  refine Option.ext fun q => ?_
  rw [quadValuesOf_eq_some, Quad.traverse_eq_some]
  rcases graph : ids.g with - | g <;> simp [baseKey, Quad.mapIds, graph, mutValue]

theorem mem_records_iff (fresh : st.delta.Fresh st.base) (read : st.quadValuesOf key.quad = some q) :
    key ∈ st.base.records ↔ st.base.holdsAs key.kind q = true := by
  simp only [RdfDataset.holdsAs, List.any_eq_true, Bool.and_eq_true, beq_iff_eq]
  rw [RdfDataset.mem_records]
  constructor
  · rintro ⟨ids, same, member⟩
    refine ⟨_, member, rfl, ?_⟩
    rw [← quadValuesOf_baseKey, ← same, read]
  · rintro ⟨⟨kind, ids⟩, member, same, found⟩
    refine ⟨ids, ?_, ?_⟩
    · have read_base := @quadValuesOf_baseKey st
      rw [← read_base] at found
      exact quadValuesOf_injective fresh read found
    · cases same
      exact member

theorem ValueState.read (h : ValueState st) (authored : Authored st.base st.toClassifiedRows key) :
    ∃ q, st.quadValuesOf key.quad = some q :=
  Quad.exists_traverse (h.valid key authored)

/-! ### The normal form -/

theorem authored_iff (h : NormalState st) (read : st.quadValuesOf key.quad = some q) :
    Authored st.base st.toClassifiedRows key ↔
      q ∈ st.effectiveQuads ∧ st.base.Role q key.kind := by
  have fresh := h.value.consistent.fresh
  have coherent := h.value.consistent.coherent
  have base_role : ∀ kind, (⟨kind, key.quad⟩ : RecordKey) ∈ st.base.records ↔
      st.base.holdsAs kind q = true := fun kind => mem_records_iff fresh read
  have shape := declarationKey_eq read
  have home : ∀ kind, Authored st.base st.toClassifiedRows ⟨kind, key.quad⟩ →
      st.base.Role q kind := by
    intro kind authored
    rcases h.home ⟨kind, key.quad⟩ authored with inBase | ⟨free, own⟩
    · exact Or.inl ((base_role kind).mp inBase)
    · refine Or.inr ⟨fun kind' => ?_, own _ shape⟩
      rw [← Bool.not_eq_true, ← base_role]
      exact free kind'
  rw [mem_effectiveQuads h.value.consistent]
  constructor
  · intro authored
    obtain ⟨kind, live⟩ := coherent.live_iff_authored.mpr ⟨key.kind, authored⟩
    exact ⟨⟨_, live, read⟩, home key.kind authored⟩
  · rintro ⟨⟨other, live, read'⟩, role⟩
    have same := quadValuesOf_injective fresh read' read
    obtain ⟨kind, authored⟩ := coherent.live_iff_authored.mp ⟨other.kind, live⟩
    rw [same] at authored
    rcases role with inBase | ⟨free, own⟩
    · exact h.value.whole key ((base_role key.kind).mpr inBase) ⟨kind, authored⟩
    · rcases home kind authored with inBase | ⟨-, own'⟩
      · rw [free kind] at inBase
        cases inBase
      · rw [← own] at own'
        rw [own'] at authored
        exact authored

theorem live_reifier_iff {t : ClassifiedRows} {base : RdfDataset} (h : Coherent base t)
    (kind : key.kind = .reifier) : key ∈ t.effective base ↔ Authored base t key := by
  have unconverted : ∀ other : RecordKey, other.kind = .reifier → t.inPlace other = none := by
    intro other kind
    rcases found : t.inPlace other with - | c
    · rfl
    · exact absurd kind (h.remembers.target other c found).1
  constructor
  · intro live
    exact Or.inl ⟨live, h.not_created (unconverted _ (by simp [kind, RecordKind.flip]))⟩
  · rintro (⟨live, -⟩ | converted)
    · exact live
    · rw [unconverted key kind] at converted
      cases converted

theorem declared_iff (h : NormalState st) (read : st.quadValuesOf quad = some q) :
    st.hasEffectiveReifier st.base quad.scope = true ↔
      st.base.Declared (· ∈ st.effectiveQuads) q.s q.g := by
  have fresh := h.value.consistent.fresh
  have coherent := h.value.consistent.coherent
  rw [hasEffectiveReifier_iff coherent.rows]
  constructor
  · rintro ⟨⟨kind, quad'⟩, live, rfl, inScope⟩
    have authored := (live_reifier_iff coherent rfl).mp live
    obtain ⟨q', read'⟩ := h.value.read authored
    obtain ⟨member, role⟩ := (authored_iff h read').mp authored
    obtain ⟨sameS, sameG⟩ := (scope_eq_iff fresh read' read).mp inScope
    exact ⟨q', member, sameS, sameG, role⟩
  · rintro ⟨q', member, sameS, sameG, role⟩
    obtain ⟨key, -, read'⟩ := (mem_effectiveQuads h.value.consistent).mp member
    have read'' : st.quadValuesOf (⟨.reifier, key.quad⟩ : RecordKey).quad = some q' := read'
    have authored := (authored_iff h read'').mpr ⟨member, role⟩
    exact ⟨_, (live_reifier_iff coherent rfl).mpr authored, rfl,
      (scope_eq_iff fresh read' read).mpr ⟨sameS, sameG⟩⟩

theorem originallyDeclared_iff (fresh : st.delta.Fresh st.base)
    (read : st.quadValuesOf quad = some q) :
    originalReifier st.base quad.scope = true ↔ st.base.OriginallyDeclared q.s q.g := by
  rw [originalReifier_iff]
  constructor
  · rintro ⟨⟨kind, quad'⟩, inBase, rfl, inScope⟩
    have inBase' := inBase
    obtain ⟨ids, same, member⟩ := RdfDataset.mem_records.mp inBase
    obtain ⟨q', found⟩ := Quad.exists_traverse (base_valid member)
    have read' : st.quadValuesOf quad' = some q' := by
      have same : quad' = baseKey ids := same
      rw [same, quadValuesOf_baseKey, found]
    obtain ⟨sameS, sameG⟩ := (scope_eq_iff fresh read' read).mp inScope
    have read'' : st.quadValuesOf (⟨.reifier, quad'⟩ : RecordKey).quad = some q' := read'
    exact ⟨q', sameS, sameG, (mem_records_iff fresh read'').mp inBase'⟩
  · rintro ⟨q', sameS, sameG, held⟩
    simp only [RdfDataset.holdsAs, List.any_eq_true, Bool.and_eq_true, beq_iff_eq] at held
    obtain ⟨⟨kind, ids⟩, member, rfl, found⟩ := held
    refine ⟨⟨.reifier, baseKey ids⟩, RdfDataset.mem_records.mpr ⟨ids, rfl, member⟩, rfl, ?_⟩
    have read' : st.quadValuesOf (baseKey ids) = some q' := by rw [quadValuesOf_baseKey, found]
    exact (scope_eq_iff fresh read' read).mpr ⟨sameS, sameG⟩

theorem moves_iff (h : NormalState st) (read : st.quadValuesOf key.quad = some q) :
    Moves st.base (st.hasEffectiveReifier st.base key.quad.scope) key ↔
      st.base.Retyped (· ∈ st.effectiveQuads) q key.kind := by
  rw [Moves, RdfDataset.Retyped, ← declared_iff h read,
    ← originallyDeclared_iff h.value.consistent.fresh read, Bool.not_eq_true]

/-- A row stands unless a conversion replaces it, or because one put it there. -/
theorem live_iff_unconverted (h : NormalState st) (key : RecordKey) :
    key ∈ st.effective st.base ↔
      (Authored st.base st.toClassifiedRows key ∧ st.inPlace key = none) ∨
        (st.inPlace key.flip).isSome := by
  have coherent := h.value.consistent.coherent
  constructor
  · intro live
    by_cases created : key ∈ st.classificationCreated
    · exact Or.inr (coherent.created_converted created)
    · refine Or.inl ⟨Or.inl ⟨live, created⟩, ?_⟩
      rcases found : st.inPlace key with - | c
      · rfl
      · exact absurd live (h.directed key.quad.scope key c rfl found).2
  · rintro (⟨⟨live, -⟩ | converted, unconverted⟩ | converted)
    · exact live
    · rw [unconverted] at converted
      cases converted
    · obtain ⟨c, found⟩ := Option.isSome_iff_exists.mp converted
      have live := coherent.placed.target_live key.flip c found
      rwa [Record.flip_flip] at live

theorem normal_form (h : NormalState st) (read : st.quadValuesOf key.quad = some q)
    (unsealed : key.kind = .reifier ∨ ¬st.base.Sealed (· ∈ st.effectiveQuads) q) :
    key ∈ st.effective st.base ↔ st.base.Table (· ∈ st.effectiveQuads) q key.kind := by
  have converted : ∀ other : RecordKey, other.quad = key.quad →
      (other.kind = .reifier ↔ key.kind = .reifier) → ((st.inPlace other).isSome ↔
        Authored st.base st.toClassifiedRows other ∧
          Moves st.base (st.hasEffectiveReifier st.base other.quad.scope) other) := by
    intro other same kinds
    constructor
    · intro inPlace
      obtain ⟨c, found⟩ := Option.isSome_iff_exists.mp inPlace
      exact ⟨authored_of_inPlace found, (h.directed other.quad.scope other c rfl found).1⟩
    · rintro ⟨authored, moves⟩
      rcases h.complete other authored moves with inPlace | ⟨inBase, ordinary, original⟩
      · exact inPlace
      · have readOther : st.quadValuesOf other.quad = some q := same ▸ read
        have fresh := h.value.consistent.fresh
        rcases unsealed with kind | unsealed
        · exact absurd (kinds.mpr kind) moves.kind
        · refine absurd ⟨?_, (originallyDeclared_iff fresh readOther).mp original, ?_⟩ unsealed
          · rw [← ordinary]
            exact (mem_records_iff fresh readOther).mp inBase
          · rcases moves with ⟨-, declared⟩ | ⟨annotated, -⟩
            · exact (declared_iff h readOther).mp declared
            · rw [ordinary] at annotated
              cases annotated
  have flips : key.flip.kind = .reifier ↔ key.kind = .reifier := by
    obtain ⟨kind, quad⟩ := key
    cases kind <;> simp [RecordKind.flip]
  have readFlip : st.quadValuesOf key.flip.quad = some q := read
  rw [live_iff_unconverted h, ← Option.not_isSome_iff_eq_none, converted key rfl Iff.rfl,
    converted key.flip rfl flips, authored_iff h read, authored_iff h readFlip, moves_iff h read,
    moves_iff h readFlip, RdfDataset.Table, Record.flip_kind]
  tauto

theorem sealed_table (h : NormalState st) (read : st.quadValuesOf quad = some q)
    (member : q ∈ st.effectiveQuads) (sealedQuad : st.base.Sealed (· ∈ st.effectiveQuads) q) :
    (⟨.ordinary, quad⟩ : RecordKey) ∈ st.effective st.base ∨
      (⟨.annotationRow, quad⟩ : RecordKey) ∈ st.effective st.base := by
  have readKey : st.quadValuesOf (⟨.ordinary, quad⟩ : RecordKey).quad = some q := read
  have authored := (authored_iff h readKey).mpr ⟨member, Or.inl sealedQuad.1⟩
  rcases found : st.inPlace ⟨.ordinary, quad⟩ with - | c
  · exact Or.inl ((live_iff_unconverted h _).mpr (Or.inl ⟨authored, found⟩))
  · exact Or.inr (h.value.consistent.coherent.placed.target_live _ c found)

/-! ### Runs -/

theorem call_normal (h : NormalState st) {request : Call} {outcome : Except IriReadError Bool}
    (step : st.call rules request = some (st', outcome)) :
    NormalState st' ∧ st'.base = st.base := by
  cases request with
  | insert quad =>
    rcases keyOf_spec h.value.consistent.fresh rules quad with
      ⟨key, delta, resolved, extended, fresh, found⟩ | ⟨error, refused⟩
    · have h₁ := h.minted extended fresh
      have valid : ({ st with delta := delta } : MutableDataset).Valid key :=
        valid_of_traverse fresh found
      obtain ⟨st₁, run, -, sameBase, -⟩ := insertKey_member h₁.value valid
      have step : (({ st with delta := delta } : MutableDataset).insertKey key).map
          (fun reached => (reached.1, Except.ok reached.2)) = some (st', outcome) := by
        have eq := step
        rw [call, insert, resolved] at eq
        exact eq
      rw [run, Option.map_some, Option.some.injEq, Prod.mk.injEq] at step
      obtain ⟨rfl, -⟩ := step
      exact ⟨insertKey_normal h₁ valid run, sameBase⟩
    · rw [call, insert, refused, Option.some.injEq, Prod.mk.injEq] at step
      obtain ⟨rfl, -⟩ := step
      exact ⟨h, rfl⟩
  | remove quad =>
    rw [call, remove] at step
    rcases found : st.keyOfExisting quad with - | key
    · rw [found] at step
      cases step
      exact ⟨h, rfl⟩
    · have valid := valid_existing h.value.consistent found
      obtain ⟨st₁, run, -, sameBase, -⟩ := removeKey_member h.value valid
      rw [found] at step
      simp only [run, Option.map_some, Option.some.injEq, Prod.mk.injEq] at step
      obtain ⟨rfl, -⟩ := step
      exact ⟨removeKey_normal h valid run, sameBase⟩

theorem run_normal (h : NormalState st) {requests : List Call} {events : List Event}
    (runs : st.run rules requests = some (st', events)) :
    NormalState st' ∧ st'.base = st.base := by
  induction requests generalizing st events with
  | nil =>
    cases runs
    exact ⟨h, rfl⟩
  | cons request rest ih =>
    rw [run, Option.bind_eq_some_iff] at runs
    obtain ⟨⟨next, outcome⟩, step, runs⟩ := runs
    obtain ⟨h₁, base₁⟩ := call_normal h step
    rw [Option.map_eq_some_iff] at runs
    obtain ⟨⟨last, later⟩, runs, same⟩ := runs
    cases same
    obtain ⟨h₂, base₂⟩ := ih h₁ runs
    exact ⟨h₂, base₂.trans base₁⟩

/-- Two runs of value-level calls that end with the same effective quads end with the
same effective records, whatever their order and their refusals, but for one family of
quads: an ordinary row that the base holds beside its own declaration stays ordinary or
an annotation as the run left it. -/
theorem effectiveRecords_eq {rules' : LexicalRules} {base : RdfDataset} {order order' : HashOrder}
    {mode mode' : GraphExistenceMode} {requests requests' : List Call} {events events' : List Event}
    (runs : (newWithGraphExistence base order mode).run rules requests = some (st, events))
    (runs' : (newWithGraphExistence base order' mode').run rules' requests' = some (st', events'))
    (same : ∀ q, q ∈ st.effectiveQuads ↔ q ∈ st'.effectiveQuads) (record : RecordValues) :
    (record.kind = .reifier ∨ ¬base.Sealed (· ∈ st.effectiveQuads) record.quad →
      (record ∈ st.effectiveRecords ↔ record ∈ st'.effectiveRecords)) ∧
    (base.Sealed (· ∈ st.effectiveQuads) record.quad → record.quad ∈ st.effectiveQuads →
      (⟨.ordinary, record.quad⟩ ∈ st.effectiveRecords ∨
        ⟨.annotationRow, record.quad⟩ ∈ st.effectiveRecords)) := by
  obtain ⟨h, sameBase⟩ := run_normal (normalState_branch base order mode) runs
  obtain ⟨h', sameBase'⟩ := run_normal (normalState_branch base order' mode') runs'
  have sameBase : st.base = base := sameBase
  have sameBase' : st'.base = base := sameBase'
  subst sameBase
  have sets : (· ∈ st.effectiveQuads) = (· ∈ st'.effectiveQuads) := funext fun q => propext (same q)
  have listed : ∀ {st : MutableDataset}, NormalState st → ∀ record : RecordValues,
      record.kind = .reifier ∨ ¬st.base.Sealed (· ∈ st.effectiveQuads) record.quad →
        (record ∈ st.effectiveRecords ↔
          st.base.Table (· ∈ st.effectiveQuads) record.quad record.kind) := by
    intro st h record unsealed
    rw [mem_effectiveRecords h.value.consistent]
    constructor
    · rintro ⟨key, live, kind, read⟩
      rw [← kind] at unsealed ⊢
      exact (normal_form h read unsealed).mp live
    · intro table
      obtain ⟨key, -, read⟩ := (mem_effectiveQuads h.value.consistent).mp table.1
      have readKey : st.quadValuesOf (⟨record.kind, key.quad⟩ : RecordKey).quad =
          some record.quad := read
      exact ⟨_, (normal_form h readKey unsealed).mpr table, rfl, read⟩
  constructor
  · intro unsealed
    have unsealed' : record.kind = .reifier ∨
        ¬st'.base.Sealed (· ∈ st'.effectiveQuads) record.quad := by
      rw [sameBase', ← sets]
      exact unsealed
    rw [listed h record unsealed, listed h' record unsealed', sameBase', sets]
  · intro sealedQuad member
    obtain ⟨key, -, read⟩ := (mem_effectiveQuads h.value.consistent).mp member
    rw [mem_effectiveRecords h.value.consistent, mem_effectiveRecords h.value.consistent]
    rcases sealed_table h read member sealedQuad with live | live
    · exact Or.inl ⟨_, live, rfl, read⟩
    · exact Or.inr ⟨_, live, rfl, read⟩

/-- A row `a:s a:p a:o` and its own declaration in the default graph. -/
def declaredQuad : QuadValues := ⟨.iri "a:s", .iri "a:p", .iri "a:o", none⟩

def declaration : QuadValues :=
  ⟨.iri "a:s", .iri rdfReifies, .triple (.iri "a:s") (.iri "a:p") (.iri "a:o"), none⟩

/-- Declaring before or after the row is inserted makes no difference. -/
theorem effectiveRecords_eq_reordered : ∃ st events st' events',
    (newWithGraphExistence RdfDataset.empty .listed .implicit).run .permissive
      [.insert declaration, .insert declaredQuad] = some (st, events) ∧
    (newWithGraphExistence RdfDataset.empty .listed .implicit).run .permissive
      [.insert declaredQuad, .insert declaration] = some (st', events') ∧
    ((⟨.annotationRow, declaredQuad⟩ : RecordValues) ∈ st.effectiveRecords ↔
      (⟨.annotationRow, declaredQuad⟩ : RecordValues) ∈ st'.effectiveRecords) := by
  have sets : (((newWithGraphExistence RdfDataset.empty .listed .implicit).run .permissive
      [.insert declaration, .insert declaredQuad]).map fun last => last.1.effectiveQuads.toFinset) =
        some {declaration, declaredQuad} ∧
      (((newWithGraphExistence RdfDataset.empty .listed .implicit).run .permissive
        [.insert declaredQuad, .insert declaration]).map fun last =>
          last.1.effectiveQuads.toFinset) = some {declaration, declaredQuad} := by
    decide +kernel
  obtain ⟨first, second⟩ := sets
  obtain ⟨⟨st, events⟩, runs, quads⟩ := Option.map_eq_some_iff.mp first
  obtain ⟨⟨st', events'⟩, runs', quads'⟩ := Option.map_eq_some_iff.mp second
  have same : ∀ q, q ∈ st.effectiveQuads ↔ q ∈ st'.effectiveQuads := by
    intro q
    rw [← List.mem_toFinset, ← List.mem_toFinset, quads, quads']
  refine ⟨st, events, st', events', runs, runs', ?_⟩
  refine (effectiveRecords_eq runs runs' same ⟨.annotationRow, declaredQuad⟩).1 (Or.inr ?_)
  rintro ⟨held, -⟩
  cases held

def declaredBase : RdfDataset where
  terms := [.iri "a:s", .iri "a:p", .iri "a:o", .iri rdfReifies,
    .triple (.iri "a:s") (.iri "a:p") (.iri "a:o")]
  quads := [⟨0, 1, 2, none⟩]
  reifiers := [⟨0, 4, none⟩]
  annotations := []
  namedGraphs := []
  terms_nodup := by decide
  terms_canonical := by decide
  quads_nodup := taggedBase.quads_nodup
  reifiers_nodup := by decide
  annotations_nodup := RdfDataset.empty.annotations_nodup
  quads_valid := by decide
  reifiers_valid := by
    rintro row member
    obtain rfl := List.mem_singleton.mp member
    exact ⟨by decide, ⟨_, _, _, rfl⟩, by simp⟩
  annotations_valid := by simp
  namedGraphs_valid := by simp
  quads_named := taggedBase.quads_named
  reifiers_named := by simp
  annotations_named := RdfDataset.empty.annotations_named
  reifies_interned _ := by decide
  reifiers_sorted := List.pairwise_singleton _ _
  annotations_sorted := RdfDataset.empty.annotations_sorted

/-- Withdrawing the base's declaration and restoring it leaves the same quads in other
tables than no call at all. -/
theorem effectiveRecords_ne_of_redeclared :
    (((newWithGraphExistence declaredBase .listed .implicit).run .permissive []).map fun last =>
        last.1.effectiveQuads.toFinset) =
      (((newWithGraphExistence declaredBase .listed .implicit).run .permissive
        [.remove declaration, .insert declaration]).map fun last =>
          last.1.effectiveQuads.toFinset) ∧
    (((newWithGraphExistence declaredBase .listed .implicit).run .permissive []).map fun last =>
        last.1.effectiveRecords.toFinset) = some {⟨.ordinary, declaredQuad⟩, ⟨.reifier, declaration⟩} ∧
    (((newWithGraphExistence declaredBase .listed .implicit).run .permissive
        [.remove declaration, .insert declaration]).map fun last =>
          last.1.effectiveRecords.toFinset) =
      some {⟨.annotationRow, declaredQuad⟩, ⟨.reifier, declaration⟩} := by
  decide +kernel

end MutableDataset

end Purrdf
