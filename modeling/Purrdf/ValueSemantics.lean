import Purrdf.MutableBookkeeping

/-!
# Set semantics of value mutation

A branch mutated by value is a set of quads: a quad is a member exactly when the last
call that named it was an accepted insertion, or no call named it and the base holds
it. Reclassification is invisible here.
-/

namespace Purrdf

namespace RdfDataset

variable (base : RdfDataset)

/-- What a value denotes on top of a base: the base term it canonicalizes to, where the
base holds that, or else itself. -/
def identity (value : TermValue) : TermId ⊕ TermValue :=
  match base.termIdByValue value with
  | some id => .inl id
  | none => .inr value

/-- Whether two quads name the same terms on top of a base. -/
def sameQuad (q q' : QuadValues) : Bool :=
  decide (q.mapIds base.identity = q'.mapIds base.identity)

def holds (q : QuadValues) : Bool :=
  match q.traverse base.termIdByValue with
  | some ids => RecordKind.all.any fun kind => decide ((⟨kind, ids⟩ : Record TermId) ∈ base.recordIds)
  | none => false

end RdfDataset

open PhysicalRows ClassifiedRows

namespace MutableDataset

variable {st st' : MutableDataset} {key : RecordKey} {quad : QuadKey} {rules : LexicalRules}

/-- The invariant of a branch mutated by value: the base roles of a quad stand together,
and every row mentions interned terms only. -/
structure ValueState (st : MutableDataset) : Prop where
  consistent : Consistent st
  whole : ∀ key ∈ st.base.records,
    (∃ kind, Authored st.base st.toClassifiedRows ⟨kind, key.quad⟩) →
      Authored st.base st.toClassifiedRows key
  valid : ∀ key, Authored st.base st.toClassifiedRows key → st.Valid key.quad

theorem Valid.congr (base : st'.base = st.base) (delta : st'.delta = st.delta)
    (valid : st.Valid quad) : st'.Valid quad := by
  intro id member
  have held := valid id member
  rcases id with id | id
  · rw [mutValue, base]
    exact held
  · rw [mutValue, delta]
    exact held

theorem containsKey_iff_authored (h : Consistent st) :
    st.containsKey st.base quad = true ↔
      ∃ kind, Authored st.base st.toClassifiedRows ⟨kind, quad⟩ := by
  rw [containsKey_iff, h.coherent.live_iff_authored]

theorem hidden_of_absent (h : Consistent st) (absent : Absent st.base st.toClassifiedRows key.quad)
    (inBase : key ∈ st.base.records) : Hidden st.base st.toClassifiedRows key :=
  ⟨inBase, absent key.kind, absent.inPlace h.coherent key rfl⟩

theorem ValueState.not_hidden (h : ValueState st)
    (held : ∃ kind, Authored st.base st.toClassifiedRows ⟨kind, key.quad⟩) :
    ¬Hidden st.base st.toClassifiedRows key :=
  fun hidden => hidden.not_authored (h.whole key hidden.1 held)

theorem newRow_iff (h : ValueState st) (declaration : Bool) :
    (∃ key, NewRow st.base st.toClassifiedRows quad declaration key) ↔
      st.containsKey st.base quad = false := by
  rw [← Bool.not_eq_true, containsKey_iff_authored h.consistent]
  constructor
  · rintro ⟨⟨kind, quad'⟩, rfl, hidden | ⟨unheld, -⟩⟩ held
    · exact h.not_hidden held hidden
    · obtain ⟨kind', live⟩ := h.consistent.coherent.live_iff_authored.mpr held
      exact unheld.2 kind' live
  · intro missing
    have absent : Absent st.base st.toClassifiedRows quad := by
      intro kind live
      exact missing (h.consistent.coherent.live_iff_authored.mp ⟨kind, live⟩)
    by_cases visible : ∀ kind, ¬Hidden st.base st.toClassifiedRows ⟨kind, quad⟩
    · exact ⟨⟨homeKind declaration, quad⟩, rfl, Or.inr ⟨⟨visible, absent⟩, rfl⟩⟩
    · rw [not_forall] at visible
      obtain ⟨kind, hidden⟩ := visible
      exact ⟨⟨kind, quad⟩, rfl, Or.inl (not_not.mp hidden)⟩

theorem insertKey_member (h : ValueState st) (valid : st.Valid quad) :
    ∃ st', st.insertKey quad = some (st', !st.containsKey st.base quad) ∧ ValueState st' ∧
      st'.base = st.base ∧ st'.delta = st.delta ∧ ∀ other,
        st'.containsKey st'.base other = (decide (other = quad) || st.containsKey st.base other) := by
  obtain ⟨st', changed, declaration, run, advanced, delta, -, admitted⟩ :=
    insertKey_spec h.consistent valid
  have reported : changed = !st.containsKey st.base quad := by
    rw [Bool.eq_iff_iff, admitted.changed_iff, newRow_iff h declaration, Bool.not_eq_true']
  have member : ∀ other, (∃ kind, Authored st.base st'.toClassifiedRows ⟨kind, other⟩) ↔
      other = quad ∨ ∃ kind, Authored st.base st.toClassifiedRows ⟨kind, other⟩ := by
    intro other
    simp only [admitted.authored]
    constructor
    · rintro ⟨kind, authored | ⟨rfl, -⟩⟩
      · exact Or.inr ⟨kind, authored⟩
      · exact Or.inl rfl
    · rintro (rfl | ⟨kind, authored⟩)
      · by_cases held : st.containsKey st.base other = true
        · obtain ⟨kind, authored⟩ := (containsKey_iff_authored h.consistent).mp held
          exact ⟨kind, Or.inl authored⟩
        · obtain ⟨⟨kind, quad'⟩, new⟩ :=
            (newRow_iff h declaration).mpr (Bool.not_eq_true _ ▸ held)
          obtain rfl := new.1
          exact ⟨kind, Or.inr new⟩
      · exact ⟨kind, Or.inl authored⟩
  refine ⟨st', by rw [run, reported], ⟨advanced.consistent, ?_, ?_⟩, advanced.base, delta, ?_⟩
  · rw [advanced.base]
    intro key inBase held
    rw [member] at held
    rw [admitted.authored]
    by_cases before : ∃ kind, Authored st.base st.toClassifiedRows ⟨kind, key.quad⟩
    · exact Or.inl (h.whole key inBase before)
    · -- the quad was absent, so the insertion brought its base roles back together
      right
      refine ⟨held.resolve_right before, Or.inl (hidden_of_absent h.consistent ?_ inBase)⟩
      exact fun kind live => before (h.consistent.coherent.live_iff_authored.mp ⟨kind, live⟩)
  · rw [advanced.base]
    intro key authored
    refine Valid.congr advanced.base delta ?_
    rcases (admitted.authored key).mp authored with authored | ⟨same, -⟩
    · exact h.valid key authored
    · exact same ▸ valid
  · intro other
    rw [Bool.eq_iff_iff, Bool.or_eq_true, decide_eq_true_eq, containsKey_iff_authored h.consistent,
      containsKey_iff_authored advanced.consistent, advanced.base, member]

theorem removeKey_member (h : ValueState st) (valid : st.Valid quad) :
    ∃ st', st.removeKey quad = some (st', st.containsKey st.base quad) ∧ ValueState st' ∧
      st'.base = st.base ∧ st'.delta = st.delta ∧ ∀ other,
        st'.containsKey st'.base other = (!decide (other = quad) && st.containsKey st.base other) := by
  obtain ⟨st', changed, declaration, run, advanced, delta, -, withdrawn⟩ :=
    removeKey_spec h.consistent valid
  have reported : changed = st.containsKey st.base quad := by
    rw [Bool.eq_iff_iff, withdrawn.changed_iff, containsKey_iff, Absent]
    simp
  have member : ∀ other, (∃ kind, Authored st.base st'.toClassifiedRows ⟨kind, other⟩) ↔
      other ≠ quad ∧ ∃ kind, Authored st.base st.toClassifiedRows ⟨kind, other⟩ := by
    intro other
    simp only [withdrawn.authored]
    constructor
    · rintro ⟨kind, authored, differs⟩
      exact ⟨differs, kind, authored⟩
    · rintro ⟨differs, kind, authored⟩
      exact ⟨kind, authored, differs⟩
  refine ⟨st', by rw [run, reported], ⟨advanced.consistent, ?_, ?_⟩, advanced.base, delta, ?_⟩
  · rw [advanced.base]
    intro key inBase held
    rw [member] at held
    rw [withdrawn.authored]
    exact ⟨h.whole key inBase held.2, held.1⟩
  · rw [advanced.base]
    intro key authored
    exact Valid.congr advanced.base delta (h.valid key ((withdrawn.authored key).mp authored).1)
  · intro other
    rw [Bool.eq_iff_iff, Bool.and_eq_true, Bool.not_eq_true', decide_eq_false_iff_not,
      containsKey_iff_authored h.consistent, containsKey_iff_authored advanced.consistent,
      advanced.base, member]

/-! ### Values and keys -/

theorem idIn_eq_iff {base : RdfDataset} {delta : DeltaBuilder} (fresh : delta.Fresh base)
    {value value' : TermValue} {id : MutTermId} (found : idIn base delta value = some id) :
    idIn base delta value' = some id ↔ base.identity value = base.identity value' := by
  simp only [idIn, RdfDataset.identity] at found ⊢
  rcases known : base.termIdByValue value with - | baseId
  · rw [known] at found
    simp only [Option.map_eq_some_iff] at found
    obtain ⟨n, held, rfl⟩ := found
    rcases known' : base.termIdByValue value' with - | baseId'
    · simp only [Option.map_eq_some_iff, MutTermId.delta.injEq, exists_eq_right, Sum.inr.injEq]
      rw [DeltaBuilder.find_eq_some fresh.nodup] at held ⊢
      rw [held, Option.some.injEq]
    · simp
  · rw [known] at found
    cases found
    rcases known' : base.termIdByValue value' with - | baseId'
    · simp
    · simp [eq_comm]

theorem idIn_congr {base : RdfDataset} {delta : DeltaBuilder} {value value' : TermValue}
    (same : base.identity value = base.identity value') :
    idIn base delta value = idIn base delta value' := by
  simp only [RdfDataset.identity] at same
  simp only [idIn]
  rcases known : base.termIdByValue value with - | baseId <;>
    rcases known' : base.termIdByValue value' with - | baseId' <;> simp_all

theorem sameQuad_iff {base : RdfDataset} {q q' : QuadValues} :
    base.sameQuad q q' = true ↔ base.identity q.s = base.identity q'.s ∧
      base.identity q.p = base.identity q'.p ∧ base.identity q.o = base.identity q'.o ∧
      q.g.map base.identity = q'.g.map base.identity := by
  simp [RdfDataset.sameQuad, Quad.mapIds]

theorem keyOfExisting_congr {q q' : QuadValues} (same : st.base.sameQuad q q' = true) :
    st.keyOfExisting q = st.keyOfExisting q' := by
  obtain ⟨hs, hp, ho, hg⟩ := sameQuad_iff.mp same
  rw [keyOfExisting_eq, keyOfExisting_eq]
  refine Option.ext fun key => ?_
  rw [Quad.traverse_eq_some, Quad.traverse_eq_some, idIn_congr hs, idIn_congr hp, idIn_congr ho]
  have graph : q.g.map (idIn st.base st.delta) = q'.g.map (idIn st.base st.delta) := by
    rcases hq : q.g with - | v <;> rcases hq' : q'.g with - | v'
    · rfl
    · simp [hq, hq'] at hg
    · simp [hq, hq'] at hg
    · rw [hq, hq', Option.map_some, Option.map_some, Option.some.injEq] at hg
      rw [Option.map_some, Option.map_some, idIn_congr hg]
  rw [graph]

theorem keyOfExisting_eq_iff (fresh : st.delta.Fresh st.base) {q q' : QuadValues} {key : QuadKey}
    (found : st.keyOfExisting q = some key) :
    st.keyOfExisting q' = some key ↔ st.base.sameQuad q q' = true := by
  rw [keyOfExisting_eq, Quad.traverse_eq_some] at found ⊢
  obtain ⟨hs, hp, ho, hg⟩ := found
  rw [sameQuad_iff, idIn_eq_iff fresh hs, idIn_eq_iff fresh hp, idIn_eq_iff fresh ho]
  have graph : q'.g.map (idIn st.base st.delta) = key.g.map some ↔
      q.g.map st.base.identity = q'.g.map st.base.identity := by
    rcases hk : key.g with - | id <;> rcases hq : q.g with - | v <;>
      rcases hq' : q'.g with - | v' <;> simp [hk, hq] at hg ⊢
    exact idIn_eq_iff fresh hg
  rw [graph]

theorem contains_minted (h : ValueState st) {delta : DeltaBuilder} (extended : st.delta.Extends delta)
    (fresh : delta.Fresh st.base) (q : QuadValues) :
    ({ st with delta := delta } : MutableDataset).contains q = st.contains q := by
  have minted := h.consistent.minted fresh
  rw [Bool.eq_iff_iff]
  simp only [contains, keyOfExisting_eq]
  constructor
  · intro member
    rcases found : q.traverse (idIn st.base delta) with - | key
    · simp [found] at member
    · simp only [found] at member
      obtain ⟨kind, authored⟩ := (containsKey_iff_authored minted).mp member
      have valid : st.Valid key := h.valid ⟨kind, key⟩ authored
      have before : q.traverse (idIn st.base st.delta) = some key := by
        refine Quad.traverse_mono (fun value id inKey held => ?_) found
        obtain ⟨own, read⟩ := Option.isSome_iff_exists.mp (valid id inKey)
        have own' := idIn_of_mutValue h.consistent.fresh read
        have again := idIn_extends extended h.consistent.fresh fresh own'
        have same := (idIn_eq_iff fresh again).mp held
        rw [← idIn_congr same, own']
      simp only [before]
      exact member
  · intro member
    rcases found : q.traverse (idIn st.base st.delta) with - | key
    · simp [found] at member
    · simp only [found] at member
      have after : q.traverse (idIn st.base delta) = some key :=
        Quad.traverse_mono (fun _ _ _ held => idIn_extends extended h.consistent.fresh fresh held) found
      simp only [after]
      exact member

/-! ### One call -/

inductive Call where
  | insert (quad : QuadValues)
  | remove (quad : QuadValues)
deriving DecidableEq, Repr

def Call.named : Call → QuadValues
  | .insert quad => quad
  | .remove quad => quad

def Call.isInsert : Call → Bool
  | .insert _ => true
  | .remove _ => false

def call (rules : LexicalRules) (st : MutableDataset) :
    Call → Option (MutableDataset × Except IriReadError Bool)
  | .insert quad => st.insert rules quad
  | .remove quad => (st.remove quad).map fun (st, changed) => (st, .ok changed)

abbrev Event := Call × Except IriReadError Bool

/-- Whether an event decides the membership of a quad: it names the quad's terms and was
not refused. -/
def Event.decides (base : RdfDataset) (q : QuadValues) (event : Event) : Bool :=
  base.sameQuad event.1.named q && event.2.isOk

def Event.settle (base : RdfDataset) (q : QuadValues) (event : Event) (held : Bool) : Bool :=
  if event.decides base q then event.1.isInsert else held

theorem insert_spec (h : ValueState st) (rules : LexicalRules) (quad : QuadValues) :
    (∃ st', st.insert rules quad = some (st', .ok !st.contains quad) ∧ ValueState st' ∧
      st'.base = st.base ∧
      ∀ q, st'.contains q = (st.base.sameQuad quad q || st.contains q)) ∨
    ∃ error, st.insert rules quad = some (st, .error error) := by
  rcases keyOf_spec h.consistent.fresh rules quad with
    ⟨key, delta, resolved, extended, fresh, found⟩ | ⟨error, refused⟩
  · left
    have h₁ : ValueState { st with delta := delta } :=
      ⟨h.consistent.minted fresh, h.whole, fun key authored =>
        (h.valid key authored).extended extended⟩
    have own : ({ st with delta := delta } : MutableDataset).keyOfExisting quad = some key := by
      rw [keyOfExisting_eq]
      exact found
    have member : ∀ q key, ({ st with delta := delta } : MutableDataset).keyOfExisting q = some key →
        st.contains q = st.containsKey st.base key := by
      intro q key found
      rw [← contains_minted h extended fresh q, contains, found]
    obtain ⟨st', run, state, sameBase, sameDelta, members⟩ :=
      insertKey_member h₁ (valid_of_traverse fresh found)
    refine ⟨st', ?_, state, sameBase, fun q => ?_⟩
    · rw [insert, resolved, member quad key own]
      simp only [run, Option.map_some]
    · have sameKey : st'.keyOfExisting q =
          ({ st with delta := delta } : MutableDataset).keyOfExisting q := by
        rw [keyOfExisting_eq, keyOfExisting_eq, sameBase, sameDelta]
      have named : ∀ key', ({ st with delta := delta } : MutableDataset).keyOfExisting q = some key' →
          (decide (key' = key) = st.base.sameQuad quad q) := by
        intro key' found'
        have same : _ = some key ↔ st.base.sameQuad quad q = true :=
          keyOfExisting_eq_iff h₁.consistent.fresh own
        rw [found', Option.some.injEq] at same
        rw [Bool.eq_iff_iff, decide_eq_true_eq]
        exact same
      rw [contains, sameKey]
      rcases found' : ({ st with delta := delta } : MutableDataset).keyOfExisting q with - | key'
      · have missing : st.contains q = false := by
          rw [← contains_minted h extended fresh q, contains, found']
        have differs : st.base.sameQuad quad q = false := by
          rw [← Bool.not_eq_true, ← keyOfExisting_eq_iff h₁.consistent.fresh own, found']
          simp
        rw [missing, differs]
        rfl
      · rw [member q key' found', ← named key' found']
        exact members key'
  · right
    exact ⟨error, by rw [insert, refused]⟩

theorem remove_spec (h : ValueState st) (quad : QuadValues) :
    ∃ st', st.remove quad = some (st', st.contains quad) ∧ ValueState st' ∧
      st'.base = st.base ∧
      ∀ q, st'.contains q = (!st.base.sameQuad quad q && st.contains q) := by
  rcases own : st.keyOfExisting quad with - | key
  · refine ⟨st, by rw [remove, contains, own], h, rfl, fun q => ?_⟩
    by_cases same : st.base.sameQuad quad q = true
    · rw [contains, ← keyOfExisting_congr same, own, same]
      rfl
    · rw [Bool.not_eq_true] at same
      simp [same]
  · obtain ⟨st', run, state, sameBase, sameDelta, members⟩ :=
      removeKey_member h (valid_existing h.consistent own)
    refine ⟨st', by rw [remove, contains, own]; exact run, state, sameBase, fun q => ?_⟩
    have sameKey : st'.keyOfExisting q = st.keyOfExisting q := by
      rw [keyOfExisting_eq, keyOfExisting_eq, sameBase, sameDelta]
    rw [contains, contains, sameKey]
    rcases found : st.keyOfExisting q with - | key'
    · simp
    · have same : st.keyOfExisting q = some key ↔ st.base.sameQuad quad q = true :=
        keyOfExisting_eq_iff h.consistent.fresh own
      rw [found, Option.some.injEq] at same
      have named : decide (key' = key) = st.base.sameQuad quad q := by
        rw [Bool.eq_iff_iff, decide_eq_true_eq]
        exact same
      rw [← named]
      exact members key'

/-- A call settles the membership of the quad it names and of no other, and returns
whether that membership changed. -/
theorem call_spec (h : ValueState st) (rules : LexicalRules) (request : Call) :
    ∃ st' outcome, st.call rules request = some (st', outcome) ∧ ValueState st' ∧
      st'.base = st.base ∧
      (∀ q, st'.contains q = Event.settle st.base q (request, outcome) (st.contains q)) ∧
      (∀ changed, outcome = .ok changed →
        changed = (st'.contains request.named != st.contains request.named)) ∧
      ∀ error, outcome = .error error → st' = st := by
  have own : ∀ q, st.base.sameQuad q q = true := fun q => decide_eq_true rfl
  cases request with
  | insert quad =>
    rcases insert_spec h rules quad with ⟨st', run, state, base, members⟩ | ⟨error, refused⟩
    · refine ⟨st', _, run, state, base, fun q => ?_, ?_, by rintro error ⟨⟩⟩
      · rw [members, Event.settle, Event.decides]
        cases same : st.base.sameQuad quad q <;>
          simp [Call.named, Call.isInsert, Except.isOk, Except.toBool, same]
      · rintro changed ⟨⟩
        simp only [Call.named, members, own]
        cases st.contains quad <;> rfl
    · refine ⟨st, _, refused, h, rfl, fun q => ?_, by rintro changed ⟨⟩, fun _ _ => rfl⟩
      simp [Event.settle, Event.decides, Except.isOk, Except.toBool]
  | remove quad =>
    obtain ⟨st', run, state, base, members⟩ := remove_spec h quad
    refine ⟨st', .ok (st.contains quad), by rw [call, run]; rfl, state, base, fun q => ?_, ?_,
      by rintro error ⟨⟩⟩
    · rw [members, Event.settle, Event.decides]
      cases same : st.base.sameQuad quad q <;>
        simp [Call.named, Call.isInsert, Except.isOk, Except.toBool, same]
    · rintro changed ⟨⟩
      simp only [Call.named, members, own]
      cases st.contains quad <;> rfl

/-! ### Whole runs -/

/-- A sequence of calls, with what each returned; `none` is a panic. -/
def run (rules : LexicalRules) (st : MutableDataset) :
    List Call → Option (MutableDataset × List Event)
  | [] => some (st, [])
  | request :: rest =>
    (st.call rules request).bind fun (next, outcome) =>
      (run rules next rest).map fun (last, events) => (last, (request, outcome) :: events)

def membership (base : RdfDataset) (events : List Event) (q : QuadValues) : Bool :=
  match (events.filter (Event.decides base q)).getLast? with
  | some event => event.1.isInsert
  | none => base.holds q

theorem membership_concat (base : RdfDataset) (events : List Event) (event : Event)
    (q : QuadValues) : membership base (events ++ [event]) q =
      event.settle base q (membership base events q) := by
  rw [membership, List.filter_append, Event.settle]
  by_cases decided : event.decides base q = true
  · rw [if_pos decided, List.filter_cons_of_pos decided, List.filter_nil, List.getLast?_concat]
  · rw [if_neg decided, List.filter_cons_of_neg (by simpa using decided), List.filter_nil,
      List.append_nil, membership]

theorem base_valid {base : RdfDataset} {row : Record TermId} (member : row ∈ base.recordIds) :
    ∀ id ∈ row.quad.ids, (base.termValue id).isSome := by
  have bound : ∀ id, id < base.terms.length → (base.termValue id).isSome := by
    intro id below
    rw [RdfDataset.termValue, List.getElem?_eq_getElem below]
    rfl
  obtain ⟨kind, q⟩ := row
  rcases base.mem_recordIds.mp member with ⟨-, ordinary⟩ | ⟨-, declared⟩ | ⟨-, annotated⟩
  · exact fun id inRow => bound id (base.quads_valid q ordinary id inRow)
  · intro id inRow
    obtain ⟨predicate, s, p, o, object⟩ := base.reifierQuads_declaration declared
    simp only [RdfDataset.reifierQuads, List.mem_flatMap, List.mem_map] at declared
    obtain ⟨reifies, -, row, inTable, rfl⟩ := declared
    obtain ⟨subject, -, graph⟩ := base.reifiers_valid row inTable
    simp only [RdfDataset.reifierQuad, Quad.ids, List.mem_cons, Option.mem_toList] at inRow
    rcases inRow with rfl | rfl | rfl | inGraph
    · exact bound _ subject
    · exact Option.isSome_iff_exists.mpr ⟨_, predicate⟩
    · exact Option.isSome_iff_exists.mpr ⟨_, object⟩
    · exact bound _ (graph id inGraph)
  · exact fun id inRow => bound id (base.annotations_valid q annotated id inRow)

variable {base : RdfDataset} {order : HashOrder} {mode : GraphExistenceMode}

theorem authored_branch : Authored base
    (newWithGraphExistence base order mode).toClassifiedRows key ↔ key ∈ base.records := by
  simp [Authored, newWithGraphExistence, inPlace, conversionsOf, effective]

theorem valueState_branch : ValueState (newWithGraphExistence base order mode) := by
  constructor
  · exact consistent_branch base order mode
  · exact fun key inBase _ => authored_branch.mpr inBase
  · intro key authored
    obtain ⟨q, same, member⟩ := RdfDataset.mem_records.mp (authored_branch.mp authored)
    rw [same]
    intro id inKey
    have ids : (baseKey q).ids = q.ids.map .base := by
      rcases graph : q.g with - | g <;> simp [Quad.ids, baseKey, Quad.mapIds, graph]
    rw [ids, List.mem_map] at inKey
    obtain ⟨id', inRow, rfl⟩ := inKey
    exact base_valid member id' inRow

theorem contains_branch (q : QuadValues) :
    (newWithGraphExistence base order mode).contains q = base.holds q := by
  have probe : ∀ value, idIn base {} value = (base.termIdByValue value).map .base := by
    intro value
    rw [idIn]
    rcases base.termIdByValue value with - | id <;> rfl
  have key : (newWithGraphExistence base order mode).keyOfExisting q =
      (q.traverse base.termIdByValue).map baseKey := by
    rw [keyOfExisting_eq]
    have probes : idIn base {} = fun value => (base.termIdByValue value).map .base := funext probe
    exact (congrArg q.traverse probes).trans (Quad.traverse_map _ _ q)
  rw [contains, key, RdfDataset.holds]
  rcases q.traverse base.termIdByValue with - | ids
  · rfl
  · rw [Bool.eq_iff_iff]
    have rows : effective base (newWithGraphExistence base order mode).toPhysicalRows =
        base.records := by
      simp [effective, newWithGraphExistence]
    have member : ∀ kind, (⟨kind, baseKey ids⟩ : RecordKey) ∈ base.records ↔
        (⟨kind, ids⟩ : Record TermId) ∈ base.recordIds := by
      intro kind
      rw [RdfDataset.mem_records]
      constructor
      · rintro ⟨q', same, found⟩
        rw [baseKey_injective same]
        exact found
      · exact fun found => ⟨ids, rfl, found⟩
    have contained : (newWithGraphExistence base order mode).containsKey base (baseKey ids) = true ↔
        ∃ kind, (⟨kind, ids⟩ : Record TermId) ∈ base.recordIds := by
      simp only [containsKey_iff, rows, member]
    refine contained.trans ?_
    simp only [List.any_eq_true, decide_eq_true_eq]
    constructor
    · rintro ⟨kind, found⟩
      exact ⟨kind, RecordKind.mem_all kind, found⟩
    · rintro ⟨kind, -, found⟩
      exact ⟨kind, found⟩

theorem run_spec (h : ValueState st) (earlier : List Event)
    (known : ∀ q, st.contains q = membership st.base earlier q) (requests : List Call) :
    ∃ last events, run rules st requests = some (last, events) ∧ ValueState last ∧
      last.base = st.base ∧ events.map (·.1) = requests ∧
      ∀ q, last.contains q = membership st.base (earlier ++ events) q := by
  induction requests generalizing st earlier with
  | nil => exact ⟨st, [], rfl, h, rfl, rfl, by simpa using known⟩
  | cons request rest ih =>
    obtain ⟨next, outcome, step, state, base, settled, -, -⟩ := call_spec h rules request
    have known' : ∀ q, next.contains q =
        membership next.base (earlier ++ [(request, outcome)]) q := by
      intro q
      rw [settled, known, base, membership_concat]
    obtain ⟨last, events, runs, state', base', requested, members⟩ :=
      ih state (earlier ++ [(request, outcome)]) known'
    refine ⟨last, (request, outcome) :: events, ?_, state', base'.trans base, ?_, fun q => ?_⟩
    · rw [run, step, Option.bind_some]
      exact congrArg (Option.map _) runs
    · rw [List.map_cons, requested]
    · rw [members, base, List.append_assoc, List.singleton_append]

/-- Value mutation is set semantics over every sequence of calls. A quad is a member
exactly when the last call that named it and was not refused was an insertion, or no
such call was made and the base holds it. Each call returns whether it changed the
membership of its own quad, and changes that of no other. -/
theorem contains_eq_membership (rules : LexicalRules) (base : RdfDataset) (order : HashOrder)
    (mode : GraphExistenceMode) (requests : List Call) :
    ∃ st events, (newWithGraphExistence base order mode).run rules requests = some (st, events) ∧
      events.map (·.1) = requests ∧ (∀ q, st.contains q = membership base events q) ∧
      ∀ request, ∃ st' outcome, st.call rules request = some (st', outcome) ∧
        (∀ changed, outcome = .ok changed →
          changed = (st'.contains request.named != st.contains request.named)) ∧
        (∀ error, outcome = .error error → st' = st) ∧
        ∀ q, base.sameQuad request.named q = false → st'.contains q = st.contains q := by
  have known : ∀ q, (newWithGraphExistence base order mode).contains q = membership base [] q :=
    contains_branch
  obtain ⟨st, events, runs, state, sameBase, requested, members⟩ :=
    run_spec valueState_branch [] known requests
  refine ⟨st, events, runs, requested, members, fun request => ?_⟩
  obtain ⟨st', outcome, step, -, -, settled, reported, refused⟩ := call_spec state rules request
  refine ⟨st', outcome, step, reported, refused, fun q differs => ?_⟩
  have sameBase : st.base = base := sameBase
  rw [settled, Event.settle, Event.decides, sameBase, differs, Bool.false_and,
    if_neg Bool.false_ne_true]

/-! ### Why membership is not by spelling -/

def verbatimMembership (base : RdfDataset) (requests : List Call) (q : QuadValues) : Bool :=
  match (requests.filter fun request => decide (request.named = q)).getLast? with
  | some request => request.isInsert
  | none => base.holds q

/-- A dataset with the one row `a:s a:p "x"@en`. -/
def taggedBase : RdfDataset where
  terms := [.iri "a:s", .iri "a:p", .literal "x" rdfLangString (some "en") none,
    .iri rdfLangString]
  quads := [⟨0, 1, 2, none⟩]
  reifiers := []
  annotations := []
  namedGraphs := []
  terms_nodup := by decide
  terms_canonical := by decide
  quads_nodup := by decide
  reifiers_nodup := RdfDataset.empty.reifiers_nodup
  annotations_nodup := RdfDataset.empty.annotations_nodup
  quads_valid := by decide
  reifiers_valid := by simp
  annotations_valid := by simp
  namedGraphs_valid := by simp
  quads_named := by simp
  reifiers_named := RdfDataset.empty.reifiers_named
  annotations_named := RdfDataset.empty.annotations_named
  reifies_interned := by simp
  reifiers_sorted := RdfDataset.empty.reifiers_sorted
  annotations_sorted := RdfDataset.empty.annotations_sorted

def taggedQuad (tag : String) : QuadValues :=
  ⟨.iri "a:s", .iri "a:p", .literal "x" rdfLangString (some tag) none, none⟩

def schemeRules : LexicalRules where
  checkAbsolute iri :=
    if ':' ∈ iri.toList then .ok ()
    else .error ⟨"iri-relative-no-base", "relative IRI without a base"⟩
  validateLiteral _ _ _ _ := .ok ()

def relativeQuad : QuadValues := ⟨.iri "s", .iri "a:p", .iri "a:o", none⟩

/-- The base probes literals in canonical form, so `"x"@EN` removes its `"x"@en`; and a
relative IRI is refused, so its insertion makes no member. -/
theorem contains_ne_verbatimMembership :
    ((newWithGraphExistence taggedBase .listed .rememberEmpty).run .permissive
      [.remove (taggedQuad "EN")]).any (fun reached => reached.1.contains (taggedQuad "en") !=
        verbatimMembership taggedBase [.remove (taggedQuad "EN")] (taggedQuad "en")) = true ∧
    ((newWithGraphExistence RdfDataset.empty .listed .rememberEmpty).run schemeRules
      [.insert relativeQuad]).any (fun reached => reached.1.contains relativeQuad !=
        verbatimMembership RdfDataset.empty [.insert relativeQuad] relativeQuad) = true := by
  decide +kernel

end MutableDataset

end Purrdf
