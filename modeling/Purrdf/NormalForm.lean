import Purrdf.ValueSemantics

/-!
# The normal form of classification

Under value mutation alone, the table a quad stands in is a function of the base and
of the set of effective quads. One family of rows is excepted: an ordinary row the
base holds beside its own declaration keeps its authored role until a declaration of
its subject changes.
-/

namespace Purrdf

open PhysicalRows ClassifiedRows

theorem originalReifier_iff {base : RdfDataset} {scope : Scope} :
    originalReifier base scope = true ↔
      ∃ key ∈ base.records, key.kind = .reifier ∧ key.quad.scope = scope := by
  obtain ⟨s, g⟩ := scope
  constructor
  · intro declared
    rcases s with id | id
    · simp only [originalReifier, List.any_eq_true, RdfDataset.mem_reifierQuadsOf, beq_iff_eq]
        at declared
      obtain ⟨q, ⟨member, rfl⟩, rfl⟩ := declared
      refine ⟨⟨.reifier, baseKey q⟩, RdfDataset.mem_records.mpr ⟨q, rfl, ?_⟩, rfl, rfl⟩
      exact base.mem_recordIds.mpr (Or.inr (Or.inl ⟨rfl, member⟩))
    · cases declared
  · rintro ⟨⟨kind, quad⟩, inBase, rfl, same⟩
    obtain ⟨q, rfl, member⟩ := RdfDataset.mem_records.mp inBase
    cases same
    rcases base.mem_recordIds.mp member with ⟨absurd, -⟩ | ⟨-, found⟩ | ⟨absurd, -⟩
    · cases absurd
    · simp only [originalReifier, baseKey, Quad.mapIds_s, List.any_eq_true,
        RdfDataset.mem_reifierQuadsOf, beq_iff_eq]
      exact ⟨q, ⟨found, rfl⟩, rfl⟩
    · cases absurd

namespace ClassifiedRows

variable {base : RdfDataset} {quad : QuadKey}

theorem hasEffectiveReifier_congr {t t' : ClassifiedRows} {scope : Scope} (h : Coherent base t)
    (h' : Coherent base t') (same : ∀ key : RecordKey, key.kind = .reifier →
      key.quad.scope = scope → (key ∈ t'.effective base ↔ key ∈ t.effective base)) :
    t'.hasEffectiveReifier base scope = t.hasEffectiveReifier base scope := by
  rw [Bool.eq_iff_iff, hasEffectiveReifier_iff h'.rows, hasEffectiveReifier_iff h.rows]
  constructor
  · rintro ⟨key, live, kind, inScope⟩
    exact ⟨key, (same key kind inScope).mp live, kind, inScope⟩
  · rintro ⟨key, live, kind, inScope⟩
    exact ⟨key, (same key kind inScope).mpr live, kind, inScope⟩

theorem Touched.scope {declaration : Bool} {other : QuadKey} (h : Touched declaration quad other) :
    other.scope = quad.scope := by
  rcases h with rfl | ⟨-, same⟩
  · rfl
  · exact same

theorem Admitted.declared {t t' : ClassifiedRows} {declaration changed : Bool}
    (h : Coherent base t) (admitted : Admitted base quad declaration changed t t') {other : QuadKey}
    (outside : ¬Touched declaration quad other) :
    t'.hasEffectiveReifier base other.scope = t.hasEffectiveReifier base other.scope := by
  refine hasEffectiveReifier_congr h admitted.coherent fun key kind inScope => ?_
  by_cases touched : Touched declaration quad key.quad
  · -- a plain quad shares the scope, but its insertion moves no declaration
    refine admitted.declarations ?_ key kind
    rcases declaration with - | -
    · rfl
    · exact absurd (Or.inr ⟨rfl, inScope.symm.trans touched.scope⟩) outside
  · exact admitted.live_other key touched

end ClassifiedRows

namespace MutableDataset

variable {st st' : MutableDataset} {key : RecordKey} {quad : QuadKey} {rules : LexicalRules}
  {base : RdfDataset}

/-- A base ordinary row whose scope the base itself declares. -/
def Exempt (base : RdfDataset) (key : RecordKey) : Prop :=
  key ∈ base.records ∧ key.kind = .ordinary ∧ originalReifier base key.quad.scope = true

/-- What value mutation preserves beyond membership: a row that is not the base's has
the role its shape asks for and is noted, conversions are the ones the declarations
call for, and only exempt rows may lack theirs. -/
structure NormalState (st : MutableDataset) : Prop where
  value : ValueState st
  home : ∀ key, Authored st.base st.toClassifiedRows key → key ∈ st.base.records ∨
    ((∀ kind, (⟨kind, key.quad⟩ : RecordKey) ∉ st.base.records) ∧
      ∀ declaration, st.declarationKey key.quad = some declaration →
        key.kind = homeKind declaration)
  noted : ∀ key, Authored st.base st.toClassifiedRows key → key ∉ st.base.records →
    key.kind = .ordinary → key ∈ (st.automatic.lookup key.quad.scope).getD []
  directed : ∀ scope, Directed st.base (st.hasEffectiveReifier st.base scope) (·.scope = scope)
    st.toClassifiedRows
  complete : ∀ key, Authored st.base st.toClassifiedRows key →
    Moves st.base (st.hasEffectiveReifier st.base key.quad.scope) key →
      (st.inPlace key).isSome ∨ Exempt st.base key

theorem normalState_branch (base : RdfDataset) (order : HashOrder) (mode : GraphExistenceMode) :
    NormalState (newWithGraphExistence base order mode) := by
  have wf : WellFormed base (newWithGraphExistence base order mode).toPhysicalRows :=
    (consistent_branch base order mode).coherent.rows
  have rows : effective base (newWithGraphExistence base order mode).toPhysicalRows =
      base.records := by
    simp [effective, newWithGraphExistence]
  have declared : ∀ scope, (newWithGraphExistence base order mode).hasEffectiveReifier base scope =
      originalReifier base scope := by
    intro scope
    rw [Bool.eq_iff_iff, hasEffectiveReifier_iff wf, originalReifier_iff, rows]
  constructor
  · exact valueState_branch
  · exact fun key authored => Or.inl (authored_branch.mp authored)
  · exact fun key authored fresh => absurd (authored_branch.mp authored) fresh
  · intro scope key c _ found
    have nothing : (newWithGraphExistence base order mode).inPlace key = none := by
      simp [newWithGraphExistence, inPlace, conversionsOf]
    rw [nothing] at found
    cases found
  · intro key authored moves
    right
    have inBase := authored_branch.mp authored
    have moves : Moves base (originalReifier base key.quad.scope) key := declared _ ▸ moves
    rcases moves with ⟨kind, original⟩ | ⟨-, original, dead⟩
    · exact ⟨inBase, kind, original⟩
    · rw [original] at dead
      cases dead

theorem NormalState.minted {delta : DeltaBuilder} (h : NormalState st)
    (extended : st.delta.Extends delta) (fresh : delta.Fresh st.base) :
    NormalState { st with delta := delta } := by
  refine ⟨⟨h.value.consistent.minted fresh, h.value.whole, fun key authored =>
    (h.value.valid key authored).extended extended⟩, ?_, h.noted, h.directed, h.complete⟩
  intro key authored
  rcases h.home key authored with inBase | ⟨free, kind⟩
  · exact Or.inl inBase
  · refine Or.inr ⟨free, fun declaration declared => kind declaration ?_⟩
    have read : ∀ id ∈ key.quad.ids,
        ({ st with delta := delta } : MutableDataset).mutValue id = st.mutValue id := by
      intro id member
      have held := h.value.valid key authored id member
      rcases id with id | id
      · rfl
      · obtain ⟨suffix, same⟩ := extended.2
        obtain ⟨value, found⟩ := Option.isSome_iff_exists.mp held
        have found : st.delta.values[id]? = some value := found
        have grown : delta.values[id]? = st.delta.values[id]? := by
          rw [← same, List.getElem?_append_left (List.getElem?_eq_some_iff.mp found).1]
        exact grown
    rw [← declared, declarationKey, declarationKey, read key.quad.p (by simp [Quad.ids]),
      read key.quad.o (by simp [Quad.ids])]

theorem declarationKey_congr (base : st'.base = st.base) (delta : st'.delta = st.delta)
    (quad : QuadKey) : st'.declarationKey quad = st.declarationKey quad := by
  have read : ∀ id, st'.mutValue id = st.mutValue id := by
    rintro (id | id)
    · rw [mutValue, mutValue, base]
    · rw [mutValue, mutValue, delta]
  rw [declarationKey, declarationKey, read, read]

theorem authored_of_inPlace {t : ClassifiedRows} {c : Reclassification}
    (found : t.inPlace key = some c) : Authored base t key :=
  Or.inr (by rw [found]; rfl)

theorem NormalState.ordinary_of_moves (h : NormalState st) {effectiveReifier : Bool}
    (authored : Authored st.base st.toClassifiedRows key) (fresh : key ∉ st.base.records)
    (moves : Moves st.base effectiveReifier key) : key.kind = .ordinary := by
  rcases h.home key authored with inBase | ⟨-, home⟩
  · exact absurd inBase fresh
  · obtain ⟨declaration, shape⟩ := declarationKey_isSome (h.value.valid key authored)
    have kind := home declaration shape
    rcases declaration with - | -
    · exact kind
    · exact absurd kind moves.kind

theorem insertKey_normal {changed : Bool} (h : NormalState st) (valid : st.Valid quad)
    (run : st.insertKey quad = some (st', changed)) : NormalState st' := by
  obtain ⟨st₁, run₁, value, -⟩ := insertKey_member h.value valid
  rw [run] at run₁
  obtain ⟨rfl, rfl⟩ : st' = st₁ ∧ changed = !st.containsKey st.base quad := by simpa using run₁
  obtain ⟨st₁, changed, declaration, run₁, advanced, delta, declared, admitted⟩ :=
    insertKey_spec h.value.consistent valid
  rw [run] at run₁
  obtain ⟨rfl, reported⟩ : st' = st₁ ∧ (!st.containsKey st.base quad) = changed := by
    simpa using run₁
  have coherent := h.value.consistent.coherent
  have missing : changed = true → Absent st.base st.toClassifiedRows quad := by
    rintro rfl kind live
    have held := containsKey_iff.mpr ⟨kind, live⟩
    rw [held] at reported
    cases reported
  have absent_of_new : ∀ key, NewRow st.base st.toClassifiedRows quad declaration key →
      changed = true := fun key new => admitted.changed_iff.mpr ⟨key, new⟩
  refine ⟨value, ?_, ?_, ?_, ?_⟩
  · rw [advanced.base]
    intro key authored
    rw [declarationKey_congr advanced.base delta]
    rcases (admitted.authored key).mp authored with authored | ⟨same, hidden | ⟨unheld, kind⟩⟩
    · exact h.home key authored
    · exact Or.inl hidden.1
    · refine Or.inr ⟨fun kind' inBase => ?_, fun declaration' declared' => ?_⟩
      · rw [same] at inBase
        exact unheld.1 kind' (hidden_of_absent h.value.consistent unheld.2 inBase)
      · rw [same, declared] at declared'
        cases declared'
        exact kind
  · rw [advanced.base]
    intro key authored fresh kind
    rw [admitted.automatic]
    rcases (admitted.authored key).mp authored with authored | ⟨same, hidden | ⟨unheld, home⟩⟩
    · exact Or.inl (h.noted key authored fresh kind)
    · exact absurd hidden.1 fresh
    · right
      rw [kind] at home
      obtain ⟨kind', quad'⟩ := key
      cases same
      cases kind
      rcases declaration with - | -
      · exact ⟨rfl, rfl, rfl, unheld⟩
      · cases home
  · rw [advanced.base]
    intro scope key c inScope found
    have inScope : key.quad.scope = scope := inScope
    subst inScope
    by_cases touched : Touched declaration quad key.quad
    · rcases changes : changed with - | -
      · obtain ⟨live, inPlace⟩ := admitted.unchanged changes
        have eff : st'.hasEffectiveReifier st.base key.quad.scope =
            st.hasEffectiveReifier st.base key.quad.scope :=
          hasEffectiveReifier_congr coherent admitted.coherent fun key _ _ => live key
        rw [eff, live]
        exact h.directed _ key c rfl ((inPlace key).symm.trans found)
      · rw [touched.scope]
        exact (admitted.settled changes).directed key c touched found
    · rw [admitted.declared coherent touched, admitted.live_other key touched]
      exact h.directed _ key c rfl ((admitted.inPlace_other key touched).symm.trans found)
  · rw [advanced.base]
    intro key authored moves
    by_cases touched : Touched declaration quad key.quad
    · rcases changes : changed with - | -
      · obtain ⟨live, inPlace⟩ := admitted.unchanged changes
        have eff : st'.hasEffectiveReifier st.base key.quad.scope =
            st.hasEffectiveReifier st.base key.quad.scope :=
          hasEffectiveReifier_congr coherent admitted.coherent fun key _ _ => live key
        rw [eff] at moves
        rw [inPlace]
        refine h.complete key (((admitted.authored key).mp authored).resolve_right fun new => ?_) moves
        rw [absent_of_new key new] at changes
        cases changes
      · left
        have settled := admitted.settled changes
        rw [touched.scope] at moves
        refine settled.complete key touched ?_ authored moves
        rcases (admitted.authored key).mp authored with before | new
        · rcases touched with same | ⟨isDeclaration, inScope⟩
          · have none_held := (missing changes).not_authored coherent key.kind
            rw [← same] at none_held
            exact absurd before none_held
          · refine Or.inr ⟨isDeclaration, ?_⟩
            by_cases inBase : key ∈ st.base.records
            · exact Or.inl inBase
            · right
              rw [admitted.automatic]
              left
              rw [← inScope]
              exact h.noted key before inBase (h.ordinary_of_moves before inBase moves)
        · exact Or.inl new
    · rw [admitted.declared coherent touched] at moves
      rw [admitted.inPlace_other key touched]
      refine h.complete key (((admitted.authored key).mp authored).resolve_right fun new => ?_) moves
      exact touched (Or.inl new.1)

theorem NormalState.declares (h : NormalState st) {declaration : Bool}
    (declared : st.declarationKey quad = some declaration)
    (live : (⟨.reifier, quad⟩ : RecordKey) ∈ st.effective st.base) : declaration = true := by
  have free : st.inPlace (Record.flip ⟨.reifier, quad⟩) = none := by
    rcases found : st.inPlace (Record.flip ⟨.reifier, quad⟩) with - | c
    · rfl
    · exact absurd rfl (h.value.consistent.coherent.remembers.target _ c found).1
  have authored : Authored st.base st.toClassifiedRows ⟨.reifier, quad⟩ :=
    Or.inl ⟨live, h.value.consistent.coherent.not_created free⟩
  rcases h.home _ authored with inBase | ⟨-, home⟩
  · rw [declarationKey_of_reifier inBase] at declared
    cases declared
    rfl
  · have kind := home declaration declared
    rcases declaration with - | -
    · cases kind
    · rfl

theorem withdrawn_declared {declaration changed : Bool} (h : NormalState st)
    (shape : st.declarationKey quad = some declaration) {t' : ClassifiedRows}
    (withdrawn : Withdrawn st.base quad declaration changed st.toClassifiedRows t')
    {other : QuadKey} (outside : ¬Touched declaration quad other) :
    t'.hasEffectiveReifier st.base other.scope = st.hasEffectiveReifier st.base other.scope := by
  refine hasEffectiveReifier_congr h.value.consistent.coherent withdrawn.coherent
    fun key kind inScope => ?_
  by_cases touched : Touched declaration quad key.quad
  · -- the quad shares the scope and is no declaration, so no reifier row of it stands
    have plain : declaration = false := by
      rcases declaration with - | -
      · rfl
      · exact absurd (Or.inr ⟨rfl, inScope.symm.trans touched.scope⟩) outside
    subst plain
    have same : key.quad = quad := touched_plain.mp touched
    obtain ⟨kind', quad'⟩ := key
    cases same
    cases kind
    constructor
    · intro live
      obtain ⟨kind', authored⟩ := withdrawn.coherent.live_iff_authored.mp ⟨_, live⟩
      exact absurd rfl ((withdrawn.authored _).mp authored).2
    · intro live
      cases h.declares shape live
  · exact withdrawn.live_other key touched

theorem removeKey_normal {changed : Bool} (h : NormalState st) (valid : st.Valid quad)
    (run : st.removeKey quad = some (st', changed)) : NormalState st' := by
  obtain ⟨st₁, run₁, value, -⟩ := removeKey_member h.value valid
  rw [run] at run₁
  obtain ⟨rfl, -⟩ : st' = st₁ ∧ _ := by simpa using run₁
  obtain ⟨st₁, changed', declaration, run₁, advanced, delta, shape, withdrawn⟩ :=
    removeKey_spec h.value.consistent valid
  rw [run] at run₁
  obtain ⟨rfl, rfl⟩ : st' = st₁ ∧ changed = changed' := by simpa using run₁
  have coherent := h.value.consistent.coherent
  have still : changed = false → ∀ scope, st'.hasEffectiveReifier st.base scope =
      st.hasEffectiveReifier st.base scope := by
    intro unchanged scope
    exact hasEffectiveReifier_congr coherent withdrawn.coherent fun key _ _ =>
      (withdrawn.unchanged unchanged).1 key
  -- a row of a touched quad that stands afterwards stands by its scope's new classification
  have rescoped : ∀ key, Authored st.base st'.toClassifiedRows key →
      Touched declaration quad key.quad → declaration = true ∧ key.quad.scope = quad.scope := by
    intro key authored touched
    rcases touched with same | inScope
    · exact absurd same ((withdrawn.authored key).mp authored).2
    · exact inScope
  refine ⟨value, ?_, ?_, ?_, ?_⟩
  · rw [advanced.base]
    intro key authored
    rw [declarationKey_congr advanced.base delta]
    exact h.home key ((withdrawn.authored key).mp authored).1
  · rw [advanced.base]
    intro key authored fresh kind
    obtain ⟨before, differs⟩ := (withdrawn.authored key).mp authored
    exact withdrawn.automatic_other _ key differs (h.noted key before fresh kind)
  · rw [advanced.base]
    intro scope key c inScope found
    have inScope : key.quad.scope = scope := inScope
    subst inScope
    by_cases touched : Touched declaration quad key.quad
    · obtain ⟨isDeclaration, inScope⟩ := rescoped key (authored_of_inPlace found) touched
      rcases changes : changed with - | -
      · obtain ⟨live, inPlace⟩ := withdrawn.unchanged changes
        rw [still changes, live]
        exact h.directed _ key c rfl ((inPlace key).symm.trans found)
      · rw [inScope]
        exact (withdrawn.settled changes isDeclaration).directed key c inScope found
    · rw [withdrawn_declared h shape withdrawn touched, withdrawn.live_other key touched]
      exact h.directed _ key c rfl ((withdrawn.inPlace_other key touched).symm.trans found)
  · rw [advanced.base]
    intro key authored moves
    obtain ⟨before, differs⟩ := (withdrawn.authored key).mp authored
    by_cases touched : Touched declaration quad key.quad
    · obtain ⟨isDeclaration, inScope⟩ := rescoped key authored touched
      rcases changes : changed with - | -
      · rw [still changes] at moves
        rw [(withdrawn.unchanged changes).2]
        exact h.complete key before moves
      · left
        rw [inScope] at moves
        refine (withdrawn.settled changes isDeclaration).complete key inScope ?_ authored moves
        by_cases inBase : key ∈ st.base.records
        · exact Or.inl inBase
        · right
          rw [← inScope]
          exact withdrawn.automatic_other _ key differs
            (h.noted key before inBase (h.ordinary_of_moves before inBase moves))
    · rw [withdrawn_declared h shape withdrawn touched] at moves
      rw [withdrawn.inPlace_other key touched]
      exact h.complete key before moves

end MutableDataset

end Purrdf
