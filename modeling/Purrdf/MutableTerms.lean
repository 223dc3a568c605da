import Purrdf.MutableDataset
import Mathlib.Data.List.Infix

/-!
# Term identity in a branch

A value resolves to a base id when the base holds it and to a delta id otherwise, the
two never overlap, and interning only ever extends the delta: keys taken earlier keep
their meaning.
-/

namespace Purrdf

structure DeltaBuilder.Fresh (base : RdfDataset) (delta : DeltaBuilder) : Prop where
  nodup : delta.values.Nodup
  outside : ∀ value ∈ delta.values, base.termIdByValue value = none

/-- A later state of the interner: the same values, and possibly more. -/
def DeltaBuilder.Extends (delta delta' : DeltaBuilder) : Prop :=
  delta'.capacity = delta.capacity ∧ delta.values <+: delta'.values

namespace DeltaBuilder

variable {base : RdfDataset} {delta delta' delta'' : DeltaBuilder} {rules : LexicalRules}

theorem Extends.refl : Extends delta delta := ⟨rfl, List.prefix_refl _⟩

theorem Extends.trans (first : Extends delta delta') (second : Extends delta' delta'') :
    Extends delta delta'' :=
  ⟨second.1.trans first.1, first.2.trans second.2⟩

theorem Extends.rollback (h : Extends delta delta') :
    delta'.rollback delta.values.length = delta := by
  obtain ⟨capacity, values⟩ := delta
  obtain ⟨suffix, same⟩ := h.2
  simp only [DeltaBuilder.rollback, h.1, ← same, List.take_left]

theorem find_eq_some (fresh : delta.values.Nodup) {value : TermValue} {id : Nat} :
    delta.find value = some id ↔ delta.values[id]? = some value := by
  rw [find, List.idxOf?, List.findIdx?_eq_some_iff_getElem]
  constructor
  · rintro ⟨bound, same, -⟩
    rw [List.getElem?_eq_getElem bound, eq_of_beq same]
  · intro found
    obtain ⟨bound, same⟩ := List.getElem?_eq_some_iff.mp found
    refine ⟨bound, by simp [same], fun j before equal => ?_⟩
    have := (fresh.getElem_inj_iff).mp ((eq_of_beq equal).trans same.symm)
    omega

theorem find_eq_none {value : TermValue} : delta.find value = none ↔ value ∉ delta.values := by
  rw [find, List.idxOf?, List.findIdx?_eq_none_iff]
  constructor
  · intro differs member
    simpa using differs value member
  · intro missing other member
    simp only [beq_eq_false_iff_ne]
    rintro rfl
    exact missing member

end DeltaBuilder

open DeltaBuilder

namespace MutableDataset

variable {base : RdfDataset} {rules : LexicalRules} {delta : DeltaBuilder}

def idIn (base : RdfDataset) (delta : DeltaBuilder) (value : TermValue) : Option MutTermId :=
  match base.termIdByValue value with
  | some id => some (.base id)
  | none => (delta.find value).map .delta

theorem findValue_eq (st : MutableDataset) : st.findValue = idIn st.base st.delta := rfl

/-- What an interning step leaves behind, whether it returns or refuses. -/
def Interned (base : RdfDataset) (delta : DeltaBuilder) (value : TermValue) :
    Except IriReadError MutTermId × DeltaBuilder → Prop
  | (.ok id, reached) =>
    delta.Extends reached ∧ reached.Fresh base ∧ idIn base reached value = some id
  | (.error _, reached) => delta.Extends reached

theorem intern_cases (rules : LexicalRules) (delta : DeltaBuilder) (value : TermValue) :
    (∃ id, delta.find value = some id ∧ DeltaBuilder.intern rules value delta = (.ok id, delta)) ∨
    (∃ error, DeltaBuilder.intern rules value delta = (.error error, delta)) ∨
    (delta.find value = none ∧ DeltaBuilder.intern rules value delta =
      (.ok delta.values.length, { delta with values := delta.values ++ [value] })) := by
  rcases found : delta.find value with - | id
  · right
    rcases checked : value.checkValueAbsolute rules.checkAbsolute with error | ⟨⟩
    · left
      exact ⟨_, by simp [DeltaBuilder.intern, bind, Exec.bind, Exec.get, Exec.lift, found, checked,
        Except.mapError]; rfl⟩
    · by_cases full : delta.capacity < delta.values.length + 1
      · left
        exact ⟨_, by simp [DeltaBuilder.intern, bind, Exec.bind, Exec.get, Exec.lift, found, checked,
          Except.mapError, full]; rfl⟩
      · by_cases large : 4294967295 < delta.values.length
        · left
          exact ⟨_, by simp [DeltaBuilder.intern, bind, Exec.bind, Exec.get, Exec.lift, found, checked,
            Except.mapError, full, large]; rfl⟩
        · right
          refine ⟨rfl, ?_⟩
          simp [DeltaBuilder.intern, bind, Exec.bind, Exec.get, Exec.lift, found, checked, Except.mapError,
            full, large, Exec.set]
          rfl
  · left
    refine ⟨id, rfl, ?_⟩
    simp only [DeltaBuilder.intern, bind, Exec.bind, Exec.get, found]
    rfl

theorem fresh_append (fresh : delta.Fresh base) {value : TermValue}
    (missing : base.termIdByValue value = none) (outside : value ∉ delta.values) :
    Fresh base { delta with values := delta.values ++ [value] } := by
  constructor
  · refine List.nodup_append.mpr ⟨fresh.nodup, List.nodup_singleton _, ?_⟩
    rintro a ha b hb rfl
    exact outside (List.mem_singleton.mp hb ▸ ha)
  · intro other member
    rcases List.mem_append.mp member with member | member
    · exact fresh.outside other member
    · rw [List.mem_singleton.mp member]
      exact missing

theorem resolveValue_spec (rules : LexicalRules) (fresh : delta.Fresh base) (value : TermValue) :
    Interned base delta value (resolveValue base rules value delta) := by
  rcases missing : base.termIdByValue value with - | id
  · have run : ∀ result, DeltaBuilder.intern rules value delta = result → resolveValue base rules value delta =
        (result.1.map .delta, result.2) := by
      rintro ⟨result, reached⟩ interning
      simp only [resolveValue, missing, bind, Exec.bind, interning]
      rcases result with error | id <;> rfl
    rcases intern_cases rules delta value with
      ⟨id, found, interning⟩ | ⟨error, interning⟩ | ⟨absent, interning⟩
    · rw [run _ interning]
      exact ⟨Extends.refl, fresh, by rw [idIn, missing, found]; rfl⟩
    · rw [run _ interning]
      exact Extends.refl
    · rw [run _ interning]
      have fresh' := fresh_append fresh missing (find_eq_none.mp absent)
      have found : DeltaBuilder.find { delta with values := delta.values ++ [value] } value =
          some delta.values.length := (find_eq_some fresh'.nodup).mpr (by simp)
      exact ⟨⟨rfl, List.prefix_append _ _⟩, fresh', by rw [idIn, missing, found]; rfl⟩
  · have run : resolveValue base rules value delta = (.ok (.base id), delta) := by
      simp only [resolveValue, missing]
      rfl
    rw [run]
    exact ⟨Extends.refl, fresh, by rw [idIn, missing]⟩

theorem idIn_extends {delta' : DeltaBuilder} (extended : delta.Extends delta')
    (fresh : delta.Fresh base) (fresh' : delta'.Fresh base) {value : TermValue} {id : MutTermId}
    (found : idIn base delta value = some id) : idIn base delta' value = some id := by
  simp only [idIn] at found ⊢
  rcases missing : base.termIdByValue value with - | known
  · rw [missing] at found
    simp only [Option.map_eq_some_iff] at found ⊢
    obtain ⟨local', held, rfl⟩ := found
    refine ⟨local', ?_, rfl⟩
    rw [find_eq_some fresh.nodup] at held
    rw [find_eq_some fresh'.nodup]
    obtain ⟨suffix, same⟩ := extended.2
    rw [← same, List.getElem?_append_left (List.getElem?_eq_some_iff.mp held).1, held]
  · rw [missing] at found
    exact found

def ResolvedQuad (base : RdfDataset) (delta : DeltaBuilder) (quad : QuadValues) :
    Except IriReadError QuadKey × DeltaBuilder → Prop
  | (.ok key, reached) =>
    delta.Extends reached ∧ reached.Fresh base ∧ quad.traverse (idIn base reached) = some key
  | (.error _, reached) => delta.Extends reached

theorem resolveGraph_none : resolveGraph base rules none delta = (.ok none, delta) := rfl

theorem resolveGraph_some (graph : TermValue) :
    resolveGraph base rules (some graph) delta =
      ((resolveValue base rules graph delta).1.map some, (resolveValue base rules graph delta).2) := by
  simp only [resolveGraph, bind, Exec.bind]
  rcases resolveValue base rules graph delta with ⟨error | id, reached⟩ <;> rfl

theorem resolveQuad_spec (rules : LexicalRules) (fresh : delta.Fresh base) (quad : QuadValues) :
    ResolvedQuad base delta quad (resolveQuad base rules quad delta) := by
  obtain ⟨sv, pv, ov, gv⟩ := quad
  have stepS := resolveValue_spec rules fresh sv
  rcases runS : resolveValue base rules sv delta with ⟨error | s, d₁⟩
  · rw [runS] at stepS
    simp only [resolveQuad, bind, Exec.bind, runS]
    exact stepS
  rw [runS] at stepS
  obtain ⟨ext₁, fresh₁, foundS⟩ := stepS
  have stepP := resolveValue_spec rules fresh₁ pv
  rcases runP : resolveValue base rules pv d₁ with ⟨error | p, d₂⟩
  · rw [runP] at stepP
    simp only [resolveQuad, bind, Exec.bind, runS, runP]
    exact ext₁.trans stepP
  rw [runP] at stepP
  obtain ⟨ext₂, fresh₂, foundP⟩ := stepP
  have stepO := resolveValue_spec rules fresh₂ ov
  rcases runO : resolveValue base rules ov d₂ with ⟨error | o, d₃⟩
  · rw [runO] at stepO
    simp only [resolveQuad, bind, Exec.bind, runS, runP, runO]
    exact (ext₁.trans ext₂).trans stepO
  rw [runO] at stepO
  obtain ⟨ext₃, fresh₃, foundO⟩ := stepO
  have ext := (ext₁.trans ext₂).trans ext₃
  have foundS₃ := idIn_extends (ext₂.trans ext₃) fresh₁ fresh₃ foundS
  have foundP₃ := idIn_extends ext₃ fresh₂ fresh₃ foundP
  rcases gv with - | graph
  · have run : resolveQuad base rules ⟨sv, pv, ov, none⟩ delta = (.ok ⟨s, p, o, none⟩, d₃) := by
      simp only [resolveQuad, bind, Exec.bind, runS, runP, runO, resolveGraph_none]
      rfl
    rw [run]
    refine ⟨ext, fresh₃, ?_⟩
    rw [Quad.traverse_eq_some]
    exact ⟨foundS₃, foundP₃, foundO, rfl⟩
  · have stepG := resolveValue_spec rules fresh₃ graph
    rcases runG : resolveValue base rules graph d₃ with ⟨error | g, d₄⟩
    · rw [runG] at stepG
      have run : resolveQuad base rules ⟨sv, pv, ov, some graph⟩ delta = (.error error, d₄) := by
        simp only [resolveQuad, bind, Exec.bind, runS, runP, runO, resolveGraph_some, runG]
        rfl
      rw [run]
      exact ext.trans stepG
    · rw [runG] at stepG
      obtain ⟨ext₄, fresh₄, foundG⟩ := stepG
      have run : resolveQuad base rules ⟨sv, pv, ov, some graph⟩ delta =
          (.ok ⟨s, p, o, some g⟩, d₄) := by
        simp only [resolveQuad, bind, Exec.bind, runS, runP, runO, resolveGraph_some, runG]
        rfl
      rw [run]
      refine ⟨ext.trans ext₄, fresh₄, ?_⟩
      rw [Quad.traverse_eq_some]
      refine ⟨idIn_extends ext₄ fresh₃ fresh₄ foundS₃, idIn_extends ext₄ fresh₃ fresh₄ foundP₃,
        idIn_extends ext₄ fresh₃ fresh₄ foundO, ?_⟩
      simp [foundG]

/-! ### Keys of a branch -/

variable {st : MutableDataset}

theorem keyOf_spec (fresh : st.delta.Fresh st.base) (rules : LexicalRules) (quad : QuadValues) :
    (∃ key delta, st.keyOf rules quad = (.ok key, { st with delta := delta }) ∧
      st.delta.Extends delta ∧ delta.Fresh st.base ∧
      quad.traverse (idIn st.base delta) = some key) ∨
    ∃ error, st.keyOf rules quad = (.error error, st) := by
  have resolved := resolveQuad_spec rules fresh quad
  rcases run : resolveQuad st.base rules quad st.delta with ⟨error | key, delta⟩
  · right
    rw [run] at resolved
    have restored : delta.rollback st.delta.values.length = st.delta := Extends.rollback resolved
    exact ⟨error, by rw [keyOf, run]; simp only [restored]⟩
  · left
    rw [run] at resolved
    exact ⟨key, delta, by rw [keyOf, run], resolved⟩

/-- The read path finds a key exactly when every component is interned somewhere. -/
theorem keyOfExisting_eq (st : MutableDataset) (quad : QuadValues) :
    st.keyOfExisting quad = quad.traverse (idIn st.base st.delta) := by
  rw [keyOfExisting, findValue_eq]
  rcases found : quad.traverse fun value =>
    (st.base.termIdByValue value).map MutTermId.base with - | key
  · rfl
  · refine (Quad.traverse_mono (fun value id _ mapped => ?_) found).symm
    obtain ⟨known, held, rfl⟩ := Option.map_eq_some_iff.mp mapped
    rw [idIn, held]

theorem mutValue_of_idIn (fresh : st.delta.Fresh st.base) {value : TermValue} {id : MutTermId}
    (found : idIn st.base st.delta value = some id) :
    st.mutValue id = some (if (st.base.termIdByValue value).isSome then value.canonical
      else value) := by
  simp only [idIn] at found
  rcases known : st.base.termIdByValue value with - | baseId
  · rw [known] at found
    simp only [Option.map_eq_some_iff] at found
    obtain ⟨local', held, rfl⟩ := found
    exact (find_eq_some fresh.nodup).mp held
  · rw [known] at found
    cases found
    exact (st.base.termIdByValue_eq_some).mp known

theorem idIn_of_mutValue (fresh : st.delta.Fresh st.base) {value : TermValue} {id : MutTermId}
    (found : st.mutValue id = some value) : idIn st.base st.delta value = some id := by
  rcases id with id | id
  · rw [idIn, st.base.termIdByValue_termValue found]
  · have held : st.delta.values[id]? = some value := found
    rw [idIn, fresh.outside value (List.mem_of_getElem? held),
      (find_eq_some fresh.nodup).mpr held]
    rfl

theorem mutValue_injective (fresh : st.delta.Fresh st.base) {value : TermValue}
    {id id' : MutTermId} (found : st.mutValue id = some value)
    (found' : st.mutValue id' = some value) : id = id' := by
  have same := idIn_of_mutValue fresh found
  rw [idIn_of_mutValue fresh found'] at same
  exact (Option.some.inj same).symm

theorem mutValue_isSome (fresh : st.delta.Fresh st.base) {value : TermValue} {id : MutTermId}
    (found : idIn st.base st.delta value = some id) : (st.mutValue id).isSome := by
  rw [mutValue_of_idIn fresh found]
  rfl

def Valid (st : MutableDataset) (key : QuadKey) : Prop :=
  ∀ id ∈ key.ids, (st.mutValue id).isSome

theorem valid_of_traverse (fresh : st.delta.Fresh st.base) {quad : QuadValues} {key : QuadKey}
    (found : quad.traverse (idIn st.base st.delta) = some key) : st.Valid key := by
  obtain ⟨hs, hp, ho, hg⟩ := Quad.traverse_eq_some.mp found
  intro id member
  simp only [Quad.ids, List.mem_cons, Option.mem_toList] at member
  rcases member with rfl | rfl | rfl | member
  · exact mutValue_isSome fresh hs
  · exact mutValue_isSome fresh hp
  · exact mutValue_isSome fresh ho
  · rcases value : quad.g with - | value'
    · simp [value, Option.mem_def.mp member] at hg
    · simp only [value, Option.mem_def.mp member, Option.map_some, Option.some.injEq] at hg
      exact mutValue_isSome fresh hg

theorem declarationKey_isSome {key : QuadKey} (valid : st.Valid key) :
    ∃ declaration, st.declarationKey key = some declaration := by
  obtain ⟨p, hp⟩ := Option.isSome_iff_exists.mp (valid key.p (by simp [Quad.ids]))
  obtain ⟨o, ho⟩ := Option.isSome_iff_exists.mp (valid key.o (by simp [Quad.ids]))
  by_cases reifies : p.isReifies
  · exact ⟨_, by rw [declarationKey, hp, Option.bind_some, if_pos reifies, ho]; rfl⟩
  · exact ⟨false, by rw [declarationKey, hp, Option.bind_some, if_neg reifies]⟩

end MutableDataset

end Purrdf
