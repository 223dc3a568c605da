import Mathlib.Data.List.Basic
import Mathlib.Data.Finset.Card
import Mathlib.Data.Finset.Image
import Mathlib.Data.List.Nodup

/-!
# Dataset-independent term values

RDF 1.2 terms by value, the canonical form under which a frozen dictionary stores
and probes them, and the absoluteness check every new value passes on entry.
-/

namespace Purrdf

inductive RdfTextDirection where
  | ltr
  | rtl
deriving DecidableEq, Repr

inductive TermValue where
  | iri (value : String)
  | blank (label : String) (scope : Nat)
  | literal (lexicalForm datatype : String) (language : Option String)
      (direction : Option RdfTextDirection)
  | triple (s p o : TermValue)
deriving DecidableEq, Repr

def rdfReifies : String := "http://www.w3.org/1999/02/22-rdf-syntax-ns#reifies"
def rdfLangString : String := "http://www.w3.org/1999/02/22-rdf-syntax-ns#langString"
def rdfDirLangString : String := "http://www.w3.org/1999/02/22-rdf-syntax-ns#dirLangString"

def identityFold (tag : String) : String := String.ofList (tag.toList.map Char.toLower)

/-- A language tag names the datatype whatever the explicit one says. -/
def languageDatatypeIri : Option RdfTextDirection → String
  | none => rdfLangString
  | some _ => rdfDirLangString

namespace TermValue

/-- The form under which the frozen dictionary interns and probes a value. -/
def canonical : TermValue → TermValue
  | iri value => iri value
  | blank label scope => blank label scope
  | literal lexicalForm datatype none direction => literal lexicalForm datatype none direction
  | literal lexicalForm _ (some tag) direction =>
    literal lexicalForm (languageDatatypeIri direction) (some (identityFold tag)) direction
  | triple s p o => triple s.canonical p.canonical o.canonical

/-- Whether the value is the IRI `rdf:reifies`. -/
def isReifies : TermValue → Bool
  | iri value => value == rdfReifies
  | _ => false

def isTriple : TermValue → Bool
  | triple _ _ _ => true
  | _ => false

/-- Check every IRI a value carries, in pre-order; the first one refused is the error. -/
def checkValueAbsolute {ε : Type} (checkAbsolute : String → Except ε Unit) :
    TermValue → Except ε Unit
  | iri value => checkAbsolute value
  | blank _ _ => .ok ()
  | literal _ datatype _ _ => checkAbsolute datatype
  | triple s p o => do
      s.checkValueAbsolute checkAbsolute
      p.checkValueAbsolute checkAbsolute
      o.checkValueAbsolute checkAbsolute

end TermValue

end Purrdf

/-!
## The frozen dataset

The immutable base a mutable branch is taken from: one store-once term table and
the ordinary, reifier and annotation tables over its ids. The structure carries
what freezing establishes, so every later argument reads it off the dataset
instead of assuming it.
-/

namespace Purrdf

abbrev TermId := Nat

/-- A quad over any term identity; `g = none` names the default graph. -/
structure Quad (α : Type) where
  s : α
  p : α
  o : α
  g : Option α
deriving DecidableEq, Repr

abbrev QuadIds := Quad TermId
abbrev QuadValues := Quad TermValue

/-- The physical table a record lives in. -/
inductive RecordKind where
  | ordinary
  | reifier
  | annotationRow
deriving DecidableEq, Repr

def RecordKind.all : List RecordKind := [.ordinary, .reifier, .annotationRow]

theorem RecordKind.mem_all (kind : RecordKind) : kind ∈ RecordKind.all := by
  cases kind <;> decide

structure Record (α : Type) where
  kind : RecordKind
  quad : Quad α
deriving DecidableEq, Repr

abbrev RecordValues := Record TermValue

/-- A constraint on the graph slot of a row. -/
inductive GraphMatch (α : Type) where
  | any
  | default
  | named (graph : α)
deriving DecidableEq, Repr

def GraphMatch.matches {α : Type} [DecidableEq α] : GraphMatch α → Option α → Bool
  | any, _ => true
  | default, g => g.isNone
  | named graph, g => g == some graph

namespace Quad

variable {α β : Type}

def mapIds (f : α → β) (q : Quad α) : Quad β := ⟨f q.s, f q.p, f q.o, q.g.map f⟩

@[simp] theorem mapIds_s (f : α → β) (q : Quad α) : (q.mapIds f).s = f q.s := rfl
@[simp] theorem mapIds_g (f : α → β) (q : Quad α) : (q.mapIds f).g = q.g.map f := rfl

theorem mapIds_injective {f : α → β} (hf : Function.Injective f) :
    Function.Injective (mapIds f) := by
  rintro ⟨s, p, o, g⟩ ⟨s', p', o', g'⟩ h
  simp only [mapIds, Quad.mk.injEq] at h
  obtain ⟨hs, hp, ho, hg⟩ := h
  rw [hf hs, hf hp, hf ho, Option.map_injective hf hg]

def ids (q : Quad α) : List α := q.s :: q.p :: q.o :: q.g.toList

def traverse (f : α → Option β) (q : Quad α) : Option (Quad β) :=
  match f q.s, f q.p, f q.o, q.g with
  | some s, some p, some o, none => some ⟨s, p, o, none⟩
  | some s, some p, some o, some g => (f g).map fun g => ⟨s, p, o, some g⟩
  | _, _, _, _ => none

theorem traverse_eq_some {f : α → Option β} {q : Quad α} {r : Quad β} :
    q.traverse f = some r ↔ f q.s = some r.s ∧ f q.p = some r.p ∧ f q.o = some r.o ∧
      q.g.map f = r.g.map some := by
  obtain ⟨s, p, o, g⟩ := q
  obtain ⟨s', p', o', g'⟩ := r
  simp only [traverse]
  rcases hs : f s with - | a <;> rcases hp : f p with - | b <;> rcases ho : f o with - | c <;>
    rcases g with - | g <;> rcases g' with - | g' <;> simp
  grind

theorem exists_traverse {f : α → Option β} {q : Quad α} (all : ∀ id ∈ q.ids, (f id).isSome) :
    ∃ r, q.traverse f = some r := by
  have slot : ∀ id ∈ q.ids, ∃ b, f id = some b := fun id member =>
    Option.isSome_iff_exists.mp (all id member)
  obtain ⟨s, hs⟩ := slot q.s (by simp [ids])
  obtain ⟨p, hp⟩ := slot q.p (by simp [ids])
  obtain ⟨o, ho⟩ := slot q.o (by simp [ids])
  rcases graph : q.g with - | g
  · exact ⟨⟨s, p, o, none⟩, traverse_eq_some.mpr ⟨hs, hp, ho, by simp [graph]⟩⟩
  · obtain ⟨b, hg⟩ := slot g (by simp [ids, graph])
    exact ⟨⟨s, p, o, some b⟩, traverse_eq_some.mpr ⟨hs, hp, ho, by simp [graph, hg]⟩⟩

theorem traverse_map {γ : Type} (f : α → Option β) (h : β → γ) (q : Quad α) :
    (q.traverse fun a => (f a).map h) = (q.traverse f).map (mapIds h) := by
  obtain ⟨s, p, o, g⟩ := q
  simp only [traverse]
  rcases f s with - | s' <;> rcases f p with - | p' <;> rcases f o with - | o' <;>
    rcases g with - | g <;> simp [mapIds]
  rcases f g with - | g' <;> simp [mapIds]

theorem traverse_mono {f f' : α → Option β} {q : Quad α} {r : Quad β}
    (agree : ∀ a b, b ∈ r.ids → f a = some b → f' a = some b) (found : q.traverse f = some r) :
    q.traverse f' = some r := by
  obtain ⟨hs, hp, ho, hg⟩ := traverse_eq_some.mp found
  rw [traverse_eq_some]
  refine ⟨agree _ _ (by simp [ids]) hs, agree _ _ (by simp [ids]) hp,
    agree _ _ (by simp [ids]) ho, ?_⟩
  rcases hr : r.g with - | b <;> rcases hq : q.g with - | a <;> simp [hr, hq] at hg ⊢
  exact agree _ _ (by simp [ids, hr]) hg

end Quad

/-- The rows of one key, located by the partition point of a table sorted by it. -/
def runOf {α : Type} (key : α → Nat) (k : Nat) (rows : List α) : List α :=
  (rows.dropWhile fun row => key row < k).takeWhile fun row => key row == k

theorem runOf_eq_filter {α : Type} {key : α → Nat} {k : Nat} {rows : List α}
    (sorted : rows.Pairwise fun a b => key a ≤ key b) :
    runOf key k rows = rows.filter fun row => key row == k := by
  induction rows with
  | nil => rfl
  | cons row rows ih =>
    have rest := List.pairwise_cons.mp sorted
    rcases lt_trichotomy (key row) k with less | same | more
    · have differs : ¬key row = k := by omega
      have run := ih rest.2
      simpa [runOf, less, differs] using run
    · have run := ih rest.2
      have none_below : rows.dropWhile (fun row => decide (key row < k)) = rows := by
        rcases rows with - | ⟨next, tail⟩
        · rfl
        · have := rest.1 next (by simp)
          have notBelow : ¬key next < k := by omega
          simp [notBelow]
      simp only [runOf, none_below] at run
      simp [runOf, same, run]
    · have none_equal : ∀ next ∈ row :: rows, ¬key next = k := by
        intro next member
        rcases List.mem_cons.mp member with rfl | tail
        · omega
        · have := rest.1 next tail
          omega
      have notBelow : ¬key row < k := by omega
      have differs : ¬key row = k := by omega
      rw [List.filter_eq_nil_iff.mpr (by simpa using none_equal)]
      simp [runOf, notBelow, differs]

/-! ### The dataset -/

structure ReifierRow where
  reifier : TermId
  triple : TermId
  graph : Option TermId
deriving DecidableEq, Repr

/-- The frozen dataset. Rows are deduplicated per table, the statement tables are
sorted by subject, and the graph list holds every graph that owns a row. -/
structure RdfDataset where
  terms : List TermValue
  quads : List QuadIds
  reifiers : List ReifierRow
  annotations : List QuadIds
  namedGraphs : List TermId
  terms_nodup : terms.Nodup
  terms_canonical : ∀ value ∈ terms, value.canonical = value
  quads_nodup : quads.Nodup
  reifiers_nodup : reifiers.Nodup
  annotations_nodup : annotations.Nodup
  quads_valid : ∀ q ∈ quads, ∀ id ∈ q.ids, id < terms.length
  reifiers_valid : ∀ row ∈ reifiers, row.reifier < terms.length ∧
    (∃ s p o, terms[row.triple]? = some (.triple s p o)) ∧
    ∀ g ∈ row.graph, g < terms.length
  annotations_valid : ∀ q ∈ annotations, ∀ id ∈ q.ids, id < terms.length
  namedGraphs_valid : ∀ graph ∈ namedGraphs, graph < terms.length
  quads_named : ∀ q ∈ quads, ∀ graph ∈ q.g, graph ∈ namedGraphs
  reifiers_named : ∀ row ∈ reifiers, ∀ graph ∈ row.graph, graph ∈ namedGraphs
  annotations_named : ∀ q ∈ annotations, ∀ graph ∈ q.g, graph ∈ namedGraphs
  reifies_interned : reifiers ≠ [] → TermValue.iri rdfReifies ∈ terms
  reifiers_sorted : reifiers.Pairwise fun a b => a.reifier ≤ b.reifier
  annotations_sorted : annotations.Pairwise fun a b => a.s ≤ b.s

namespace RdfDataset

def empty : RdfDataset where
  terms := []
  quads := []
  reifiers := []
  annotations := []
  namedGraphs := []
  terms_nodup := List.nodup_nil
  terms_canonical := by simp
  quads_nodup := List.nodup_nil
  reifiers_nodup := List.nodup_nil
  annotations_nodup := List.nodup_nil
  quads_valid := by simp
  reifiers_valid := by simp
  annotations_valid := by simp
  namedGraphs_valid := by simp
  quads_named := by simp
  reifiers_named := by simp
  annotations_named := by simp
  reifies_interned := by simp
  reifiers_sorted := List.Pairwise.nil
  annotations_sorted := List.Pairwise.nil

variable (base : RdfDataset)

def termIdByValue (value : TermValue) : Option TermId := base.terms.idxOf? value.canonical

/-- The value of an id; `none` is the out-of-range index panic. -/
def termValue (id : TermId) : Option TermValue := base.terms[id]?

theorem termIdByValue_eq_some {value : TermValue} {id : TermId} :
    base.termIdByValue value = some id ↔ base.termValue id = some value.canonical := by
  rw [termIdByValue, termValue, List.idxOf?, List.findIdx?_eq_some_iff_getElem]
  constructor
  · rintro ⟨bound, same, -⟩
    rw [List.getElem?_eq_getElem bound, eq_of_beq same]
  · intro found
    obtain ⟨bound, same⟩ := List.getElem?_eq_some_iff.mp found
    refine ⟨bound, by simp [same], fun j before => ?_⟩
    intro equal
    have := (base.terms_nodup.getElem_inj_iff).mp ((eq_of_beq equal).trans same.symm)
    omega

theorem termIdByValue_termValue {id : TermId} {value : TermValue}
    (found : base.termValue id = some value) : base.termIdByValue value = some id := by
  rw [termIdByValue_eq_some, base.terms_canonical value (List.mem_of_getElem? found), found]

theorem termValue_injective {id id' : TermId} {value : TermValue}
    (found : base.termValue id = some value) (found' : base.termValue id' = some value) :
    id = id' := by
  have same := base.termIdByValue_termValue found
  rw [base.termIdByValue_termValue found'] at same
  exact (Option.some.inj same).symm

def hasNamedGraph (graph : TermId) : Bool := base.namedGraphs.contains graph

def rdfReifiesId : Option TermId := base.termIdByValue (.iri rdfReifies)

/-- A reifier row as the virtual quad `reifier rdf:reifies triple`. -/
def reifierQuad (reifies : TermId) (row : ReifierRow) : QuadIds :=
  ⟨row.reifier, reifies, row.triple, row.graph⟩

def reifierQuads : List QuadIds :=
  base.rdfReifiesId.toList.flatMap fun reifies => base.reifiers.map (reifierQuad reifies)

def reifierQuadsOf (reifier : TermId) : List QuadIds :=
  base.rdfReifiesId.toList.flatMap fun reifies =>
    (runOf ReifierRow.reifier reifier base.reifiers).map (reifierQuad reifies)

def annotationQuads : List QuadIds := base.annotations

def annotationsOfWithGraph (subject : TermId) : List (TermId × TermId × Option TermId) :=
  (runOf Quad.s subject base.annotations).map fun q => (q.p, q.o, q.g)

/-- The ordinary rows of a pattern. The index only narrows the candidate set; the
residual filter is the id equality and graph predicate below. -/
def quadsForPattern (s p o : Option TermId) (g : GraphMatch TermId) : List QuadIds :=
  base.quads.filter fun q =>
    s.all (q.s == ·) && p.all (q.p == ·) && o.all (q.o == ·) && g.matches q.g

def rdfRowCount : Nat := base.quads.length + base.reifiers.length + base.annotations.length

def namedGraphRowCount (graph : TermId) : Nat :=
  base.quads.countP (·.g == some graph) +
    (base.reifiers.countP (·.graph == some graph) +
      base.annotations.countP (·.g == some graph))

def recordIds : List (Record TermId) :=
  base.quads.map (⟨.ordinary, ·⟩) ++ base.reifierQuads.map (⟨.reifier, ·⟩) ++
    base.annotationQuads.map (⟨.annotationRow, ·⟩)

/-! ### Reading the tables -/

theorem mem_reifierQuadsOf {reifier : TermId} {q : QuadIds} :
    q ∈ base.reifierQuadsOf reifier ↔ q ∈ base.reifierQuads ∧ q.s = reifier := by
  simp only [reifierQuadsOf, reifierQuads, runOf_eq_filter base.reifiers_sorted,
    List.mem_flatMap, List.mem_map, List.mem_filter, beq_iff_eq]
  constructor
  · rintro ⟨reifies, hr, row, ⟨member, same⟩, rfl⟩
    exact ⟨⟨reifies, hr, row, member, rfl⟩, same⟩
  · rintro ⟨⟨reifies, hr, row, member, rfl⟩, same⟩
    exact ⟨reifies, hr, row, ⟨member, same⟩, rfl⟩

theorem mem_annotationsOfWithGraph {s p o : TermId} {g : Option TermId} :
    (p, o, g) ∈ base.annotationsOfWithGraph s ↔ (⟨s, p, o, g⟩ : QuadIds) ∈ base.annotations := by
  simp only [annotationsOfWithGraph, runOf_eq_filter base.annotations_sorted, List.mem_map,
    List.mem_filter, beq_iff_eq, Prod.mk.injEq]
  constructor
  · rintro ⟨q, ⟨member, rfl⟩, rfl, rfl, rfl⟩
    exact member
  · intro member
    exact ⟨_, ⟨member, rfl⟩, rfl, rfl, rfl⟩

/-- A reifier row is a declaration: its predicate is `rdf:reifies`, its object a
triple term. -/
theorem reifierQuads_declaration {q : QuadIds} (member : q ∈ base.reifierQuads) :
    base.termValue q.p = some (.iri rdfReifies) ∧
      ∃ s p o, base.termValue q.o = some (.triple s p o) := by
  simp only [reifierQuads, List.mem_flatMap, List.mem_map] at member
  obtain ⟨reifies, interned, row, inTable, rfl⟩ := member
  have found : base.termIdByValue (.iri rdfReifies) = some reifies := by
    simpa [rdfReifiesId] using interned
  exact ⟨base.termIdByValue_eq_some.mp found, (base.reifiers_valid row inTable).2.1⟩

theorem reifierQuads_nodup : base.reifierQuads.Nodup := by
  rw [reifierQuads]
  rcases base.rdfReifiesId with - | reifies
  · simp
  · simp only [Option.toList_some, List.flatMap_cons, List.flatMap_nil, List.append_nil]
    apply base.reifiers_nodup.map
    rintro ⟨r, t, g⟩ ⟨r', t', g'⟩ same
    simp only [reifierQuad, Quad.mk.injEq] at same
    obtain ⟨rfl, -, rfl, rfl⟩ := same
    rfl

/-- The assertion guarding every reifier read never fires, so no row is dropped. -/
theorem reifierQuads_length : base.reifierQuads.length = base.reifiers.length := by
  rw [reifierQuads]
  rcases interned : base.rdfReifiesId with - | reifies
  · by_cases empty : base.reifiers = []
    · simp [empty]
    · have member := base.reifies_interned empty
      obtain ⟨id, bound, found⟩ := List.getElem_of_mem member
      have : base.rdfReifiesId = some id :=
        base.termIdByValue_termValue (by rw [termValue, List.getElem?_eq_getElem bound, found])
      rw [interned] at this
      cases this
  · simp

theorem recordIds_nodup : base.recordIds.Nodup := by
  have quads := base.quads_nodup.map (f := fun q => Record.mk RecordKind.ordinary q)
    (fun _ _ h => by simpa using h)
  have reifiers := base.reifierQuads_nodup.map (f := fun q => Record.mk RecordKind.reifier q)
    (fun _ _ h => by simpa using h)
  have annotations := base.annotations_nodup.map
    (f := fun q => Record.mk RecordKind.annotationRow q) (fun _ _ h => by simpa using h)
  rw [recordIds, List.nodup_append, List.nodup_append]
  refine ⟨⟨quads, reifiers, ?_⟩, annotations, ?_⟩ <;> grind

theorem recordIds_length : base.recordIds.length = base.rdfRowCount := by
  simp [recordIds, rdfRowCount, reifierQuads_length, annotationQuads, Nat.add_assoc]

theorem mem_recordIds {key : Record TermId} :
    key ∈ base.recordIds ↔
      (key.kind = .ordinary ∧ key.quad ∈ base.quads) ∨
      (key.kind = .reifier ∧ key.quad ∈ base.reifierQuads) ∨
      (key.kind = .annotationRow ∧ key.quad ∈ base.annotations) := by
  obtain ⟨kind, quad⟩ := key
  cases kind <;> simp [recordIds, annotationQuads]

end RdfDataset

end Purrdf
