import Mathlib.Data.List.Lex
import Purrdf.FastMap
import Purrdf.RdfDataset
import Mathlib.Data.List.Sort

/-!
# Rows of a mutable branch

The physical rows of a copy-on-write branch off a frozen base (rows added on top,
base rows suppressed) and the reversible reclassification of a subject's rows when
its `rdf:reifies` declarations come and go.

A step is an `Option`; `none` is a panic of the code (a failed `expect`, a missing
index, a subtraction below zero). Insertion ordinals and counts are unbounded, so
the exhaustion of the 64-bit insertion ordinal is not modelled.
-/

namespace Purrdf

/-- A term of the branch: an id of the base, or of the delta's own interner. -/
inductive MutTermId where
  | base (id : TermId)
  | delta (id : Nat)
deriving DecidableEq, Repr

abbrev QuadKey := Quad MutTermId
abbrev RecordKey := Record MutTermId

/-- A subject together with a graph: what one declaration classifies. -/
abbrev Scope := MutTermId × Option MutTermId

def Quad.scope (q : QuadKey) : Scope := (q.s, q.g)

/-- A reversible classification: the row it became and the ordinal it had. -/
structure Reclassification where
  target : RecordKey
  ordinal : Option Nat
deriving DecidableEq, Repr

abbrev Conversions := FastMap RecordKey Reclassification

structure HashOrder where
  visit : Conversions → List (RecordKey × Reclassification)
  visit_perm : ∀ conversions, (visit conversions).Perm
    (conversions.entries.map fun entry => (entry.1, entry.2))

def HashOrder.listed : HashOrder where
  visit conversions := conversions.entries.map fun entry => (entry.1, entry.2)
  visit_perm _ := List.Perm.refl _

def baseKey (q : QuadIds) : QuadKey := q.mapIds .base

/-! ### Membership of one physical row -/

/-- A key's graph as a constraint on base rows; a delta graph holds none. -/
def baseGraphMatch : Option MutTermId → Option (GraphMatch TermId)
  | none => some .default
  | some (.base g) => some (.named g)
  | some (.delta _) => none

def baseTableContains (base : RdfDataset) (kind : RecordKind) (s p o : TermId)
    (g : GraphMatch TermId) : Bool :=
  match kind with
  | .ordinary => !(base.quadsForPattern (some s) (some p) (some o) g).isEmpty
  | .reifier => (base.reifierQuadsOf s).any fun q => q.p == p && q.o == o && g.matches q.g
  | .annotationRow =>
    (base.annotationsOfWithGraph s).any fun row =>
      row.1 == p && row.2.1 == o && g.matches row.2.2

def baseContainsRecord (base : RdfDataset) (key : RecordKey) : Bool :=
  match key.quad.s, key.quad.p, key.quad.o, baseGraphMatch key.quad.g with
  | .base s, .base p, .base o, some g => baseTableContains base key.kind s p o g
  | _, _, _, _ => false

structure PhysicalRows where
  added : Finset RecordKey := ∅
  addedOrd : FastMap RecordKey Nat := ∅
  nextAddedOrd : Nat := 0
  suppressed : Finset RecordKey := ∅
  addedReifiers : FastMap Scope Nat := ∅

namespace PhysicalRows

def containsRecordKey (base : RdfDataset) (rows : PhysicalRows) (key : RecordKey) : Bool :=
  decide (key ∈ rows.added) || (decide (key ∉ rows.suppressed) && baseContainsRecord base key)

def containsKey (base : RdfDataset) (rows : PhysicalRows) (quad : QuadKey) : Bool :=
  RecordKind.all.any fun kind => rows.containsRecordKey base ⟨kind, quad⟩

/-- A new row takes the ordinal it is given, or the next fresh one. -/
def addRow (rows : PhysicalRows) (key : RecordKey) (ordinal : Option Nat) : PhysicalRows where
  added := insert key rows.added
  addedOrd := rows.addedOrd.insert key (ordinal.getD rows.nextAddedOrd)
  nextAddedOrd := if ordinal.isSome then rows.nextAddedOrd else rows.nextAddedOrd + 1
  suppressed := rows.suppressed
  addedReifiers :=
    if key.kind = .reifier then rows.addedReifiers.increment key.quad.scope
    else rows.addedReifiers

def insertRecordRows (base : RdfDataset) (rows : PhysicalRows) (key : RecordKey)
    (ordinal : Option Nat) : PhysicalRows × Bool :=
  if key ∈ rows.suppressed then ({ rows with suppressed := rows.suppressed.erase key }, true)
  else if rows.containsRecordKey base key then (rows, false)
  else (rows.addRow key ordinal, true)

def dropReifier (rows : PhysicalRows) (key : RecordKey) : Option (FastMap Scope Nat) :=
  if key.kind = .reifier then rows.addedReifiers.decrement key.quad.scope
  else some rows.addedReifiers

def dropRow (rows : PhysicalRows) (key : RecordKey) (reifiers : FastMap Scope Nat) :
    PhysicalRows :=
  { rows with
    added := rows.added.erase key
    addedOrd := rows.addedOrd.erase key
    addedReifiers := reifiers }

def suppressRow (rows : PhysicalRows) (key : RecordKey) : PhysicalRows :=
  { rows with suppressed := insert key rows.suppressed }

def removeRecordRows (base : RdfDataset) (rows : PhysicalRows) (key : RecordKey) :
    Option (PhysicalRows × Bool) :=
  if key ∈ rows.added then
    (rows.dropReifier key).map fun reifiers => (rows.dropRow key reifiers, true)
  else if baseContainsRecord base key && decide (key ∉ rows.suppressed) then
    some (rows.suppressRow key, true)
  else some (rows, false)

def hasEffectiveReifier (base : RdfDataset) (rows : PhysicalRows) (scope : Scope) : Bool :=
  (match scope.1 with
    | .base id => (base.reifierQuadsOf id).any fun q =>
      (baseKey q).g == scope.2 && rows.containsRecordKey base ⟨.reifier, baseKey q⟩
    | .delta _ => false) ||
  (rows.addedReifiers.lookup scope).any fun count => decide (0 < count)

end PhysicalRows

/-! ### Classification -/

inductive StatementKind where
  | ordinary
  | annotationRow
deriving DecidableEq, Repr

def classifyStatement (physical : StatementKind)
    (inferOrdinary originalReifier effectiveReifier : Bool) : StatementKind :=
  match physical with
  | .ordinary => if inferOrdinary && effectiveReifier then .annotationRow else .ordinary
  | .annotationRow =>
    if originalReifier && !effectiveReifier then .ordinary else .annotationRow

def RecordKind.statementKind : RecordKind → Option StatementKind
  | .ordinary => some .ordinary
  | .annotationRow => some .annotationRow
  | .reifier => none

def StatementKind.recordKind : StatementKind → RecordKind
  | .ordinary => .ordinary
  | .annotationRow => .annotationRow

structure ClassifiedRows extends PhysicalRows where
  automatic : FastMap Scope (List RecordKey) := ∅
  reclassified : FastMap Scope Conversions := ∅
  classificationCreated : Finset RecordKey := ∅

def originalReifier (base : RdfDataset) (scope : Scope) : Bool :=
  match scope.1 with
  | .base id => (base.reifierQuadsOf id).any fun q => (baseKey q).g == scope.2
  | .delta _ => false

namespace ClassifiedRows

def conversionsOf (t : ClassifiedRows) (scope : Scope) : Conversions :=
  (t.reclassified.lookup scope).getD ∅

def forgetClassification (t : ClassifiedRows) (key : RecordKey) : ClassifiedRows :=
  let scope := key.quad.scope
  let origins := ((t.conversionsOf scope).entries.filter fun entry => entry.2.target = key).map (·.1)
  { t with
    automatic := t.automatic.adjust scope fun set =>
      set.filter fun row => decide (row ≠ key ∧ row ∉ origins)
    classificationCreated := t.classificationCreated.erase key
    reclassified := t.reclassified.adjust scope fun conversions =>
      conversions.retain fun _ conversion => decide (conversion.target ≠ key) }

/-- Record that `source` stands as `target` now, with the ordinal it had. -/
def recordConversion (t : ClassifiedRows) (source : RecordKey) (conversion : Reclassification) :
    ClassifiedRows :=
  { t with
    reclassified := t.reclassified.insert source.quad.scope
      ((t.conversionsOf source.quad.scope).insert source conversion) }

/-- Move a row to its target table, noting whether the target is a new row. -/
def convert (base : RdfDataset) (t : ClassifiedRows) (source target : RecordKey) :
    Option ClassifiedRows :=
  let ordinal := t.addedOrd.lookup source
  (t.removeRecordRows base source).map fun removed =>
    let inserted := removed.1.insertRecordRows base target ordinal
    let created :=
      if inserted.2 then insert target t.classificationCreated else t.classificationCreated
    { t with toPhysicalRows := inserted.1, classificationCreated := created }.recordConversion
      source ⟨target, ordinal⟩

def classifyRecord (base : RdfDataset) (t : ClassifiedRows) (source : RecordKey)
    (effectiveReifier : Bool) : Option ClassifiedRows :=
  match source.kind.statementKind with
  | none => some t
  | some physical =>
    let targetKind := (classifyStatement physical true
      (originalReifier base source.quad.scope) effectiveReifier).recordKind
    if targetKind = source.kind then some t
    else t.convert base source ⟨targetKind, source.quad⟩

/-- Remove only generated target rows, never an independent row a conversion met. -/
def dropTargets (base : RdfDataset) (t : ClassifiedRows) :
    List (RecordKey × Reclassification) → Option ClassifiedRows
  | [] => some t
  | (_, conversion) :: rest =>
    if conversion.target ∈ t.classificationCreated then
      (t.removeRecordRows base conversion.target).bind fun removed =>
        dropTargets base { t with
          toPhysicalRows := removed.1
          classificationCreated := t.classificationCreated.erase conversion.target } rest
    else dropTargets base t rest

def restoreSources (base : RdfDataset) (t : ClassifiedRows) :
    List (RecordKey × Reclassification) → ClassifiedRows
  | [] => t
  | (source, conversion) :: rest =>
    restoreSources base { t with
      toPhysicalRows := (t.insertRecordRows base source conversion.ordinal).1 } rest

def keyCode (key : RecordKey) : List Nat :=
  let term : MutTermId → List Nat
    | .base id => [0, id]
    | .delta id => [1, id]
  let kind := match key.kind with
    | .ordinary => 0
    | .reifier => 1
    | .annotationRow => 2
  kind :: (term key.quad.s ++ term key.quad.p ++ term key.quad.o ++
    match key.quad.g with
    | none => [0]
    | some g => 1 :: term g)

/-- Base origins first, then delta origins by ordinal; the key breaks every tie. -/
def candidateCode (t : ClassifiedRows) (key : RecordKey) : List Nat :=
  (match t.addedOrd.lookup key with
    | none => [0, 0]
    | some ordinal => [1, ordinal]) ++ keyCode key

def baseCandidates (base : RdfDataset) (scope : Scope) : List RecordKey :=
  match scope.1 with
  | .delta _ => []
  | .base id =>
    let g := match scope.2 with
      | none => GraphMatch.default
      | some (.base g) => .named g
      | some (.delta _) => .any
    ((base.quadsForPattern (some id) none none g).map fun q => ⟨.ordinary, baseKey q⟩) ++
    (((base.annotationsOfWithGraph id).map fun row =>
        (⟨.annotationRow, baseKey ⟨id, row.1, row.2.1, row.2.2⟩⟩ : RecordKey)).filter fun key =>
      key.quad.scope == scope)

/-- Every row the scope's classification may move. The sort is by a total key, so the
order in which the automatic rows are walked is never seen. -/
def candidates (base : RdfDataset) (t : ClassifiedRows) (scope : Scope) : List RecordKey :=
  ((baseCandidates base scope ++ (t.automatic.lookup scope).getD []).insertionSort fun a b =>
    t.candidateCode a ≤ t.candidateCode b).eraseReps

def classifyAll (base : RdfDataset) (t : ClassifiedRows) (scope : Scope)
    (effectiveReifier : Bool) : List RecordKey → Option ClassifiedRows
  | [] => some t
  | source :: rest =>
    if source.quad.scope ≠ scope ∨ t.containsRecordKey base source = false then
      classifyAll base t scope effectiveReifier rest
    else
      (t.classifyRecord base source effectiveReifier).bind fun t =>
        classifyAll base t scope effectiveReifier rest

def normalizeSubject (base : RdfDataset) (order : HashOrder) (t : ClassifiedRows)
    (scope : Scope) : Option ClassifiedRows :=
  let old := order.visit (t.conversionsOf scope)
  ({ t with reclassified := t.reclassified.erase scope }.dropTargets base old).bind fun t =>
    let t := t.restoreSources base old
    t.classifyAll base scope (t.hasEffectiveReifier base scope) (t.candidates base scope)

end ClassifiedRows

end Purrdf
