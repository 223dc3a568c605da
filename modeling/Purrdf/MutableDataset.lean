import Purrdf.Execution
import Purrdf.MutableRows

/-!
# The mutable dataset

Value-level and typed mutation of a branch: interning terms, the caller-facing churn
counts, and the live row count and lifetime of every named graph it touches.
-/

namespace Purrdf

structure RdfDiagnostic where
  code : String
  message : String
deriving DecidableEq, Repr

inductive StorageError where
  | capacity (attempted limit : Nat)
  | sizeOverflow
deriving DecidableEq, Repr

inductive IriReadError where
  | lexical (error : RdfDiagnostic)
  | storage (error : StorageError)
deriving DecidableEq, Repr

structure LexicalRules where
  checkAbsolute : String → Except RdfDiagnostic Unit
  validateLiteral : String → String → Option String → Option RdfTextDirection →
    Except RdfDiagnostic Unit

def LexicalRules.permissive : LexicalRules where
  checkAbsolute _ := .ok ()
  validateLiteral _ _ _ _ := .ok ()

/-! ### The delta interner -/

/-- The delta's own terms by value, in mint order, and the most it may hold. -/
structure DeltaBuilder where
  capacity : Nat := 4294967295
  values : List TermValue := []
deriving DecidableEq, Repr

namespace DeltaBuilder

def find (delta : DeltaBuilder) (value : TermValue) : Option Nat := delta.values.idxOf? value

/-- A value the delta holds was checked when it was minted; only a miss is checked. -/
def intern (rules : LexicalRules) (value : TermValue) : Exec IriReadError DeltaBuilder Nat := do
  let delta ← Exec.get
  match delta.find value with
  | some id => pure id
  | none =>
    Exec.lift ((value.checkValueAbsolute rules.checkAbsolute).mapError .lexical)
    if delta.capacity < delta.values.length + 1 then
      Exec.stop (.storage (.capacity (delta.values.length + 1) delta.capacity))
    else if 4294967295 < delta.values.length then Exec.stop (.storage .sizeOverflow)
    else do
      Exec.set { delta with values := delta.values ++ [value] }
      pure delta.values.length

/-- Remove the suffix minted since `len`. -/
def rollback (delta : DeltaBuilder) (len : Nat) : DeltaBuilder :=
  { delta with values := delta.values.take len }

end DeltaBuilder

inductive GraphExistenceMode where
  | implicit
  | rememberEmpty
deriving DecidableEq, Repr

/-- What the caller asked for, apart from the rows that realize it: counts by value. -/
structure CallerChurn where
  callerAdded : FastMap RecordKey Nat := ∅
  callerSuppressed : Finset RecordKey := ∅
  addedValues : FastMap QuadKey Nat := ∅
  suppressedValues : FastMap QuadKey Nat := ∅

structure MutableDataset extends ClassifiedRows, CallerChurn where
  base : RdfDataset
  order : HashOrder
  graphExistence : GraphExistenceMode := .rememberEmpty
  delta : DeltaBuilder := {}
  declaredGraphs : List TermValue := []
  graphRows : FastMap MutTermId Nat := ∅
  withdrawnGraphs : Finset TermId := ∅

namespace CallerChurn

def insert (base : RdfDataset) (rows : PhysicalRows) (churn : CallerChurn) (key : RecordKey) :
    Option CallerChurn :=
  if baseContainsRecord base key then
    if key ∈ churn.callerSuppressed then
      (churn.suppressedValues.decrement key.quad).map fun values =>
        { churn with
          callerSuppressed := churn.callerSuppressed.erase key
          suppressedValues := values }
    else some churn
  else if key ∈ churn.callerAdded then some churn
  else
    -- `self.added_ord[&key]` panics on a missing key
    (rows.addedOrd.lookup key).map fun ordinal =>
      { churn with
        callerAdded := churn.callerAdded.insert key ordinal
        addedValues := churn.addedValues.increment key.quad }

def forgetAdded (churn : CallerChurn) (key : RecordKey) : Option CallerChurn :=
  if key ∈ churn.callerAdded then
    (churn.addedValues.decrement key.quad).map fun values =>
      { churn with callerAdded := churn.callerAdded.erase key, addedValues := values }
  else some churn

def removeOrigin (base : RdfDataset) (churn : CallerChurn) (key : RecordKey) :
    Option CallerChurn :=
  (churn.forgetAdded key).map fun churn =>
    if baseContainsRecord base key && decide (key ∉ churn.callerSuppressed) then
      { churn with
        callerSuppressed := Insert.insert key churn.callerSuppressed
        suppressedValues := churn.suppressedValues.increment key.quad }
    else churn

def removeOrigins (base : RdfDataset) (churn : CallerChurn) : List RecordKey → Option CallerChurn
  | [] => some churn
  | key :: rest => (churn.removeOrigin base key).bind fun churn => removeOrigins base churn rest

def remove (base : RdfDataset) (order : HashOrder) (rows : ClassifiedRows) (churn : CallerChurn)
    (key : RecordKey) : Option CallerChurn :=
  let origins := (order.visit (rows.conversionsOf key.quad.scope)).filterMap fun entry =>
    if entry.2.target = key then some entry.1 else none
  churn.removeOrigins base (key :: origins)

end CallerChurn

namespace MutableDataset

variable (st : MutableDataset)

def newWithGraphExistence (base : RdfDataset) (order : HashOrder) (mode : GraphExistenceMode) :
    MutableDataset where
  base := base
  order := order
  graphExistence := mode

/-! ### Values and ids -/

/-- The value of an id; `none` is the out-of-range index panic. -/
def mutValue : MutTermId → Option TermValue
  | .base id => st.base.termValue id
  | .delta id => st.delta.values[id]?

def quadValuesOf (key : QuadKey) : Option QuadValues := key.traverse st.mutValue

def resolveValue (base : RdfDataset) (rules : LexicalRules) (value : TermValue) :
    Exec IriReadError DeltaBuilder MutTermId := do
  match base.termIdByValue value with
  | some id => pure (.base id)
  | none => do
      let id ← DeltaBuilder.intern rules value
      pure (.delta id)

def resolveGraph (base : RdfDataset) (rules : LexicalRules) :
    Option TermValue → Exec IriReadError DeltaBuilder (Option MutTermId)
  | none => pure none
  | some graph => do
      let id ← resolveValue base rules graph
      pure (some id)

def resolveQuad (base : RdfDataset) (rules : LexicalRules) (quad : QuadValues) :
    Exec IriReadError DeltaBuilder QuadKey := do
  let s ← resolveValue base rules quad.s
  let p ← resolveValue base rules quad.p
  let o ← resolveValue base rules quad.o
  let g ← resolveGraph base rules quad.g
  pure ⟨s, p, o, g⟩

/-- The key of a quad, minting new terms; a refusal leaves no term behind. -/
def keyOf (rules : LexicalRules) (quad : QuadValues) :
    Except IriReadError QuadKey × MutableDataset :=
  match resolveQuad st.base rules quad st.delta with
  | (.ok key, delta) => (.ok key, { st with delta := delta })
  | (.error error, delta) =>
    (.error error, { st with delta := delta.rollback st.delta.values.length })

def findValue (value : TermValue) : Option MutTermId :=
  match st.base.termIdByValue value with
  | some id => some (.base id)
  | none => (st.delta.find value).map .delta

/-- The key of a quad without minting: all base ids, or else base and delta ids. -/
def keyOfExisting (quad : QuadValues) : Option QuadKey :=
  match quad.traverse fun value => (st.base.termIdByValue value).map MutTermId.base with
  | some key => some key
  | none => quad.traverse st.findValue

/-! ### Named graphs -/

def baseGraph (graph : TermValue) : Option TermId :=
  (st.base.termIdByValue graph).filter st.base.hasNamedGraph

def declareGraph (graph : TermValue) : MutableDataset × Bool :=
  match st.baseGraph graph with
  | some id =>
    if id ∈ st.withdrawnGraphs then
      ({ st with withdrawnGraphs := st.withdrawnGraphs.erase id }, true)
    else (st, false)
  | none =>
    if graph ∈ st.declaredGraphs then (st, false)
    else ({ st with declaredGraphs := st.declaredGraphs ++ [graph] }, true)

/-- `base ∪ added − suppressed` in constant time; `none` is a subtraction below zero. -/
def effectiveCount : Option Nat :=
  if st.suppressed.card ≤ st.base.rdfRowCount + st.added.card then
    some (st.base.rdfRowCount + st.added.card - st.suppressed.card)
  else none

/-- The live rows of a graph, seeded from the base on first touch. -/
def graphRowsOf (graph : MutTermId) : Nat :=
  match st.graphRows.lookup graph with
  | some rows => rows
  | none =>
    match graph with
    | .base id => st.base.namedGraphRowCount id
    | .delta _ => 0

def withdrawEmptiedDeclaration (graph : MutTermId) : Option MutableDataset :=
  if st.declaredGraphs = [] then some st
  else (st.mutValue graph).map fun value =>
    { st with declaredGraphs := st.declaredGraphs.erase value }

def emptied (graph : MutTermId) : Option MutableDataset :=
  match graph with
  | .base id => { st with withdrawnGraphs := insert id st.withdrawnGraphs
                }.withdrawEmptiedDeclaration graph
  | .delta _ => st.withdrawEmptiedDeclaration graph

def populated (graph : MutTermId) : Option MutableDataset :=
  let st := match graph with
    | .base id => { st with withdrawnGraphs := st.withdrawnGraphs.erase id }
    | .delta _ => st
  let named := match graph with
    | .base id => st.base.hasNamedGraph id
    | .delta _ => false
  if st.graphExistence = .rememberEmpty ∧ named = false then
    (st.mutValue graph).map fun value => (st.declareGraph value).1
  else some st

/-- Store a graph's new row count and settle whether the graph still exists. -/
def setGraphRows (graph : MutTermId) (old now : Nat) : Option MutableDataset :=
  let st := { st with graphRows := st.graphRows.insert graph now }
  if now = 0 ∧ 0 < old ∧ st.graphExistence = .implicit then st.emptied graph
  else if 0 < now ∧ old = 0 then st.populated graph
  else some st

def applyGraphChange (graph : Option MutTermId) (before : Nat) : Option MutableDataset :=
  st.effectiveCount.bind fun after =>
    match graph with
    | none => some st
    | some graph =>
      let old := st.graphRowsOf graph
      if before ≤ after then st.setGraphRows graph old (old + (after - before))
      else if before - after ≤ old then st.setGraphRows graph old (old - (before - after))
      else none

/-! ### Value-level mutation -/

/-- `rdf:reifies` with a triple term as its object. -/
def declarationKey (q : QuadKey) : Option Bool :=
  (st.mutValue q.p).bind fun p =>
    if p.isReifies then (st.mutValue q.o).map TermValue.isTriple else some false

def withPhysical (rows : PhysicalRows) : MutableDataset := { st with toPhysicalRows := rows }

def withRows (rows : ClassifiedRows) : MutableDataset := { st with toClassifiedRows := rows }

def withChurn (churn : CallerChurn) : MutableDataset := { st with toCallerChurn := churn }

def insertRows (key : RecordKey) : MutableDataset × Bool :=
  let inserted := st.toPhysicalRows.insertRecordRows st.base key none
  (st.withPhysical inserted.1, inserted.2)

def callerInsert (key : RecordKey) : Option MutableDataset :=
  (st.toCallerChurn.insert st.base st.toPhysicalRows key).map st.withChurn

def callerRemove (key : RecordKey) : Option MutableDataset :=
  (st.toCallerChurn.remove st.base st.order st.toClassifiedRows key).map st.withChurn

/-- Whether a key is hidden only because a conversion replaced it. -/
def isReclassified (key : RecordKey) : Bool :=
  ((st.conversionsOf key.quad.scope).lookup key).isSome

/-- Bring back every base role of the quad the caller removed. -/
def restoreSuppressed (st : MutableDataset) (quad : QuadKey) (restored : List RecordKey) :
    List RecordKind → Option (MutableDataset × List RecordKey)
  | [] => some (st, restored)
  | kind :: rest =>
    let key : RecordKey := ⟨kind, quad⟩
    if key ∈ st.suppressed ∧ st.isReclassified key = false ∧ (st.insertRows key).2 = true then
      ((st.insertRows key).1.callerInsert key).bind fun st =>
        restoreSuppressed st quad (restored ++ [key]) rest
    else restoreSuppressed st quad restored rest

def classifyNew (key : RecordKey) : Option MutableDataset :=
  let rows := { st.toClassifiedRows with
    automatic := st.automatic.insert key.quad.scope
      (((st.automatic.lookup key.quad.scope).getD []).insert key) }
  (rows.classifyRecord st.base key (rows.hasEffectiveReifier st.base key.quad.scope)).map st.withRows

/-- Admit a quad that no table holds, in the table its shape asks for. -/
def admitNew (quad : QuadKey) : Option (MutableDataset × Bool) :=
  (st.declarationKey quad).bind fun declaration =>
    let key : RecordKey := ⟨if declaration then .reifier else .ordinary, quad⟩
    let inserted := st.insertRows key
    (if inserted.2 then inserted.1.callerInsert key else some inserted.1).bind fun st =>
      (if declaration then some st else st.classifyNew key).map fun st => (st, inserted.2)

def classifyRestored (st : MutableDataset) (effectiveReifier : Bool) : List RecordKey → Option MutableDataset
  | [] => some st
  | key :: rest =>
    (st.classifyRecord st.base key effectiveReifier).bind fun rows =>
      classifyRestored (st.withRows rows) effectiveReifier rest

def normalize (scope : Scope) : Option MutableDataset :=
  (st.normalizeSubject st.base st.order scope).map st.withRows

/-- Whether the value operation changed a declaration, so that its scope needs
normalizing. The declaration is only looked at after a change. -/
def changesDeclaration (changed : Bool) (quad : QuadKey) : Option Bool :=
  if changed then st.declarationKey quad else some false

def admitValue (quad : QuadKey) (restored : List RecordKey) : Option (MutableDataset × Bool) :=
  if restored = [] ∧ st.containsKey st.base quad = false then st.admitNew quad
  else some (st, decide (restored ≠ []))

def insertKey (quad : QuadKey) : Option (MutableDataset × Bool) :=
  st.effectiveCount.bind fun before =>
  (st.restoreSuppressed quad [] RecordKind.all).bind fun (st, restored) =>
  (st.admitValue quad restored).bind fun (st, changed) =>
  (st.changesDeclaration changed quad).bind fun declaration =>
  (if declaration then st.normalize quad.scope
    else st.classifyRestored (st.hasEffectiveReifier st.base quad.scope) restored).bind fun st =>
  (st.applyGraphChange quad.g before).map fun st => (st, changed)

/-- After a row has left: the caller's account, then the conversions into the row. -/
def settleRemoval (key : RecordKey) : Option MutableDataset :=
  (st.callerRemove key).map fun next => next.withRows (next.forgetClassification key)

def removeRole (key : RecordKey) : Option (MutableDataset × Bool) :=
  (st.removeRecordRows st.base key).bind fun removed =>
    ((st.withPhysical removed.1).settleRemoval key).map fun st => (st, removed.2)

def removeRoles (st : MutableDataset) (quad : QuadKey) (changed : Bool) :
    List RecordKind → Option (MutableDataset × Bool)
  | [] => some (st, changed)
  | kind :: rest =>
    if st.containsRecordKey st.base ⟨kind, quad⟩ then
      (st.removeRole ⟨kind, quad⟩).bind fun (st, removed) =>
        removeRoles st quad (changed || removed) rest
    else removeRoles st quad changed rest

def removeKey (quad : QuadKey) : Option (MutableDataset × Bool) :=
  st.effectiveCount.bind fun before =>
  (st.removeRoles quad false RecordKind.all).bind fun (st, changed) =>
  (st.changesDeclaration changed quad).bind fun declaration =>
  (if declaration then st.normalize quad.scope else some st).bind fun st =>
  (st.applyGraphChange quad.g before).map fun st => (st, changed)

/-- `DatasetMut::insert`. -/
def insert (rules : LexicalRules) (quad : QuadValues) :
    Option (MutableDataset × Except IriReadError Bool) :=
  match st.keyOf rules quad with
  | (.ok key, st) => (st.insertKey key).map fun (st, changed) => (st, .ok changed)
  | (.error error, st) => some (st, .error error)

/-- `DatasetMut::remove`. -/
def remove (quad : QuadValues) : Option (MutableDataset × Bool) :=
  match st.keyOfExisting quad with
  | some key => st.removeKey key
  | none => some (st, false)

/-- `DatasetMut::contains`. -/
def contains (quad : QuadValues) : Bool :=
  match st.keyOfExisting quad with
  | some key => st.containsKey st.base key
  | none => false

end MutableDataset

/-! ### Typed records -/

inductive TermKind where
  | iri
  | blank
  | literal
  | triple
deriving DecidableEq, Repr

def TermKind.name : TermKind → String
  | iri => "an IRI"
  | blank => "a blank node"
  | literal => "a literal"
  | triple => "a triple term"

def requireSubjectKind (kind : TermKind) (context tripleReason : String) :
    Except RdfDiagnostic Unit :=
  match kind with
  | .iri | .blank => .ok ()
  | .literal => .error ⟨"rdf-ir-literal-subject", context ++ " must not be a literal"⟩
  | .triple => .error ⟨"rdf-ir-triple-subject",
      context ++ " must be an IRI or blank node; " ++ tripleReason⟩

def requirePredicateKind (kind : TermKind) (context : String) : Except RdfDiagnostic Unit :=
  if kind = .iri then .ok ()
  else .error ⟨"rdf-ir-predicate-not-iri",
    context ++ " must be an IRI, but resolves to " ++ kind.name⟩

def requireGraphKind (kind : TermKind) (context : String) : Except RdfDiagnostic Unit :=
  match kind with
  | .iri | .blank => .ok ()
  | other => .error ⟨"rdf-ir-graph-name-invalid",
      context ++ " must be an IRI or blank node, but resolves to " ++ other.name⟩

def maxTermNestingDepth : Nat := 16

def validateValue (rules : LexicalRules) : TermValue → Except RdfDiagnostic (TermKind × Nat)
  | .iri value => do
      rules.checkAbsolute value
      pure (.iri, 0)
  | .blank _ _ => .ok (.blank, 0)
  | .literal lexicalForm datatype language direction => do
      rules.validateLiteral lexicalForm datatype language direction
      pure (.literal, 0)
  | .triple s p o => do
      let subject ← validateValue rules s
      let predicate ← validateValue rules p
      let object ← validateValue rules o
      requireSubjectKind subject.1 "triple term subject"
        "RDF 1.2 nests a triple term only in the OBJECT of another triple term"
      requirePredicateKind predicate.1 "triple term predicate"
      let depth := max (max subject.2 predicate.2) object.2 + 1
      if maxTermNestingDepth < depth then
        .error ⟨"rdf-ir-triple-nesting-limit",
          "triple-term nesting depth exceeds the limit of 16"⟩
      else pure (.triple, depth)

def validateGraph (rules : LexicalRules) :
    Option TermValue → Except RdfDiagnostic (Option TermKind)
  | none => .ok none
  | some graph => do
      let kind ← validateValue rules graph
      pure (some kind.1)

def requireGraph : Option TermKind → Except RdfDiagnostic Unit
  | none => .ok ()
  | some kind => requireGraphKind kind "record graph"

def validateReifier (record : RecordValues) (object : TermKind) : Except RdfDiagnostic Unit :=
  if record.kind ≠ .reifier then .ok ()
  else if record.quad.p.isReifies = false then
    .error ⟨"rdf-ir-reifier-predicate", "a reifier record must use rdf:reifies"⟩
  else if object ≠ .triple then
    .error ⟨"rdf-ir-reifier-not-triple", "a reifier record must bind a triple term"⟩
  else .ok ()

def validateRecord (rules : LexicalRules) (record : RecordValues) : Except RdfDiagnostic Unit := do
  let s ← validateValue rules record.quad.s
  let p ← validateValue rules record.quad.p
  let o ← validateValue rules record.quad.o
  let g ← validateGraph rules record.quad.g
  requireSubjectKind s.1 "record subject"
    "an asserted statement cannot have a quoted triple as its subject"
  requirePredicateKind p.1 "record predicate"
  requireGraph g
  validateReifier record o.1

/-- The errors of a typed insertion, before their conversion to a diagnostic. -/
inductive RecordError where
  | invalid (error : RdfDiagnostic)
  | refused (error : IriReadError)
deriving DecidableEq, Repr

namespace MutableDataset

/-- Insert into exactly the requested table, without inferred classification. -/
def insertRecordKey (st : MutableDataset) (key : RecordKey) : Option (MutableDataset × Bool) :=
  st.effectiveCount.bind fun before =>
    let inserted := st.insertRows key
    (if inserted.2 then inserted.1.callerInsert key else some inserted.1).bind fun st =>
      (st.applyGraphChange key.quad.g before).map fun st => (st, inserted.2)

def insertRecord (st : MutableDataset) (rules : LexicalRules) (record : RecordValues) :
    Option (MutableDataset × Except RecordError Bool) :=
  match validateRecord rules record with
  | .error error => some (st, .error (.invalid error))
  | .ok () =>
    match st.keyOf rules record.quad with
    | (.error error, st) => some (st, .error (.refused error))
    | (.ok quad, st) =>
      (st.insertRecordKey ⟨record.kind, quad⟩).map fun (st, changed) => (st, .ok changed)

def removeRecordKey (st : MutableDataset) (key : RecordKey) : Option (MutableDataset × Bool) :=
  st.effectiveCount.bind fun before =>
  (st.removeRecordRows st.base key).bind fun removed =>
  (if removed.2 then (st.withPhysical removed.1).settleRemoval key
    else some (st.withPhysical removed.1)).bind fun st =>
  (st.applyGraphChange key.quad.g before).map fun st => (st, removed.2)

def removeRecord (st : MutableDataset) (record : RecordValues) : Option (MutableDataset × Bool) :=
  match st.keyOfExisting record.quad with
  | some quad => st.removeRecordKey ⟨record.kind, quad⟩
  | none => some (st, false)

/-- Every effective record: the base rows that are not suppressed, then the added ones
in insertion order. -/
def addedInOrder (st : MutableDataset) : List RecordKey :=
  (st.addedOrd.entries.insertionSort fun a b => a.2 ≤ b.2).map (·.1)

def effectiveRecordKeys (st : MutableDataset) : List RecordKey :=
  ((st.base.recordIds.map fun row => (⟨row.kind, baseKey row.quad⟩ : RecordKey)).filter fun key =>
    decide (key ∉ st.suppressed)) ++ st.addedInOrder

end MutableDataset

end Purrdf
