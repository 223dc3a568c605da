import Purrdf.SortedInsertion
import Purrdf.Tarjan

/-!
# Termination evidence

Positions of a program are atom slots refined by the constants in the other slots. Producing
evidence searches the graph of positions for a special edge inside a component; checking it
compares positions and ranks only. Work limits, stops and storage never refuse here.
-/

namespace Purrdf.Termination

open SortedSearch

/-- A constant carries its surface, an iri the text between its brackets. -/
inductive ClauseTerm where
  | var (name : String)
  | iri (value : String)
  | literal (value : String)
  | defaultGraph
deriving DecidableEq

namespace ClauseTerm

def variableName : ClauseTerm → Option String
  | var name => some name
  | _ => none

def isVar (term : ClauseTerm) : Bool := term.variableName.isSome

end ClauseTerm

structure ClauseAtom (arity : Nat) where
  positions : Fin arity → ClauseTerm

/-- A clause; `unread` is what only the digest of a program reads. -/
structure DlClause (Unread : Type) (arity : Nat) where
  body : List (ClauseAtom arity)
  existentials : List String
  headDisjuncts : List (List (ClauseAtom arity))
  unread : Unread

structure SourcePosition where
  clause : Nat
  head : Bool
  disjunct : Nat
  atom : Nat
  slot : Nat
deriving DecidableEq

inductive TerminationError where
  | uncertified (source target : Option SourcePosition)
  | graph (refusal : Graph.GraphError)
  | programMismatch
  | lawMismatch
  | invalidEvidence
deriving DecidableEq

variable {Unread : Type} {arity : Nat}

/-! ### Positions -/

def atom (program : List (DlClause Unread arity)) (position : SourcePosition) :
    Except TerminationError (ClauseAtom arity) :=
  match program[position.clause]? with
  | none => .error .invalidEvidence
  | some clause =>
    if arity ≤ position.slot then .error .invalidEvidence
    else
      let found :=
        if position.head then
          clause.headDisjuncts[position.disjunct]?.bind fun head => head[position.atom]?
        else if position.disjunct = 0 then clause.body[position.atom]?
        else none
      found.elim (.error .invalidEvidence) .ok

def surface : ClauseTerm → List UInt8
  | .iri value => "<".toUTF8.toList ++ value.toUTF8.toList ++ ">".toUTF8.toList
  | .literal value => value.toUTF8.toList
  | .defaultGraph | .var _ => []

/-- Variables are equal to each other and greater than constants. -/
def compareTerm (left right : ClauseTerm) : Ordering :=
  match left.isVar, right.isVar with
  | true, true => .eq
  | true, false => .gt
  | false, true => .lt
  | false, false => compare (surface left) (surface right)

def compareTerms (slot : Nat) (left right : ClauseAtom arity) : List (Fin arity) → Ordering
  | [] => .eq
  | index :: rest =>
    if index.val = slot then compareTerms slot left right rest
    else
      match compareTerm (left.positions index) (right.positions index) with
      | .eq => compareTerms slot left right rest
      | order => order

def comparePosition (program : List (DlClause Unread arity)) (left right : SourcePosition) :
    Except TerminationError Ordering :=
  match compare left.slot right.slot with
  | .eq => do
      let leftAtom ← atom program left
      let rightAtom ← atom program right
      return compareTerms left.slot leftAtom rightAtom (List.finRange arity)
  | order => .ok order

def locate (program : List (DlClause Unread arity)) (positions : List SourcePosition)
    (position : SourcePosition) : Except TerminationError Nat := do
  match ← search (comparePosition program · position) positions with
  | .ok place => return place
  | .error _ => throw .invalidEvidence

/-! ### Edges -/

structure PositionEdge where
  source : SourcePosition
  target : SourcePosition
  special : Bool

def PositionEdge.ends (edge : PositionEdge) : List SourcePosition := [edge.source, edge.target]

def headSlots (ci : Nat) (clause : DlClause Unread arity) (name : String) : List SourcePosition :=
  clause.headDisjuncts.zipIdx.flatMap fun head =>
    head.1.zipIdx.flatMap fun headAtom =>
      (List.finRange arity).filterMap fun (slot : Fin arity) =>
        if (headAtom.1.positions slot).variableName = some name then
          some ⟨ci, true, head.2, headAtom.2, slot.val⟩
        else none

/-- The edges out of a body slot that holds a variable: to each head slot of it and, where
there is any, to each existential one. -/
def slotEdges (ci : Nat) (clause : DlClause Unread arity) (source : SourcePosition)
    (name : String) : List PositionEdge :=
  let frontier := headSlots ci clause name
  if frontier = [] then []
  else
    frontier.map (⟨source, ·, false⟩) ++
      clause.existentials.flatMap fun existential =>
        (headSlots ci clause existential).map (⟨source, ·, true⟩)

def walkEdges (program : List (DlClause Unread arity)) : List PositionEdge :=
  program.zipIdx.flatMap fun clause =>
    clause.1.body.zipIdx.flatMap fun body =>
      (List.finRange arity).flatMap fun slot =>
        (body.1.positions slot).variableName.elim []
          (slotEdges clause.2 clause.1 ⟨clause.2, false, 0, body.2, slot⟩)

def sourcePositions (program : List (DlClause Unread arity)) :
    Except TerminationError (List SourcePosition) :=
  insertAll (comparePosition program) [] ((walkEdges program).flatMap PositionEdge.ends)

/-- Equal constants, or a variable on either side. -/
def compatibleTerms (left right : ClauseTerm) : Bool :=
  left.isVar || right.isVar || compareTerm left right == .eq

def placedPairs {α : Type} : Nat → List α → List ((Nat × α) × (Nat × α))
  | _, [] => []
  | i, left :: rest =>
    (rest.zipIdx (i + 1)).map (fun right => ((i, left), (right.2, right.1))) ++
      placedPairs (i + 1) rest

def compatiblePair (program : List (DlClause Unread arity)) (left right : SourcePosition) :
    Except TerminationError Bool :=
  if left.slot ≠ right.slot then .ok false
  else do
    let leftAtom ← atom program left
    let rightAtom ← atom program right
    return (List.finRange arity).all fun index =>
      index.val = left.slot || compatibleTerms (leftAtom.positions index) (rightAtom.positions index)

def compatibility {State : Type} (program : List (DlClause Unread arity))
    (positions : List SourcePosition)
    (emit : State → Nat → Nat → Except TerminationError State) (state : State) :
    Except TerminationError State :=
  (placedPairs 0 positions).foldlM (fun state pair => do
    match ← compatiblePair program pair.1.2 pair.2.2 with
    | true => emit state pair.1.1 pair.2.1
    | false => return state) state

/-! ### The certificate -/

structure WaCertificate (Digest : Type) where
  program : Digest
  law : Nat
  arity : Nat
  positions : List SourcePosition
  ranks : List Nat
  existentialEdges : Nat

def waLawVersion : Nat := 1

def insertNat (rows : List Nat) (value : Nat) : Except TerminationError (List Nat) :=
  insertSorted (fun row value => .ok (compare row value)) rows value

def comparePair (left right : Nat × Nat) : Ordering :=
  (compare left.1 right.1).then (compare left.2 right.2)

def insertPair (rows : List (Nat × Nat)) (value : Nat × Nat) :
    Except TerminationError (List (Nat × Nat)) :=
  insertSorted (fun row value => .ok (comparePair row value)) rows value

def insertEdge (adjacency : Graph.Adjacency) (source target : Nat) :
    Except TerminationError Graph.Adjacency := do
  return adjacency.set source (← insertNat (adjacency.edges source) target)

def collect (specials : List (Nat × Nat)) (edge : PositionEdge) (pair : Nat × Nat) :
    Except TerminationError (List (Nat × Nat)) :=
  if edge.special then insertPair specials pair else .ok specials

def addEdge (program : List (DlClause Unread arity)) (positions : List SourcePosition)
    (built : Graph.Adjacency × List (Nat × Nat)) (edge : PositionEdge) :
    Except TerminationError (Graph.Adjacency × List (Nat × Nat)) := do
  let source ← locate program positions edge.source
  let target ← locate program positions edge.target
  let adjacency ← insertEdge built.1 source target
  let specials ← collect built.2 edge (source, target)
  return (adjacency, specials)

def positionGraph (program : List (DlClause Unread arity)) (positions : List SourcePosition) :
    Except TerminationError (Graph.Adjacency × List (Nat × Nat)) := do
  let built ← (walkEdges program).foldlM (addEdge program positions)
    (List.replicate positions.length [], [])
  let adjacency ← compatibility program positions (fun adjacency source target => do
    insertEdge (← insertEdge adjacency source target) target source) built.1
  return (adjacency, built.2)

/-- Evidence, or a refusal; `none` is a walk that ran out of fuel. -/
def certify {Digest : Type} (canonicalRuleHash : List (DlClause Unread arity) → Digest)
    (program : List (DlClause Unread arity)) :
    Option (Except TerminationError (WaCertificate Digest)) :=
  match sourcePositions program with
  | .error refusal => some (.error refusal)
  | .ok positions =>
    match positionGraph program positions with
    | .error refusal => some (.error refusal)
    | .ok (adjacency, specials) =>
      match Graph.sccComponentIndex adjacency with
      | .error refusal => some (.error (.graph refusal))
      | .ok none => none
      | .ok (some components) =>
        match specials.find? fun pair =>
          components.getD pair.1 0 = components.getD pair.2 0 with
        | some pair =>
          some (.error (.uncertified positions[pair.1]? positions[pair.2]?))
        | none =>
          some (.ok {
            program := canonicalRuleHash program
            law := waLawVersion
            arity := arity
            positions := positions
            ranks := components.map (positions.length - ·)
            existentialEdges := specials.length })

def checkRank (ranks : List Nat) (source target : Nat) (special : Bool) :
    Except TerminationError Unit :=
  if (if special then ranks.getD source 0 < ranks.getD target 0
    else ranks.getD source 0 ≤ ranks.getD target 0) then .ok ()
  else .error .invalidEvidence

def checkEdge (program : List (DlClause Unread arity)) (positions : List SourcePosition)
    (ranks : List Nat) (specials : List (Nat × Nat)) (edge : PositionEdge) :
    Except TerminationError (List (Nat × Nat)) := do
  let source ← locate program positions edge.source
  let target ← locate program positions edge.target
  checkRank ranks source target edge.special
  collect specials edge (source, target)

def checkEvidence (program : List (DlClause Unread arity)) (positions supplied : List SourcePosition)
    (ranks : List Nat) (existentialEdges : Nat) : Except TerminationError Unit :=
  if positions.length ≠ supplied.length ∨ ranks.length ≠ positions.length then
    .error .invalidEvidence
  else if positions ≠ supplied then .error .invalidEvidence
  else do
    let specials ← (walkEdges program).foldlM (checkEdge program positions ranks) []
    if specials.length ≠ existentialEdges then .error .invalidEvidence
    else
      compatibility program positions (fun _ source target => do
        checkRank ranks source target false
        checkRank ranks target source false) ()

def verify {Digest : Type} [DecidableEq Digest]
    (canonicalRuleHash : List (DlClause Unread arity) → Digest)
    (certificate : WaCertificate Digest) (program : List (DlClause Unread arity)) :
    Except TerminationError Unit :=
  if certificate.law ≠ waLawVersion ∨ certificate.arity ≠ arity then .error .lawMismatch
  else if canonicalRuleHash program ≠ certificate.program then .error .programMismatch
  else do
    let positions ← sourcePositions program
    checkEvidence program positions certificate.positions certificate.ranks
      certificate.existentialEdges

end Purrdf.Termination
