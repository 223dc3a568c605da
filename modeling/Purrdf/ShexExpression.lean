import Purrdf.FastMap

/-!
# Triple expressions

The triple expressions of a shape and their compiled form: a tree whose leaves are slots, one for
each occurrence of a triple constraint. Inclusions are inlined, so every slot is the leaf of one
place in the tree.
-/

namespace Purrdf.Shex

/-- A `{min, max}` cardinality, unbounded without `max`. -/
structure Card where
  min : Nat
  max : Option Nat
deriving DecidableEq, Repr

/-- `{1,1}` where nothing is written; a negative maximum is unbounded. -/
def Card.fromAst (min max : Option Int) : Card where
  min := (min.map Int.toNat).getD 1
  max :=
    match max with
    | none => some 1
    | some m => if m < 0 then none else some m.natAbs

def Card.Ordered (card : Card) : Prop :=
  ∀ bound, card.max = some bound → card.min ≤ bound

structure TripleConstraint (V : Type) where
  inverse : Option Bool
  predicate : String
  valueExpr : Option V
  min : Option Int
  max : Option Int
deriving DecidableEq, Repr

inductive TripleExpr (V : Type) where
  | eachOf (min max : Option Int) (expressions : List (TripleExpr V))
  | oneOf (min max : Option Int) (expressions : List (TripleExpr V))
  | tripleConstraint (tc : TripleConstraint V)
  | ref (label : String)

structure Slot (V : Type) where
  predicate : String
  inverse : Bool
  valueExpr : Option V
  card : Card
deriving DecidableEq, Repr

inductive CNode where
  | slot (index : Nat)
  | each (children : List CNode) (card : Card)
  | one (children : List CNode) (card : Card)

structure Compiled (V : Type) where
  root : CNode
  slots : List (Slot V)

variable {V : Type}

def pushSlot (tc : TripleConstraint V) (slots : List (Slot V)) : Nat × List (Slot V) :=
  (slots.length, slots ++ [{
    predicate := tc.predicate
    inverse := tc.inverse == some true
    valueExpr := tc.valueExpr
    card := Card.fromAst tc.min tc.max }])

/-- The labels that an inclusion may still enter. -/
def unvisited (teMap : FastMap String (TripleExpr V)) (stack : List String) : Finset String :=
  teMap.keys.toFinset \ stack.toFinset

theorem unvisited_push {teMap : FastMap String (TripleExpr V)} {stack : List String}
    {label : String} {target : TripleExpr V} (found : teMap.lookup label = some target)
    (fresh : label ∉ stack) :
    (unvisited teMap (label :: stack)).card < (unvisited teMap stack).card := by
  apply Finset.card_lt_card
  rw [Finset.ssubset_iff_of_subset]
  · refine ⟨label, ?_, ?_⟩
    · have declared : label ∈ teMap := AList.lookup_isSome.mp (by rw [found]; rfl)
      unfold unvisited
      rw [Finset.mem_sdiff, List.mem_toFinset, List.mem_toFinset]
      exact ⟨AList.mem_keys.mpr declared, fresh⟩
    · unfold unvisited
      simp
  · intro other member
    unfold unvisited at *
    simp only [Finset.mem_sdiff, List.mem_toFinset, List.mem_cons, not_or] at member ⊢
    exact ⟨member.1, member.2.2⟩

mutual

def compileNode (teMap : FastMap String (TripleExpr V)) (expr : TripleExpr V)
    (slots : List (Slot V)) (stack : List String) : Except String (CNode × List (Slot V)) :=
  match expr with
  | .tripleConstraint tc => .ok (.slot (pushSlot tc slots).1, (pushSlot tc slots).2)
  | .eachOf min max expressions =>
    match compileNodes teMap expressions slots stack with
    | .error message => .error message
    | .ok (children, slots) => .ok (.each children (Card.fromAst min max), slots)
  | .oneOf min max expressions =>
    match compileNodes teMap expressions slots stack with
    | .error message => .error message
    | .ok (children, slots) => .ok (.one children (Card.fromAst min max), slots)
  | .ref label =>
    match found : teMap.lookup label with
    | none => .error s!"inclusion of undeclared triple expression {label}"
    | some target =>
      if label ∈ stack then .error s!"cyclic triple-expression inclusion of {label}"
      else compileNode teMap target slots (label :: stack)
termination_by ((unvisited teMap stack).card, sizeOf expr)
decreasing_by
  · exact Prod.Lex.right _ (by simp only [TripleExpr.eachOf.sizeOf_spec]; omega)
  · exact Prod.Lex.right _ (by simp only [TripleExpr.oneOf.sizeOf_spec]; omega)
  · exact Prod.Lex.left _ _ (unvisited_push found (by assumption))

def compileNodes (teMap : FastMap String (TripleExpr V)) (expressions : List (TripleExpr V))
    (slots : List (Slot V)) (stack : List String) :
    Except String (List CNode × List (Slot V)) :=
  match expressions with
  | [] => .ok ([], slots)
  | child :: rest =>
    match compileNode teMap child slots stack with
    | .error message => .error message
    | .ok (node, slots) =>
      match compileNodes teMap rest slots stack with
      | .error message => .error message
      | .ok (nodes, slots) => .ok (node :: nodes, slots)
termination_by ((unvisited teMap stack).card, sizeOf expressions)
decreasing_by
  · exact Prod.Lex.right _ (by simp only [List.cons.sizeOf_spec]; omega)
  · exact Prod.Lex.right _ (by simp only [List.cons.sizeOf_spec]; omega)

end

def compile (expr : TripleExpr V) (teMap : FastMap String (TripleExpr V)) :
    Except String (Compiled V) :=
  match compileNode teMap expr [] [] with
  | .error message => .error message
  | .ok (root, slots) => .ok { root, slots }

/-! ### Slots and leaves -/

mutual

def CNode.leaves : CNode → List Nat
  | .slot index => [index]
  | .each children _ => leavesAll children
  | .one children _ => leavesAll children

def CNode.leavesAll : List CNode → List Nat
  | [] => []
  | child :: rest => child.leaves ++ leavesAll rest

end

theorem leavesAll_cons (child : CNode) (rest : List CNode) :
    CNode.leavesAll (child :: rest) = child.leaves ++ CNode.leavesAll rest := by
  rw [CNode.leavesAll]

structure Appended (before after : List (Slot V)) (leaves : List Nat) : Prop where
  grown : ∃ pushed, after = before ++ pushed
  leaves_eq : leaves = List.range' before.length (after.length - before.length)

theorem Appended.refl (slots : List (Slot V)) : Appended slots slots [] where
  grown := ⟨[], (List.append_nil slots).symm⟩
  leaves_eq := by rw [Nat.sub_self]; rfl

theorem Appended.trans {first second third : List (Slot V)} {left right : List Nat}
    (here : Appended first second left) (there : Appended second third right) :
    Appended first third (left ++ right) := by
  obtain ⟨⟨one, rfl⟩, here_eq⟩ := here
  obtain ⟨⟨two, rfl⟩, there_eq⟩ := there
  refine ⟨⟨one ++ two, by rw [List.append_assoc]⟩, ?_⟩
  rw [here_eq, there_eq]
  have first_count : (first ++ one).length - first.length = one.length := by
    rw [List.length_append, Nat.add_sub_cancel_left]
  have second_count : (first ++ one ++ two).length - (first ++ one).length = two.length := by
    rw [List.length_append, Nat.add_sub_cancel_left]
  have whole : (first ++ one ++ two).length - first.length = one.length + two.length := by
    rw [List.length_append, List.length_append, Nat.add_assoc, Nat.add_sub_cancel_left]
  rw [first_count, second_count, whole, List.length_append]
  exact List.range'_append_1

theorem pushSlot_appended (tc : TripleConstraint V) (slots : List (Slot V)) :
    Appended slots (pushSlot tc slots).2 [(pushSlot tc slots).1] where
  grown := ⟨_, rfl⟩
  leaves_eq := by
    unfold pushSlot
    rw [List.length_append, Nat.add_sub_cancel_left]
    rfl

theorem compileNode_appended (teMap : FastMap String (TripleExpr V)) :
    (∀ (expr : TripleExpr V) (slots : List (Slot V)) (stack : List String),
      ∀ node after, compileNode teMap expr slots stack = .ok (node, after) →
        Appended slots after node.leaves) ∧
    (∀ (expressions : List (TripleExpr V)) (slots : List (Slot V)) (stack : List String),
      ∀ nodes after, compileNodes teMap expressions slots stack = .ok (nodes, after) →
        Appended slots after (CNode.leavesAll nodes)) := by
  apply compileNode.mutual_induct
  case case1 =>
    intro slots stack tc node after ok
    rw [compileNode] at ok
    cases ok
    exact pushSlot_appended tc slots
  case case2 | case4 =>
    intro slots stack min max expressions message failed ih node after ok
    rw [compileNode, failed] at ok
    cases ok
  case case3 | case5 =>
    intro slots stack min max expressions children between compiled ih node after ok
    rw [compileNode, compiled] at ok
    cases ok
    rw [CNode.leaves]
    exact ih children between compiled
  case case6 =>
    intro slots stack label missing node after ok
    rw [compileNode] at ok
    split at ok
    · cases ok
    · rename_i target found
      rw [missing] at found
      cases found
  case case7 =>
    intro slots stack label target declared visited node after ok
    rw [compileNode] at ok
    split at ok
    · cases ok
    · rw [if_pos visited] at ok
      cases ok
  case case8 =>
    intro slots stack label target declared fresh ih node after ok
    rw [compileNode] at ok
    split at ok
    · cases ok
    · rename_i other found
      rw [declared] at found
      cases found
      rw [if_neg fresh] at ok
      exact ih node after ok
  case case9 =>
    intro slots stack nodes after ok
    rw [compileNodes] at ok
    cases ok
    exact Appended.refl slots
  case case10 =>
    intro slots stack child rest message failed ih nodes after ok
    rw [compileNodes, failed] at ok
    cases ok
  case case11 =>
    intro slots stack child rest node between compiled message failed ih rest_ih nodes after ok
    rw [compileNodes, compiled] at ok
    dsimp only at ok
    rw [failed] at ok
    cases ok
  case case12 =>
    intro slots stack child rest node between compiled others last rest_compiled ih rest_ih nodes
      after ok
    rw [compileNodes, compiled] at ok
    dsimp only at ok
    rw [rest_compiled] at ok
    cases ok
    rw [CNode.leavesAll]
    exact (ih node between compiled).trans (rest_ih others last rest_compiled)

theorem compile_leaves {expr : TripleExpr V} {teMap : FastMap String (TripleExpr V)}
    {compiled : Compiled V} (ok : compile expr teMap = .ok compiled) :
    compiled.root.leaves = List.range compiled.slots.length := by
  unfold compile at ok
  split at ok
  · cases ok
  · rename_i root slots node_ok
    cases ok
    have appended := (compileNode_appended teMap).1 expr [] [] root slots node_ok
    rw [appended.leaves_eq, List.length_nil, Nat.sub_zero, List.range_eq_range']

end Purrdf.Shex
