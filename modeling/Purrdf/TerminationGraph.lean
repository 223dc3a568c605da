import Mathlib.Data.List.Forall2
import Purrdf.Termination

/-!
# Refined positions

A position stands for a slot and the constants of the other slots. Comparing positions of a
program is comparing these, so the positions gathered are one for each, and every end of an
edge is located at the one that stands for the same.
-/

namespace Purrdf.Termination

open SortedSearch

variable {Unread : Type} {arity : Nat} {program : List (DlClause Unread arity)}

/-- A slot, and the other slots in order: the bytes of a constant, or none for a variable. -/
structure Refined where
  slot : Nat
  others : List (Option (List UInt8))
deriving DecidableEq

def refinement (term : ClauseTerm) : Option (List UInt8) :=
  if term.isVar then none else some (surface term)

def otherSlots (arity slot : Nat) : List (Fin arity) :=
  (List.finRange arity).filter fun index => index.val ≠ slot

def refine (atom : ClauseAtom arity) (slot : Nat) : Refined :=
  ⟨slot, (otherSlots arity slot).map fun index => refinement (atom.positions index)⟩

def refined (program : List (DlClause Unread arity)) (position : SourcePosition) : Refined :=
  match atom program position with
  | .ok atom => refine atom position.slot
  | .error _ => ⟨position.slot, []⟩

/-! ### The order -/

def compareOption (left right : Option (List UInt8)) : Ordering :=
  match left, right with
  | none, none => .eq
  | none, some _ => .gt
  | some _, none => .lt
  | some left, some right => compare left right

instance : Std.TransCmp compareOption where
  eq_swap {left right} := by
    cases left with
    | none => cases right <;> rfl
    | some left =>
      cases right with
      | none => rfl
      | some right => exact Std.OrientedOrd.eq_swap
  isLE_trans {first middle last} hfirst hlast := by
    cases last with
    | none => cases first <;> rfl
    | some last =>
      cases middle with
      | none => cases hlast
      | some middle =>
        cases first with
        | none => cases hfirst
        | some first => exact Std.TransOrd.isLE_trans hfirst hlast

instance : Std.LawfulEqCmp compareOption where
  compare_self {value} := by
    cases value with
    | none => rfl
    | some value => exact Std.ReflOrd.compare_self
  eq_of_compare {left right} h := by
    cases left with
    | none =>
      cases right with
      | none => rfl
      | some right => cases h
    | some left =>
      cases right with
      | none => cases h
      | some right => exact congrArg some (Std.LawfulEqOrd.eq_of_compare h)

def compareRefined (left right : Refined) : Ordering :=
  (compare left.slot right.slot).then (List.compareLex compareOption left.others right.others)

instance : Std.TransCmp compareRefined :=
  haveI : Std.TransCmp fun left right : Refined =>
      List.compareLex compareOption left.others right.others :=
    transCmp_on (List.compareLex compareOption) Refined.others
  inferInstanceAs (Std.TransCmp (compareLex (compareOn Refined.slot)
    fun left right => List.compareLex compareOption left.others right.others))

theorem compareRefined_eq {left right : Refined} :
    compareRefined left right = .eq ↔ left = right := by
  unfold compareRefined
  rw [Ordering.then_eq_eq, Std.LawfulEqOrd.compare_eq_iff_eq, Std.LawfulEqCmp.compare_eq_iff_eq]
  cases left
  cases right
  simp

def order (program : List (DlClause Unread arity)) (left right : SourcePosition) : Ordering :=
  compareRefined (refined program left) (refined program right)

instance (program : List (DlClause Unread arity)) : Std.TransCmp (order program) :=
  transCmp_on compareRefined (refined program)

theorem order_eq {left right : SourcePosition} :
    order program left right = .eq ↔ refined program left = refined program right :=
  compareRefined_eq

def Genuine (program : List (DlClause Unread arity)) (position : SourcePosition) : Prop :=
  ∃ found, atom program position = .ok found

theorem compareTerm_eq (left right : ClauseTerm) :
    compareTerm left right = compareOption (refinement left) (refinement right) := by
  unfold compareTerm refinement
  cases left.isVar <;> cases right.isVar <;> rfl

theorem compareTerms_eq (slot : Nat) (left right : ClauseAtom arity) (indices : List (Fin arity)) :
    compareTerms slot left right indices =
      List.compareLex compareOption
        ((indices.filter fun index => index.val ≠ slot).map fun index =>
          refinement (left.positions index))
        ((indices.filter fun index => index.val ≠ slot).map fun index =>
          refinement (right.positions index)) := by
  induction indices with
  | nil => rfl
  | cons index rest ih =>
    unfold compareTerms
    by_cases hslot : index.val = slot
    · simp [hslot, ih]
    · rw [if_neg hslot, List.filter_cons_of_pos (by simp [hslot]), List.map_cons, List.map_cons,
        List.compareLex_cons_cons, ← compareTerm_eq, ← ih]
      cases compareTerm (left.positions index) (right.positions index) <;> rfl

theorem comparePosition_eq {left right : SourcePosition} (hleft : Genuine program left)
    (hright : Genuine program right) :
    comparePosition program left right = .ok (order program left right) := by
  obtain ⟨leftAtom, hleft⟩ := hleft
  obtain ⟨rightAtom, hright⟩ := hright
  have hslots : (refined program left).slot = left.slot ∧
      (refined program right).slot = right.slot := by
    unfold refined
    rw [hleft, hright]
    exact ⟨rfl, rfl⟩
  unfold comparePosition order compareRefined
  rw [hslots.1, hslots.2]
  cases hslot : compare left.slot right.slot with
  | lt => rfl
  | gt => rfl
  | eq =>
    have hsame : left.slot = right.slot := Std.LawfulEqOrd.eq_of_compare hslot
    rw [hleft, hright]
    unfold refined
    rw [hleft, hright, ← hsame]
    exact congrArg Except.ok (compareTerms_eq left.slot leftAtom rightAtom (List.finRange arity))

theorem genuine_headSlots {ci : Nat} {clause : DlClause Unread arity} {name : String}
    (hclause : program[ci]? = some clause) {position : SourcePosition}
    (h : position ∈ headSlots ci clause name) : Genuine program position := by
  obtain ⟨⟨head, di⟩, hhead, h⟩ := List.mem_flatMap.mp h
  obtain ⟨⟨headAtom, ai⟩, hatom, h⟩ := List.mem_flatMap.mp h
  obtain ⟨slot, -, h⟩ := List.mem_filterMap.mp h
  rw [List.mem_zipIdx_iff_getElem?] at hhead hatom
  split at h
  · obtain rfl := Option.some.inj h
    refine ⟨headAtom, ?_⟩
    unfold atom
    simp [hclause, hhead, hatom, Nat.not_le.mpr slot.isLt]
  · cases h

theorem genuine_ends {edge : PositionEdge} (h : edge ∈ walkEdges program) :
    ∀ position ∈ edge.ends, Genuine program position := by
  obtain ⟨⟨clause, ci⟩, hclause, h⟩ := List.mem_flatMap.mp h
  obtain ⟨⟨body, bi⟩, hbody, h⟩ := List.mem_flatMap.mp h
  obtain ⟨slot, -, h⟩ := List.mem_flatMap.mp h
  rw [List.mem_zipIdx_iff_getElem?] at hclause hbody
  have hsource : Genuine program ⟨ci, false, 0, bi, slot⟩ := by
    refine ⟨body, ?_⟩
    unfold atom
    simp [hclause, hbody, Nat.not_le.mpr slot.isLt]
  cases hname : (body.positions slot).variableName with
  | none =>
    rw [hname] at h
    cases h
  | some name =>
    rw [hname] at h
    change edge ∈ slotEdges ci clause ⟨ci, false, 0, bi, slot⟩ name at h
    unfold slotEdges at h
    dsimp only at h
    split at h
    · cases h
    · rcases List.mem_append.mp h with hplain | hspecial
      · obtain ⟨target, htarget, rfl⟩ := List.mem_map.mp hplain
        simp [PositionEdge.ends, hsource, genuine_headSlots hclause htarget]
      · obtain ⟨existential, -, hspecial⟩ := List.mem_flatMap.mp hspecial
        obtain ⟨target, htarget, rfl⟩ := List.mem_map.mp hspecial
        simp [PositionEdge.ends, hsource, genuine_headSlots hclause htarget]

def edgeEnds (program : List (DlClause Unread arity)) : List SourcePosition :=
  (walkEdges program).flatMap PositionEdge.ends

theorem genuine_edgeEnds {position : SourcePosition} (h : position ∈ edgeEnds program) :
    Genuine program position := by
  obtain ⟨edge, hedge, hend⟩ := List.mem_flatMap.mp h
  exact genuine_ends hedge position hend

/-! ### The positions gathered -/

structure Exact (program : List (DlClause Unread arity)) (positions : List SourcePosition) :
    Prop where
  rising : Rising (order program) positions
  ends : ∀ position ∈ positions, position ∈ edgeEnds program
  all : ∀ position ∈ edgeEnds program,
    ∃ row ∈ positions, refined program row = refined program position

theorem sourcePositions_exact (program : List (DlClause Unread arity)) :
    ∃ positions, sourcePositions program = .ok positions ∧ Exact program positions := by
  obtain ⟨positions, hall, hgathered⟩ := insertAll_spec
    (fun row value (hrow : Genuine program row) hvalue => comparePosition_eq hrow hvalue)
    (fun row hmem => absurd hmem List.not_mem_nil) (fun value => genuine_edgeEnds) .nil
  refine ⟨positions, hall, hgathered.rising, ?_, ?_⟩
  · intro position hmem
    rcases hgathered.only position hmem with hnone | hend
    · cases hnone
    · exact hend
  · intro position hend
    obtain ⟨row, hmem, hequal⟩ := hgathered.added position hend
    exact ⟨row, hmem, order_eq.mp hequal⟩

variable {positions : List SourcePosition}

theorem Exact.genuine (h : Exact program positions) {row : SourcePosition} (hrow : row ∈ positions) :
    Genuine program row := genuine_edgeEnds (h.ends row hrow)

theorem Exact.injective (h : Exact program positions) {i j : Nat} {first second : SourcePosition}
    (hfirst : positions[i]? = some first) (hsecond : positions[j]? = some second)
    (hsame : refined program first = refined program second) : i = j := by
  obtain ⟨hi, rfl⟩ := List.getElem?_eq_some_iff.mp hfirst
  obtain ⟨hj, rfl⟩ := List.getElem?_eq_some_iff.mp hsecond
  have hpairs := List.pairwise_iff_getElem.mp h.rising
  have hequal := order_eq.mpr hsame
  rcases Nat.lt_trichotomy i j with hlt | heq | hgt
  · rw [hpairs i j hi hj hlt] at hequal
    cases hequal
  · exact heq
  · have hback := hpairs j i hj hi hgt
    rw [order_eq.mpr hsame.symm] at hback
    cases hback

theorem Exact.exists_locate (h : Exact program positions) {position : SourcePosition}
    (hend : position ∈ edgeEnds program) :
    ∃ place row, locate program positions position = .ok place ∧ positions[place]? = some row ∧
      refined program row = refined program position := by
  have hcmp : ∀ row ∈ positions,
      comparePosition program row position = .ok (order program row position) :=
    fun row hmem => comparePosition_eq (h.genuine hmem) (genuine_edgeEnds hend)
  unfold locate
  rcases search_spec hcmp h.rising with ⟨place, row, hsearch, hrow, hequal⟩ |
    ⟨before, after, hsearch, rfl, hbefore, hafter⟩
  · rw [hsearch]
    exact ⟨place, row, rfl, hrow, order_eq.mp hequal⟩
  · obtain ⟨row, hmem, hsame⟩ := h.all position hend
    have hequal := order_eq.mpr hsame
    rcases List.mem_append.mp hmem with hlow | hhigh
    · rw [hbefore row hlow] at hequal
      cases hequal
    · rw [hafter row hhigh] at hequal
      cases hequal

end Purrdf.Termination

/-!
## The graph of refined positions

Walked edges lead from a variable in the body to it, or to an existential, in the head.
Compatible positions, whose constants agree where both have one, are joined in both
directions. Places of the gathered positions carry the same graph.
-/

namespace Purrdf.Termination

open SortedSearch

variable {Unread : Type} {arity : Nat} {program : List (DlClause Unread arity)}
  {positions : List SourcePosition}

def Walked (program : List (DlClause Unread arity)) (special : Bool) (source target : Refined) :
    Prop :=
  ∃ edge ∈ walkEdges program, edge.special = special ∧
    refined program edge.source = source ∧ refined program edge.target = target

def IsPosition (program : List (DlClause Unread arity)) (node : Refined) : Prop :=
  ∃ position ∈ edgeEnds program, refined program position = node

def Compatible (left right : Refined) : Prop :=
  left.slot = right.slot ∧
    List.Forall₂ (fun left right => left = none ∨ right = none ∨ left = right)
      left.others right.others

def GraphEdge (program : List (DlClause Unread arity)) (source target : Refined) : Prop :=
  (∃ special, Walked program special source target) ∨
    (IsPosition program source ∧ IsPosition program target ∧ Compatible source target)

def Leads (program : List (DlClause Unread arity)) : Refined → Refined → Prop :=
  Relation.ReflTransGen (GraphEdge program)

theorem Compatible.symm {left right : Refined} (h : Compatible left right) :
    Compatible right left := by
  refine ⟨h.1.symm, h.2.flip.imp fun left right hterms => ?_⟩
  rcases hterms with hright | hleft | hsame
  · exact .inr (.inl hright)
  · exact .inl hleft
  · exact .inr (.inr hsame.symm)

/-! ### Places -/

def At (program : List (DlClause Unread arity)) (positions : List SourcePosition) (node : Refined)
    (place : Nat) : Prop :=
  ∃ row, positions[place]? = some row ∧ refined program row = node

theorem Exact.place_eq (h : Exact program positions) {node : Refined} {i j : Nat}
    (hi : At program positions node i) (hj : At program positions node j) : i = j := by
  obtain ⟨first, hfirst, hsame⟩ := hi
  obtain ⟨second, hsecond, hsame'⟩ := hj
  exact h.injective hfirst hsecond (hsame.trans hsame'.symm)

theorem At.node_eq {first second : Refined} {place : Nat} (h : At program positions first place)
    (h' : At program positions second place) : first = second := by
  obtain ⟨row, hrow, rfl⟩ := h
  obtain ⟨row', hrow', rfl⟩ := h'
  rw [hrow, Option.some.injEq] at hrow'
  rw [hrow']

theorem At.lt {node : Refined} {place : Nat} (h : At program positions node place) :
    place < positions.length := by
  obtain ⟨row, hrow, -⟩ := h
  exact (List.getElem?_eq_some_iff.mp hrow).1

theorem Exact.isPosition (h : Exact program positions) {node : Refined} {place : Nat}
    (hplace : At program positions node place) : IsPosition program node := by
  obtain ⟨row, hrow, hnode⟩ := hplace
  exact ⟨row, h.ends row (List.mem_of_getElem? hrow), hnode⟩

theorem Exact.exists_at (h : Exact program positions) {node : Refined}
    (hnode : IsPosition program node) : ∃ place, At program positions node place := by
  obtain ⟨position, hend, rfl⟩ := hnode
  obtain ⟨row, hmem, hsame⟩ := h.all position hend
  obtain ⟨place, hplace⟩ := List.getElem?_of_mem hmem
  exact ⟨place, row, hplace, hsame⟩

theorem Exact.locate_at (h : Exact program positions) {position : SourcePosition}
    (hend : position ∈ edgeEnds program) :
    ∃ place, locate program positions position = .ok place ∧
      ∀ i, At program positions (refined program position) i ↔ i = place := by
  obtain ⟨place, row, hlocate, hrow, hsame⟩ := h.exists_locate hend
  have hplace : At program positions (refined program position) place := ⟨row, hrow, hsame⟩
  refine ⟨place, hlocate, fun i => ⟨fun hi => h.place_eq hi hplace, ?_⟩⟩
  rintro rfl
  exact hplace

def EdgeAt (program : List (DlClause Unread arity)) (positions : List SourcePosition)
    (edge : PositionEdge) (pair : Nat × Nat) : Prop :=
  At program positions (refined program edge.source) pair.1 ∧
    At program positions (refined program edge.target) pair.2

def CompatibleAt (program : List (DlClause Unread arity)) (positions : List SourcePosition)
    (pair : Nat × Nat) : Prop :=
  pair.1 < pair.2 ∧ ∃ left right, At program positions left pair.1 ∧
    At program positions right pair.2 ∧ Compatible left right

def PlaceEdge (program : List (DlClause Unread arity)) (positions : List SourcePosition)
    (source target : Nat) : Prop :=
  (∃ edge ∈ walkEdges program, EdgeAt program positions edge (source, target)) ∨
    CompatibleAt program positions (source, target) ∨
      CompatibleAt program positions (target, source)

theorem edge_source_mem {edge : PositionEdge} (h : edge ∈ walkEdges program) :
    edge.source ∈ edgeEnds program :=
  List.mem_flatMap.mpr ⟨edge, h, List.mem_cons_self⟩

theorem edge_target_mem {edge : PositionEdge} (h : edge ∈ walkEdges program) :
    edge.target ∈ edgeEnds program :=
  List.mem_flatMap.mpr ⟨edge, h, List.mem_cons_of_mem _ List.mem_cons_self⟩

theorem Exact.locate_edge (h : Exact program positions) {edge : PositionEdge}
    (hedge : edge ∈ walkEdges program) :
    ∃ source target, locate program positions edge.source = .ok source ∧
      locate program positions edge.target = .ok target ∧
        ∀ pair, EdgeAt program positions edge pair ↔ pair = (source, target) := by
  obtain ⟨source, hsource, hsource'⟩ := h.locate_at (edge_source_mem hedge)
  obtain ⟨target, htarget, htarget'⟩ := h.locate_at (edge_target_mem hedge)
  refine ⟨source, target, hsource, htarget, fun pair => ?_⟩
  unfold EdgeAt
  rw [hsource', htarget', Prod.ext_iff]

theorem GraphEdge.placeEdge {source target : Refined} {i j : Nat}
    (hedge : GraphEdge program source target) (hi : At program positions source i)
    (hj : At program positions target j) : i = j ∨ PlaceEdge program positions i j := by
  rcases hedge with ⟨special, edge, hedge, -, rfl, rfl⟩ | ⟨-, -, hcompatible⟩
  · exact .inr (.inl ⟨edge, hedge, hi, hj⟩)
  · rcases Nat.lt_trichotomy i j with hlt | heq | hgt
    · exact .inr (.inr (.inl ⟨hlt, source, target, hi, hj, hcompatible⟩))
    · exact .inl heq
    · exact .inr (.inr (.inr ⟨hgt, target, source, hj, hi, hcompatible.symm⟩))

theorem Exact.graphEdge (h : Exact program positions) {i j : Nat}
    (hedge : PlaceEdge program positions i j) :
    ∃ source target, At program positions source i ∧ At program positions target j ∧
      GraphEdge program source target := by
  rcases hedge with ⟨edge, hedge, hi, hj⟩ | ⟨-, left, right, hi, hj, hcompatible⟩ |
    ⟨-, left, right, hj, hi, hcompatible⟩
  · exact ⟨_, _, hi, hj, .inl ⟨edge.special, edge, hedge, rfl, rfl, rfl⟩⟩
  · exact ⟨left, right, hi, hj, .inr ⟨h.isPosition hi, h.isPosition hj, hcompatible⟩⟩
  · exact ⟨right, left, hi, hj, .inr ⟨h.isPosition hi, h.isPosition hj, hcompatible.symm⟩⟩

theorem GraphEdge.target_isPosition {source target : Refined}
    (h : GraphEdge program source target) : IsPosition program target := by
  rcases h with ⟨special, edge, hedge, -, -, rfl⟩ | ⟨-, htarget, -⟩
  · exact ⟨edge.target, edge_target_mem hedge, rfl⟩
  · exact htarget

theorem Exact.leads_iff (h : Exact program positions) {source target : Refined} {i j : Nat}
    (hi : At program positions source i) (hj : At program positions target j) :
    Leads program source target ↔ Relation.ReflTransGen (PlaceEdge program positions) i j := by
  constructor
  · intro hpath
    induction hpath generalizing j with
    | refl =>
      rw [h.place_eq hi hj]
    | tail _ hedge ih =>
      rename_i middle last hbefore
      obtain ⟨k, hk⟩ : ∃ k, At program positions middle k := by
        rcases Relation.ReflTransGen.cases_tail hbefore with heq | ⟨_, _, hlast⟩
        · exact ⟨i, heq ▸ hi⟩
        · exact h.exists_at hlast.target_isPosition
      rcases hedge.placeEdge hk hj with heq | hplace
      · rw [← heq]
        exact ih hk
      · exact (ih hk).tail hplace
  · intro hpath
    induction hpath generalizing target with
    | refl =>
      rw [hi.node_eq hj]
      exact .refl
    | tail _ hedge ih =>
      obtain ⟨middle, last, hmiddle, hlast, hgraph⟩ := h.graphEdge hedge
      rw [hj.node_eq hlast]
      exact (ih hmiddle).tail hgraph

/-! ### Compatible pairs -/

theorem compatibleTerms_iff (left right : ClauseTerm) :
    compatibleTerms left right = true ↔
      refinement left = none ∨ refinement right = none ∨ refinement left = refinement right := by
  have hequal : compareTerm left right = .eq ↔ refinement left = refinement right := by
    rw [compareTerm_eq]
    exact Std.LawfulEqCmp.compare_eq_iff_eq
  have hnone : ∀ term : ClauseTerm, term.isVar = true ↔ refinement term = none := by
    intro term
    unfold refinement
    cases term.isVar <;> simp
  unfold compatibleTerms
  rw [Bool.or_eq_true, Bool.or_eq_true, beq_iff_eq, hequal, hnone, hnone, or_assoc]

theorem refined_eq {position : SourcePosition} {found : ClauseAtom arity}
    (h : atom program position = .ok found) :
    refined program position = refine found position.slot := by
  unfold refined
  rw [h]

theorem compatiblePair_spec {left right : SourcePosition} (hleft : Genuine program left)
    (hright : Genuine program right) :
    ∃ compatible, compatiblePair program left right = .ok compatible ∧
      (compatible = true ↔ Compatible (refined program left) (refined program right)) := by
  obtain ⟨leftAtom, hleft⟩ := hleft
  obtain ⟨rightAtom, hright⟩ := hright
  rw [refined_eq hleft, refined_eq hright]
  unfold compatiblePair
  by_cases hslot : left.slot = right.slot
  · rw [if_neg (not_not_intro hslot), hleft, hright]
    refine ⟨_, rfl, ?_⟩
    unfold Compatible refine
    rw [← hslot, List.forall₂_map_left_iff, List.forall₂_map_right_iff, List.forall₂_same]
    simp only [List.all_eq_true, Bool.or_eq_true, compatibleTerms_iff, otherSlots,
      List.mem_filter, decide_eq_true_eq, true_and]
    constructor
    · rintro hall index ⟨hmem, hother⟩
      rcases hall index hmem with hsame | hterms
      · exact absurd hsame hother
      · exact hterms
    · intro hall index hmem
      by_cases hsame : index.val = left.slot
      · exact .inl hsame
      · exact .inr (hall index ⟨hmem, hsame⟩)
  · rw [if_pos hslot]
    refine ⟨false, rfl, fun h => absurd h Bool.false_ne_true, fun h => absurd h.1 hslot⟩

theorem mem_placedPairs {α : Type} (first : Nat) (rows : List α) (left right : Nat × α) :
    (left, right) ∈ placedPairs first rows ↔ first ≤ left.1 ∧ left.1 < right.1 ∧
      rows[left.1 - first]? = some left.2 ∧ rows[right.1 - first]? = some right.2 := by
  induction rows generalizing first with
  | nil => simp [placedPairs]
  | cons row rest ih =>
    obtain ⟨i, leftRow⟩ := left
    obtain ⟨j, rightRow⟩ := right
    have hhead : ((i, leftRow), (j, rightRow)) ∈ (rest.zipIdx (first + 1)).map
        (fun right => ((first, row), (right.2, right.1))) ↔
          i = first ∧ row = leftRow ∧ first + 1 ≤ j ∧ rest[j - (first + 1)]? = some rightRow := by
      constructor
      · intro h
        obtain ⟨⟨found, place⟩, hmem, heq⟩ := List.mem_map.mp h
        obtain ⟨hle, hget⟩ := List.mk_mem_zipIdx_iff_le_and_getElem?_sub.mp hmem
        cases heq
        exact ⟨rfl, rfl, hle, hget⟩
      · rintro ⟨rfl, rfl, hle, hget⟩
        exact List.mem_map.mpr
          ⟨(rightRow, j), List.mk_mem_zipIdx_iff_le_and_getElem?_sub.mpr ⟨hle, hget⟩, rfl⟩
    have hlater : ∀ {place : Nat}, first + 1 ≤ place →
        (row :: rest)[place - first]? = rest[place - (first + 1)]? := by
      intro place hle
      rw [show place - first = place - (first + 1) + 1 by omega, List.getElem?_cons_succ]
    unfold placedPairs
    rw [List.mem_append, ih, hhead]
    dsimp only
    constructor
    · rintro (⟨rfl, rfl, hle, hget⟩ | ⟨hle, hlt, hleft, hright⟩)
      · rw [hlater hle, Nat.sub_self]
        exact ⟨Nat.le_refl _, hle, rfl, hget⟩
      · rw [hlater hle, hlater (by omega)]
        exact ⟨by omega, hlt, hleft, hright⟩
    · rintro ⟨hle, hlt, hleft, hright⟩
      rw [hlater (by omega)] at hright
      rcases Nat.eq_or_lt_of_le hle with rfl | hafter
      · rw [Nat.sub_self, List.getElem?_cons_zero, Option.some.injEq] at hleft
        exact .inl ⟨rfl, hleft, hlt, hright⟩
      · rw [hlater hafter] at hleft
        exact .inr ⟨hafter, hlt, hleft, hright⟩

theorem Exact.compatibility_eq {State : Type} (h : Exact program positions)
    (emit : State → Nat → Nat → Except TerminationError State) :
    ∃ pairs : List (Nat × Nat), (∀ pair, pair ∈ pairs ↔ CompatibleAt program positions pair) ∧
      ∀ state, compatibility program positions emit state =
        pairs.foldlM (fun state pair => emit state pair.1 pair.2) state := by
  have hgenuine : ∀ pair ∈ placedPairs 0 positions,
      Genuine program pair.1.2 ∧ Genuine program pair.2.2 := by
    rintro ⟨left, right⟩ hmem
    obtain ⟨-, -, hleft, hright⟩ := (mem_placedPairs 0 positions left right).mp hmem
    exact ⟨h.genuine (List.mem_of_getElem? hleft), h.genuine (List.mem_of_getElem? hright)⟩
  have hfold : ∀ visit : State → (Nat × SourcePosition) × (Nat × SourcePosition) →
      Except TerminationError State,
      (∀ state pair compatible, compatiblePair program pair.1.2 pair.2.2 = .ok compatible →
        visit state pair = if compatible then emit state pair.1.1 pair.2.1 else .ok state) →
      ∀ placed : List ((Nat × SourcePosition) × (Nat × SourcePosition)),
      (∀ pair ∈ placed, Genuine program pair.1.2 ∧ Genuine program pair.2.2) →
      ∃ pairs : List (Nat × Nat),
        (∀ pair, pair ∈ pairs ↔ ∃ found ∈ placed, (found.1.1, found.2.1) = pair ∧
          Compatible (refined program found.1.2) (refined program found.2.2)) ∧
        ∀ state, placed.foldlM visit state =
          pairs.foldlM (fun state pair => emit state pair.1 pair.2) state := by
    intro visit hvisit placed
    induction placed with
    | nil => exact fun _ => ⟨[], by simp, fun _ => rfl⟩
    | cons found placed ih =>
      intro hplaced
      obtain ⟨hfound, hrest⟩ := List.forall_mem_cons.mp hplaced
      obtain ⟨pairs, hmem, hfold⟩ := ih hrest
      obtain ⟨compatible, hpair, hiff⟩ := compatiblePair_spec hfound.1 hfound.2
      cases compatible with
      | false =>
        refine ⟨pairs, fun pair => ?_, fun state => ?_⟩
        · rw [hmem]
          have hnot : ¬Compatible (refined program found.1.2) (refined program found.2.2) :=
            fun hcompatible => Bool.false_ne_true (hiff.mpr hcompatible)
          simp [hnot]
        · rw [List.foldlM_cons, hvisit state found false hpair]
          exact hfold state
      | true =>
        refine ⟨(found.1.1, found.2.1) :: pairs, fun pair => ?_, fun state => ?_⟩
        · rw [List.mem_cons, hmem]
          have hcompatible := hiff.mp rfl
          simp [hcompatible, eq_comm]
        · rw [List.foldlM_cons, List.foldlM_cons, hvisit state found true hpair]
          exact congrArg (bind (emit state found.1.1 found.2.1)) (funext hfold)
  obtain ⟨pairs, hmem, hfold⟩ : ∃ pairs : List (Nat × Nat),
      (∀ pair, pair ∈ pairs ↔ ∃ found ∈ placedPairs 0 positions, (found.1.1, found.2.1) = pair ∧
        Compatible (refined program found.1.2) (refined program found.2.2)) ∧
      ∀ state, compatibility program positions emit state =
        pairs.foldlM (fun state pair => emit state pair.1 pair.2) state := hfold _ (by
    intro state pair compatible hpair
    rw [hpair]
    cases compatible <;> rfl) _ hgenuine
  refine ⟨pairs, fun pair => ?_, hfold⟩
  rw [hmem]
  constructor
  · rintro ⟨⟨left, right⟩, hplaced, rfl, hcompatible⟩
    obtain ⟨-, hlt, hleft, hright⟩ := (mem_placedPairs 0 positions left right).mp hplaced
    exact ⟨hlt, _, _, ⟨left.2, hleft, rfl⟩, ⟨right.2, hright, rfl⟩, hcompatible⟩
  · rintro ⟨hlt, -, -, ⟨left, hleft, rfl⟩, ⟨right, hright, rfl⟩, hcompatible⟩
    refine ⟨((pair.1, left), (pair.2, right)), ?_, rfl, hcompatible⟩
    exact (mem_placedPairs 0 positions _ _).mpr ⟨Nat.zero_le _, hlt, hleft, hright⟩

end Purrdf.Termination
