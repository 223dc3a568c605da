import Mathlib.Algebra.GroupWithZero.Nat
import Purrdf.ShexIntervals

/-!
# The grammar of a compiled expression

A compiled expression as a grammar of bags of slots, and the interval calculus as its decision: an
expression may be used `n` times for the given counts exactly when `n` is in the interval.
-/

namespace Purrdf.Shex

open CountedSums
open scoped Pointwise

variable {V : Type}

mutual

def language (slots : List (Slot V)) : CNode → Set (Multiset Nat)
  | .slot i =>
    match slots[i]? with
    | none => ∅
    | some slot => counted slot.card.min slot.card.max {{i}}
  | .each children card => counted card.min card.max (everyChild slots children)
  | .one children card => counted card.min card.max (anyChild slots children)

def everyChild (slots : List (Slot V)) : List CNode → Set (Multiset Nat)
  | [] => 0
  | child :: rest => language slots child + everyChild slots rest

def anyChild (slots : List (Slot V)) : List CNode → Set (Multiset Nat)
  | [] => ∅
  | child :: rest => language slots child ∪ anyChild slots rest

end

theorem everyChild_cons (slots : List (Slot V)) (child : CNode) (rest : List CNode) :
    everyChild slots (child :: rest) = language slots child + everyChild slots rest := by
  rw [everyChild]

theorem anyChild_cons (slots : List (Slot V)) (child : CNode) (rest : List CNode) :
    anyChild slots (child :: rest) = language slots child ∪ anyChild slots rest := by
  rw [anyChild]

def Compiled.Derives (compiled : Compiled V) (bag : Multiset Nat) : Prop :=
  bag ∈ language compiled.slots compiled.root

mutual

def CNode.Ordered (slots : List (Slot V)) : CNode → Prop
  | .slot i => ∀ slot, slots[i]? = some slot → slot.card.Ordered
  | .each children card => card.Ordered ∧ OrderedAll slots children
  | .one children card => card.Ordered ∧ OrderedAll slots children

def CNode.OrderedAll (slots : List (Slot V)) : List CNode → Prop
  | [] => True
  | child :: rest => child.Ordered slots ∧ OrderedAll slots rest

end

def Compiled.Ordered (compiled : Compiled V) : Prop :=
  compiled.root.Ordered compiled.slots

mutual

theorem language_leaves (slots : List (Slot V)) :
    ∀ node : CNode, MadeOf (· ∈ node.leaves) (language slots node)
  | .slot i => by
    unfold language
    split
    · exact fun bag member => absurd member (Set.notMem_empty bag)
    · apply MadeOf.counted
      intro bag member x within
      rw [Set.mem_singleton_iff] at member
      rw [member, Multiset.mem_singleton] at within
      rw [within, CNode.leaves]
      exact List.mem_singleton_self i
  | .each children card => by
    unfold language CNode.leaves
    exact (everyChild_leaves slots children).counted card.min card.max
  | .one children card => by
    unfold language CNode.leaves
    exact (anyChild_leaves slots children).counted card.min card.max

theorem everyChild_leaves (slots : List (Slot V)) :
    ∀ children : List CNode, MadeOf (· ∈ CNode.leavesAll children) (everyChild slots children)
  | [] => by
    unfold everyChild
    exact MadeOf.zero
  | child :: rest => by
    unfold everyChild CNode.leavesAll
    apply MadeOf.add
    · exact (language_leaves slots child).mono fun _ => List.mem_append_left _
    · exact (everyChild_leaves slots rest).mono fun _ => List.mem_append_right _

theorem anyChild_leaves (slots : List (Slot V)) :
    ∀ children : List CNode, MadeOf (· ∈ CNode.leavesAll children) (anyChild slots children)
  | [] => by
    unfold anyChild
    exact fun bag member => absurd member (Set.notMem_empty bag)
  | child :: rest => by
    unfold anyChild CNode.leavesAll
    apply MadeOf.union
    · exact (language_leaves slots child).mono fun _ => List.mem_append_left _
    · exact (anyChild_leaves slots rest).mono fun _ => List.mem_append_right _

end

/-! ### The part of a bag below a node -/

def below (bag : Multiset Nat) (leaves : List Nat) : Multiset Nat :=
  bag.filter (· ∈ leaves)

theorem mem_below {bag : Multiset Nat} {leaves : List Nat} {x : Nat} (within : x ∈ below bag leaves) :
    x ∈ leaves :=
  (Multiset.mem_filter.mp within).2

theorem below_nil (bag : Multiset Nat) : below bag [] = 0 := by
  unfold below
  rw [Multiset.filter_eq_nil]
  exact fun _ _ => List.not_mem_nil

theorem below_append {bag : Multiset Nat} {left right : List Nat} (disjoint : left.Disjoint right) :
    below bag (left ++ right) = below bag left + below bag right := by
  ext x
  unfold below
  rw [Multiset.count_add, Multiset.count_filter, Multiset.count_filter, Multiset.count_filter]
  by_cases here : x ∈ left
  · have absent : x ∉ right := disjoint here
    rw [if_pos (List.mem_append_left _ here), if_pos here, if_neg absent, Nat.add_zero]
  · by_cases there : x ∈ right
    · rw [if_pos (List.mem_append_right _ there), if_neg here, if_pos there, Nat.zero_add]
    · rw [if_neg here, if_neg there, if_neg fun member => (List.mem_append.mp member).elim here there]

theorem below_singleton (bag : Multiset Nat) (i : Nat) :
    below bag [i] = Multiset.replicate (bag.count i) i := by
  unfold below
  simp only [List.mem_singleton]
  exact Multiset.filter_eq' bag i

theorem below_self {bag : Multiset Nat} {leaves : List Nat} (inside : ∀ x ∈ bag, x ∈ leaves) :
    below bag leaves = bag :=
  Multiset.filter_eq_self.mpr inside

/-! ### The calculus decides the grammar -/

def Counted (slots : List (Slot V)) (counts : List (Nat × Nat)) (bag : Multiset Nat) : Prop :=
  ∀ i < slots.length, counts[i]? = some (bag.count i, bag.count i)

/-- The answer for a node holds the numbers of uses that consume what lies below it. -/
structure Decides (answer : Option Iv) (bag : Multiset Nat) (uses : Nat → Set (Multiset Nat)) :
    Prop where
  holds : ∀ n, Holds answer n ↔ bag ∈ uses n
  ordered : ∀ iv, answer = some iv → iv.Ordered
  within : ∀ iv, answer = some iv → iv.Within bag.card

theorem Decides.wrap {inner : Option Iv} {bag : Multiset Nat} {body : Set (Multiset Nat)}
    {card : Card} (ordered : card.Ordered) (decides : Decides inner bag (· • body)) :
    Decides (inner.bind fun inner => wrap inner card) bag
      (· • counted card.min card.max body) where
  holds n := by
    rw [mem_nsmul_counted ordered]
    cases same : inner with
    | none =>
      refine iff_of_false not_holds_none ?_
      rintro ⟨terms, -, member⟩
      have held := (decides.holds terms).mpr member
      rw [same] at held
      exact not_holds_none held
    | some iv =>
      rw [Option.bind_some, holds_wrap (decides.ordered iv same) ordered]
      apply exists_congr
      intro terms
      apply and_congr_right'
      rw [← holds_some, ← same]
      exact decides.holds terms
  ordered iv made := by
    obtain ⟨body_iv, -, wrapped⟩ := Option.bind_eq_some_iff.mp made
    exact wrap_ordered wrapped
  within iv made := by
    obtain ⟨body_iv, same, wrapped⟩ := Option.bind_eq_some_iff.mp made
    exact wrap_within (decides.within body_iv same) wrapped

/-- The answer keeps the numbers of uses in `inner` that the remaining children can serve. -/
structure Narrows (inner : Iv) (answer : Option Iv) (bag : Multiset Nat)
    (uses : Nat → Set (Multiset Nat)) : Prop where
  holds : ∀ n, Holds answer n ↔ inner.Contains n ∧ bag ∈ uses n
  ordered : ∀ iv, answer = some iv → iv.Ordered
  within : ∀ iv total, answer = some iv → inner.Within total → iv.Within (total + bag.card)

/-- The answer adds the numbers of uses that the remaining children can serve to those in
`inner`. -/
structure Widens (inner : Iv) (answer : Option Iv) (bag : Multiset Nat)
    (uses : Nat → Set (Multiset Nat)) : Prop where
  holds : ∀ n, Holds answer n ↔ ∃ x y, x + y = n ∧ inner.Contains x ∧ bag ∈ uses y
  ordered : ∀ iv, answer = some iv → iv.Ordered
  within : ∀ iv total, answer = some iv → inner.Within total → iv.Within (total + bag.card)

section Steps

variable {inner iv : Iv} {answer : Option Iv} {bag left right : Multiset Nat}
  {uses here there : Nat → Set (Multiset Nat)}

theorem Narrows.done (proper : inner.Ordered) (always : ∀ n, bag ∈ uses n) :
    Narrows inner (some inner) bag uses where
  holds n := by
    rw [holds_some]
    exact (and_iff_left (always n)).symm
  ordered := by
    rintro _ ⟨⟩
    exact proper
  within := by
    rintro _ total ⟨⟩ ⟨low, high⟩
    exact ⟨low.trans (Nat.le_add_right _ _),
      fun h same => (high h same).trans (Nat.le_add_right _ _)⟩

theorem Narrows.blocked (never : ∀ n, ¬ (inner.Contains n ∧ bag ∈ uses n)) :
    Narrows inner none bag uses where
  holds n := iff_of_false not_holds_none (never n)
  ordered := by rintro _ ⟨⟩
  within := by rintro _ _ ⟨⟩

theorem Narrows.step {next : Iv} (child : Decides (some iv) left here)
    (met : intersect inner iv = some next) (rest : Narrows next answer right there)
    (parts : ∀ n, bag ∈ uses n ↔ left ∈ here n ∧ right ∈ there n)
    (cards : bag.card = left.card + right.card) : Narrows inner answer bag uses where
  holds n := by
    have both : next.Contains n ↔ inner.Contains n ∧ left ∈ here n := by
      rw [← holds_some, ← met, holds_intersect, ← child.holds n, holds_some]
    rw [rest.holds n, both, parts n, and_assoc]
  ordered := rest.ordered
  within other total same within := by
    have through := intersect_within within (child.within iv rfl) met
    rw [cards, ← Nat.add_assoc]
    exact rest.within other _ same through

theorem Widens.done (proper : inner.Ordered) (only : ∀ n, bag ∈ uses n ↔ n = 0) :
    Widens inner (some inner) bag uses where
  holds n := by
    rw [holds_some]
    constructor
    · exact fun contains => ⟨n, 0, Nat.add_zero n, contains, (only 0).mpr rfl⟩
    · rintro ⟨x, y, rfl, contains, member⟩
      rw [(only y).mp member, Nat.add_zero]
      exact contains
  ordered := by
    rintro _ ⟨⟩
    exact proper
  within := by
    rintro _ total ⟨⟩ ⟨low, high⟩
    exact ⟨low.trans (Nat.le_add_right _ _),
      fun h same => (high h same).trans (Nat.le_add_right _ _)⟩

theorem Widens.blocked (never : ∀ n, bag ∉ uses n) : Widens inner none bag uses where
  holds n := by
    refine iff_of_false not_holds_none ?_
    rintro ⟨x, y, -, -, member⟩
    exact never y member
  ordered := by rintro _ ⟨⟩
  within := by rintro _ _ ⟨⟩

theorem Widens.step {total : Nat} (proper : inner.Ordered) (within : inner.Within total)
    (child : Decides (some iv) left here) (small : total + left.card ≤ u64Max)
    (rest : Widens (sum inner iv) answer right there)
    (parts : ∀ n, bag ∈ uses n ↔ ∃ x y, x + y = n ∧ left ∈ here x ∧ right ∈ there y)
    (cards : bag.card = left.card + right.card) : Widens inner answer bag uses where
  holds n := by
    have either : ∀ m, (sum inner iv).Contains m ↔
        ∃ x y, x + y = m ∧ inner.Contains x ∧ left ∈ here y := by
      intro m
      rw [sum_contains proper (child.ordered iv rfl) within (child.within iv rfl) small]
      apply exists_congr
      intro x
      apply exists_congr
      intro y
      rw [← child.holds y, holds_some]
    rw [rest.holds n]
    constructor
    · rintro ⟨m, z, rfl, contains, last⟩
      obtain ⟨x, y, rfl, first, middle⟩ := (either m).mp contains
      exact ⟨x, y + z, (Nat.add_assoc x y z).symm, first, (parts _).mpr ⟨y, z, rfl, middle, last⟩⟩
    · rintro ⟨x, m, rfl, first, others⟩
      obtain ⟨y, z, rfl, middle, last⟩ := (parts m).mp others
      exact ⟨x + y, z, Nat.add_assoc x y z, (either _).mpr ⟨x, y, rfl, first, middle⟩, last⟩
  ordered := rest.ordered
  within other bound same bounded := by
    have through := sum_within bounded (child.within iv rfl)
    rw [cards, ← Nat.add_assoc]
    exact rest.within other _ same through

end Steps

section Exactness

variable {slots : List (Slot V)} {counts : List (Nat × Nat)} {bag : Multiset Nat}

theorem below_card_append {left right : List Nat} (disjoint : left.Disjoint right) :
    (below bag (left ++ right)).card = (below bag left).card + (below bag right).card := by
  rw [below_append disjoint, Multiset.card_add]

theorem below_card_le (leaves : List Nat) : (below bag leaves).card ≤ bag.card :=
  Multiset.card_le_card (Multiset.filter_le _ bag)

theorem below_mem_add {left right : List Nat} {here there : Set (Multiset Nat)}
    (disjoint : left.Disjoint right) (left_made : MadeOf (· ∈ left) here)
    (right_made : MadeOf (· ∈ right) there) :
    below bag (left ++ right) ∈ here + there
      ↔ below bag left ∈ here ∧ below bag right ∈ there := by
  rw [below_append disjoint]
  exact mem_add_iff (fun _ inside outside => disjoint inside outside) left_made right_made
    (fun _ => mem_below) (fun _ => mem_below)

theorem below_every {child : CNode} {rest : List CNode}
    (disjoint : child.leaves.Disjoint (CNode.leavesAll rest)) (n : Nat) :
    below bag (CNode.leavesAll (child :: rest)) ∈ n • everyChild slots (child :: rest)
      ↔ below bag child.leaves ∈ n • language slots child ∧
        below bag (CNode.leavesAll rest) ∈ n • everyChild slots rest := by
  rw [leavesAll_cons, everyChild_cons, nsmul_add]
  exact below_mem_add disjoint ((language_leaves slots child).nsmul n)
    ((everyChild_leaves slots rest).nsmul n)

theorem below_any {child : CNode} {rest : List CNode}
    (disjoint : child.leaves.Disjoint (CNode.leavesAll rest)) (n : Nat) :
    below bag (CNode.leavesAll (child :: rest)) ∈ n • anyChild slots (child :: rest)
      ↔ ∃ x y, x + y = n ∧ below bag child.leaves ∈ x • language slots child ∧
        below bag (CNode.leavesAll rest) ∈ y • anyChild slots rest := by
  rw [leavesAll_cons, anyChild_cons, mem_nsmul_union]
  apply exists_congr
  intro x
  apply exists_congr
  intro y
  apply and_congr_right'
  exact below_mem_add disjoint ((language_leaves slots child).nsmul x)
    ((anyChild_leaves slots rest).nsmul y)

theorem slot_decides (i : Nat) :
    Decides (some { lo := bag.count i, hi := some (bag.count i) }) (below bag [i])
      (· • ({{i}} : Set (Multiset Nat))) := by
  rw [below_singleton]
  refine ⟨fun n => ?_, ?_, ?_⟩
  · rw [holds_some, mem_nsmul_singleton]
    constructor
    · rintro ⟨low, high⟩
      have same : bag.count i = n := Nat.le_antisymm low (high _ rfl)
      rw [same]
    · intro same
      have cards := congrArg Multiset.card same
      rw [Multiset.card_replicate, Multiset.card_replicate] at cards
      rw [cards]
      refine ⟨le_rfl, ?_⟩
      rintro _ ⟨⟩
      exact le_rfl
  · rintro _ ⟨⟩ h ⟨⟩
    exact le_rfl
  · rintro _ ⟨⟩
    rw [Multiset.card_replicate]
    refine ⟨le_rfl, ?_⟩
    rintro h ⟨⟩
    exact le_rfl

mutual

theorem reps_decides (counted_bag : Counted slots counts bag) (small : bag.card ≤ u64Max) :
    ∀ node : CNode, node.Ordered slots → node.leaves.Nodup → (∀ i ∈ node.leaves, i < slots.length) →
      ∃ answer, reps node slots counts = .ok answer ∧
        Decides answer (below bag node.leaves) (· • language slots node)
  | .slot i, ordered, distinct, inside => by
    unfold CNode.leaves at *
    have i_lt : i < slots.length := inside i (List.mem_singleton_self i)
    obtain ⟨slot, slot_eq⟩ : ∃ slot, slots[i]? = some slot := ⟨_, List.getElem?_eq_getElem i_lt⟩
    unfold CNode.Ordered at ordered
    refine ⟨wrap { lo := bag.count i, hi := some (bag.count i) } slot.card, ?_, ?_⟩
    · unfold reps
      rw [counted_bag i i_lt, slot_eq]
      rfl
    · unfold language
      rw [slot_eq]
      exact (slot_decides i).wrap (ordered slot slot_eq)
  | .each children card, ordered, distinct, inside => by
    unfold CNode.Ordered at ordered
    unfold CNode.leaves at *
    obtain ⟨inner, ok, narrows⟩ := repsEach_narrows counted_bag small children ordered.2 distinct
      inside { lo := 0, hi := none } (by rintro _ ⟨⟩)
    refine ⟨inner.bind fun inner => wrap inner card, ?_, ?_⟩
    · unfold reps
      rw [ok]
      rfl
    · unfold language
      apply Decides.wrap ordered.1
      refine ⟨fun n => ?_, narrows.ordered, fun iv same => ?_⟩
      · rw [narrows.holds n]
        exact and_iff_right ⟨Nat.zero_le n, by rintro _ ⟨⟩⟩
      · rw [← Nat.zero_add (Multiset.card _)]
        exact narrows.within iv 0 same ⟨le_rfl, by rintro _ ⟨⟩⟩
  | .one children card, ordered, distinct, inside => by
    unfold CNode.Ordered at ordered
    unfold CNode.leaves at *
    have none_yet : (Iv.mk 0 (some 0)).Within 0 := ⟨le_rfl, by rintro _ ⟨⟩; exact le_rfl⟩
    obtain ⟨inner, ok, widens⟩ := repsOne_widens counted_bag small children ordered.2 distinct
      inside { lo := 0, hi := some 0 } 0 (by rintro _ ⟨⟩; exact le_rfl) none_yet
      (by rw [Nat.zero_add]; exact (below_card_le _).trans small)
    refine ⟨inner.bind fun inner => wrap inner card, ?_, ?_⟩
    · unfold reps
      rw [ok]
      rfl
    · unfold language
      apply Decides.wrap ordered.1
      refine ⟨fun n => ?_, widens.ordered, fun iv same => ?_⟩
      · rw [widens.holds n]
        constructor
        · rintro ⟨x, y, rfl, ⟨-, high⟩, member⟩
          rw [Nat.le_zero.mp (high 0 rfl), Nat.zero_add]
          exact member
        · intro member
          exact ⟨0, n, Nat.zero_add n, ⟨le_rfl, by rintro _ ⟨⟩; exact le_rfl⟩, member⟩
      · rw [← Nat.zero_add (Multiset.card _)]
        exact widens.within iv 0 same none_yet

theorem repsEach_narrows (counted_bag : Counted slots counts bag) (small : bag.card ≤ u64Max) :
    ∀ children : List CNode, CNode.OrderedAll slots children →
      (CNode.leavesAll children).Nodup → (∀ i ∈ CNode.leavesAll children, i < slots.length) →
      ∀ inner : Iv, inner.Ordered → ∃ answer, repsEach children slots counts inner = .ok answer ∧
        Narrows inner answer (below bag (CNode.leavesAll children))
          (· • everyChild slots children)
  | [], ordered, distinct, inside, inner, proper => by
    refine ⟨some inner, by unfold repsEach; rfl, Narrows.done proper fun n => ?_⟩
    unfold everyChild CNode.leavesAll
    rw [below_nil, nsmul_zero, Set.mem_zero]
  | child :: rest, ordered, distinct, inside, inner, proper => by
    unfold CNode.OrderedAll at ordered
    unfold CNode.leavesAll at distinct inside
    obtain ⟨child_distinct, rest_distinct, disjoint⟩ := List.nodup_append'.mp distinct
    obtain ⟨answer, ok, decides⟩ := reps_decides counted_bag small child ordered.1 child_distinct
      fun i member => inside i (List.mem_append_left _ member)
    cases answer with
    | none =>
      refine ⟨none, by unfold repsEach; rw [ok]; rfl, Narrows.blocked fun n both => ?_⟩
      exact not_holds_none ((decides.holds n).mpr ((below_every disjoint n).mp both.2).1)
    | some iv =>
      cases met : intersect inner iv with
      | none =>
        refine ⟨none, ?_, Narrows.blocked fun n both => ?_⟩
        · unfold repsEach
          rw [ok]
          change (match intersect inner iv with | none => _ | some inner => _) = _
          rw [met]
          rfl
        · have held : Holds (intersect inner iv) n := by
            rw [holds_intersect, ← holds_some, ← holds_some, decides.holds n, holds_some]
            exact ⟨both.1, ((below_every disjoint n).mp both.2).1⟩
          rw [met] at held
          exact not_holds_none held
      | some next =>
        obtain ⟨last, rest_ok, narrows⟩ := repsEach_narrows counted_bag small rest ordered.2
          rest_distinct (fun i member => inside i (List.mem_append_right _ member)) next
          (intersect_ordered met)
        refine ⟨last, ?_, Narrows.step decides met narrows (below_every disjoint) ?_⟩
        · unfold repsEach
          rw [ok]
          change (match intersect inner iv with | none => _ | some inner => _) = _
          rw [met]
          exact rest_ok
        · rw [leavesAll_cons]
          exact below_card_append disjoint

theorem repsOne_widens (counted_bag : Counted slots counts bag) (small : bag.card ≤ u64Max) :
    ∀ children : List CNode, CNode.OrderedAll slots children →
      (CNode.leavesAll children).Nodup → (∀ i ∈ CNode.leavesAll children, i < slots.length) →
      ∀ (inner : Iv) (total : Nat), inner.Ordered → inner.Within total →
        total + (below bag (CNode.leavesAll children)).card ≤ u64Max →
        ∃ answer, repsOne children slots counts inner = .ok answer ∧
          Widens inner answer (below bag (CNode.leavesAll children)) (· • anyChild slots children)
  | [], ordered, distinct, inside, inner, total, proper, within, room => by
    refine ⟨some inner, by unfold repsOne; rfl, Widens.done proper fun n => ?_⟩
    unfold anyChild CNode.leavesAll
    rw [below_nil, mem_nsmul_empty]
    exact and_iff_left rfl
  | child :: rest, ordered, distinct, inside, inner, total, proper, within, room => by
    unfold CNode.OrderedAll at ordered
    unfold CNode.leavesAll at distinct inside
    obtain ⟨child_distinct, rest_distinct, disjoint⟩ := List.nodup_append'.mp distinct
    obtain ⟨answer, ok, decides⟩ := reps_decides counted_bag small child ordered.1 child_distinct
      fun i member => inside i (List.mem_append_left _ member)
    have cards : (below bag (CNode.leavesAll (child :: rest))).card
        = (below bag child.leaves).card + (below bag (CNode.leavesAll rest)).card := by
      rw [leavesAll_cons]
      exact below_card_append disjoint
    cases answer with
    | none =>
      refine ⟨none, by unfold repsOne; rw [ok]; rfl, Widens.blocked fun n member => ?_⟩
      obtain ⟨x, y, -, here, -⟩ := (below_any disjoint n).mp member
      exact not_holds_none ((decides.holds x).mpr here)
    | some iv =>
      rw [cards, ← Nat.add_assoc] at room
      obtain ⟨last, rest_ok, widens⟩ := repsOne_widens counted_bag small rest ordered.2
        rest_distinct (fun i member => inside i (List.mem_append_right _ member)) (sum inner iv)
        (total + (below bag child.leaves).card) (sum_ordered proper (decides.ordered iv rfl))
        (sum_within within (decides.within iv rfl)) room
      refine ⟨last, ?_, Widens.step proper within decides
        ((Nat.le_add_right _ _).trans room) widens (below_any disjoint) cards⟩
      unfold repsOne
      rw [ok]
      exact rest_ok

end

structure Compiled.Proper (compiled : Compiled V) : Prop where
  leaves : compiled.root.leaves = List.range compiled.slots.length
  ordered : compiled.Ordered

theorem compile_proper {expr : TripleExpr V} {teMap : FastMap String (TripleExpr V)}
    {compiled : Compiled V} (ok : compile expr teMap = .ok compiled) (ordered : compiled.Ordered) :
    compiled.Proper where
  leaves := compile_leaves ok
  ordered := ordered

theorem one_allowed {iv : Iv} :
    (decide (iv.lo ≤ 1) && iv.hi.all (1 ≤ ·)) = true ↔ iv.Contains 1 := by
  unfold Iv.Contains
  rw [Bool.and_eq_true, decide_eq_true_iff]
  apply and_congr_right'
  cases iv.hi with
  | none =>
    refine iff_of_true rfl ?_
    rintro _ ⟨⟩
  | some h =>
    rw [Option.all_some, decide_eq_true_iff]
    constructor
    · rintro above _ ⟨⟩
      exact above
    · exact fun all => all h rfl

theorem countsMatch_decides {compiled : Compiled V} (proper : compiled.Proper)
    {counts : List (Nat × Nat)} {bag : Multiset Nat}
    (counted_bag : Counted compiled.slots counts bag) (small : bag.card ≤ u64Max)
    (inside : ∀ x ∈ bag, x < compiled.slots.length) :
    ∃ answer, countsMatch compiled counts = .ok answer ∧
      (answer = true ↔ compiled.Derives bag) := by
  have in_leaves : ∀ i, i ∈ compiled.root.leaves ↔ i < compiled.slots.length := by
    intro i
    rw [proper.leaves]
    exact List.mem_range
  have distinct : compiled.root.leaves.Nodup := by
    rw [proper.leaves]
    exact List.nodup_range
  obtain ⟨answer, ok, decides⟩ := reps_decides counted_bag small compiled.root proper.ordered
    distinct fun i member => (in_leaves i).mp member
  have whole : below bag compiled.root.leaves = bag :=
    below_self fun x member => (in_leaves x).mpr (inside x member)
  have once : Holds answer 1 ↔ compiled.Derives bag := by
    rw [decides.holds 1, whole, one_nsmul]
    rfl
  unfold countsMatch
  rw [ok]
  cases answer with
  | none =>
    refine ⟨false, rfl, ?_⟩
    rw [← once]
    exact iff_of_false Bool.false_ne_true not_holds_none
  | some iv =>
    refine ⟨_, rfl, ?_⟩
    rw [← once, holds_some]
    exact one_allowed

end Exactness

end Purrdf.Shex
