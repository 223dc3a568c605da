import Purrdf.ShexRouting

/-!
# Matching a shape

The slots of a shape by predicate and direction, the options of every arc of a focus node, and the
two ways to settle them: by counting, where every predicate and direction has one slot, and by the
search otherwise.
-/

namespace Purrdf.Shex

variable {V N E σ : Type}

/-! ### Preparation -/

abbrev Buckets := FastMap String (List Nat)

/-- `entry(predicate).or_insert_with(Vec::new).push(index)`. -/
def Buckets.push (buckets : Buckets) (predicate : String) (index : Nat) : Buckets :=
  buckets.insert predicate ((buckets.lookup predicate).getD [] ++ [index])

structure PreparedShape (V : Type) where
  compiled : Compiled V
  forward : Buckets
  inverse : Buckets
  unique : Bool

def fillBuckets : List (Slot V) → Nat → Buckets → Buckets → Buckets × Buckets
  | [], _, forward, inverse => (forward, inverse)
  | slot :: rest, index, forward, inverse =>
    if slot.inverse then
      fillBuckets rest (index + 1) forward (Buckets.push inverse slot.predicate index)
    else fillBuckets rest (index + 1) (Buckets.push forward slot.predicate index) inverse

def allSingle (buckets : Buckets) : Bool :=
  buckets.entries.all fun entry => entry.2.length == 1

def prepareShape (expression : Option (TripleExpr V)) (teMap : FastMap String (TripleExpr V)) :
    Except String (PreparedShape V) :=
  match
    match expression with
    | some expr => compile expr teMap
    | none => .ok { root := .each [] { min := 1, max := some 1 }, slots := [] } with
  | .error message => .error message
  | .ok compiled =>
    let buckets := fillBuckets compiled.slots 0 ∅ ∅
    .ok {
      compiled
      forward := buckets.1
      inverse := buckets.2
      unique := allSingle buckets.1 && allSingle buckets.2 }

/-! ### The options of the arcs -/

/-- What checking a value against a value expression may end with. -/
inductive CheckError (E : Type) where
  | violation (reason : String)
  | operational (error : E)
deriving DecidableEq, Repr

inductive MatchError (E : Type) where
  | violation (reason : String)
  | operational (error : E)
  | matcherWork (attempted maximum : Nat)
  | panicked
deriving DecidableEq, Repr

structure Arc (N : Type) where
  inverse : Bool
  predicate : String
  value : N
deriving DecidableEq, Repr

/-- `^` before an inverse predicate. -/
def caret (inverse : Bool) : String :=
  if inverse then "^" else ""

def candidatesOf (satisfies : σ → N → V → σ × Except (CheckError E) Unit) (slots : List (Slot V))
    (arc : Arc N) : List Nat → σ → List String →
      Except (MatchError E) (List Nat × σ × List String)
  | [], state, failures => .ok ([], state, failures)
  | index :: rest, state, failures =>
    match slots[index]? with
    | none => .error .panicked
    | some slot =>
      match slot.valueExpr with
      | none =>
        match candidatesOf satisfies slots arc rest state failures with
        | .error error => .error error
        | .ok (candidates, after) => .ok (index :: candidates, after)
      | some valueExpr =>
        match satisfies state arc.value valueExpr with
        | (state, .ok ()) =>
          match candidatesOf satisfies slots arc rest state failures with
          | .error error => .error error
          | .ok (candidates, after) => .ok (index :: candidates, after)
        | (state, .error (.violation reason)) =>
          candidatesOf satisfies slots arc rest state
            (failures ++ ["value of " ++ caret arc.inverse ++ "<" ++ arc.predicate ++ "> fails: "
              ++ reason])
        | (_, .error (.operational error)) => .error (.operational error)

/-- An arc that satisfies some value expression must be matched; only one that satisfies none may
be diverted to `EXTRA`. -/
def arcOptions (satisfies : σ → N → V → σ × Except (CheckError E) Unit)
    (prepared : PreparedShape V) (extra : List String) :
    List (Arc N) → σ → List String → Except (MatchError E) (List ArcOptions × σ × List String)
  | [], state, failures => .ok ([], state, failures)
  | arc :: rest, state, failures =>
    match (if arc.inverse then prepared.inverse else prepared.forward).lookup arc.predicate with
    | none => .error .panicked
    | some slots =>
      match candidatesOf satisfies prepared.compiled.slots arc slots state failures with
      | .error error => .error error
      | .ok (candidates, state, failures) =>
        let extraAllowed := candidates.isEmpty && extra.contains arc.predicate
        if candidates.isEmpty && !extraAllowed then
          .error (.violation (failures.getLast?.getD
            ("triple with predicate <" ++ arc.predicate ++ "> cannot be matched")))
        else
          match arcOptions satisfies prepared extra rest state failures with
          | .error error => .error error
          | .ok (options, after) => .ok ({ candidates, extraAllowed } :: options, after)

/-! ### Settling them -/

def countArcs : List ArcOptions → Nat → Assignment → Except SearchError Assignment
  | [], _, found => .ok found
  | option :: rest, index, (counts, assignment) =>
    match option.candidates.head? with
    | none => countArcs rest (index + 1) (counts, assignment)
    | some slot =>
      match route counts slot with
      | .error error => .error error
      | .ok counts => countArcs rest (index + 1) (counts, assignment.set index (some slot))

def fastPath (compiled : Compiled V) (options : List ArcOptions) :
    Except SearchError (Option Assignment) :=
  match countArcs options 0 (List.replicate compiled.slots.length (0, 0),
      List.replicate options.length none) with
  | .error error => .error error
  | .ok (counts, assignment) =>
    match countsMatch compiled counts with
    | .error _ => .error .panicked
    | .ok true => .ok (some (counts, assignment))
    | .ok false => .ok none

def cardinalityReason (compiled : Compiled V) (arcs : List (Arc N)) (failures : List String) :
    String :=
  let parts := compiled.slots.map fun slot =>
    let count := (arcs.filter fun arc =>
      arc.inverse == slot.inverse && arc.predicate == slot.predicate).length
    let most := (slot.card.max.map toString).getD "*"
    caret slot.inverse ++ "<" ++ slot.predicate ++ "> has " ++ toString count
      ++ " triple(s) for cardinality \x7b" ++ toString slot.card.min ++ "," ++ most ++ "\x7d"
  let reason := "triple expression not matched: " ++ "; ".intercalate parts
  match failures.getLast? with
  | none => reason
  | some failure => reason ++ "; " ++ failure

def SearchError.toMatch : SearchError → MatchError E
  | .matcherWork attempted maximum => .matcherWork attempted maximum
  | .panicked => .panicked

/-- The match up to the semantic actions, settled by counting or by the search. -/
def matchWith (counting : Bool) (satisfies : σ → N → V → σ × Except (CheckError E) Unit)
    (prepared : PreparedShape V) (extra : List String) (arcs : List (Arc N)) (maximum : Nat)
    (state : σ) : Except (MatchError E) (Assignment × σ) :=
  match arcOptions satisfies prepared extra arcs state [] with
  | .error error => .error error
  | .ok (options, state, failures) =>
    match
      if counting then fastPath prepared.compiled options
      else assignmentSearch prepared.compiled options maximum with
    | .error error => .error error.toMatch
    | .ok none => .error (.violation (cardinalityReason prepared.compiled arcs failures))
    | .ok (some found) => .ok (found, state)

def matchShape (satisfies : σ → N → V → σ × Except (CheckError E) Unit)
    (prepared : PreparedShape V) (extra : List String) (arcs : List (Arc N)) (maximum : Nat)
    (state : σ) : Except (MatchError E) (Assignment × σ) :=
  matchWith prepared.unique satisfies prepared extra arcs maximum state

end Purrdf.Shex

/-!
## Counting against searching

Where every predicate and direction has one slot, an arc has one route, and the count of the forced
routes is what the search would find.
-/

namespace Purrdf.Shex

variable {V N E σ : Type}

/-! ### Buckets -/

/-- What stands under a predicate: the slots of that predicate and direction before an index. -/
def Filed (slots : List (Slot V)) (inverse : Bool) (done : Nat) (buckets : Buckets) : Prop :=
  ∀ predicate filed, buckets.lookup predicate = some filed → filed ≠ [] ∧ filed.Nodup ∧
    ∀ i ∈ filed, i < done ∧
      ∃ slot, slots[i]? = some slot ∧ slot.inverse = inverse ∧ slot.predicate = predicate

theorem Filed.empty (slots : List (Slot V)) (inverse : Bool) : Filed slots inverse 0 ∅ := by
  intro predicate filed found
  rw [AList.lookup_empty] at found
  cases found

variable {satisfies : σ → N → V → σ × Except (CheckError E) Unit} {prepared : PreparedShape V}
  {options : List ArcOptions} {slots : List (Slot V)}

theorem Filed.mono {inverse : Bool} {done : Nat} {buckets : Buckets}
    (filed : Filed slots inverse done buckets) : Filed slots inverse (done + 1) buckets := by
  intro predicate indices found
  obtain ⟨some_filed, distinct, each⟩ := filed predicate indices found
  refine ⟨some_filed, distinct, fun i member => ?_⟩
  obtain ⟨i_lt, rest⟩ := each i member
  exact ⟨Nat.lt_succ_of_lt i_lt, rest⟩

theorem Filed.push {slot : Slot V} {done : Nat} {buckets : Buckets}
    (filed : Filed slots slot.inverse done buckets) (here : slots[done]? = some slot) :
    Filed slots slot.inverse (done + 1) (buckets.push slot.predicate done) := by
  intro predicate indices found
  unfold Buckets.push at found
  by_cases same : predicate = slot.predicate
  · subst same
    rw [AList.lookup_insert] at found
    cases found
    refine ⟨List.append_ne_nil_of_right_ne_nil _ (List.cons_ne_nil _ _), ?_, ?_⟩
    · cases before : buckets.lookup slot.predicate with
      | none => exact List.nodup_singleton done
      | some earlier =>
        obtain ⟨-, distinct, each⟩ := filed slot.predicate earlier before
        rw [Option.getD_some, List.nodup_append']
        refine ⟨distinct, List.nodup_singleton done, ?_⟩
        intro i member last
        rw [List.mem_singleton] at last
        exact absurd (each i member).1 (by rw [last]; exact Nat.lt_irrefl done)
    · intro i member
      rcases List.mem_append.mp member with earlier | last
      · cases before : buckets.lookup slot.predicate with
        | none =>
          rw [before] at earlier
          exact absurd earlier List.not_mem_nil
        | some others =>
          rw [before] at earlier
          obtain ⟨i_lt, rest⟩ := (filed slot.predicate others before).2.2 i earlier
          exact ⟨Nat.lt_succ_of_lt i_lt, rest⟩
      · rw [List.mem_singleton] at last
        rw [last]
        exact ⟨Nat.lt_succ_self done, slot, here, rfl, rfl⟩
  · rw [AList.lookup_insert_ne same] at found
    exact filed.mono predicate indices found

theorem fillBuckets_filed (rest : List (Slot V)) (done : Nat) (forward inverse : Buckets)
    (rest_eq : slots.drop done = rest) (forward_filed : Filed slots false done forward)
    (inverse_filed : Filed slots true done inverse) :
    Filed slots false (done + rest.length) (fillBuckets rest done forward inverse).1 ∧
      Filed slots true (done + rest.length) (fillBuckets rest done forward inverse).2 := by
  induction rest generalizing done forward inverse with
  | nil => exact ⟨forward_filed, inverse_filed⟩
  | cons slot rest ih =>
    have here : slots[done]? = some slot := by
      rw [← List.head?_drop, rest_eq]
      rfl
    have after : slots.drop (done + 1) = rest := by
      rw [← List.drop_drop, rest_eq]
      rfl
    unfold fillBuckets
    rw [List.length_cons, ← Nat.add_assoc, Nat.add_right_comm]
    cases direction : slot.inverse with
    | true =>
      rw [if_pos rfl]
      rw [← direction] at inverse_filed
      have pushed := inverse_filed.push here
      rw [direction] at pushed
      exact ih (done + 1) forward _ after forward_filed.mono pushed
    | false =>
      rw [if_neg Bool.false_ne_true]
      rw [← direction] at forward_filed
      have pushed := forward_filed.push here
      rw [direction] at pushed
      exact ih (done + 1) _ inverse after pushed inverse_filed.mono

def Slot.key (slot : Slot V) : Bool × String :=
  (slot.inverse, slot.predicate)

theorem allSingle_lookup {buckets : Buckets} {predicate : String} {filed : List Nat}
    (single : allSingle buckets = true) (found : buckets.lookup predicate = some filed) :
    filed.length = 1 := by
  have entry := List.all_eq_true.mp single ⟨predicate, filed⟩ (FastMap.mem_entries.mpr found)
  exact beq_iff_eq.mp entry

theorem Filed.allSingle {inverse : Bool} {done : Nat} {buckets : Buckets}
    (filed : Filed slots inverse done buckets) (distinct : (slots.map Slot.key).Nodup) :
    allSingle buckets = true := by
  unfold Shex.allSingle
  rw [List.all_eq_true]
  rintro ⟨predicate, indices⟩ member
  obtain ⟨some_filed, nodup, each⟩ := filed predicate indices (FastMap.mem_entries.mp member)
  have all_same : ∀ i ∈ indices, ∀ j ∈ indices, i = j := by
    intro i i_member j j_member
    obtain ⟨-, left, left_eq, left_inverse, left_predicate⟩ := each i i_member
    obtain ⟨-, right, right_eq, right_inverse, right_predicate⟩ := each j j_member
    have i_key : (slots.map Slot.key)[i]? = some (inverse, predicate) := by
      rw [List.getElem?_map, left_eq, Option.map_some, Slot.key, left_inverse, left_predicate]
    have j_key : (slots.map Slot.key)[j]? = some (inverse, predicate) := by
      rw [List.getElem?_map, right_eq, Option.map_some, Slot.key, right_inverse, right_predicate]
    obtain ⟨i_lt, i_eq⟩ := List.getElem?_eq_some_iff.mp i_key
    obtain ⟨j_lt, j_eq⟩ := List.getElem?_eq_some_iff.mp j_key
    exact (List.Nodup.getElem_inj_iff distinct).mp (i_eq.trans j_eq.symm)
  rw [beq_iff_eq]
  cases indices with
  | nil => exact absurd rfl some_filed
  | cons first others =>
    cases others with
    | nil => rfl
    | cons second others =>
      have same := all_same first List.mem_cons_self second
        (List.mem_cons_of_mem _ List.mem_cons_self)
      rw [same] at nodup
      exact absurd List.mem_cons_self (List.nodup_cons.mp nodup).1

structure PreparedShape.Sound (prepared : PreparedShape V) : Prop where
  forward : Filed prepared.compiled.slots false prepared.compiled.slots.length prepared.forward
  inverse : Filed prepared.compiled.slots true prepared.compiled.slots.length prepared.inverse
  unique_eq : prepared.unique = (allSingle prepared.forward && allSingle prepared.inverse)
  leaves : prepared.compiled.root.leaves = List.range prepared.compiled.slots.length

theorem prepareShape_sound {expression : Option (TripleExpr V)}
    {teMap : FastMap String (TripleExpr V)} (ok : prepareShape expression teMap = .ok prepared) :
    prepared.Sound := by
  unfold prepareShape at ok
  split at ok
  · cases ok
  · rename_i compiled compiled_ok
    cases ok
    have filed := fillBuckets_filed compiled.slots 0 ∅ ∅ List.drop_zero (Filed.empty _ false)
      (Filed.empty _ true)
    rw [Nat.zero_add] at filed
    refine ⟨filed.1, filed.2, rfl, ?_⟩
    split at compiled_ok
    · exact compile_leaves compiled_ok
    · cases compiled_ok
      unfold CNode.leaves CNode.leavesAll
      rfl

theorem PreparedShape.Sound.unique (sound : prepared.Sound)
    (distinct : (prepared.compiled.slots.map Slot.key).Nodup) : prepared.unique = true := by
  rw [sound.unique_eq, sound.forward.allSingle distinct, sound.inverse.allSingle distinct]
  rfl

/-! ### Forced routes -/

/-- One candidate, or none and `EXTRA`. -/
def ArcOptions.Forced (option : ArcOptions) (width : Nat) : Prop :=
  (∃ slot < width, option = { candidates := [slot], extraAllowed := false }) ∨
    option = { candidates := [], extraAllowed := true }

theorem candidatesOf_sublist {arc : Arc N} {indices : List Nat} {state : σ}
    {failures : List String} {candidates : List Nat} {after : σ × List String}
    (ok : candidatesOf satisfies slots arc indices state failures = .ok (candidates, after)) :
    candidates.Sublist indices := by
  induction indices generalizing state failures candidates after with
  | nil =>
    unfold candidatesOf at ok
    cases ok
    exact List.Sublist.slnil
  | cons index rest ih =>
    unfold candidatesOf at ok
    split at ok
    · cases ok
    · split at ok
      · split at ok
        · cases ok
        · rename_i taken
          cases ok
          exact (ih taken).cons₂ index
      · split at ok
        · split at ok
          · cases ok
          · rename_i taken
            cases ok
            exact (ih taken).cons₂ index
        · exact (ih ok).cons index
        · cases ok

theorem arcOptions_forced {extra : List String} {arcs : List (Arc N)} {state : σ}
    {failures : List String} {after : σ × List String} (sound : prepared.Sound)
    (unique : prepared.unique = true)
    (ok : arcOptions satisfies prepared extra arcs state failures = .ok (options, after)) :
    ∀ option ∈ options, option.Forced prepared.compiled.slots.length := by
  rw [sound.unique_eq, Bool.and_eq_true] at unique
  have filed_one : ∀ (inverse : Bool) predicate filed,
      (if inverse then prepared.inverse else prepared.forward).lookup predicate = some filed →
        ∃ slot < prepared.compiled.slots.length, filed = [slot] := by
    intro inverse predicate filed found
    have single : filed.length = 1 ∧ ∀ i ∈ filed, i < prepared.compiled.slots.length := by
      cases inverse with
      | true =>
        exact ⟨allSingle_lookup unique.2 found,
          fun i member => ((sound.inverse predicate filed found).2.2 i member).1⟩
      | false =>
        exact ⟨allSingle_lookup unique.1 found,
          fun i member => ((sound.forward predicate filed found).2.2 i member).1⟩
    obtain ⟨slot, rfl⟩ := List.length_eq_one_iff.mp single.1
    exact ⟨slot, single.2 slot (List.mem_singleton_self slot), rfl⟩
  induction arcs generalizing state failures options after with
  | nil =>
    unfold arcOptions at ok
    cases ok
    exact fun option member => absurd member List.not_mem_nil
  | cons arc rest ih =>
    unfold arcOptions at ok
    split at ok
    · cases ok
    · rename_i filed found
      obtain ⟨slot, inside, rfl⟩ := filed_one arc.inverse arc.predicate filed found
      split at ok
      · cases ok
      · rename_i candidates between messages taken
        dsimp only at ok
        split at ok
        · cases ok
        · rename_i vetted
          split at ok
          · cases ok
          · rename_i others rest_ok
            cases ok
            intro option member
            rcases List.mem_cons.mp member with rfl | member
            · rcases List.sublist_singleton.mp (candidatesOf_sublist taken) with rfl | rfl
              · right
                rw [List.isEmpty_nil, Bool.true_and, Bool.true_and, Bool.not_eq_true',
                  Bool.not_eq_false] at vetted
                rw [List.isEmpty_nil, Bool.true_and, vetted]
              · exact Or.inl ⟨slot, inside, rfl⟩
            · exact ih rest_ok option member

def forcedChoices (options : List ArcOptions) : List (Option Nat) :=
  options.map fun option => option.candidates.head?

theorem routes_forced {width : Nat} (forced : ∀ option ∈ options, option.Forced width)
    (choices : List (Option Nat)) :
    Routes options choices ↔ choices = forcedChoices options := by
  unfold Routes forcedChoices
  induction options generalizing choices with
  | nil => exact List.forall₂_nil_left_iff
  | cons option rest ih =>
    have takes_iff : ∀ choice, option.Takes choice ↔ choice = option.candidates.head? := by
      intro choice
      rcases forced option List.mem_cons_self with ⟨slot, -, rfl⟩ | rfl
      · cases choice with
        | none => exact iff_of_false Bool.false_ne_true (by rintro ⟨⟩)
        | some other =>
          change other ∈ [slot] ↔ some other = some slot
          rw [List.mem_singleton, Option.some_inj]
      · cases choice with
        | none => exact iff_of_true rfl rfl
        | some other => exact iff_of_false List.not_mem_nil (by rintro ⟨⟩)
    have rest_iff := ih fun other member => forced other (List.mem_cons_of_mem _ member)
    rw [List.forall₂_cons_left_iff, List.map_cons]
    constructor
    · rintro ⟨choice, others, takes, routes, rfl⟩
      rw [(takes_iff choice).mp takes, (rest_iff others).mp routes]
    · rintro rfl
      exact ⟨_, _, (takes_iff _).mpr rfl, (rest_iff _).mpr rfl, rfl⟩

theorem forced_within {width : Nat} (forced : ∀ option ∈ options, option.Forced width) :
    Within options width := by
  intro option member slot candidate
  rcases forced option member with ⟨only, inside, rfl⟩ | rfl
  · rw [List.mem_singleton.mp candidate]
    exact inside
  · exact absurd candidate List.not_mem_nil

theorem countArcs_forced {width : Nat} (rest : List ArcOptions) (before : List (Option Nat))
    (bag : Multiset Nat) (forced : ∀ option ∈ rest, option.Forced width) :
    countArcs rest before.length
        (countsOf width bag, before ++ List.replicate rest.length none)
      = .ok (countsOf width (chosen (forcedChoices rest) + bag), before ++ forcedChoices rest) := by
  induction rest generalizing before bag with
  | nil =>
    unfold countArcs forcedChoices
    rw [List.map_nil, chosen_nil, zero_add]
    rfl
  | cons option rest ih =>
    have others : ∀ other ∈ rest, other.Forced width :=
      fun other member => forced other (List.mem_cons_of_mem _ member)
    have longer : ∀ choice : Option Nat, (before ++ [choice]).length = before.length + 1 :=
      fun _ => List.length_append
    unfold countArcs
    rcases forced option List.mem_cons_self with ⟨slot, inside, rfl⟩ | rfl
    · have placed : (before ++ List.replicate (rest.length + 1) none).set before.length (some slot)
          = (before ++ [some slot]) ++ List.replicate rest.length none := by
        rw [List.set_append_right _ _ le_rfl, Nat.sub_self, List.append_assoc]
        rfl
      have next := ih (before ++ [some slot]) (slot ::ₘ bag) others
      rw [longer] at next
      dsimp only [List.head?_cons, List.length_cons]
      rw [route_countsOf bag inside]
      dsimp only
      rw [placed, next, List.append_assoc, Multiset.add_cons, ← Multiset.cons_add]
      rfl
    · have next := ih (before ++ [none]) bag others
      rw [longer, List.append_assoc, List.append_assoc] at next
      exact next

theorem fastPath_eq_assignmentSearch {compiled : Compiled V} {maximum : Nat}
    (proper : compiled.Proper) (forced : ∀ option ∈ options, option.Forced compiled.slots.length)
    (addressable : options.length ≤ u64Max) (enough : cost options ≤ maximum) :
    fastPath compiled options = assignmentSearch compiled options maximum := by
  have within := forced_within forced
  have routes : Routes options (forcedChoices options) := (routes_forced forced _).mpr rfl
  have few : (chosen (forcedChoices options)).card ≤ u64Max := by
    apply (chosen_card_le _).trans
    unfold forcedChoices
    rw [List.length_map]
    exact addressable
  obtain ⟨answer, matched, decides⟩ := countsMatch_decides proper
    (countsOf_counted compiled.slots (chosen (forcedChoices options))) few (routes.inside within)
  have counted := countArcs_forced options [] 0 forced
  rw [countsOf_zero, add_zero] at counted
  have fast : fastPath compiled options = .ok (if answer then
      some (countsOf compiled.slots.length (chosen (forcedChoices options)), forcedChoices options)
      else none) := by
    unfold fastPath
    rw [List.nil_append, List.length_nil] at counted
    rw [counted]
    dsimp only [List.nil_append]
    rw [matched]
    cases answer <;> rfl
  rcases assignmentSearch_spec proper within addressable maximum with
    ⟨found, search_ok, answers⟩ | ⟨-, short⟩
  · rw [fast, search_ok]
    congr 1
    cases found with
    | none =>
      have not_derived := answers _ routes
      rw [← decides, Bool.not_eq_true] at not_derived
      rw [not_derived]
      rfl
    | some found =>
      obtain ⟨counts, assignment⟩ := found
      obtain ⟨fit, derives, rfl⟩ := answers
      rw [(routes_forced forced assignment).mp fit] at derives ⊢
      rw [decides.mpr derives]
      rfl
  · exact absurd short (Nat.not_lt.mpr enough)

theorem arcOptions_length {extra : List String} {arcs : List (Arc N)} {state : σ}
    {failures : List String} {after : σ × List String}
    (ok : arcOptions satisfies prepared extra arcs state failures = .ok (options, after)) :
    options.length = arcs.length := by
  induction arcs generalizing state failures options after with
  | nil =>
    unfold arcOptions at ok
    cases ok
    rfl
  | cons arc rest ih =>
    unfold arcOptions at ok
    split at ok
    · cases ok
    · split at ok
      · cases ok
      · dsimp only at ok
        split at ok
        · cases ok
        · split at ok
          · cases ok
          · rename_i others rest_ok
            cases ok
            rw [List.length_cons, List.length_cons, ih rest_ok]

/-- Where every predicate and direction has one slot, the match settles by counting, and a search
with enough budget settles it the same way. -/
theorem matchShape_counts (sound : prepared.Sound) (ordered : prepared.compiled.Ordered)
    (distinct : (prepared.compiled.slots.map Slot.key).Nodup)
    (satisfies : σ → N → V → σ × Except (CheckError E) Unit) (extra : List String)
    (arcs : List (Arc N)) (state : σ) (addressable : arcs.length ≤ u64Max) :
    ∃ enough, ∀ maximum, enough ≤ maximum →
      matchShape satisfies prepared extra arcs maximum state
        = matchWith false satisfies prepared extra arcs maximum state := by
  have unique := sound.unique distinct
  unfold matchShape matchWith
  cases taken : arcOptions satisfies prepared extra arcs state [] with
  | error error => exact ⟨0, fun _ _ => rfl⟩
  | ok found =>
    obtain ⟨options, after, failures⟩ := found
    refine ⟨cost options, fun maximum enough => ?_⟩
    have same := fastPath_eq_assignmentSearch ⟨sound.leaves, ordered⟩
      (arcOptions_forced sound unique taken) ((arcOptions_length taken).trans_le addressable) enough
    dsimp only
    rw [unique, if_pos rfl, if_neg Bool.false_ne_true, same]

/-- Matching decides the grammar of the expression: with enough budget the search finds an
assignment exactly when the arcs can be routed so that what is routed to the slots is derived, and
where every predicate and direction has one slot, counting gives the same answer. -/
theorem matching_decides_grammar {expr : TripleExpr V} {teMap : FastMap String (TripleExpr V)}
    {compiled : Compiled V} (ok : compile expr teMap = .ok compiled) (ordered : compiled.Ordered) :
    (∀ arcs : List ArcOptions, Within arcs compiled.slots.length → arcs.length ≤ u64Max →
      ∃ enough, ∀ maximum, enough ≤ maximum →
        (∃ answer, assignmentSearch compiled arcs maximum = .ok answer ∧
          Answers compiled arcs answer) ∧
        ((∃ found, assignmentSearch compiled arcs maximum = .ok (some found)) ↔
          ∃ choices, Routes arcs choices ∧ compiled.Derives (chosen choices))) ∧
    ∃ prepared, prepareShape (some expr) teMap = .ok prepared ∧ prepared.compiled = compiled ∧
      ((compiled.slots.map Slot.key).Nodup → prepared.unique = true ∧
        ∀ {N E σ : Type} (satisfies : σ → N → V → σ × Except (CheckError E) Unit)
          (extra : List String) (arcs : List (Arc N)) (state : σ), arcs.length ≤ u64Max →
          ∃ enough, ∀ maximum, enough ≤ maximum →
            matchShape satisfies prepared extra arcs maximum state
              = matchWith false satisfies prepared extra arcs maximum state) := by
  have proper := compile_proper ok ordered
  constructor
  · intro arcs within addressable
    refine ⟨cost arcs, fun maximum enough => ?_⟩
    rcases assignmentSearch_spec proper within addressable maximum with
      ⟨answer, search_ok, answers⟩ | ⟨-, short⟩
    · refine ⟨⟨answer, search_ok, answers⟩, ?_⟩
      cases answer with
      | none =>
        refine iff_of_false ?_ ?_
        · rintro ⟨found, found_ok⟩
          rw [search_ok] at found_ok
          cases found_ok
        · rintro ⟨choices, routes, derives⟩
          exact answers choices routes derives
      | some found =>
        obtain ⟨counts, assignment⟩ := found
        exact iff_of_true ⟨_, search_ok⟩ ⟨assignment, answers.1, answers.2.1⟩
    · exact absurd short (Nat.not_lt.mpr enough)
  · obtain ⟨prepared, prepared_ok, rfl⟩ : ∃ prepared, prepareShape (some expr) teMap = .ok prepared ∧
        prepared.compiled = compiled := by
      unfold prepareShape
      dsimp only
      rw [ok]
      exact ⟨_, rfl, rfl⟩
    have sound := prepareShape_sound prepared_ok
    refine ⟨prepared, prepared_ok, rfl, fun distinct => ⟨sound.unique distinct, ?_⟩⟩
    intro N E σ satisfies extra arcs state addressable
    exact matchShape_counts sound ordered distinct satisfies extra arcs state addressable

/-- One `p`, then any number of `q` by an inclusion. -/
def included : TripleExpr Unit :=
  .eachOf none none [
    .tripleConstraint
      { inverse := none, predicate := "p", valueExpr := none, min := none, max := none },
    .ref "rest"]

def inclusions : FastMap String (TripleExpr Unit) :=
  AList.singleton "rest" (.tripleConstraint
    { inverse := none, predicate := "q", valueExpr := none, min := some 0, max := some (-1) })

def includedCompiled : Compiled Unit where
  root := .each [.slot 0, .slot 1] { min := 1, max := some 1 }
  slots := [
    { predicate := "p", inverse := false, valueExpr := none, card := { min := 1, max := some 1 } },
    { predicate := "q", inverse := false, valueExpr := none, card := { min := 0, max := none } }]

theorem compile_included : compile included inclusions = .ok includedCompiled := by
  have found : inclusions.lookup "rest" = some (.tripleConstraint
      { inverse := none, predicate := "q", valueExpr := none, min := some 0, max := some (-1) }) :=
    rfl
  have rest : ∀ slots : List (Slot Unit), compileNode inclusions (.ref "rest") slots []
      = .ok (.slot slots.length, slots ++ [{
          predicate := "q", inverse := false, valueExpr := none
          card := { min := 0, max := none } }]) := by
    intro slots
    rw [compileNode]
    split
    · rename_i missing
      rw [found] at missing
      cases missing
    · rename_i target found'
      rw [found] at found'
      cases found'
      rw [if_neg List.not_mem_nil, compileNode]
      rfl
  unfold compile included
  rw [compileNode, compileNodes, compileNode]
  dsimp only
  rw [compileNodes, rest]
  dsimp only
  rw [compileNodes]
  rfl

/-- Two arcs, of which the second must be a `q`. -/
theorem matching_decides_included :
    ∃ enough, ∀ maximum, enough ≤ maximum →
      ∃ found, assignmentSearch includedCompiled
        [⟨[0], false⟩, ⟨[0, 1], false⟩] maximum = .ok (some found) := by
  have ordered : includedCompiled.Ordered := by
    unfold Compiled.Ordered includedCompiled
    simp only [CNode.Ordered, CNode.OrderedAll, Card.Ordered]
    refine ⟨by rintro _ ⟨⟩; exact le_rfl, ?_, ?_, trivial⟩
    · rintro slot ⟨⟩ _ ⟨⟩
      exact le_rfl
    · rintro slot ⟨⟩ _ ⟨⟩
  have within : Within [⟨[0], false⟩, ⟨[0, 1], false⟩] includedCompiled.slots.length := by
    unfold Within
    decide
  obtain ⟨enough, decided⟩ := (matching_decides_grammar compile_included ordered).1
    [⟨[0], false⟩, ⟨[0, 1], false⟩] within (by decide)
  refine ⟨enough, fun maximum large => (decided maximum large).2.mpr ?_⟩
  refine ⟨[some 0, some 1], ?_, ?_⟩
  · unfold Routes
    exact .cons List.mem_cons_self (.cons (List.mem_cons_of_mem _ List.mem_cons_self) .nil)
  · obtain ⟨answer, matched, decides⟩ := countsMatch_decides
      (compile_proper compile_included ordered)
      (countsOf_counted includedCompiled.slots (chosen [some 0, some 1])) (by decide) (by decide)
    have derived : countsMatch includedCompiled
        (countsOf includedCompiled.slots.length (chosen [some 0, some 1])) = .ok true :=
      rfl
    rw [derived] at matched
    cases matched
    exact decides.mp rfl

end Purrdf.Shex
