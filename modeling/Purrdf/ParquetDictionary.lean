import Purrdf.ParquetPlain
import Purrdf.ParquetDelta
import Purrdf.SortedSearch

/-!
# Dictionaries

The dictionary of a column chunk, built within a budget or read from its page: the PLAIN
bytes of its entries, their ranges, and the ordinals sorted by value for the search.
-/

namespace Purrdf.Parquet

open PackBits SortedSearch

structure Dictionary where
  physical : PhysicalType
  plain : List UInt8
  entries : List (Nat × Nat)
  order : List Nat
deriving DecidableEq, Repr

def dictionaryControlBytes : Nat := 80

def dictionaryValue (plain : List UInt8) (range : Nat × Nat) : List UInt8 :=
  (plain.take range.2).drop range.1

/-- What the vectors of a dictionary under construction can hold. -/
structure Capacities where
  plain : Nat
  entries : Nat
  order : Nat

/-- The capacity after growth to a need, if the old and the new allocation fit the budget
beside the others. A budget is a machine word, so a sum that fits it has not overflowed. -/
def growBounded (capacity needed size other budget : Nat) : Option Nat :=
  if needed ≤ capacity then some capacity
  else
    let doubled := max (min (capacity * 2) (2 ^ 64 - 1)) needed
    if (capacity + doubled) * size + other ≤ budget then some doubled
    else if (capacity + needed) * size + other ≤ budget then some needed
    else none

namespace Dictionary

def entryAt (dictionary : Dictionary) (index : Nat) : List UInt8 :=
  dictionaryValue dictionary.plain (dictionary.entries.getD index (0, 0))

def search (dictionary : Dictionary) (value : List UInt8) : Except Nat Nat :=
  match binarySearchBy (fun i => compare (dictionary.entryAt (dictionary.order.getD i 0)) value)
      dictionary.order.length with
  | .ok position => .ok (dictionary.order.getD position 0)
  | .error position => .error position

/-- Add an entry at its place in the order. Ordinals and ranges are 32-bit words. -/
def insert (dictionary : Dictionary) (value : List UInt8) (position : Nat) : Dictionary :=
  { dictionary with
    plain := dictionary.plain ++ value
    order := dictionary.order.insertIdx position (dictionary.entries.length % 2 ^ 32)
    entries := dictionary.entries ++
      [(dictionary.plain.length % 2 ^ 32, (dictionary.plain.length + value.length) % 2 ^ 32)] }

/-- Grow the three vectors in turn, each charged beside what the others hold by then. -/
def grow (capacities : Capacities) (entries bytes budget : Nat) : Option Capacities := do
  let entriesCapacity ← growBounded capacities.entries entries 8
    (capacities.plain + capacities.order * 4 + dictionaryControlBytes) budget
  let orderCapacity ← growBounded capacities.order entries 4
    (capacities.plain + entriesCapacity * 8 + dictionaryControlBytes) budget
  let plainCapacity ← growBounded capacities.plain bytes 1
    (entriesCapacity * 8 + orderCapacity * 4 + dictionaryControlBytes) budget
  return ⟨plainCapacity, entriesCapacity, orderCapacity⟩

def buildLoop (maxEntries budget : Nat) :
    List (List UInt8) → Dictionary → Capacities → Outcome (Option Dictionary)
  | [], dictionary, _ =>
    return if dictionary.entries.isEmpty then none else some dictionary
  | value :: values, dictionary, capacities =>
    match dictionary.search value with
    | .ok _ => buildLoop maxEntries budget values dictionary capacities
    | .error position =>
      if min maxEntries (2 ^ 31 - 1) ≤ dictionary.entries.length then return none
      else do
        let entries ← add dictionary.entries.length 1
        let bytes ← add dictionary.plain.length value.length
        match grow capacities entries bytes budget with
        | none => return none
        | some capacities =>
          buildLoop maxEntries budget values (dictionary.insert value position) capacities

def build (plain : List UInt8) (physical : PhysicalType) (maxEntries budget : Nat) :
    Outcome (Option Dictionary) := do
  let _ ← plainCount plain physical
  let values ← Plain.values plain physical
  buildLoop maxEntries (min budget maxBytes) values ⟨physical, [], [], []⟩ ⟨0, 0, 0⟩

def fromPage (body : List UInt8) (count : Nat) (physical : PhysicalType) :
    Outcome Dictionary := do
  let actual ← plainCount body physical
  if actual ≠ count then refusal (.valueCount actual count)
  else
    let owned := count * 12 + body.length + dictionaryControlBytes
    if maxBytes < owned then
      limit "dictionary page ownership" (min owned (2 ^ 64 - 1)) maxBytes
    else do
      reserve 0 body.length 1
      reserve 0 count 8
      reserve 0 count 4
      let steps ← Plain.steps body physical
      let entries := steps.map fun (value, pos) => ((pos - value.length) % 2 ^ 32, pos % 2 ^ 32)
      let at_ordinal := fun ordinal => dictionaryValue body (entries.getD ordinal (0, 0))
      let order := (List.range (count % 2 ^ 32)).mergeSort fun a b =>
        (compare (at_ordinal a) (at_ordinal b)).isLE
      return ⟨physical, body, entries, order⟩

def value (dictionary : Dictionary) (index : UInt64) : Outcome (List UInt8) :=
  match dictionary.entries[index.toNat]? with
  | some range => return dictionaryValue dictionary.plain range
  | none => refusal (.dictionaryIndex index.toNat dictionary.entries.length)

end Dictionary

structure Dictionary.Valid (dictionary : Dictionary) (source : List (List UInt8)) : Prop where
  inside : ∀ ordinal ∈ dictionary.order, ordinal < dictionary.entries.length
  sorted : dictionary.order.Pairwise fun a b =>
    (compare (dictionary.entryAt a) (dictionary.entryAt b)).isLE
  holds : ∀ value ∈ source, ∃ ordinal ∈ dictionary.order, dictionary.entryAt ordinal = value
  few : 16 * dictionary.entries.length ≤ maxBytes

variable {dictionary : Dictionary} {source : List (List UInt8)}

theorem getD_mem {α : Type} {list : List α} {i : Nat} (fallback : α) (bound : i < list.length) :
    list.getD i fallback ∈ list := by
  rw [List.getD_eq_getElem _ _ bound]
  exact List.getElem_mem bound

theorem sorted_search
    (sorted : dictionary.order.Pairwise fun a b =>
      (compare (dictionary.entryAt a) (dictionary.entryAt b)).isLE) (value : List UInt8) :
    Sorted (fun i => compare (dictionary.entryAt (dictionary.order.getD i 0)) value)
      dictionary.order.length := by
  have ordered : ∀ i j, i ≤ j → j < dictionary.order.length →
      (compare (dictionary.entryAt (dictionary.order.getD i 0))
        (dictionary.entryAt (dictionary.order.getD j 0))).isLE := by
    intro i j le bound
    rcases Nat.eq_or_lt_of_le le with same | less
    · rw [same]
      exact Std.ReflCmp.isLE_rfl
    · rw [List.getD_eq_getElem _ _ (less.trans bound), List.getD_eq_getElem _ _ bound]
      exact List.pairwise_iff_getElem.mp sorted i j _ _ less
  constructor
  · intro i j le bound greater
    have first := Std.OrientedCmp.lt_of_gt greater
    exact Std.OrientedCmp.gt_of_lt (Std.TransCmp.lt_of_lt_of_isLE first (ordered i j le bound))
  · intro i j le bound less
    exact Std.TransCmp.lt_of_isLE_of_lt (ordered i j le bound) less

theorem Dictionary.Valid.search (valid : dictionary.Valid source) {value : List UInt8}
    (member : value ∈ source) :
    ∃ ordinal, dictionary.search value = .ok ordinal ∧ ordinal < dictionary.entries.length ∧
      dictionary.entryAt ordinal = value := by
  obtain ⟨ordinal, ordered, same⟩ := valid.holds value member
  obtain ⟨i, bound, at_i⟩ := List.getElem_of_mem ordered
  have sought : compare (dictionary.entryAt (dictionary.order.getD i 0)) value = .eq := by
    rw [List.getD_eq_getElem _ _ bound, at_i, same]
    exact Std.ReflCmp.compare_self
  obtain ⟨position, searched, inside, equal⟩ :=
    binarySearchBy_ok (sorted_search valid.sorted value) bound sought
  refine ⟨dictionary.order.getD position 0, ?_, ?_, ?_⟩
  · rw [Dictionary.search, searched]
  · exact valid.inside _ (getD_mem 0 inside)
  · exact Std.LawfulEqCmp.compare_eq_iff_eq.mp equal

/-! ### Building -/

/-- What building keeps: a working search over the values seen, and sizes within what the
vectors can hold, which the budget charges. -/
structure Building (dictionary : Dictionary) (capacities : Capacities) (budget : Nat)
    (seen : List (List UInt8)) : Prop where
  inside : ∀ ordinal ∈ dictionary.order, ordinal < dictionary.entries.length
  sorted : dictionary.order.Pairwise fun a b =>
    (compare (dictionary.entryAt a) (dictionary.entryAt b)).isLE
  holds : ∀ value ∈ seen, ∃ ordinal ∈ dictionary.order, dictionary.entryAt ordinal = value
  ranges : ∀ range ∈ dictionary.entries, range.2 ≤ dictionary.plain.length
  sized : 4 * dictionary.entries.length ≤ dictionary.plain.length
  ordered : dictionary.order.length = dictionary.entries.length
  entries_fit : dictionary.entries.length ≤ capacities.entries
  order_fit : dictionary.order.length ≤ capacities.order
  plain_fit : dictionary.plain.length ≤ capacities.plain
  bounded : capacities.entries = 0 ∨
    capacities.plain + capacities.entries * 8 + capacities.order * 4 + 80 ≤ budget

theorem growBounded_some {capacity needed size other budget grown : Nat}
    (grows : growBounded capacity needed size other budget = some grown) :
    needed ≤ grown ∧ (grown = capacity ∨ grown * size + other ≤ budget) := by
  have drop_old : ∀ target, (capacity + target) * size + other ≤ budget →
      target * size + other ≤ budget := by
    intro target peak
    rw [Nat.add_mul] at peak
    omega
  rw [growBounded] at grows
  split at grows
  · rename_i enough
    cases grows
    exact ⟨enough, Or.inl rfl⟩
  · dsimp only at grows
    split at grows
    · rename_i peak
      cases grows
      exact ⟨Nat.le_max_right _ _, Or.inr (drop_old _ peak)⟩
    · split at grows
      · rename_i peak
        cases grows
        exact ⟨Nat.le_refl _, Or.inr (drop_old _ peak)⟩
      · cases grows

theorem grow_some {capacities grown : Capacities} {entries bytes budget : Nat}
    (some_entry : 0 < entries)
    (bounded : capacities.entries = 0 ∨
      capacities.plain + capacities.entries * 8 + capacities.order * 4 + 80 ≤ budget)
    (grows : Dictionary.grow capacities entries bytes budget = some grown) :
    entries ≤ grown.entries ∧ entries ≤ grown.order ∧ bytes ≤ grown.plain ∧
      grown.plain + grown.entries * 8 + grown.order * 4 + 80 ≤ budget := by
  obtain ⟨entriesCapacity, first, rest⟩ := Option.bind_eq_some_iff.mp grows
  obtain ⟨orderCapacity, second, rest⟩ := Option.bind_eq_some_iff.mp rest
  obtain ⟨plainCapacity, third, rest⟩ := Option.bind_eq_some_iff.mp rest
  cases rest
  obtain ⟨entries_le, entries_peak⟩ := growBounded_some first
  obtain ⟨order_le, order_peak⟩ := growBounded_some second
  obtain ⟨bytes_le, plain_peak⟩ := growBounded_some third
  rw [dictionaryControlBytes] at entries_peak order_peak plain_peak
  refine ⟨entries_le, order_le, bytes_le, ?_⟩
  have afterEntries : capacities.plain + entriesCapacity * 8 + capacities.order * 4 + 80 ≤
      budget := by
    rcases entries_peak with same | peak
    · rcases bounded with none | within
      · omega
      · rw [same]
        exact within
    · omega
  have afterOrder : capacities.plain + entriesCapacity * 8 + orderCapacity * 4 + 80 ≤ budget := by
    rcases order_peak with same | peak
    · rw [same]
      exact afterEntries
    · omega
  rcases plain_peak with same | peak
  · rw [same]
    exact afterOrder
  · dsimp only
    omega

theorem dictionaryValue_append {plain value : List UInt8} {range : Nat × Nat}
    (inside : range.2 ≤ plain.length) :
    dictionaryValue (plain ++ value) range = dictionaryValue plain range := by
  rw [dictionaryValue, dictionaryValue, List.take_append_of_le_length inside]

theorem entryAt_insert_old (ranges : ∀ range ∈ dictionary.entries, range.2 ≤ dictionary.plain.length)
    (value : List UInt8) (position : Nat) {ordinal : Nat}
    (old : ordinal < dictionary.entries.length) :
    (dictionary.insert value position).entryAt ordinal = dictionary.entryAt ordinal := by
  have found : (dictionary.insert value position).entries.getD ordinal (0, 0) =
      dictionary.entries.getD ordinal (0, 0) := by
    rw [Dictionary.insert, List.getD_append _ _ _ _ old]
  rw [Dictionary.entryAt, found]
  exact dictionaryValue_append (ranges _ (getD_mem _ old))

theorem entryAt_insert_new {value : List UInt8} {position : Nat}
    (fits : dictionary.plain.length + value.length < 2 ^ 32) :
    (dictionary.insert value position).entryAt dictionary.entries.length = value := by
  have found : (dictionary.insert value position).entries.getD dictionary.entries.length (0, 0) =
      (dictionary.plain.length, dictionary.plain.length + value.length) := by
    rw [Dictionary.insert, List.getD_append_right _ _ _ _ (Nat.le_refl _), Nat.sub_self,
      Nat.mod_eq_of_lt (by omega), Nat.mod_eq_of_lt fits]
    rfl
  rw [Dictionary.entryAt, found, dictionaryValue]
  change ((dictionary.plain ++ value).take (dictionary.plain.length + value.length)).drop
    dictionary.plain.length = value
  rw [← List.length_append, List.take_length, List.drop_left]

theorem pairwise_insertIdx {α : Type} {r : α → α → Prop} {x fallback : α} {list : List α}
    (pairwise : list.Pairwise r) :
    ∀ {position : Nat}, position ≤ list.length →
      (∀ i, i < position → r (list.getD i fallback) x) →
      (∀ i, position ≤ i → i < list.length → r x (list.getD i fallback)) →
      (list.insertIdx position x).Pairwise r := by
  induction list with
  | nil =>
    intro position within _ _
    have zero : position = 0 := Nat.le_zero.mp within
    rw [zero, List.insertIdx_zero]
    exact List.pairwise_singleton r x
  | cons head tail ih =>
    intro position within before after
    obtain ⟨first, rest⟩ := List.pairwise_cons.mp pairwise
    cases position with
    | zero =>
      rw [List.insertIdx_zero]
      apply List.pairwise_cons.mpr
      constructor
      · intro other member
        obtain ⟨i, bound, same⟩ := List.getElem_of_mem member
        have here := after i (Nat.zero_le i) bound
        rw [List.getD_eq_getElem _ _ bound, same] at here
        exact here
      · exact pairwise
    | succ position =>
      rw [List.insertIdx_succ_cons]
      have short : position ≤ tail.length := Nat.le_of_succ_le_succ within
      apply List.pairwise_cons.mpr
      constructor
      · intro other member
        rcases (List.mem_insertIdx short).mp member with same | old
        · rw [same]
          exact before 0 (Nat.succ_pos position)
        · exact first other old
      · apply ih rest short
        · intro i low
          exact before (i + 1) (Nat.succ_lt_succ low)
        · intro i low high
          exact after (i + 1) (Nat.succ_le_succ low) (Nat.succ_lt_succ high)

theorem Building.insert {capacities grown : Capacities} {budget : Nat} {seen : List (List UInt8)}
    (building : Building dictionary capacities budget seen) {value : List UInt8} {position : Nat}
    (absent : dictionary.search value = .error position) (four : 4 ≤ value.length)
    (budgeted : budget ≤ maxBytes)
    (grows : Dictionary.grow capacities (dictionary.entries.length + 1)
      (dictionary.plain.length + value.length) budget = some grown) :
    Building (dictionary.insert value position) grown budget (seen ++ [value]) := by
  obtain ⟨entries_le, order_le, bytes_le, bounded⟩ :=
    grow_some (Nat.succ_pos _) building.bounded grows
  have maximum : maxBytes < 2 ^ 31 := by decide
  have fits : dictionary.plain.length + value.length < 2 ^ 32 := by omega
  have small : dictionary.entries.length % 2 ^ 32 = dictionary.entries.length :=
    Nat.mod_eq_of_lt (by omega)
  have finds := binarySearchBy_finds (sorted_search building.sorted value)
  rw [Dictionary.search] at absent
  split at absent
  · cases absent
  · rename_i found searched
    cases absent
    rw [searched] at finds
    obtain ⟨within, before, after⟩ := finds
    have old : ∀ ordinal ∈ dictionary.order, (dictionary.insert value position).entryAt ordinal =
        dictionary.entryAt ordinal := by
      intro ordinal member
      exact entryAt_insert_old building.ranges value position (building.inside ordinal member)
    have new : (dictionary.insert value position).entryAt dictionary.entries.length = value :=
      entryAt_insert_new fits
    have order_eq : (dictionary.insert value position).order =
        dictionary.order.insertIdx position dictionary.entries.length := by
      rw [Dictionary.insert, small]
    have count : (dictionary.insert value position).entries.length =
        dictionary.entries.length + 1 := by
      rw [Dictionary.insert, List.length_append]
      rfl
    have members : ∀ ordinal, ordinal ∈ (dictionary.insert value position).order ↔
        ordinal = dictionary.entries.length ∨ ordinal ∈ dictionary.order := by
      intro ordinal
      rw [order_eq]
      exact List.mem_insertIdx within
    have orderLength : (dictionary.insert value position).order.length =
        dictionary.order.length + 1 := by
      rw [order_eq, List.length_insertIdx_of_le_length within]
    have bytesLength : (dictionary.insert value position).plain.length =
        dictionary.plain.length + value.length := List.length_append
    constructor
    · intro ordinal member
      rw [count]
      rcases (members ordinal).mp member with same | member
      · omega
      · have := building.inside ordinal member
        omega
    · rw [order_eq]
      apply @pairwise_insertIdx _ _ _ 0
      · apply building.sorted.imp_of_mem
        intro a b a_mem b_mem le
        rw [old a a_mem, old b b_mem]
        exact le
      · exact within
      · intro i low
        have bound : i < dictionary.order.length := by omega
        rw [old _ (getD_mem 0 bound), new]
        exact Ordering.isLE_of_eq_lt (before i low)
      · intro i low high
        rw [old _ (getD_mem 0 high), new]
        exact Ordering.isLE_of_eq_lt (Std.OrientedCmp.lt_of_gt (after i low high))
    · intro other member
      rcases List.mem_append.mp member with seen_before | now
      · obtain ⟨ordinal, ordered, same⟩ := building.holds other seen_before
        refine ⟨ordinal, (members ordinal).mpr (Or.inr ordered), ?_⟩
        rw [old ordinal ordered, same]
      · rw [List.mem_singleton.mp now]
        exact ⟨_, (members _).mpr (Or.inl rfl), new⟩
    · intro range member
      rw [bytesLength]
      rcases List.mem_append.mp member with earlier | now
      · have := building.ranges range earlier
        omega
      · rw [List.mem_singleton.mp now]
        exact Nat.mod_le _ _
    · rw [count, bytesLength]
      have := building.sized
      omega
    · rw [orderLength, count, building.ordered]
    · rw [count]
      exact entries_le
    · rw [orderLength, building.ordered]
      exact order_le
    · rw [bytesLength]
      exact bytes_le
    · exact Or.inr bounded

theorem Building.valid {capacities : Capacities} {budget : Nat} {seen : List (List UInt8)}
    (building : Building dictionary capacities budget seen) (budgeted : budget ≤ maxBytes) :
    dictionary.Valid seen := by
  constructor
  · exact building.inside
  · exact building.sorted
  · exact building.holds
  · have entries := building.entries_fit
    have order := building.order_fit
    have plain := building.plain_fit
    have ordered := building.ordered
    have sized := building.sized
    rcases building.bounded with none | within
    · omega
    · omega

theorem buildLoop_valid {maxEntries budget : Nat} (budgeted : budget ≤ maxBytes)
    (values : List (List UInt8)) (four : ∀ value ∈ values, 4 ≤ value.length) :
    ∀ {start result : Dictionary} {capacities : Capacities} {seen : List (List UInt8)},
      Building start capacities budget seen →
      Dictionary.buildLoop maxEntries budget values start capacities = .ok (some result) →
      result.Valid (seen ++ values) ∧ result.physical = start.physical := by
  induction values with
  | nil =>
    intro start result capacities seen building built
    rw [Dictionary.buildLoop] at built
    split at built
    · cases built
    · cases built
      rw [List.append_nil]
      exact ⟨building.valid budgeted, rfl⟩
  | cons value values ih =>
    have later : ∀ other ∈ values, 4 ≤ other.length :=
      fun other member => four other (List.mem_cons_of_mem _ member)
    intro start result capacities seen building built
    have assoc : seen ++ value :: values = (seen ++ [value]) ++ values := by simp
    rw [assoc]
    rw [Dictionary.buildLoop] at built
    cases searched : start.search value with
    | ok ordinal =>
      -- The value is there already.
      rw [searched] at built
      have known : ∃ ordinal ∈ start.order, start.entryAt ordinal = value := by
        have finds := binarySearchBy_finds (sorted_search building.sorted value)
        rw [Dictionary.search] at searched
        split at searched
        · rename_i position found
          rw [found] at finds
          exact ⟨_, getD_mem 0 finds.1, Std.LawfulEqCmp.compare_eq_iff_eq.mp finds.2⟩
        · cases searched
      apply ih later _ built
      constructor
      · exact building.inside
      · exact building.sorted
      · intro other member
        rcases List.mem_append.mp member with before | now
        · exact building.holds other before
        · rw [List.mem_singleton.mp now]
          exact known
      · exact building.ranges
      · exact building.sized
      · exact building.ordered
      · exact building.entries_fit
      · exact building.order_fit
      · exact building.plain_fit
      · exact building.bounded
    | error position =>
      rw [searched] at built
      dsimp only at built
      split at built
      · cases built
      · obtain ⟨entries, counted, built⟩ := bind_ok built
        obtain ⟨bytes, measured, built⟩ := bind_ok built
        rw [add] at counted measured
        split at counted
        · cases counted
          split at measured
          · cases measured
            split at built
            · cases built
            · rename_i grown grows
              have inserted := building.insert searched (four value List.mem_cons_self)
                budgeted grows
              have step := ih later inserted built
              exact step
          · cases measured
        · cases counted

theorem Dictionary.build_valid {plain : List UInt8} {physical : PhysicalType}
    {maxEntries budget : Nat} {values : List (List UInt8)}
    (parsed : Plain.values plain physical = .ok values)
    (built : Dictionary.build plain physical maxEntries budget = .ok (some dictionary)) :
    dictionary.Valid values ∧ dictionary.physical = physical := by
  obtain ⟨-, entries⟩ := Plain.values_spec parsed
  have counted : plainCount plain physical = .ok values.length := by
    rw [plainCount, parsed]
    rfl
  rw [Dictionary.build, counted] at built
  change (Plain.values plain physical >>= fun _ => _) = _ at built
  rw [parsed] at built
  have empty : Building ⟨physical, [], [], []⟩ ⟨0, 0, 0⟩ (min budget maxBytes) [] := by
    constructor
    · intro ordinal member
      cases member
    · exact List.Pairwise.nil
    · intro value member
      cases member
    · intro range member
      cases member
    · exact Nat.le_refl 0
    · rfl
    · exact Nat.le_refl 0
    · exact Nat.le_refl 0
    · exact Nat.le_refl 0
    · exact Or.inl rfl
  apply buildLoop_valid (Nat.min_le_right _ _) values _ empty built
  intro value member
  exact (four_le_minimumBytes physical).trans (entries value member).minimum_le

theorem Dictionary.fromPage_valid {body : List UInt8} {count : Nat} {physical : PhysicalType}
    {values : List (List UInt8)} (parsed : Plain.values body physical = .ok values)
    (read : Dictionary.fromPage body count physical = .ok dictionary) :
    dictionary.Valid values ∧ dictionary.physical = physical := by
  obtain ⟨-, entries⟩ := Plain.values_spec parsed
  have counted : plainCount body physical = .ok values.length := by
    rw [plainCount, parsed]
    rfl
  rw [Dictionary.fromPage, counted] at read
  change (if values.length ≠ count then _ else _) = _ at read
  split at read
  · cases read
  · rename_i same
    have count_eq : values.length = count := not_not.mp same
    dsimp only at read
    split at read
    · cases read
    · rename_i owned
      obtain ⟨-, -, read⟩ := bind_ok read
      obtain ⟨-, -, read⟩ := bind_ok read
      obtain ⟨-, -, read⟩ := bind_ok read
      obtain ⟨steps, stepped, read⟩ := bind_ok read
      rw [Plain.values, stepped] at parsed
      have parsed : steps.map Prod.fst = values := Except.ok.inj parsed
      have spec := Plain.steps_spec stepped
      have maximum : maxBytes < 2 ^ 31 := by decide
      rw [dictionaryControlBytes] at owned
      obtain ⟨ranges, ranges_eq⟩ : ∃ ranges, (steps.map fun (value, pos) =>
        ((pos - value.length) % 2 ^ 32, pos % 2 ^ 32)) = ranges := ⟨_, rfl⟩
      obtain ⟨at_ordinal, at_ordinal_eq⟩ : ∃ at_ordinal : Nat → List UInt8, ∀ ordinal,
        dictionaryValue body (ranges.getD ordinal (0, 0)) = at_ordinal ordinal :=
          ⟨_, fun _ => rfl⟩
      rw [ranges_eq] at read
      simp only [at_ordinal_eq] at read
      cases read
      have stepCount : steps.length = count := by rw [← count_eq, ← parsed, List.length_map]
      have rangeCount : ranges.length = count := by rw [← ranges_eq, List.length_map, stepCount]
      have small : count % 2 ^ 32 = count := Nat.mod_eq_of_lt (by omega)
      have members : ∀ ordinal, ordinal ∈ (List.range (count % 2 ^ 32)).mergeSort (fun a b =>
          (compare (at_ordinal a) (at_ordinal b)).isLE) ↔ ordinal < count := by
        intro ordinal
        rw [List.mem_mergeSort, small, List.mem_range]
      have entryAt : ∀ order ordinal,
          (Dictionary.mk physical body ranges order).entryAt ordinal = at_ordinal ordinal := by
        intro order ordinal
        exact at_ordinal_eq ordinal
      constructor
      · constructor
        · intro ordinal member
          rw [rangeCount]
          exact (members ordinal).mp member
        · simp only [entryAt]
          apply List.pairwise_mergeSort
          · intro a b c
            exact Std.TransCmp.isLE_trans
          · intro a b
            rw [Bool.or_eq_true]
            rcases total : compare (at_ordinal a) (at_ordinal b) with _ | _ | _
            · exact Or.inl rfl
            · exact Or.inl rfl
            · right
              rw [Std.OrientedCmp.lt_of_gt total]
              rfl
        · intro value member
          rw [← parsed] at member
          obtain ⟨step, step_mem, step_value⟩ := List.mem_map.mp member
          obtain ⟨ordinal, bound, at_step⟩ := List.getElem_of_mem step_mem
          refine ⟨ordinal, (members ordinal).mpr (by omega), ?_⟩
          obtain ⟨short, inside, slice⟩ := spec.slices step step_mem
          have range : ranges.getD ordinal (0, 0) = (step.2 - step.1.length, step.2) := by
            rw [List.getD_eq_getElem _ _ (by omega)]
            simp only [← ranges_eq, List.getElem_map, at_step]
            rw [Nat.mod_eq_of_lt (by omega), Nat.mod_eq_of_lt (by omega)]
          rw [entryAt, ← at_ordinal_eq, range, dictionaryValue, ← slice, step_value]
        · have many := minimumBytes_mul_le entries
          have four := four_le_minimumBytes physical
          have whole := (Plain.values_spec (show Plain.values body physical = .ok values by
            rw [Plain.values, stepped, ← parsed]
            rfl)).1
          rw [← whole] at many
          have least : 4 * values.length ≤ minimumBytes physical * values.length :=
            Nat.mul_le_mul_right _ four
          dsimp only
          rw [rangeCount]
          omega
      · rfl

end Purrdf.Parquet
