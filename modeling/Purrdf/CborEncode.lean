import Purrdf.CborValue

/-!
# The CBOR encoders

The encoder keeps a list of jobs and writes one head or one scalar for each. As
it writes a map canonically it sorts the entries by their keys' bytes, and the
bytes of a key that is a container are put together bottom-up by a second
machine, whose stacks hold the items still to be entered or left and the
encodings that are complete. Both write the encoding of the sorted item. A stack
is a list whose first element is on top.
-/

namespace Purrdf.Cbor

/-- One unit of the encoder's work. -/
inductive Job where
  | value (value : Value)
  | array (items : List Value)
  | map (entries : List (Value × Value))
  | encoded (bytes : List UInt8)

/-- An item to be entered, or left once the items inside it are encoded. -/
inductive Step where
  | enter (value : Value)
  | exit (value : Value)

/-! ### The bottom-up machine -/

def entryPairs : List (List UInt8) → List (List UInt8 × List UInt8)
  | key :: value :: rest => (key, value) :: entryPairs rest
  | _ => []

def sortByKey {α : Type} (keyed : List (List UInt8 × α)) : List (List UInt8 × α) :=
  keyed.insertionSort fun a b => a.1 ≤ b.1

/-- One turn of `canonical_bottom_up`. -/
def bottomUpStep (step : Step) (steps : List Step) (done : List (List UInt8)) :
    Option (List Step × List (List UInt8)) :=
  match step with
  | .enter value =>
    match writeScalar value, value with
    | some bytes, _ => some (steps, bytes :: done)
    | none, .tag _ item => some (.enter item :: .exit value :: steps, done)
    | none, .array items => some (items.map .enter ++ .exit value :: steps, done)
    | none, .map entries =>
      some ((entries.flatMap fun entry => [.enter entry.1, .enter entry.2]) ++
        .exit value :: steps, done)
    | none, _ => none
  | .exit value =>
    match value with
    | .tag number _ =>
      match done with
      | item :: done => some (steps, (CborHead.encode CborHead.TAG number ++ item) :: done)
      | [] => none
    | .array items =>
      let children := (done.take items.length).reverse
      let bytes := CborHead.encode CborHead.ARRAY (UInt64.ofNat items.length) ++
        children.flatten
      if items.length ≤ done.length then some (steps, bytes :: done.drop items.length)
      else none
    | .map entries =>
      let children := (done.take (2 * entries.length)).reverse
      let bytes := CborHead.encode CborHead.MAP (UInt64.ofNat entries.length) ++
        (sortByKey (entryPairs children)).flatMap fun pair => pair.1 ++ pair.2
      if 2 * entries.length ≤ done.length then
        some (steps, bytes :: done.drop (2 * entries.length))
      else none
    | _ => none

def bottomUp : Nat → List Step → List (List UInt8) → Option (List UInt8)
  | _, [], done => done.head?
  | 0, _ :: _, _ => none
  | fuel + 1, step :: steps, done =>
    match bottomUpStep step steps done with
    | some (steps, done) => bottomUp fuel steps done
    | none => none

mutual

/-- The turns the bottom-up machine takes for an item. -/
def Value.cost : Value → Nat
  | .tag _ item => item.cost + 2
  | .array items => itemsCost items + 2
  | .map entries => entriesCost entries + 2
  | _ => 1

def itemsCost : List Value → Nat
  | [] => 0
  | item :: items => item.cost + itemsCost items

def entriesCost : List (Value × Value) → Nat
  | [] => 0
  | (key, value) :: entries => key.cost + value.cost + entriesCost entries

end

/-- The root's encoding, each container assembled from its finished items. -/
def canonicalBottomUp (root : Value) : Option (List UInt8) :=
  bottomUp root.cost [.enter root] []

/-! ### The streaming machine -/

def canonicalKey (key : Value) : Option (List UInt8) :=
  match writeScalar key with
  | some bytes => some bytes
  | none => canonicalBottomUp key

def keyedEntries : List (Value × Value) → Option (List (List UInt8 × Value))
  | [] => some []
  | (key, value) :: entries =>
    match canonicalKey key, keyedEntries entries with
    | some bytes, some keyed => some ((bytes, value) :: keyed)
    | _, _ => none

def sortedEntries (entries : List (Value × Value)) : Option (List (List UInt8 × Value)) :=
  (keyedEntries entries).map sortByKey

/-- Write a scalar or a container's head, and leave the container's items on the
job list. -/
def writeValue (canonical : Bool) (value : Value) (jobs : List Job) :
    Option (List UInt8 × List Job) :=
  match writeScalar value, value with
  | some bytes, _ => some (bytes, jobs)
  | none, .tag number item =>
    some (CborHead.encode CborHead.TAG number, .value item :: jobs)
  | none, .array items =>
    some (CborHead.encode CborHead.ARRAY (UInt64.ofNat items.length),
      if items.length ≠ 0 then .array items :: jobs else jobs)
  | none, .map entries =>
    let head := CborHead.encode CborHead.MAP (UInt64.ofNat entries.length)
    if canonical then
      (sortedEntries entries).map fun sorted =>
        (head, (sorted.flatMap fun entry => [.encoded entry.1, .value entry.2]) ++ jobs)
    else some (head, if entries.length ≠ 0 then .map entries :: jobs else jobs)
  | none, _ => none

def runStep (canonical : Bool) (job : Job) (jobs : List Job) :
    Option (List UInt8 × List Job) :=
  match job with
  | .encoded bytes => some (bytes, jobs)
  | .value value => writeValue canonical value jobs
  | .array [] => some ([], jobs)
  | .array (item :: items) =>
    writeValue canonical item (if items.isEmpty then jobs else .array items :: jobs)
  | .map [] => some ([], jobs)
  | .map ((key, value) :: entries) =>
    writeValue canonical key (.value value :: .map entries :: jobs)

def run (canonical : Bool) : Nat → List Job → List UInt8 → Option (List UInt8)
  | _, [], out => some out
  | 0, _ :: _, _ => none
  | fuel + 1, job :: jobs, out =>
    match runStep canonical job jobs with
    | some (bytes, jobs) => run canonical fuel jobs (out ++ bytes)
    | none => none

/-- `value` encoded as it stands. -/
def encode (value : Value) : Option (List UInt8) :=
  run false value.cost [.value value] []

/-- `value` in core deterministic encoding. -/
def canonical (value : Value) : Option (List UInt8) :=
  run true value.cost [.value value] []

/-! ### The bottom-up machine assembles the canonical encoding -/

open Value

theorem cost_scalar {value : Value} {bytes : List UInt8} (h : writeScalar value = some bytes) :
    value.cost = 1 := by
  cases value with
  | tag | array | map => cases h
  | _ => rfl

theorem cost_pos (value : Value) : 0 < value.cost := by
  cases value <;> simp [Value.cost]

theorem entryPairs_flatMap {α : Type} (key value : α → List UInt8) (entries : List α) :
    entryPairs (entries.flatMap fun entry => [key entry, value entry]) =
      entries.map fun entry => (key entry, value entry) := by
  induction entries with
  | nil => rfl
  | cons entry entries ih => simp [entryPairs, ih]

theorem length_entryFlatMap {α β : Type} (key value : α → β) (entries : List α) :
    (entries.flatMap fun entry => [key entry, value entry]).length = 2 * entries.length := by
  induction entries with
  | nil => rfl
  | cons entry entries ih =>
    rw [List.flatMap_cons, List.length_append, ih, List.length_cons]
    simp [Nat.mul_add, Nat.add_comm]

def inKeyOrder (entries : List (Value × Value)) : List (Value × Value) :=
  entries.insertionSort fun a b => a.1.sorted.encoding ≤ b.1.sorted.encoding

theorem sortByKey_map {α : Type} (keep : Value × Value → α) (entries : List (Value × Value)) :
    sortByKey (entries.map fun entry => (entry.1.sorted.encoding, keep entry)) =
      (inKeyOrder entries).map fun entry => (entry.1.sorted.encoding, keep entry) := by
  apply Eq.symm
  apply List.map_insertionSort
  intro _ _ _ _
  exact Iff.rfl

theorem sortEntries_map (entries : List (Value × Value)) :
    sortEntries (entries.map entrySorted) = (inKeyOrder entries).map entrySorted := by
  apply Eq.symm
  apply List.map_insertionSort
  intro _ _ _ _
  exact Iff.rfl

theorem encoding_sorted_map (entries : List (Value × Value)) :
    (Value.map entries).sorted.encoding =
      CborHead.encode CborHead.MAP (UInt64.ofNat entries.length) ++
        (inKeyOrder entries).flatMap fun entry =>
          entry.1.sorted.encoding ++ entry.2.sorted.encoding := by
  rw [sorted_map, encoding_map, (perm_sortEntries _).length_eq, List.length_map, sortEntries_map,
    List.flatMap_map]
  rfl

theorem bottomUp_items {items : List Value}
    (ih : ∀ item ∈ items, ∀ fuel steps done, bottomUp (item.cost + fuel) (.enter item :: steps) done =
      bottomUp fuel steps (item.sorted.encoding :: done))
    (fuel : Nat) (steps : List Step) (done : List (List UInt8)) :
    bottomUp (itemsCost items + fuel) (items.map .enter ++ steps) done =
      bottomUp fuel steps ((items.map fun item => item.sorted.encoding).reverse ++ done) := by
  induction items generalizing done with
  | nil => simp [itemsCost]
  | cons item items ihlist =>
    have hhead := ih item List.mem_cons_self
    have htail := ihlist fun item hitem => ih item (List.mem_cons_of_mem _ hitem)
    rw [itemsCost, List.map_cons, List.cons_append, Nat.add_assoc, hhead, htail]
    simp

theorem bottomUp_entries {entries : List (Value × Value)}
    (ih : ∀ entry ∈ entries,
      (∀ fuel steps done, bottomUp (entry.1.cost + fuel) (.enter entry.1 :: steps) done =
        bottomUp fuel steps (entry.1.sorted.encoding :: done)) ∧
      ∀ fuel steps done, bottomUp (entry.2.cost + fuel) (.enter entry.2 :: steps) done =
        bottomUp fuel steps (entry.2.sorted.encoding :: done))
    (fuel : Nat) (steps : List Step) (done : List (List UInt8)) :
    bottomUp (entriesCost entries + fuel)
        ((entries.flatMap fun entry => [.enter entry.1, .enter entry.2]) ++ steps) done =
      bottomUp fuel steps ((entries.flatMap fun entry =>
        [entry.1.sorted.encoding, entry.2.sorted.encoding]).reverse ++ done) := by
  induction entries generalizing done with
  | nil => simp [entriesCost]
  | cons entry entries ihlist =>
    obtain ⟨hkey, hvalue⟩ := ih entry List.mem_cons_self
    have htail := ihlist fun entry hentry => ih entry (List.mem_cons_of_mem _ hentry)
    rw [entriesCost, List.flatMap_cons, List.append_assoc, List.cons_append, List.cons_append,
      List.nil_append, Nat.add_assoc, Nat.add_assoc, hkey, hvalue, htail]
    simp

/-- Entering an item leaves its canonical encoding on the stack of finished ones. -/
theorem bottomUp_enter (value : Value) (fuel : Nat) (steps : List Step)
    (done : List (List UInt8)) :
    bottomUp (value.cost + fuel) (.enter value :: steps) done =
      bottomUp fuel steps (value.sorted.encoding :: done) := by
  induction value using Value.induct generalizing fuel steps done with
  | scalar value bytes hscalar =>
    rw [cost_scalar hscalar, sorted_scalar hscalar, encoding_scalar hscalar, Nat.add_comm]
    simp [bottomUp, bottomUpStep, hscalar]
  | tag number item ih =>
    have henter : bottomUp ((Value.tag number item).cost + fuel)
        (.enter (.tag number item) :: steps) done =
        bottomUp (item.cost + (fuel + 1)) (.enter item :: .exit (.tag number item) :: steps)
          done := by
      rw [show (Value.tag number item).cost + fuel = item.cost + (fuel + 1) + 1 by
        simp only [Value.cost]; omega]
      rfl
    rw [henter, ih]
    rfl
  | array items ih =>
    have henter : bottomUp ((Value.array items).cost + fuel) (.enter (.array items) :: steps) done =
        bottomUp (itemsCost items + (fuel + 1))
          (items.map .enter ++ .exit (.array items) :: steps) done := by
      rw [show (Value.array items).cost + fuel = itemsCost items + (fuel + 1) + 1 by
        simp only [Value.cost]; omega]
      rfl
    rw [henter, bottomUp_items ih]
    simp [bottomUp, bottomUpStep, List.flatMap]
    rfl
  | map entries ih =>
    have henter : bottomUp ((Value.map entries).cost + fuel) (.enter (.map entries) :: steps) done =
        bottomUp (entriesCost entries + (fuel + 1))
          ((entries.flatMap fun entry => [.enter entry.1, .enter entry.2]) ++
            .exit (.map entries) :: steps) done := by
      rw [show (Value.map entries).cost + fuel = entriesCost entries + (fuel + 1) + 1 by
        simp only [Value.cost]; omega]
      rfl
    have hlength := length_entryFlatMap (fun entry : Value × Value => entry.1.sorted.encoding)
      (fun entry => entry.2.sorted.encoding) entries
    rw [henter, bottomUp_entries ih, encoding_sorted_map]
    simp only [bottomUp, bottomUpStep, ← hlength, List.length_append, List.length_reverse,
      Nat.le_add_right, if_true]
    rw [List.take_left' List.length_reverse, List.drop_left' List.length_reverse,
      List.reverse_reverse, entryPairs_flatMap, sortByKey_map, List.flatMap_map]

theorem canonicalBottomUp_eq (value : Value) :
    canonicalBottomUp value = some value.sorted.encoding := by
  have h := bottomUp_enter value 0 [] []
  rw [Nat.add_zero] at h
  exact h

theorem canonicalKey_eq (key : Value) : canonicalKey key = some key.sorted.encoding := by
  unfold canonicalKey
  split
  · next bytes hscalar => rw [sorted_scalar hscalar, encoding_scalar hscalar]
  · exact canonicalBottomUp_eq key

/-! ### The streaming machine writes the same bytes -/

def Value.written (canonical : Bool) (value : Value) : List UInt8 :=
  if canonical then value.sorted.encoding else value.encoding

def Job.written (canonical : Bool) : Job → List UInt8
  | .value item => item.written canonical
  | .array items => items.flatMap (Value.written canonical)
  | .map entries =>
    entries.flatMap fun entry => entry.1.written canonical ++ entry.2.written canonical
  | .encoded done => done

def Job.cost : Job → Nat
  | .value item => item.cost
  | .array items => itemsCost items + 1
  | .map entries => entriesCost entries + 1
  | .encoded _ => 1

theorem keyedEntries_eq (entries : List (Value × Value)) :
    keyedEntries entries = some (entries.map fun entry => (entry.1.sorted.encoding, entry.2)) := by
  induction entries with
  | nil => rfl
  | cons entry entries ih => simp [keyedEntries, canonicalKey_eq, ih]

theorem sortedEntries_eq (entries : List (Value × Value)) :
    sortedEntries entries =
      some ((inKeyOrder entries).map fun entry => (entry.1.sorted.encoding, entry.2)) := by
  rw [sortedEntries, keyedEntries_eq, Option.map_some, sortByKey_map fun entry => entry.2]

theorem entriesCost_eq (entries : List (Value × Value)) :
    entriesCost entries = (entries.map fun entry => entry.1.cost + entry.2.cost).sum := by
  induction entries with
  | nil => rfl
  | cons entry entries ih => simp [entriesCost, ih]

theorem written_scalar {value : Value} {bytes : List UInt8}
    (h : writeScalar value = some bytes) (canonical : Bool) :
    value.written canonical = bytes := by
  cases canonical
  · exact encoding_scalar h
  · rw [← encoding_scalar h]
    exact congrArg encoding (sorted_scalar h)

/-- Some bytes and the jobs after them write an item, in fewer turns than the item takes. -/
structure Writes (canonical : Bool) (value : Value) (bytes : List UInt8) (jobs : List Job) :
    Prop where
  written : bytes ++ jobs.flatMap (Job.written canonical) = value.written canonical
  cost : (jobs.map Job.cost).sum < value.cost

theorem cost_keyed_le (entries : List (Value × Value)) :
    (((inKeyOrder entries).flatMap fun entry =>
      [Job.encoded entry.1.sorted.encoding, Job.value entry.2]).map Job.cost).sum ≤
      entriesCost entries := by
  have hperm : List.Perm (inKeyOrder entries) entries := List.perm_insertionSort _ _
  have hsum := (hperm.map fun entry => entry.1.cost + entry.2.cost).sum_nat
  rw [entriesCost_eq, ← hsum]
  generalize inKeyOrder entries = ordered
  induction ordered with
  | nil => simp
  | cons entry ordered ih =>
    have hpos := cost_pos entry.1
    simp only [List.flatMap_cons, List.map_append, List.map_cons, List.map_nil, List.sum_append,
      List.sum_cons, List.sum_nil, Job.cost]
    omega

theorem writeValue_spec (canonical : Bool) (value : Value) (jobs : List Job) :
    ∃ bytes added, writeValue canonical value jobs = some (bytes, added ++ jobs) ∧
      Writes canonical value bytes added := by
  cases hscalar : writeScalar value with
  | some bytes =>
    refine ⟨bytes, [], by simp [writeValue, hscalar], ?_, ?_⟩
    · simp [written_scalar hscalar]
    · simp [cost_pos]
  | none =>
  cases value with
  | integer | bytes | float | text | null | simple => cases hscalar
  | bool value => cases value <;> cases hscalar
  | tag number item =>
    refine ⟨CborHead.encode CborHead.TAG number, [.value item], rfl, ?_, ?_⟩
    · cases canonical <;> simp [Job.written, Value.written]
    · simp [Job.cost, Value.cost]
  | array items =>
    cases items with
    | nil =>
      refine ⟨CborHead.encode CborHead.ARRAY 0, [], rfl, ?_, ?_⟩
      · cases canonical <;> simp [Value.written]
      · simp [Value.cost]
    | cons item items =>
      refine ⟨CborHead.encode CborHead.ARRAY (UInt64.ofNat (item :: items).length),
        [.array (item :: items)], rfl, ?_, ?_⟩
      · cases canonical <;>
          simp [Job.written, Value.written, List.flatMap_map] <;> rfl
      · simp [Job.cost, Value.cost]
  | map entries =>
    cases canonical with
    | true =>
      refine ⟨CborHead.encode CborHead.MAP (UInt64.ofNat entries.length),
        (inKeyOrder entries).flatMap fun entry =>
          [.encoded entry.1.sorted.encoding, .value entry.2], ?_, ?_, ?_⟩
      · simp [writeValue, writeScalar, sortedEntries_eq, List.flatMap_map]
      · rw [Value.written, if_pos rfl, encoding_sorted_map, List.flatMap_assoc]
        simp [Job.written, Value.written]
      · exact Nat.lt_succ_of_lt (Nat.lt_succ_of_le (cost_keyed_le entries))
    | false =>
      cases entries with
      | nil =>
        refine ⟨CborHead.encode CborHead.MAP 0, [], rfl, ?_, ?_⟩
        · simp [Value.written]
        · simp [Value.cost]
      | cons entry entries =>
        refine ⟨CborHead.encode CborHead.MAP (UInt64.ofNat (entry :: entries).length),
          [.map (entry :: entries)], rfl, ?_, ?_⟩
        · simp [Job.written, Value.written, entryEncoding]
          rfl
        · simp [Job.cost, Value.cost]

theorem runStep_spec (canonical : Bool) (job : Job) (jobs : List Job) :
    ∃ bytes added, runStep canonical job jobs = some (bytes, added ++ jobs) ∧
      bytes ++ added.flatMap (Job.written canonical) = job.written canonical ∧
      (added.map Job.cost).sum < job.cost := by
  cases job with
  | encoded bytes => exact ⟨bytes, [], rfl, by simp [Job.written], by simp [Job.cost]⟩
  | value value =>
    obtain ⟨bytes, added, hstep, hwrites⟩ := writeValue_spec canonical value jobs
    exact ⟨bytes, added, hstep, hwrites.written, hwrites.cost⟩
  | array items =>
    cases items with
    | nil => exact ⟨[], [], rfl, by simp [Job.written], by simp [Job.cost, itemsCost]⟩
    | cons item items =>
      obtain ⟨bytes, added, hstep, hwrites⟩ := writeValue_spec canonical item
        (if items.isEmpty then jobs else .array items :: jobs)
      refine ⟨bytes, added ++ if items.isEmpty then [] else [.array items], ?_, ?_, ?_⟩
      · cases items <;> simpa [runStep] using hstep
      · rw [List.flatMap_append, ← List.append_assoc, hwrites.written]
        cases items <;> simp [Job.written]
      · have hcost := hwrites.cost
        cases items <;> simp [Job.cost, itemsCost] at hcost ⊢ <;> omega
  | map entries =>
    cases entries with
    | nil => exact ⟨[], [], rfl, by simp [Job.written], by simp [Job.cost, entriesCost]⟩
    | cons entry entries =>
      obtain ⟨bytes, added, hstep, hwrites⟩ := writeValue_spec canonical entry.1
        (.value entry.2 :: .map entries :: jobs)
      refine ⟨bytes, added ++ [.value entry.2, .map entries], ?_, ?_, ?_⟩
      · simpa [runStep] using hstep
      · rw [List.flatMap_append, ← List.append_assoc, hwrites.written]
        simp [Job.written]
      · have hcost := hwrites.cost
        simp [Job.cost, entriesCost] at hcost ⊢
        omega

theorem run_eq (canonical : Bool) (fuel : Nat) (jobs : List Job) (out : List UInt8)
    (h : (jobs.map Job.cost).sum ≤ fuel) :
    run canonical fuel jobs out = some (out ++ jobs.flatMap (Job.written canonical)) := by
  induction fuel generalizing jobs out with
  | zero =>
    cases jobs with
    | nil => simp [run]
    | cons job jobs =>
      obtain ⟨_, _, _, _, hcost⟩ := runStep_spec canonical job jobs
      rw [List.map_cons, List.sum_cons] at h
      omega
  | succ fuel ih =>
    cases jobs with
    | nil => simp [run]
    | cons job jobs =>
      obtain ⟨bytes, added, hstep, hwritten, hcost⟩ := runStep_spec canonical job jobs
      rw [List.map_cons, List.sum_cons] at h
      rw [run, hstep]
      dsimp only
      rw [ih (added ++ jobs) (out ++ bytes) (by simp; omega), List.flatMap_cons, ← hwritten]
      simp

theorem encode_eq (value : Value) : encode value = some value.encoding := by
  have h := run_eq false value.cost [.value value] [] (by simp [Job.cost])
  simpa [encode, Job.written, Value.written] using h

theorem canonical_eq (value : Value) : canonical value = some value.sorted.encoding := by
  have h := run_eq true value.cost [.value value] [] (by simp [Job.cost])
  simpa [canonical, Job.written, Value.written] using h

end Purrdf.Cbor
