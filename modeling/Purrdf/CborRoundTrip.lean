import Purrdf.CborEncode
import Purrdf.CborScalars

/-!
# CBOR round trips

Reading the encoding of an item, whatever is open around it and whatever follows
it, ends with the item attached where it stands; in deterministic mode it does so
exactly when the keys of every map inside it ascend.
-/

namespace Purrdf.Cbor

open Value
open ByteCursor (Took)
open CborHead (ARRAY MAP TAG)

variable {source : Slice} {limits : Limits} {deterministic : Bool} {stack : List Open}

/-! ### Reading a value inside what is open -/

/-- Go on once an item that starts at `start` and ends before `next` is attached. -/
def attachFrom (limits : Limits) (deterministic : Bool) (stack : List Open) (next : Slice)
    (item : Value) (start : Nat) : Except DecodeError (Value × Slice) :=
  match attachTo next deterministic stack item start with
  | .error refusal => .error refusal
  | .ok (some value, _) => .ok (value, next)
  | .ok (none, stack) => decodeFrom limits deterministic stack next

theorem decodeFrom_item {below : List Open} {next : Slice} {item : Value} {start : Nat}
    (h : readItem limits deterministic stack source = .ok (.item item start below next)) :
    decodeFrom limits deterministic stack source =
      attachFrom limits deterministic below next item start := by
  rw [decodeFrom_eq, turn, h, attachFrom]
  dsimp only
  cases attachTo next deterministic below item start with
  | error refusal => rfl
  | ok result =>
    obtain ⟨done, stack'⟩ := result
    cases done <;> rfl

theorem decodeFrom_opened {opened : List Open} {next : Slice}
    (h : readItem limits deterministic stack source = .ok (.opened opened next)) :
    decodeFrom limits deterministic stack source =
      decodeFrom limits deterministic opened next := by
  rw [decodeFrom_eq, turn, h]

theorem attachFrom_tag (start at' : Nat) (number : UInt64) (next : Slice) (item : Value) :
    attachFrom limits deterministic (.tag at' number :: stack) next item start =
      attachFrom limits deterministic stack next (.tag number item) at' := rfl

theorem remaining_pred {count : Nat} (h : count + 1 < 2 ^ 64) :
    (some (UInt64.ofNat (count + 1))).map (· - 1) = some (UInt64.ofNat count) ∧
      (some (UInt64.ofNat count) = some 0 ↔ count = 0) := by
  refine ⟨?_, ?_⟩
  · rw [Option.map_some, UInt64.ofNat_add]
    exact congrArg some (UInt64.add_sub_cancel _ _)
  · rw [Option.some.injEq, ← UInt64.toNat_inj,
      UInt64.toNat_ofNat_of_lt' (Nat.lt_of_succ_lt h)]
    rfl

theorem attachFrom_array {more : List Value} (hmore : more.length + 1 < 2 ^ 64) (start at' : Nat)
    (items : List Value) (next : Slice) (item : Value) :
    attachFrom limits deterministic
        (.array at' (some (UInt64.ofNat (more.length + 1))) items :: stack) next item start =
      if more = [] then
        attachFrom limits deterministic stack next (.array (items ++ [item])) at'
      else decodeFrom limits deterministic
        (.array at' (some (UInt64.ofNat more.length)) (items ++ [item]) :: stack) next := by
  obtain ⟨hpred, hzero⟩ := remaining_pred hmore
  unfold attachFrom
  rw [attachTo, hpred]
  by_cases hnil : more = []
  · rw [if_pos hnil, if_pos (hzero.mpr (by simp [hnil]))]
  · rw [if_neg hnil, if_neg (fun h => hnil (List.eq_nil_of_length_eq_zero (hzero.mp h)))]

theorem attachFrom_value {more : List (Value × Value)} (hmore : more.length + 1 < 2 ^ 64)
    (start at' : Nat) (entries : List (Value × Value)) (key : Value)
    (lastKey : Option (Nat × Nat)) (next : Slice) (item : Value) :
    attachFrom limits deterministic
        (.map at' (some (UInt64.ofNat (more.length + 1))) entries (some key) lastKey :: stack)
        next item start =
      if more = [] then
        attachFrom limits deterministic stack next (.map (entries ++ [(key, item)])) at'
      else decodeFrom limits deterministic
        (.map at' (some (UInt64.ofNat more.length)) (entries ++ [(key, item)]) none lastKey ::
          stack) next := by
  obtain ⟨hpred, hzero⟩ := remaining_pred hmore
  unfold attachFrom
  rw [attachTo, hpred]
  by_cases hnil : more = []
  · rw [if_pos hnil, if_pos (hzero.mpr (by simp [hnil]))]
  · rw [if_neg hnil, if_neg (fun h => hnil (List.eq_nil_of_length_eq_zero (hzero.mp h)))]

theorem inside_took {taken : List UInt8} {next : Slice} (h : Took source taken next)
    (hinside : source.pos ≤ source.bytes.length) : next.pos ≤ next.bytes.length := by
  have hlength := h.length_rest
  rw [h.pos_eq, h.bytes_eq]
  simp only [ByteCursor.rest, List.length_drop] at hlength
  omega

/-- The value is read wherever it stands, or refused when its keys have to ascend
and do not. -/
def ReadsBack (limits : Limits) (deterministic : Bool) (value : Value) : Prop :=
  ∀ stack source after, source.pos ≤ source.bytes.length →
    source.rest = value.encoding ++ after → stack.length + value.depth ≤ limits.maxDepth →
    ((deterministic = true → value.Ordered) →
      ∃ next, Took source value.encoding next ∧ next.rest = after ∧
        decodeFrom limits deterministic stack source =
          attachFrom limits deterministic stack next value source.pos) ∧
    (¬ (deterministic = true → value.Ordered) →
      ∃ refusal, decodeFrom limits deterministic stack source = .error refusal)

theorem readsBack_items (done : List Value) (start : Nat) {items : List Value}
    (ih : ∀ item ∈ items, ReadsBack limits deterministic item) (hne : items ≠ [])
    (hlength : items.length < 2 ^ 64)
    (hdepth : ∀ item ∈ items, stack.length + 1 + item.depth ≤ limits.maxDepth)
    {after : List UInt8}
    (hinside : source.pos ≤ source.bytes.length)
    (hrest : source.rest = items.flatMap encoding ++ after) :
    ((deterministic = true → ∀ item ∈ items, item.Ordered) →
      ∃ next, Took source (items.flatMap encoding) next ∧ next.rest = after ∧
        decodeFrom limits deterministic
            (.array start (some (UInt64.ofNat items.length)) done :: stack) source =
          attachFrom limits deterministic stack next (.array (done ++ items)) start) ∧
    (¬ (deterministic = true → ∀ item ∈ items, item.Ordered) →
      ∃ refusal, decodeFrom limits deterministic
        (.array start (some (UInt64.ofNat items.length)) done :: stack) source =
          .error refusal) := by
  induction items generalizing done source with
  | nil => exact absurd rfl hne
  | cons item items ihlist =>
    rw [List.flatMap_cons, List.append_assoc] at hrest
    obtain ⟨hreads, hrefuses⟩ := ih item List.mem_cons_self
      (.array start (some (UInt64.ofNat (item :: items).length)) done :: stack) source _ hinside
      hrest (hdepth item List.mem_cons_self)
    by_cases hitem : deterministic = true → item.Ordered
    · obtain ⟨middle, htook, hmiddle, hread⟩ := hreads hitem
      rw [List.length_cons, attachFrom_array hlength] at hread
      rw [List.length_cons, hread]
      have hiff : (deterministic = true → ∀ item' ∈ item :: items, item'.Ordered) ↔
          (deterministic = true → ∀ item' ∈ items, item'.Ordered) := by
        constructor
        · intro h hdet item' hitem'
          exact h hdet item' (List.mem_cons_of_mem _ hitem')
        · intro h hdet
          exact List.forall_mem_cons.mpr ⟨hitem hdet, h hdet⟩
      rw [hiff, List.flatMap_cons]
      by_cases hnil : items = []
      · subst hnil
        rw [if_pos rfl]
        refine ⟨fun _ => ⟨middle, ?_, hmiddle, rfl⟩, fun h => absurd (by simp) h⟩
        simpa using htook
      · rw [if_neg hnil]
        obtain ⟨hreads', hrefuses'⟩ := ihlist (done ++ [item])
          (fun item' h => ih item' (List.mem_cons_of_mem _ h))
          hnil (Nat.lt_of_succ_lt hlength) (fun item' h => hdepth item' (List.mem_cons_of_mem _ h))
          (inside_took htook hinside) hmiddle
        refine ⟨fun h => ?_, hrefuses'⟩
        obtain ⟨next, htook', hafter, hloop⟩ := hreads' h
        refine ⟨next, htook.trans htook', hafter, ?_⟩
        rw [hloop, List.append_assoc]
        rfl
    · refine ⟨fun h => absurd (fun hdet => h hdet item List.mem_cons_self) hitem, fun _ => ?_⟩
      exact hrefuses hitem

variable {entries : List (Value × Value)} {last : Option (List UInt8)}

theorem rel_append {consumed : List UInt8} {lastKey : Option (Nat × Nat)}
    (h : Option.Rel (SpanOf consumed) lastKey last) (more : List UInt8) :
    Option.Rel (SpanOf (consumed ++ more)) lastKey last := by
  cases h with
  | none => exact .none
  | some hof => exact .some (hof.append more)

theorem attachFrom_key {remaining : Option UInt64} {lastKey : Option (Nat × Nat)} {next : Slice}
    {key : Value} {start at' : Nat}
    (hlast : deterministic = true → Option.Rel (SpanOf next.consumed) lastKey last)
    (hspan : SpanOf next.consumed (start, next.pos) key.encoding) :
    ((deterministic = true → ∀ bytes ∈ last, bytes < key.encoding) →
      ∃ lastKey', (deterministic = true →
          Option.Rel (SpanOf next.consumed) lastKey' (some key.encoding)) ∧
        attachFrom limits deterministic (.map at' remaining entries none lastKey :: stack) next
            key start =
          decodeFrom limits deterministic
            (.map at' remaining entries (some key) lastKey' :: stack) next) ∧
    (¬ (deterministic = true → ∀ bytes ∈ last, bytes < key.encoding) →
      ∃ refusal, attachFrom limits deterministic
        (.map at' remaining entries none lastKey :: stack) next key start = .error refusal) := by
  cases deterministic with
  | false =>
    refine ⟨fun _ => ⟨lastKey, (by intro hdet; cases hdet), ?_⟩, fun h => ?_⟩
    · rw [attachFrom, attachTo, if_neg (by decide)]
    · exact absurd (fun hdet => by cases hdet) h
  | true =>
    have hrefused : (∃ span ∈ lastKey, next.span (start, next.pos) ≤ next.span span) ↔
        ¬ ∀ bytes ∈ last, bytes < key.encoding := by
      cases hlast rfl with
      | none => simp
      | @some span bytes hof =>
        simp only [Option.mem_some_iff, exists_eq_left', forall_eq', Slice.span, hof.2,
          hspan.2]
        exact Std.not_lt.symm
    unfold attachFrom
    rw [attachTo, if_pos rfl]
    by_cases hascends : ∀ bytes ∈ last, bytes < key.encoding
    · rw [if_neg (fun h => hrefused.mp h hascends)]
      exact ⟨fun _ => ⟨_, fun _ => .some hspan, rfl⟩, fun h => absurd (fun _ => hascends) h⟩
    · rw [if_pos (hrefused.mpr hascends)]
      exact ⟨fun h => absurd (h rfl) hascends, fun _ => ⟨_, rfl⟩⟩

/-- The keys come one after the other, the first after `last`, and what the
entries hold is in order. -/
def EntriesAscend (last : Option (List UInt8)) (entries : List (Value × Value)) : Prop :=
  (last.toList ++ entries.map fun entry => entry.1.encoding).IsChain (· < ·) ∧
    ∀ entry ∈ entries, entry.1.Ordered ∧ entry.2.Ordered

theorem entriesAscend_cons {key value : Value} :
    EntriesAscend last ((key, value) :: entries) ↔
      (∀ bytes ∈ last, bytes < key.encoding) ∧ key.Ordered ∧ value.Ordered ∧
        EntriesAscend (some key.encoding) entries := by
  unfold EntriesAscend
  rw [List.forall_mem_cons]
  cases last with
  | none => simp; grind
  | some bytes => simp; grind

theorem readsBack_entries (done : List (Value × Value)) (start : Nat)
    (ih : ∀ entry ∈ entries, ReadsBack limits deterministic entry.1 ∧
      ReadsBack limits deterministic entry.2) (hne : entries ≠ [])
    (hlength : entries.length < 2 ^ 64)
    (hdepth : ∀ entry ∈ entries, stack.length + 1 + entry.1.depth ≤ limits.maxDepth ∧
      stack.length + 1 + entry.2.depth ≤ limits.maxDepth) {after : List UInt8}
    {lastKey : Option (Nat × Nat)}
    (hlast : deterministic = true → Option.Rel (SpanOf source.consumed) lastKey last)
    (hinside : source.pos ≤ source.bytes.length)
    (hrest : source.rest = entries.flatMap entryEncoding ++ after) :
    ((deterministic = true → EntriesAscend last entries) →
      ∃ next, Took source (entries.flatMap entryEncoding) next ∧ next.rest = after ∧
        decodeFrom limits deterministic
            (.map start (some (UInt64.ofNat entries.length)) done none lastKey :: stack) source =
          attachFrom limits deterministic stack next (.map (done ++ entries)) start) ∧
    (¬ (deterministic = true → EntriesAscend last entries) →
      ∃ refusal, decodeFrom limits deterministic
        (.map start (some (UInt64.ofNat entries.length)) done none lastKey :: stack) source =
          .error refusal) := by
  induction entries generalizing done source lastKey last with
  | nil => exact absurd rfl hne
  | cons entry entries ihlist =>
    obtain ⟨key, value⟩ := entry
    obtain ⟨ihkey, ihvalue⟩ := ih (key, value) List.mem_cons_self
    obtain ⟨hkeydepth, hvaluedepth⟩ := hdepth (key, value) List.mem_cons_self
    rw [List.flatMap_cons, entryEncoding, List.append_assoc, List.append_assoc] at hrest
    have hparts : ∀ hdet : deterministic = true, EntriesAscend last ((key, value) :: entries) →
        (∀ bytes ∈ last, bytes < key.encoding) ∧ key.Ordered ∧ value.Ordered :=
      fun _ h => ⟨(entriesAscend_cons.mp h).1, (entriesAscend_cons.mp h).2.1,
        (entriesAscend_cons.mp h).2.2.1⟩
    -- the key, and what it is read after
    obtain ⟨hreads, hrefuses⟩ := ihkey
      (.map start (some (UInt64.ofNat ((key, value) :: entries).length)) done none lastKey ::
        stack) source _ hinside hrest hkeydepth
    by_cases hkey : deterministic = true → key.Ordered
    case neg =>
      exact ⟨fun h => absurd (fun hdet => (hparts hdet (h hdet)).2.1) hkey, fun _ => hrefuses hkey⟩
    obtain ⟨middle, htook, hmiddle, hread⟩ := hreads hkey
    have hinside' := inside_took htook hinside
    have hspan := span_last hinside' htook.consumed
    rw [show source.consumed.length = source.pos from List.length_take_of_le hinside] at hspan
    have hlast' : deterministic = true → Option.Rel (SpanOf middle.consumed) lastKey last := by
      intro hdet
      rw [htook.consumed]
      exact rel_append (hlast hdet) _
    obtain ⟨hattach, hreject⟩ := attachFrom_key hlast' hspan
    by_cases hafter : deterministic = true → ∀ bytes ∈ last, bytes < key.encoding
    case neg =>
      refine ⟨fun h => absurd (fun hdet => (hparts hdet (h hdet)).1) hafter, fun _ => ?_⟩
      rw [hread]
      exact hreject hafter
    obtain ⟨newKey, hnew, hopen⟩ := hattach hafter
    rw [hopen] at hread
    -- the value
    obtain ⟨hreads, hrefuses⟩ := ihvalue
      (.map start (some (UInt64.ofNat ((key, value) :: entries).length)) done (some key) newKey ::
        stack) middle _ hinside' hmiddle hvaluedepth
    by_cases hvalue : deterministic = true → value.Ordered
    case neg =>
      refine ⟨fun h => absurd (fun hdet => (hparts hdet (h hdet)).2.2) hvalue, fun _ => ?_⟩
      rw [hread]
      exact hrefuses hvalue
    obtain ⟨middle', htook', hmiddle', hread'⟩ := hreads hvalue
    rw [List.length_cons, attachFrom_value hlength] at hread'
    rw [hread, List.length_cons, hread', List.flatMap_cons, entryEncoding]
    have hboth := htook.trans htook'
    have hiff : (deterministic = true → EntriesAscend last ((key, value) :: entries)) ↔
        (deterministic = true → EntriesAscend (some key.encoding) entries) := by
      constructor
      · intro h hdet
        exact (entriesAscend_cons.mp (h hdet)).2.2.2
      · intro h hdet
        exact entriesAscend_cons.mpr ⟨hafter hdet, hkey hdet, hvalue hdet, h hdet⟩
    rw [hiff]
    by_cases hnil : entries = []
    · subst hnil
      rw [if_pos rfl]
      refine ⟨fun _ => ⟨middle', ?_, hmiddle', rfl⟩,
        fun h => absurd (fun _ => by simp [EntriesAscend]) h⟩
      simpa using hboth
    · rw [if_neg hnil]
      have hlast'' : deterministic = true →
          Option.Rel (SpanOf middle'.consumed) newKey (some key.encoding) := by
        intro hdet
        rw [htook'.consumed]
        exact rel_append (hnew hdet) _
      obtain ⟨hreads', hrefuses'⟩ := ihlist (done ++ [(key, value)])
        (fun entry h => ih entry (List.mem_cons_of_mem _ h))
        hnil (Nat.lt_of_succ_lt hlength)
        (fun entry h => hdepth entry (List.mem_cons_of_mem _ h)) hlast''
        (inside_took htook' hinside') hmiddle'
      refine ⟨fun h => ?_, hrefuses'⟩
      obtain ⟨next, htook'', hrest', hloop⟩ := hreads' h
      refine ⟨next, hboth.trans htook'', hrest', ?_⟩
      rw [hloop, List.append_assoc]
      rfl

/-! ### Reading a container back -/

theorem ordered_tag {number : UInt64} {item : Value} :
    (Value.tag number item).Ordered ↔ item.Ordered :=
  ⟨Everywhere.item, .tag trivial⟩

theorem ordered_array {items : List Value} :
    (Value.array items).Ordered ↔ ∀ item ∈ items, item.Ordered :=
  ⟨Everywhere.items, .array trivial⟩

theorem ordered_map :
    (Value.map entries).Ordered ↔ EntriesAscend none entries := by
  constructor
  · intro h
    exact ⟨h.here, h.entries⟩
  · intro h
    exact .map h.1 (fun entry hentry => (h.2 entry hentry).1) fun entry hentry =>
      (h.2 entry hentry).2

theorem readBody_container {initial : UInt8} {argument' : UInt64} {start : Nat}
    (hdepth : stack.length < limits.maxDepth) :
    (initial >>> 5 = TAG → readBody limits deterministic stack source initial (some argument') start =
        .ok (.opened (.tag start argument' :: stack) source)) ∧
      (initial >>> 5 = ARRAY →
        readBody limits deterministic stack source initial (some argument') start =
          if argument' = 0 then .ok (.item (.array []) start stack source)
          else .ok (.opened (.array start (some argument') [] :: stack) source)) ∧
      (initial >>> 5 = MAP →
        readBody limits deterministic stack source initial (some argument') start =
          if argument' = 0 then .ok (.item (.map []) start stack source)
          else .ok (.opened (.map start (some argument') [] none none :: stack) source)) := by
  have hroom : ¬ limits.maxDepth ≤ stack.length := Nat.not_le.mpr hdepth
  refine ⟨?_, ?_, ?_⟩
  · intro hmajor
    simp [readBody, hmajor, CborHead.TAG, hroom]
  · intro hmajor
    simp [readBody, hmajor, CborHead.ARRAY, hroom]
  · intro hmajor
    simp [readBody, hmajor, CborHead.MAP, hroom]

theorem readsBack_tag {number : UInt64} {item : Value}
    (ih : ReadsBack limits deterministic item) :
    ReadsBack limits deterministic (.tag number item) := by
  intro stack source after hinside hrest hdepth
  rw [encoding_tag, List.append_assoc] at hrest
  have hlt : TAG < 7 := by decide
  have hroom : stack.length < limits.maxDepth := by
    simp only [Value.depth] at hdepth
    omega
  obtain ⟨initial, middle, hmajor, hhead, hmiddle, hread⟩ :=
    readItem_encode limits deterministic stack hlt hrest
  rw [(readBody_container hroom).1 hmajor] at hread
  obtain ⟨hreads, hrefuses⟩ := ih (.tag source.pos number :: stack) middle after
    (inside_took hhead hinside) hmiddle
    (by simp only [Value.depth, List.length_cons] at hdepth ⊢; omega)
  rw [ordered_tag, decodeFrom_opened hread]
  refine ⟨fun h => ?_, hrefuses⟩
  obtain ⟨next, htook, hafter, hloop⟩ := hreads h
  exact ⟨next, hhead.trans htook, hafter, hloop.trans (attachFrom_tag _ _ _ _ _)⟩

theorem readsBack_array {items : List Value} (hlength : items.length < 2 ^ 64)
    (ih : ∀ item ∈ items, ReadsBack limits deterministic item) :
    ReadsBack limits deterministic (.array items) := by
  intro stack source after hinside hrest hdepth
  rw [encoding_array, List.append_assoc] at hrest
  have hlt : ARRAY < 7 := by decide
  have hroom : stack.length < limits.maxDepth := by
    simp only [Value.depth] at hdepth
    omega
  have hitems : ∀ item ∈ items, stack.length + 1 + item.depth ≤ limits.maxDepth := by
    intro item hitem
    have := itemsDepth_le.mp le_rfl item hitem
    simp only [Value.depth] at hdepth
    omega
  obtain ⟨initial, middle, hmajor, hhead, hmiddle, hread⟩ :=
    readItem_encode limits deterministic stack hlt hrest
  rw [(readBody_container hroom).2.1 hmajor] at hread
  rw [ordered_array, encoding_array]
  by_cases hnil : items = []
  · subst hnil
    refine ⟨fun _ => ⟨middle, by simpa using hhead, by simpa using hmiddle, ?_⟩,
      fun h => absurd (by simp) h⟩
    exact decodeFrom_item hread
  · have hne : UInt64.ofNat items.length ≠ 0 := by
      intro hzero
      have hnat := congrArg UInt64.toNat hzero
      rw [UInt64.toNat_ofNat_of_lt' hlength] at hnat
      exact hnil (List.eq_nil_of_length_eq_zero hnat)
    rw [if_neg hne] at hread
    obtain ⟨hreads, hrefuses⟩ := readsBack_items [] source.pos ih hnil hlength hitems
      (inside_took hhead hinside) hmiddle
    rw [decodeFrom_opened hread]
    refine ⟨fun h => ?_, hrefuses⟩
    obtain ⟨next, htook, hafter, hloop⟩ := hreads h
    exact ⟨next, hhead.trans htook, hafter, hloop⟩

theorem readsBack_map (hlength : entries.length < 2 ^ 64)
    (ih : ∀ entry ∈ entries, ReadsBack limits deterministic entry.1 ∧
      ReadsBack limits deterministic entry.2) :
    ReadsBack limits deterministic (.map entries) := by
  intro stack source after hinside hrest hdepth
  rw [encoding_map, List.append_assoc] at hrest
  have hlt : MAP < 7 := by decide
  have hroom : stack.length < limits.maxDepth := by
    simp only [Value.depth] at hdepth
    omega
  have hentries : ∀ entry ∈ entries, stack.length + 1 + entry.1.depth ≤ limits.maxDepth ∧
      stack.length + 1 + entry.2.depth ≤ limits.maxDepth := by
    intro entry hentry
    have := entriesDepth_le.mp le_rfl entry hentry
    simp only [Value.depth] at hdepth
    omega
  obtain ⟨initial, middle, hmajor, hhead, hmiddle, hread⟩ :=
    readItem_encode limits deterministic stack hlt hrest
  rw [(readBody_container hroom).2.2 hmajor] at hread
  rw [ordered_map, encoding_map]
  by_cases hnil : entries = []
  · subst hnil
    refine ⟨fun _ => ⟨middle, by simpa using hhead, by simpa using hmiddle, ?_⟩,
      fun h => absurd (fun _ => by simp [EntriesAscend]) h⟩
    exact decodeFrom_item hread
  · have hne : UInt64.ofNat entries.length ≠ 0 := by
      intro hzero
      have hnat := congrArg UInt64.toNat hzero
      rw [UInt64.toNat_ofNat_of_lt' hlength] at hnat
      exact hnil (List.eq_nil_of_length_eq_zero hnat)
    rw [if_neg hne] at hread
    have hlast : deterministic = true → Option.Rel (SpanOf middle.consumed) none none :=
      fun _ => .none
    obtain ⟨hreads, hrefuses⟩ := readsBack_entries [] source.pos ih hnil hlength hentries hlast
      (inside_took hhead hinside) hmiddle
    rw [decodeFrom_opened hread]
    refine ⟨fun h => ?_, hrefuses⟩
    obtain ⟨next, htook, hafter, hloop⟩ := hreads h
    exact ⟨next, hhead.trans htook, hafter, hloop⟩

theorem readsBack {value : Value} (h : value.Everywhere Representable) :
    ReadsBack limits deterministic value := by
  induction h with
  | scalar hscalar hrep =>
    intro stack source after hinside hrest hdepth
    rw [encoding_scalar hscalar] at hrest ⊢
    obtain ⟨next, htook, hafter, hread⟩ := readItem_scalar hscalar hrep hrest
    exact ⟨fun _ => ⟨next, htook, hafter, decodeFrom_item hread⟩,
      fun hnot => absurd (fun _ => ordered_scalar hscalar) hnot⟩
  | tag _ _ ih => exact readsBack_tag ih
  | array hrep _ ih => exact readsBack_array hrep ih
  | map hrep _ _ ihkeys ihvalues =>
    exact readsBack_map hrep fun entry hentry => ⟨ihkeys entry hentry, ihvalues entry hentry⟩

/-! ### The codec -/

theorem decodeItem_encoding (deterministic : Bool) {value : Value} (h : value.Everywhere Representable)
    (hdepth : value.depth ≤ limits.maxDepth) :
    ((deterministic = true → value.Ordered) →
      ∃ next, next.pos = value.encoding.length ∧
        decodeItem ⟨value.encoding, 0⟩ limits deterministic = .ok (value, next)) ∧
    (¬ (deterministic = true → value.Ordered) →
      ∃ refusal, decodeItem ⟨value.encoding, 0⟩ limits deterministic = .error refusal) := by
  have hback : ReadsBack limits deterministic value := readsBack h
  obtain ⟨hreads, hrefuses⟩ := hback [] ⟨value.encoding, 0⟩ [] (Nat.zero_le _)
    (List.append_nil _).symm (by simpa using hdepth)
  rw [decodeItem_eq]
  refine ⟨fun hordered => ?_, hrefuses⟩
  obtain ⟨next, htook, _, hloop⟩ := hreads hordered
  exact ⟨next, htook.pos_eq.trans (Nat.zero_add _), hloop⟩

theorem decode_encoding {value : Value} (h : value.Everywhere Representable)
    (hdepth : value.depth ≤ limits.maxDepth) : decode value.encoding limits = .ok value := by
  obtain ⟨next, hend, hread⟩ := (decodeItem_encoding false h hdepth).1 (by intro hdet; cases hdet)
  rw [decode, decodePrefix, hread]
  dsimp only
  rw [if_pos hend]

theorem decodeDeterministic_encoding {value : Value} (h : value.Everywhere Representable)
    (hdepth : value.depth ≤ limits.maxDepth) :
    (value.Ordered → decodeDeterministic value.encoding limits = .ok value) ∧
      (¬ value.Ordered → ∃ refusal, decodeDeterministic value.encoding limits = .error refusal) := by
  obtain ⟨hreads, hrefuses⟩ := decodeItem_encoding true h hdepth
  refine ⟨fun hordered => ?_, fun hnot => ?_⟩
  · obtain ⟨next, hend, hread⟩ := hreads fun _ => hordered
    rw [decodeDeterministic, hread]
    dsimp only
    rw [if_pos hend]
  · obtain ⟨refusal, hread⟩ := hrefuses fun h => hnot (h rfl)
    exact ⟨refusal, by rw [decodeDeterministic, hread]⟩

def KeysDistinct : Value → Prop
  | .map entries => (entries.map fun entry => canonical entry.1).Nodup
  | _ => True

theorem isChain_sortEntries (entries : List (Value × Value)) :
    ((sortEntries entries).map fun entry => entry.1.encoding).IsChain (· < ·) ↔
      (entries.map fun entry => entry.1.encoding).Nodup := by
  have hperm := (perm_sortEntries entries).map fun entry => entry.1.encoding
  have hle := List.pairwise_map.mpr (pairwise_sortEntries entries)
  rw [List.isChain_iff_pairwise, ← hperm.nodup_iff]
  constructor
  · intro h
    exact h.imp fun hlt => Std.ne_of_lt hlt
  · intro h
    exact (hle.and h).imp fun ⟨hle, hne⟩ => Std.lt_of_le_of_ne hle hne

theorem nodup_canonical (entries : List (Value × Value)) :
    (entries.map fun entry => canonical entry.1).Nodup ↔
      ((entries.map entrySorted).map fun entry => entry.1.encoding).Nodup := by
  have hsome : (entries.map fun entry => canonical entry.1) =
      ((entries.map entrySorted).map fun entry => entry.1.encoding).map some := by
    simp [canonical_eq, entrySorted]
  rw [hsome]
  exact List.nodup_map_iff (Option.some_injective _)

/-- Sorting leaves every map's keys ascending when none of them repeats. -/
theorem ordered_sorted (value : Value) :
    value.sorted.Ordered ↔ value.Everywhere KeysDistinct := by
  induction value using Value.induct with
  | scalar value bytes hscalar =>
    rw [sorted_scalar hscalar]
    refine iff_of_true (ordered_scalar hscalar) (.scalar hscalar ?_)
    cases value with
    | map => cases hscalar
    | _ => exact trivial
  | tag number item ih =>
    rw [sorted_tag, ordered_tag, ih]
    exact ⟨.tag trivial, Everywhere.item⟩
  | array items ih =>
    rw [sorted_array, ordered_array, List.forall_mem_map]
    constructor
    · intro h
      exact .array trivial fun item hitem => (ih item hitem).mp (h item hitem)
    · intro h item hitem
      exact (ih item hitem).mpr (h.items item hitem)
  | map entries ih =>
    have hkeys := (isChain_sortEntries (entries.map entrySorted)).trans
      (nodup_canonical entries).symm
    rw [sorted_map, ordered_map, EntriesAscend]
    constructor
    · intro ⟨hchain, hinner⟩
      have hentry : ∀ entry ∈ entries, entry.1.sorted.Ordered ∧ entry.2.sorted.Ordered :=
        fun entry h => hinner _ (mem_sortEntries.mpr (List.mem_map_of_mem h))
      exact .map (hkeys.mp hchain) (fun entry h => (ih entry h).1.mp (hentry entry h).1)
        fun entry h => (ih entry h).2.mp (hentry entry h).2
    · intro h
      refine ⟨hkeys.mpr h.here, fun entry hentry => ?_⟩
      obtain ⟨source, hsource, rfl⟩ := List.mem_map.mp (mem_sortEntries.mp hentry)
      exact ⟨(ih source hsource).1.mpr (h.entries source hsource).1,
        (ih source hsource).2.mpr (h.entries source hsource).2⟩

theorem representable_sorted {value : Value} (h : value.Everywhere Representable) :
    value.sorted.Everywhere Representable := by
  refine h.sorted (fun _ _ _ hrep => hrep) (fun _ _ _ => trivial) (fun items hrep => ?_)
    fun entries hrep => ?_
  · simpa [Representable] using hrep
  · simpa [Representable, (perm_sortEntries _).length_eq] using hrep

/-- The deterministic decoder accepts exactly what the canonical encoder writes:
an accepted input is the canonical encoding of its value, and the canonical
encoding of a value is decoded to the value in key order, or refused when a map
repeats a key. What is encoded as it stands is decoded as it stands, and both
canonical encoders agree. -/
theorem codec (limits : Limits) :
    (∀ bytes value, NoSignalingItem limits bytes →
      decodeDeterministic bytes limits = .ok value → canonical value = some bytes) ∧
    (∀ value : Value, value.Everywhere Representable → value.depth ≤ limits.maxDepth →
      ∃ bytes, canonical value = some bytes ∧
        (value.Everywhere KeysDistinct →
          decodeDeterministic bytes limits = .ok value.sorted) ∧
        (¬ value.Everywhere KeysDistinct →
          ∃ refusal, decodeDeterministic bytes limits = .error refusal)) ∧
    (∀ value : Value, value.Everywhere Representable → value.depth ≤ limits.maxDepth →
      ∃ bytes, encode value = some bytes ∧ decode bytes limits = .ok value) ∧
    ∀ value, canonical value = canonicalBottomUp value := by
  refine ⟨fun bytes value hquiet h => ?_, fun value hrep hdepth => ?_, fun value hrep hdepth => ?_,
    fun value => ?_⟩
  · obtain ⟨hbytes, hordered⟩ := decodeDeterministic_sound hquiet h
    rw [canonical_eq, sorted_of_ordered hordered, hbytes]
  · refine ⟨_, canonical_eq value, ?_⟩
    rw [← ordered_sorted]
    exact decodeDeterministic_encoding (representable_sorted hrep)
      ((depth_sorted value).trans hdepth)
  · exact ⟨_, encode_eq value, decode_encoding hrep hdepth⟩
  · rw [canonical_eq, canonicalBottomUp_eq]

/-- A map of two keys out of order, and the one-byte item of zero. -/
theorem codec_pair :
    (∃ bytes, canonical (.map [(.integer (.unsigned 2), .null), (.integer (.unsigned 1), .null)]) =
        some bytes ∧
      decodeDeterministic bytes ⟨1⟩ =
        .ok (.map [(.integer (.unsigned 1), .null), (.integer (.unsigned 2), .null)])) ∧
    canonical (.integer (.unsigned 0)) = some [0] := by
  refine ⟨?_, (codec ⟨1⟩).1 [0] (.integer (.unsigned 0)) ?_ rfl⟩
  · have hrep : ∀ value : Value, value ∈ [.integer (.unsigned 2), .null, .integer (.unsigned 1)] →
        value.Everywhere Representable ∧ value.Everywhere KeysDistinct := by
      simp only [List.mem_cons, List.not_mem_nil, or_false]
      rintro value (rfl | rfl | rfl) <;> exact ⟨.scalar rfl trivial, .scalar rfl trivial⟩
    obtain ⟨bytes, hbytes, haccept, _⟩ := (codec ⟨1⟩).2.1
      (.map [(.integer (.unsigned 2), .null), (.integer (.unsigned 1), .null)])
      (.map (by simp [Representable]) (by simp [hrep]) (by simp [hrep])) (by decide)
    refine ⟨bytes, hbytes, haccept ?_⟩
    exact .map (by simp [KeysDistinct, canonical_eq]; decide) (by simp [hrep]) (by simp [hrep])
  · intro stack source hreaches
    have honly : stack = [] ∧ source = ⟨[0], 0⟩ := by
      induction hreaches with
      | start => exact ⟨rfl, rfl⟩
      | turn _ hturn ih =>
        obtain ⟨rfl, rfl⟩ := ih
        cases hturn
    rw [honly.2]
    rintro ⟨single, _, hprefix⟩
    exact absurd (List.cons_prefix_cons.mp hprefix).1 (by decide)

/-- A simple value that is a boolean is decoded as the boolean. -/
theorem simple_misread :
    ¬ ∀ (limits : Limits) (value : Value), value.depth ≤ limits.maxDepth →
      ∃ bytes, encode value = some bytes ∧ decode bytes limits = .ok value := by
  intro h
  obtain ⟨bytes, hencode, hdecode⟩ := h ⟨0⟩ (.simple 20) (Nat.zero_le _)
  cases hencode
  have hbool : decode [0xf4] ⟨0⟩ = .ok (.bool false) := rfl
  cases hbool.symm.trans hdecode

end Purrdf.Cbor
