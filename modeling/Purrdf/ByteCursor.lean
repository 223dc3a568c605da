import Purrdf.Execution

/-!
# Byte cursors

A position in a sequence of bytes, and what a reader takes from the front of the bytes
that are left. For readers that may stop there are two judgements with rules for sequencing:
`ReadsBefore`, that given bytes are read as a given value before enough others, and
`Advances`, that a reader never leaves the bytes and stops only with an allowed fault.
-/

namespace Purrdf

structure ByteCursor where
  bytes : List UInt8
  pos : Nat

namespace ByteCursor

variable {source middle next : ByteCursor} {taken more : List UInt8}

def rest (source : ByteCursor) : List UInt8 := source.bytes.drop source.pos

def consumed (source : ByteCursor) : List UInt8 := source.bytes.take source.pos

def advance (source : ByteCursor) (count : Nat) : ByteCursor :=
  { source with pos := source.pos + count }

theorem rest_advance (source : ByteCursor) (count : Nat) :
    (source.advance count).rest = source.rest.drop count := by
  simp [rest, advance]

@[simp] theorem advance_zero (source : ByteCursor) : source.advance 0 = source := rfl

@[simp] theorem advance_advance (source : ByteCursor) (first second : Nat) :
    (source.advance first).advance second = source.advance (first + second) := by
  simp [advance, Nat.add_assoc]

@[simp] theorem pos_advance (source : ByteCursor) (count : Nat) :
    (source.advance count).pos = source.pos + count := rfl

@[simp] theorem bytes_advance (source : ByteCursor) (count : Nat) :
    (source.advance count).bytes = source.bytes := rfl

@[simp] theorem length_rest (source : ByteCursor) :
    source.rest.length = source.bytes.length - source.pos := List.length_drop

theorem length_rest_advance (source : ByteCursor) (count : Nat) :
    (source.advance count).rest.length = source.rest.length - count := by
  rw [rest_advance, List.length_drop]

def Within (source : ByteCursor) : Prop := source.pos ≤ source.bytes.length

theorem Within.advance (h : source.Within) {count : Nat} (hcount : count ≤ source.rest.length) :
    (source.advance count).Within := by
  simp only [Within, length_rest] at h hcount
  simp only [Within, pos_advance, bytes_advance]
  omega

/-! ### What was taken -/

structure Took (source : ByteCursor) (taken : List UInt8) (next : ByteCursor) : Prop where
  next_eq : next = source.advance taken.length
  rest_eq : source.rest = taken ++ next.rest

theorem took_advance {after : List UInt8} (h : source.rest = taken ++ after) :
    Took source taken (source.advance taken.length) ∧
      (source.advance taken.length).rest = after := by
  have hrest : (source.advance taken.length).rest = after := by
    rw [rest_advance, h, List.drop_left]
  exact ⟨⟨rfl, by rw [h, hrest]⟩, hrest⟩

theorem Took.nil (source : ByteCursor) : Took source [] source := ⟨rfl, rfl⟩

theorem Took.trans (h : Took source taken middle) (h' : Took middle more next) :
    Took source (taken ++ more) next := by
  refine ⟨?_, ?_⟩
  · rw [h'.next_eq, h.next_eq, List.length_append]
    simp [advance, Nat.add_assoc]
  · rw [h.rest_eq, h'.rest_eq, List.append_assoc]

theorem Took.bytes_eq (h : Took source taken next) : next.bytes = source.bytes := by
  rw [h.next_eq]
  rfl

theorem Took.pos_eq (h : Took source taken next) : next.pos = source.pos + taken.length := by
  rw [h.next_eq]
  rfl

theorem Took.consumed (h : Took source taken next) :
    next.consumed = source.consumed ++ taken := by
  have hfront : source.rest.take taken.length = taken := by
    rw [h.rest_eq, List.take_left]
  unfold ByteCursor.consumed
  rw [h.bytes_eq, h.pos_eq, List.take_add]
  exact congrArg _ hfront

theorem Took.length_rest (h : Took source taken next) :
    source.rest.length = taken.length + next.rest.length := by
  rw [h.rest_eq, List.length_append]

/-! ### What a reader reads -/

section

variable {ε α β : Type} {pos least : Nat} {reader : Exec ε ByteCursor α}

/-- At offset `pos` of any bytes the reader takes `taken` and returns `value`, whatever
follows, as long as `least` bytes do. -/
def ReadsBefore (least : Nat) (reader : Exec ε ByteCursor α) (pos : Nat) (taken : List UInt8)
    (value : α) : Prop :=
  ∀ source after, source.Within → source.pos = pos → source.rest = taken ++ after →
    least ≤ after.length → reader source = (.ok value, source.advance taken.length)

/-- At offset `pos` the reader takes `taken` and returns `value`, whatever follows. -/
abbrev Reads (reader : Exec ε ByteCursor α) (pos : Nat) (taken : List UInt8) (value : α) : Prop :=
  ReadsBefore 0 reader pos taken value

theorem reads_pure {value : α} :
    ReadsBefore least (pure value : Exec ε ByteCursor α) pos [] value :=
  fun _ _ _ _ _ _ => rfl

theorem Reads.before {value : α} (h : Reads reader pos taken value) (least : Nat) :
    ReadsBefore least reader pos taken value :=
  fun source after hwithin hpos hrest _ => h source after hwithin hpos hrest (Nat.zero_le _)

theorem ReadsBefore.bind {next : α → Exec ε ByteCursor β} {value : α} {result : β} {later : Nat}
    (h : ReadsBefore least reader pos taken value)
    (h' : ReadsBefore later (next value) (pos + taken.length) more result)
    (hleast : least ≤ more.length + later) :
    ReadsBefore later (reader >>= next) pos (taken ++ more) result := by
  intro source after hwithin hpos hrest hlater
  rw [List.append_assoc] at hrest
  have hfirst := h source _ hwithin hpos hrest (by simp; omega)
  have hinside := hwithin.advance (hrest ▸ List.length_append ▸ Nat.le_add_right _ _)
  have hnext := h' (source.advance taken.length) after hinside (by simp [hpos])
    (took_advance hrest).2 hlater
  change Exec.bind reader next source = _
  simp only [Exec.bind, hfirst, hnext, advance_advance, List.length_append]

theorem Reads.bind {next : α → Exec ε ByteCursor β} {value : α} {result : β}
    (h : Reads reader pos taken value)
    (h' : ReadsBefore least (next value) (pos + taken.length) more result) :
    ReadsBefore least (reader >>= next) pos (taken ++ more) result :=
  ReadsBefore.bind h h' (Nat.zero_le _)

theorem Reads.bind_nil {next : α → Exec ε ByteCursor β} {value : α} {result : β}
    (h : Reads reader pos [] value) (h' : ReadsBefore least (next value) pos more result) :
    ReadsBefore least (reader >>= next) pos more result := h.bind h'

theorem ReadsBefore.bind_pure {next : α → Exec ε ByteCursor β} {value : α} {result : β}
    (h : ReadsBefore least reader pos taken value)
    (h' : ReadsBefore least (next value) (pos + taken.length) [] result) :
    ReadsBefore least (reader >>= next) pos taken result := by
  have hboth := h.bind h' (Nat.le_add_left _ _)
  rwa [List.append_nil] at hboth

theorem reads_get_bind {next : ByteCursor → Exec ε ByteCursor α} {value : α}
    (h : ∀ source : ByteCursor, source.Within → source.pos = pos →
      taken.length + least ≤ source.rest.length → ReadsBefore least (next source) pos taken value) :
    ReadsBefore least (Exec.get >>= next) pos taken value := by
  intro source after hwithin hpos hrest hleast
  have hlength : taken.length + least ≤ source.rest.length := by
    rw [hrest, List.length_append]
    omega
  exact h source hwithin hpos hlength source after hwithin hpos hrest hleast

/-- Elements that are read wherever they end by `limit` are read one after another. -/
theorem reads_replicate {encode : α → List UInt8} {values : List α} {limit : Nat}
    (h : ∀ value ∈ values, ∀ pos, pos + (encode value).length ≤ limit →
      Reads reader pos (encode value) value) (hlimit : pos + (values.flatMap encode).length ≤ limit) :
    Reads (Exec.replicate reader values.length) pos (values.flatMap encode) values := by
  induction values generalizing pos with
  | nil => exact reads_pure
  | cons value values ih =>
    rw [List.flatMap_cons, List.length_append] at hlimit
    have hfirst := h value List.mem_cons_self pos (by omega)
    have hrest : Reads _ (pos + (encode value).length) _ _ :=
      ih (fun other hother => h other (List.mem_cons_of_mem _ hother)) (by omega)
    exact hfirst.bind (hrest.bind_pure reads_pure)

theorem reads_times {reader : Exec ε ByteCursor Unit} {pieces : List (List UInt8)} {limit : Nat}
    (h : ∀ piece ∈ pieces, ∀ pos, pos + piece.length ≤ limit → Reads reader pos piece ())
    (hlimit : pos + pieces.flatten.length ≤ limit) :
    Reads (Exec.times reader pieces.length) pos pieces.flatten () := by
  induction pieces generalizing pos with
  | nil => exact reads_pure
  | cons piece pieces ih =>
    rw [List.flatten_cons, List.length_append] at hlimit
    have hfirst := h piece List.mem_cons_self pos (by omega)
    have hrest : Reads _ (pos + piece.length) _ _ :=
      ih (fun other hother => h other (List.mem_cons_of_mem _ hother)) (by omega)
    exact hfirst.bind hrest

end

/-! ### Where a reader may stop -/

section

variable {ε α β : Type} {allowed : ε → Prop} {reader : Exec ε ByteCursor α} {post : α → Nat → Prop}

/-- What is returned satisfies `post`, and a fault is an allowed one. -/
def Settles (allowed : ε → Prop) (post : α → Prop) : Except ε α → Prop
  | .ok value => post value
  | .error fault => allowed fault

/-- Inside the bytes the reader moves forward and stays inside, whether it returns or stops.
It stops only with an allowed fault, and `post` holds of what it returns and of the number
of bytes it took. -/
def Advances (allowed : ε → Prop) (source : ByteCursor) (reader : Exec ε ByteCursor α)
    (post : α → Nat → Prop) : Prop :=
  source.Within → ∃ count ≤ source.rest.length, (reader source).2 = source.advance count ∧
    Settles allowed (fun value => post value count) (reader source).1

theorem advances_pure {value : α} (h : post value 0) :
    Advances allowed source (pure value : Exec ε ByteCursor α) post :=
  fun _ => ⟨0, Nat.zero_le _, rfl, h⟩

theorem advances_stop {fault : ε} (h : allowed fault) :
    Advances allowed source (Exec.stop fault : Exec ε ByteCursor α) post :=
  fun _ => ⟨0, Nat.zero_le _, rfl, h⟩

theorem advances_get_bind {next : ByteCursor → Exec ε ByteCursor α}
    (h : source.Within → Advances allowed source (next source) post) :
    Advances allowed source (Exec.get >>= next) post := fun hwithin => h hwithin hwithin

theorem Advances.bind {mid : α → Nat → Prop} {next : α → Exec ε ByteCursor β}
    {post : β → Nat → Prop} (h : Advances allowed source reader mid)
    (hnext : ∀ value count, count ≤ source.rest.length → mid value count →
      Advances allowed (source.advance count) (next value)
        fun result more => post result (count + more)) :
    Advances allowed source (reader >>= next) post := by
  intro hwithin
  obtain ⟨count, hcount, hreached, hsettles⟩ := h hwithin
  change ∃ total ≤ _, (Exec.bind reader next source).2 = _ ∧
    Settles allowed _ (Exec.bind reader next source).1
  rcases hrun : reader source with ⟨fault | value, reached⟩
  · simp only [hrun] at hreached hsettles
    simp only [Exec.bind, hrun]
    exact ⟨count, hcount, hreached, hsettles⟩
  · simp only [hrun] at hreached hsettles
    simp only [Exec.bind, hrun]
    subst hreached
    obtain ⟨more, hmore, hreached, hsettles⟩ :=
      hnext value count hcount hsettles (hwithin.advance hcount)
    refine ⟨count + more, ?_, ?_, hsettles⟩
    · rw [length_rest_advance] at hmore
      omega
    · rw [hreached, advance_advance]

theorem Advances.mono {mid : α → Nat → Prop} (h : Advances allowed source reader mid)
    (hpost : ∀ value count, mid value count → post value count) :
    Advances allowed source reader post := by
  intro hwithin
  obtain ⟨count, hcount, hreached, hsettles⟩ := h hwithin
  refine ⟨count, hcount, hreached, ?_⟩
  revert hsettles
  cases (reader source).1 with
  | ok value => exact hpost value count
  | error fault => exact id

theorem Advances.then {mid : α → Nat → Prop} {next : α → Exec ε ByteCursor β} {post : β → Prop}
    (h : Advances allowed source reader mid)
    (hnext : ∀ value count, mid value count → ∀ source,
      Advances allowed source (next value) fun result _ => post result) :
    Advances allowed source (reader >>= next) fun result _ => post result :=
  h.bind fun value count _ hmid => hnext value count hmid (source.advance count)

theorem advances_replicate (h : ∀ source, Advances allowed source reader fun _ _ => True)
    (count : Nat) (source : ByteCursor) :
    Advances allowed source (Exec.replicate reader count) fun _ _ => True := by
  induction count generalizing source with
  | zero => exact advances_pure trivial
  | succ count ih =>
    apply (h source).then
    intro value _ _ source
    exact (ih source).then fun _ _ _ _ => advances_pure trivial

theorem advances_times {reader : Exec ε ByteCursor Unit}
    (h : ∀ source, Advances allowed source reader fun _ _ => True) (count : Nat)
    (source : ByteCursor) :
    Advances allowed source (Exec.times reader count) fun _ _ => True := by
  induction count generalizing source with
  | zero => exact advances_pure trivial
  | succ count ih => exact (h source).then fun _ _ _ source => ih source

end

end ByteCursor

end Purrdf
