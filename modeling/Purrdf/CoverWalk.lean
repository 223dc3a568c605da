import Mathlib.Data.List.Sort
import Mathlib.Data.Nat.Find
import Purrdf.Utf8Decoding

/-!
# The cover law

A set of verbatim byte spans, back into the document they cover. The cover must be whole, an
overlap is lawful only where a span declares the piece it continues and agrees with it, and the
result must have the digest the cover states.
-/

namespace Purrdf.Cover

/-- The bytes of a document between two offsets, as the cover carries them. -/
structure ByteSpan where
  byteStart : Nat
  byteEnd : Nat
  bytes : List UInt8
  /-- The range of the strictly earlier span this one continues. -/
  continuing : Option (Nat × Nat)
deriving DecidableEq, Repr

structure VerbatimSpan where
  byteStart : Nat
  byteEnd : Nat
  text : String
  continuing : Option (Nat × Nat)
deriving DecidableEq, Repr

def VerbatimSpan.toBytes (span : VerbatimSpan) : ByteSpan where
  byteStart := span.byteStart
  byteEnd := span.byteEnd
  bytes := Utf8.encode span.text.toList
  continuing := span.continuing

inductive ReconstructError where
  | invertedSpan (byteStart byteEnd : Nat)
  | spanOutOfBounds (byteStart byteEnd byteLength : Nat)
  | spanLengthMismatch (byteStart byteEnd textBytes : Nat)
  | uncoveredRange (byteStart byteEnd : Nat)
  | undeclaredOverlap (byteStart byteEnd coveredStart coveredEnd : Nat)
  | overlapDisagreement (position : Nat)
  | invalidUtf8 (validUpTo : Nat)
  | digestMismatch (expected reconstructed : String)
deriving DecidableEq, Repr

inductive Fault where
  | refused (error : ReconstructError)
  | panicked
deriving DecidableEq, Repr

abbrev Result (α : Type) := Except Fault α

def refuse {α : Type} (error : ReconstructError) : Result α :=
  .error (.refused error)

def expect {α : Type} : Option α → Result α
  | some value => .ok value
  | none => .error .panicked

/-- Subtraction that must not go below zero. -/
def sub (a b : Nat) : Result Nat :=
  if b ≤ a then .ok (a - b) else .error .panicked

def slice (bytes : List UInt8) (start stop : Nat) : Result (List UInt8) :=
  if start ≤ stop ∧ stop ≤ bytes.length then .ok ((bytes.take stop).drop start)
  else .error .panicked

/-! ### Order -/

def ByteSpan.range (span : ByteSpan) : Nat × Nat :=
  (span.byteStart, span.byteEnd)

def rangeBelow (left right : Nat × Nat) : Bool :=
  left.1 < right.1 || (left.1 == right.1 && left.2 < right.2)

/-- The sort key is the range and then the bytes, so that only the declared range can tell two
equal keys apart. -/
def ByteSpan.keyLe (left right : ByteSpan) : Prop :=
  left.byteStart < right.byteStart ∨ left.byteStart = right.byteStart ∧
    (left.byteEnd < right.byteEnd ∨ left.byteEnd = right.byteEnd ∧ left.bytes ≤ right.bytes)

instance : DecidableRel ByteSpan.keyLe := fun left right =>
  inferInstanceAs (Decidable (left.byteStart < right.byteStart ∨
    left.byteStart = right.byteStart ∧ (left.byteEnd < right.byteEnd ∨
      left.byteEnd = right.byteEnd ∧ left.bytes ≤ right.bytes)))

structure Sorting where
  sort : List ByteSpan → List ByteSpan
  perm : ∀ spans, (sort spans).Perm spans
  sorted : ∀ spans, (sort spans).Pairwise ByteSpan.keyLe

/-! ### Reconstruction -/

def check (byteLength : Nat) (span : ByteSpan) : Result Unit :=
  if span.byteEnd < span.byteStart then refuse (.invertedSpan span.byteStart span.byteEnd)
  else if byteLength < span.byteEnd then
    refuse (.spanOutOfBounds span.byteStart span.byteEnd byteLength)
  else if span.bytes.length ≠ span.byteEnd - span.byteStart then
    refuse (.spanLengthMismatch span.byteStart span.byteEnd span.bytes.length)
  else .ok ()

def collect (byteLength : Nat) : List ByteSpan → Result (List ByteSpan)
  | [] => .ok []
  | span :: spans => do
      check byteLength span
      let rest ← collect byteLength spans
      return if span.byteStart < span.byteEnd then span :: rest else rest

/-- The first span of a range, by binary search in the sorted spans. -/
def find (ordered : List ByteSpan) (key : Nat × Nat) : Option ByteSpan :=
  let place := (ordered.takeWhile fun span => rangeBelow span.range key).length
  ordered[place]?.filter fun span => span.range == key

def declared (ordered : List ByteSpan) (span : ByteSpan) (sharedEnd : Nat) : Option ByteSpan :=
  (span.continuing.bind (find ordered)).filter fun piece =>
    piece.byteStart < span.byteStart && sharedEnd ≤ piece.byteEnd

/-- `frontier` is one past the last covered byte, and `owner` the span that put it there. -/
structure Walk where
  frontier : Nat
  owner : Option ByteSpan
deriving DecidableEq, Repr

def checkOverlap (ordered : List ByteSpan) (walk : Walk) (span : ByteSpan) : Result Unit := do
  let covering ← expect walk.owner
  let sharedEnd := min walk.frontier span.byteEnd
  match declared ordered span sharedEnd with
  | none =>
    refuse (.undeclaredOverlap span.byteStart span.byteEnd covering.byteStart covering.byteEnd)
  | some piece =>
    let shared ← sub sharedEnd span.byteStart
    let ofContinuation ← slice span.bytes 0 shared
    let start ← sub span.byteStart piece.byteStart
    let ofPiece ← slice piece.bytes start (start + shared)
    if ofContinuation = ofPiece then .ok ()
    else
      let differs ← expect ((ofContinuation.zip ofPiece).findIdx? fun pair => pair.1 != pair.2)
      refuse (.overlapDisagreement (span.byteStart + differs))

def Walk.advance (walk : Walk) (span : ByteSpan) : Walk :=
  if walk.frontier < span.byteEnd then ⟨span.byteEnd, some span⟩ else walk

def walkStep (ordered : List ByteSpan) (walk : Walk) (span : ByteSpan) : Result Walk :=
  if walk.frontier < span.byteStart then
    refuse (.uncoveredRange walk.frontier span.byteStart)
  else if span.byteStart < walk.frontier then do
    checkOverlap ordered walk span
    return walk.advance span
  else return walk.advance span

def walkSpans (ordered : List ByteSpan) : Walk → List ByteSpan → Result Walk
  | walk, [] => .ok walk
  | walk, span :: spans => do
      let walk ← walkStep ordered walk span
      walkSpans ordered walk spans

/-- Each span contributes what lies past the bytes already written. -/
def append (bytes : List UInt8) (span : ByteSpan) : Result (List UInt8) :=
  if bytes.length < span.byteEnd then do
    let skip ← sub bytes.length span.byteStart
    let tail ← slice span.bytes skip span.bytes.length
    return bytes ++ tail
  else return bytes

def appendSpans : List UInt8 → List ByteSpan → Result (List UInt8)
  | bytes, [] => .ok bytes
  | bytes, span :: spans => do
      let bytes ← append bytes span
      appendSpans bytes spans

structure Digesting (Digest : Type) where
  of : List UInt8 → Digest
  display : Digest → String

variable {Digest : Type} [DecidableEq Digest]

def reconstructBytes (digesting : Digesting Digest) (sorting : Sorting) (byteLength : Nat)
    (sourceDigest : Digest) (spans : List ByteSpan) : Result (List UInt8) := do
  let kept ← collect byteLength spans
  let ordered := sorting.sort kept
  let walk ← walkSpans ordered ⟨0, none⟩ ordered
  if walk.frontier < byteLength then refuse (.uncoveredRange walk.frontier byteLength)
  else
    let bytes ← appendSpans [] ordered
    if digesting.of bytes ≠ sourceDigest then
      refuse (.digestMismatch (digesting.display sourceDigest)
        (digesting.display (digesting.of bytes)))
    else return bytes

def validUpTo (bytes : List UInt8) : Nat :=
  Nat.findGreatest (fun n => (bytes.take n).toByteArray.validateUTF8 = true) bytes.length

def fromUtf8 (bytes : List UInt8) : Result String :=
  match String.fromUTF8? bytes.toByteArray with
  | some text => .ok text
  | none => refuse (.invalidUtf8 (validUpTo bytes))

def reconstruct (digesting : Digesting Digest) (sorting : Sorting) (byteLength : Nat)
    (sourceDigest : Digest) (spans : List VerbatimSpan) : Result String := do
  let bytes ← reconstructBytes digesting sorting byteLength sourceDigest
    (spans.map VerbatimSpan.toBytes)
  fromUtf8 bytes

end Purrdf.Cover

/-!
## The coverage walk

Spans the walk has passed stand in the bytes the second pass writes, wherever in them they
lie: a span agrees with the piece it continues, which starts strictly earlier and so stands
there already.
-/

namespace Purrdf.Cover

/-! ### Results -/

/-- The spans are not blamed, but what they were put together to. -/
def ReconstructError.ofText : ReconstructError → Bool
  | .invalidUtf8 _ => true
  | _ => false

/-- No panic, no refusal of text, and what a result that is not refused satisfies. -/
def Safe {α : Type} (result : Result α) (ok : α → Prop) : Prop :=
  match result with
  | .ok value => ok value
  | .error (.refused error) => error.ofText = false
  | .error .panicked => False

section
variable {α β : Type} {ok : α → Prop}

theorem safe_bind {result : Result α} {next : α → Result β} {ok : β → Prop} :
    Safe (result >>= next) ok ↔ Safe result fun value => Safe (next value) ok := by
  rcases result with (_ | _) | _ <;> exact Iff.rfl

theorem Safe.mono {result : Result α} {ok' : α → Prop} (safe : Safe result ok)
    (more : ∀ value, ok value → ok' value) : Safe result ok' := by
  rcases result with (_ | _) | value
  · exact safe
  · exact safe
  · exact more value safe

theorem safe_refuse {error : ReconstructError} (spans : error.ofText = false) :
    Safe (refuse error : Result α) ok :=
  spans

theorem Safe.of_ok {result : Result α} {value : α} (safe : Safe result ok)
    (same : result = .ok value) : ok value := by
  rwa [same] at safe

theorem Safe.ne_panicked {result : Result α} (safe : Safe result ok) :
    result ≠ .error .panicked := by
  rintro rfl
  exact safe

theorem sub_eq {a b : Nat} (order : b ≤ a) : sub a b = .ok (a - b) :=
  if_pos order

theorem slice_eq {bytes : List UInt8} {start stop : Nat} (order : start ≤ stop)
    (inside : stop ≤ bytes.length) : slice bytes start stop = .ok ((bytes.take stop).drop start) :=
  if_pos ⟨order, inside⟩

end

/-! ### Spans -/

structure Sized (byteLength : Nat) (span : ByteSpan) : Prop where
  order : span.byteStart ≤ span.byteEnd
  inside : span.byteEnd ≤ byteLength
  payload : span.bytes.length = span.byteEnd - span.byteStart

structure Stands (document : List UInt8) (span : ByteSpan) : Prop where
  order : span.byteStart ≤ span.byteEnd
  inside : span.byteEnd ≤ document.length
  verbatim : (document.take span.byteEnd).drop span.byteStart = span.bytes

def filled (span : ByteSpan) : Bool :=
  span.byteStart < span.byteEnd

theorem Stands.sized {document : List UInt8} {span : ByteSpan} (stands : Stands document span) :
    Sized document.length span := by
  refine ⟨stands.order, stands.inside, ?_⟩
  rw [← stands.verbatim, List.length_drop, List.length_take, Nat.min_eq_left stands.inside]

theorem check_sized {byteLength : Nat} {span : ByteSpan} :
    Safe (check byteLength span) fun _ => Sized byteLength span := by
  rw [check]
  split
  · exact safe_refuse rfl
  · split
    · exact safe_refuse rfl
    · split
      · exact safe_refuse rfl
      · rename_i order inside payload
        exact ⟨Nat.not_lt.mp order, Nat.not_lt.mp inside, not_not.mp payload⟩

theorem check_eq {byteLength : Nat} {span : ByteSpan} (sized : Sized byteLength span) :
    check byteLength span = .ok () := by
  rw [check, if_neg (Nat.not_lt.mpr sized.order), if_neg (Nat.not_lt.mpr sized.inside),
    if_neg (not_not.mpr sized.payload)]

theorem collect_sized (byteLength : Nat) (spans : List ByteSpan) :
    Safe (collect byteLength spans) fun kept =>
      kept = spans.filter filled ∧ ∀ span ∈ spans, Sized byteLength span := by
  induction spans with
  | nil => exact ⟨rfl, fun span member => absurd member List.not_mem_nil⟩
  | cons span spans ih =>
    rw [collect, safe_bind]
    apply check_sized.mono
    intro _ sized
    rw [safe_bind]
    apply ih.mono
    rintro kept ⟨rfl, rest⟩
    refine ⟨?_, ?_⟩
    · rw [List.filter_cons, filled]
      simp
    · intro other member
      rcases List.mem_cons.mp member with rfl | member
      · exact sized
      · exact rest other member

theorem collect_eq {byteLength : Nat} {spans : List ByteSpan}
    (sized : ∀ span ∈ spans, Sized byteLength span) :
    collect byteLength spans = .ok (spans.filter filled) := by
  induction spans with
  | nil => rfl
  | cons span spans ih =>
    have here := check_eq (sized span List.mem_cons_self)
    have rest := ih fun other member => sized other (List.mem_cons_of_mem _ member)
    rw [collect, here, rest, List.filter_cons, filled]
    simp [bind, Except.bind, pure, Except.pure]

theorem find_mem {ordered : List ByteSpan} {key : Nat × Nat} {piece : ByteSpan}
    (found : find ordered key = some piece) : piece ∈ ordered ∧ piece.range = key := by
  rw [find, Option.filter_eq_some_iff] at found
  exact ⟨List.mem_of_getElem? found.1, by simpa using found.2⟩

theorem declared_spec {ordered : List ByteSpan} {span piece : ByteSpan} {sharedEnd : Nat}
    (answers : declared ordered span sharedEnd = some piece) :
    piece ∈ ordered ∧ span.continuing = some piece.range ∧ piece.byteStart < span.byteStart ∧
      sharedEnd ≤ piece.byteEnd := by
  rw [declared, Option.filter_eq_some_iff, Option.bind_eq_some_iff] at answers
  obtain ⟨⟨key, names, found⟩, covers⟩ := answers
  obtain ⟨member, rfl⟩ := find_mem found
  simp only [Bool.and_eq_true, decide_eq_true_eq] at covers
  exact ⟨member, names, covers⟩

/-! ### What the walk keeps -/

structure Covered (passed : List ByteSpan) (walk : Walk) (bytes : List UInt8) : Prop where
  length : bytes.length = walk.frontier
  owned : 0 < walk.frontier → walk.owner.isSome
  ends : walk.frontier = 0 ∨ ∃ span ∈ passed, span.byteEnd = walk.frontier
  stands : ∀ span ∈ passed, Stands bytes span
  covers : ∀ i < walk.frontier, ∃ span ∈ passed, span.byteStart ≤ i ∧ i < span.byteEnd
  utf8 : (∀ span ∈ passed, Utf8.IsUtf8 span.bytes) → Utf8.IsUtf8 bytes

theorem covered_empty : Covered [] ⟨0, none⟩ [] := by
  constructor
  · rfl
  · exact fun positive => absurd positive (Nat.lt_irrefl _)
  · exact Or.inl rfl
  · exact fun span member => absurd member List.not_mem_nil
  · exact fun i inside => absurd inside (Nat.not_lt_zero i)
  · exact fun _ => ⟨[], rfl⟩

structure Cut (ordered passed : List ByteSpan) (span : ByteSpan) (rest : List ByteSpan) : Prop where
  split : ordered = passed ++ span :: rest
  sorted : ordered.Pairwise ByteSpan.keyLe

theorem ByteSpan.keyLe.start {left right : ByteSpan} (order : left.keyLe right) :
    left.byteStart ≤ right.byteStart := by
  rcases order with less | ⟨same, -⟩
  · exact less.le
  · exact same.le

theorem Cut.passed_of_start {ordered passed rest : List ByteSpan} {span piece : ByteSpan}
    (cut : Cut ordered passed span rest) (member : piece ∈ ordered)
    (earlier : piece.byteStart < span.byteStart) : piece ∈ passed := by
  have sorted := cut.sorted
  rw [cut.split, List.pairwise_append, List.pairwise_cons] at sorted
  rw [cut.split, List.mem_append, List.mem_cons] at member
  rcases member with here | same | later
  · exact here
  · rw [same] at earlier
    exact absurd earlier (Nat.lt_irrefl _)
  · have order := (sorted.2.1.1 piece later).start
    exact absurd earlier (Nat.not_lt.mpr order)

/-! ### One span -/

theorem part_of_part {α : Type} (items : List α) {low high start stop : Nat} (below : low ≤ start)
    (order : start ≤ stop) (above : stop ≤ high) :
    (((items.take high).drop low).take (stop - low)).drop (start - low)
      = (items.take stop).drop start := by
  have ends : low + (stop - low) = stop := by omega
  have starts : low + (start - low) = start := by omega
  rw [List.take_drop, List.drop_drop, List.take_take, ends, starts, Nat.min_eq_left above]

theorem findIdx_of_ne {first second : List UInt8} (length : first.length = second.length)
    (differ : first ≠ second) :
    ((first.zip second).findIdx? fun pair => pair.1 != pair.2).isSome := by
  by_contra none
  rw [Option.not_isSome_iff_eq_none, List.findIdx?_eq_none_iff] at none
  apply differ
  apply List.ext_getElem length
  intro i left right
  have member : (first[i], second[i]) ∈ first.zip second := by
    rw [← List.getElem_zip (h := by rw [List.length_zip]; omega)]
    exact List.getElem_mem _
  simpa using none _ member

variable {ordered passed rest : List ByteSpan} {span piece : ByteSpan} {walk : Walk}
  {bytes : List UInt8} {byteLength : Nat}

theorem shared_eq (sized : Sized byteLength span) (stands : Stands bytes piece)
    (earlier : piece.byteStart < span.byteStart) (overlaps : span.byteStart < walk.frontier)
    (answers : min walk.frontier span.byteEnd ≤ piece.byteEnd) :
    let shared := min walk.frontier span.byteEnd - span.byteStart
    let start := span.byteStart - piece.byteStart
    sub (min walk.frontier span.byteEnd) span.byteStart = .ok shared ∧
    slice span.bytes 0 shared = .ok (span.bytes.take shared) ∧
    sub span.byteStart piece.byteStart = .ok start ∧
    slice piece.bytes start (start + shared)
      = .ok ((bytes.take (min walk.frontier span.byteEnd)).drop span.byteStart) := by
  have order := sized.order
  have payload := sized.payload
  have piece_payload := stands.sized.payload
  obtain ⟨stop, stop_eq⟩ : ∃ stop, min walk.frontier span.byteEnd = stop := ⟨_, rfl⟩
  rw [stop_eq] at answers ⊢
  have length : span.byteStart ≤ stop := by omega
  dsimp only
  refine ⟨sub_eq length, ?_, sub_eq earlier.le, ?_⟩
  · exact slice_eq (Nat.zero_le _) (by omega)
  · rw [slice_eq (Nat.le_add_right _ _) (by omega), ← stands.verbatim]
    have whole : span.byteStart - piece.byteStart + (stop - span.byteStart)
        = stop - piece.byteStart := by omega
    rw [whole, part_of_part bytes earlier.le length answers]

theorem checkOverlap_spec (cut : Cut ordered passed span rest)
    (covered : Covered passed walk bytes) (sized : Sized byteLength span)
    (overlaps : span.byteStart < walk.frontier) :
    Safe (checkOverlap ordered walk span) fun _ =>
      span.bytes.take (min walk.frontier span.byteEnd - span.byteStart)
        = (bytes.take (min walk.frontier span.byteEnd)).drop span.byteStart := by
  have owned := covered.owned (Nat.zero_lt_of_lt overlaps)
  obtain ⟨covering, owner⟩ := Option.isSome_iff_exists.mp owned
  rw [checkOverlap, owner]
  dsimp only
  cases answers : declared ordered span (min walk.frontier span.byteEnd) with
  | none => exact safe_refuse rfl
  | some piece =>
    obtain ⟨member, -, earlier, covers⟩ := declared_spec answers
    have there := cut.passed_of_start member earlier
    obtain ⟨shared, own, start, other⟩ :=
      shared_eq sized (covered.stands piece there) earlier overlaps covers
    dsimp only
    rw [shared]
    change Safe (slice _ _ _ >>= _) _
    rw [own]
    change Safe (sub _ _ >>= _) _
    rw [start]
    change Safe (slice _ _ _ >>= _) _
    rw [other]
    change Safe (if _ then _ else _) _
    split
    · assumption
    · rename_i differ
      have inside := (covered.stands piece there).inside
      have order := sized.order
      have payload := sized.payload
      have length : (span.bytes.take (min walk.frontier span.byteEnd - span.byteStart)).length
          = ((bytes.take (min walk.frontier span.byteEnd)).drop span.byteStart).length := by
        rw [List.length_take, List.length_drop, List.length_take, covered.length]
        omega
      obtain ⟨place, found⟩ := Option.isSome_iff_exists.mp (findIdx_of_ne length differ)
      rw [found]
      exact safe_refuse rfl

theorem Stands.append {document : List UInt8} {span : ByteSpan} (stands : Stands document span)
    (more : List UInt8) : Stands (document ++ more) span := by
  refine ⟨stands.order, ?_, ?_⟩
  · rw [List.length_append]
    exact stands.inside.trans (Nat.le_add_right _ _)
  · rw [List.take_append_of_le_length stands.inside]
    exact stands.verbatim

/-- Bytes shared with UTF-8 that has been written leave UTF-8 to be written. -/
theorem tail_utf8 {bytes own : List UInt8} {start skip : Nat} (written : Utf8.IsUtf8 bytes)
    (valid : Utf8.IsUtf8 own) (shared : own.take skip = bytes.drop start) :
    Utf8.IsUtf8 (own.drop skip) := by
  have whole := List.take_append_drop skip own
  have parts := List.take_append_drop start bytes
  have front : Utf8.IsUtf8 (own.take skip) := by
    cases own with
    | nil => exact ⟨[], List.take_nil⟩
    | cons byte rest =>
      cases skip with
      | zero => exact ⟨[], rfl⟩
      | succ skip =>
        rw [List.take_succ_cons] at shared ⊢
        rw [← parts, ← shared] at written
        exact (written.cut valid.starts).2
  rw [← whole] at valid
  exact valid.rest front

theorem append_eq (covered : Covered passed walk bytes) (sized : Sized byteLength span)
    (reached : span.byteStart ≤ walk.frontier) :
    append bytes span = .ok (if walk.frontier < span.byteEnd
      then bytes ++ span.bytes.drop (walk.frontier - span.byteStart) else bytes) := by
  have order := sized.order
  have payload := sized.payload
  rw [append, covered.length]
  split
  · rw [sub_eq reached]
    change (slice _ _ _ >>= _) = _
    rw [slice_eq (by omega) le_rfl, List.take_length]
    rfl
  · rfl

theorem append_covered (covered : Covered passed walk bytes) (sized : Sized byteLength span)
    (some : span.byteStart < span.byteEnd) (reached : span.byteStart ≤ walk.frontier)
    (agrees : span.byteStart < walk.frontier →
      span.bytes.take (min walk.frontier span.byteEnd - span.byteStart)
        = (bytes.take (min walk.frontier span.byteEnd)).drop span.byteStart) :
    Covered (passed ++ [span]) (walk.advance span) (if walk.frontier < span.byteEnd
      then bytes ++ span.bytes.drop (walk.frontier - span.byteStart) else bytes) := by
  have payload := sized.payload
  have length := covered.length
  rw [Walk.advance]
  split
  · rename_i further
    have stop : min walk.frontier span.byteEnd = walk.frontier := Nat.min_eq_left further.le
    rw [stop] at agrees
    have shared : span.bytes.take (walk.frontier - span.byteStart)
        = bytes.drop span.byteStart := by
      rcases Nat.lt_or_eq_of_le reached with overlaps | meets
      · rw [agrees overlaps, ← length, List.take_length]
      · rw [meets, Nat.sub_self, List.take_zero, ← length, List.drop_length]
    have grown : (bytes ++ span.bytes.drop (walk.frontier - span.byteStart)).length
        = span.byteEnd := by
      rw [List.length_append, List.length_drop, length]
      omega
    constructor
    · exact grown
    · exact fun _ => rfl
    · exact Or.inr ⟨span, List.mem_append_right _ List.mem_cons_self, rfl⟩
    · intro other member
      rcases List.mem_append.mp member with old | new
      · exact (covered.stands other old).append _
      · rw [List.mem_singleton.mp new]
        refine ⟨some.le, grown.ge, ?_⟩
        rw [← grown, List.take_length, List.drop_append_of_le_length (by omega), ← shared,
          List.take_append_drop]
    · intro i inside
      by_cases old : i < walk.frontier
      · obtain ⟨other, member, holds⟩ := covered.covers i old
        exact ⟨other, List.mem_append_left _ member, holds⟩
      · exact ⟨span, List.mem_append_right _ List.mem_cons_self, by omega, inside⟩
    · intro valid
      have written := covered.utf8 fun other member =>
        valid other (List.mem_append_left _ member)
      have own := valid span (List.mem_append_right _ List.mem_cons_self)
      exact written.append (tail_utf8 written own shared)
  · rename_i within
    have stop : min walk.frontier span.byteEnd = span.byteEnd :=
      Nat.min_eq_right (Nat.not_lt.mp within)
    have overlaps : span.byteStart < walk.frontier := some.trans_le (Nat.not_lt.mp within)
    have shared := agrees overlaps
    rw [stop, ← payload, List.take_length] at shared
    constructor
    · exact length
    · exact covered.owned
    · rcases covered.ends with none | ⟨other, member, same⟩
      · exact Or.inl none
      · exact Or.inr ⟨other, List.mem_append_left _ member, same⟩
    · intro other member
      rcases List.mem_append.mp member with old | new
      · exact covered.stands other old
      · rw [List.mem_singleton.mp new]
        refine ⟨some.le, ?_, shared.symm⟩
        rw [length]
        exact Nat.not_lt.mp within
    · intro i inside
      obtain ⟨other, member, holds⟩ := covered.covers i inside
      exact ⟨other, List.mem_append_left _ member, holds⟩
    · intro valid
      exact covered.utf8 fun other member => valid other (List.mem_append_left _ member)

theorem walkStep_covered (cut : Cut ordered passed span rest)
    (covered : Covered passed walk bytes) (sized : Sized byteLength span)
    (some : span.byteStart < span.byteEnd) :
    Safe (walkStep ordered walk span) fun next => ∃ more, append bytes span = .ok more ∧
      Covered (passed ++ [span]) next more := by
  rw [walkStep]
  split
  · exact safe_refuse rfl
  · rename_i near
    have reached := Nat.not_lt.mp near
    have appended := append_eq covered sized reached
    split
    · rename_i overlaps
      rw [safe_bind]
      apply (checkOverlap_spec cut covered sized overlaps).mono
      intro _ agrees
      exact ⟨_, appended, append_covered covered sized some reached fun _ => agrees⟩
    · rename_i meets
      exact ⟨_, appended, append_covered covered sized some reached fun overlaps =>
        absurd overlaps meets⟩

theorem walkSpans_covered (spans : List ByteSpan) (passed : List ByteSpan) (walk : Walk)
    (bytes : List UInt8) (split : ordered = passed ++ spans)
    (sorted : ordered.Pairwise ByteSpan.keyLe) (covered : Covered passed walk bytes)
    (sized : ∀ span ∈ spans, Sized byteLength span ∧ span.byteStart < span.byteEnd) :
    Safe (walkSpans ordered walk spans) fun last => ∃ more, appendSpans bytes spans = .ok more ∧
      Covered ordered last more := by
  induction spans generalizing passed walk bytes with
  | nil =>
    rw [List.append_nil] at split
    subst split
    exact ⟨bytes, rfl, covered⟩
  | cons span spans ih =>
    obtain ⟨here, some⟩ := sized span List.mem_cons_self
    rw [walkSpans, safe_bind]
    apply (walkStep_covered ⟨split, sorted⟩ covered here some).mono
    rintro next ⟨more, appended, onward⟩
    rw [appendSpans, appended]
    apply ih (passed ++ [span]) next more _ onward
    · intro other member
      exact sized other (List.mem_cons_of_mem _ member)
    · rw [split, List.append_assoc]
      rfl

end Purrdf.Cover
