import Purrdf.InflateProgress

/-!
# Calls of the decoder

A call runs the state machine until it needs input or room. Whatever pieces the input came in,
what a call leaves mirrors the one stream the input is.
-/

namespace Purrdf.Deflate

open Relation

section
variable {limit sent : Nat} {before future : List UInt8} {feed next : Feed}
  {stream later : Stream}

/-! ### Turns -/

theorem Reading.valid {exact : Nat}
    (reading : Reading limit sent before future exact feed stream) : stream.Valid :=
  ⟨reading.control.sound, reading.control.widths⟩

theorem turn_turns (fast : Bool) (mirrors : Mirrors limit sent before future feed stream) :
    Meets (turn fast) feed (Turned limit sent before future stream) (Refused limit stream) := by
  rw [turn, meets_bind, meets_get, mirrors.state]
  rcases mirrors with reading | finished
  · cases state : stream.state with
    | done => exact absurd state reading.control.running
    | blockHeader => exact stepBlockHeader_turns reading state
    | storedHeader => exact stepStoredHeader_turns reading state
    | stored remaining => exact stepStored_turns reading state
    | dynamicCounts => exact stepDynamicCounts_turns reading state
    | dynamicCodeLengths => exact stepDynamicCodeLengths_turns reading state
    | dynamicLengths => exact stepDynamicLengths_turns reading state
    | symbols => exact stepSymbols_turns fast reading state
    | lengthExtra base extra => exact stepLengthExtra_turns reading state
    | distance length => exact stepDistance_turns reading state
    | distanceExtra length base extra => exact stepDistanceExtra_turns reading state
    | copy length distance => exact stepCopy_turns reading state
  · rw [finished.done]
    exact ⟨stream, ReflTransGen.refl, finished⟩

/-- Steps left before the input at hand runs out. -/
def Stream.budget (future : List UInt8) (stream : Stream) : Nat :=
  300 * (stream.unread - 8 * future.length) + stream.state.rank

theorem Mirrors.unread (mirrors : Mirrors limit sent before future feed stream) :
    8 * future.length ≤ stream.unread := by
  rcases mirrors with reading | finished
  · rw [reading.buffer.count, Nat.mul_add]
    omega
  · rw [finished.unread, List.length_append, Nat.mul_add]
    omega

theorem budget_lt (here : 8 * future.length ≤ stream.unread)
    (there : 8 * future.length ≤ later.unread) (lower : later.measure < stream.measure) :
    later.budget future < stream.budget future := by
  rw [Stream.measure, Stream.measure] at lower
  rw [Stream.budget, Stream.budget]
  omega

theorem stepLoop_turns (fast : Bool) (turns : Nat) (feed : Feed) (stream : Stream)
    (mirrors : Mirrors limit sent before future feed stream)
    (enough : stream.budget future < turns) :
    Meets (stepLoop fast turns) feed (fun step next =>
      Turned limit sent before future stream (some step) next) (Refused limit stream) := by
  induction turns generalizing feed stream with
  | zero => exact absurd enough (Nat.not_lt_zero _)
  | succ turns ih =>
    have here := mirrors.unread
    rw [stepLoop, meets_bind]
    apply (turn_turns fast mirrors).mono
    · intro step next turned
      cases step with
      | none =>
        obtain ⟨later, more, onward⟩ := turned
        have lower : later.budget future < stream.budget future := by
          rcases mirrors with reading | finished
          · exact budget_lt here onward.unread (measure_lt reading.valid more)
          · obtain ⟨first, moves, -⟩ := TransGen.head'_iff.mp more
            have ends : stream.Ends limit .streamEnd := finished.done
            exact absurd moves ends.stays
        apply (ih next later onward (by omega)).mono
        · intro step last ended
          exact ended.after more.to_reflTransGen
        · intro error last refused
          exact refused.after more.to_reflTransGen
      | some step => exact turned
    · intro error next refused
      exact refused

theorem step_turns (fast : Bool)
    (reading : Reading limit sent before future feed.self.nbits feed stream) :
    Meets (step fast) feed (fun step next => Turned limit sent before future stream (some step) next)
      (Refused limit stream) := by
  have count := reading.buffer.count
  have rank := reading.valid.rank_le
  rw [step, meets_bind, meets_get]
  apply stepLoop_turns fast feed.turns feed stream (Or.inl reading)
  rw [Stream.budget, Feed.turns, Feed.unread]
  omega

/-! ### Handing over -/

/-- What has been handed over is what was decoded up to some byte of the buffer. -/
def Serving (limit : Nat) (future earlier : List UInt8) (sink : Sink) (feed : Feed)
    (stream : Stream) : Prop :=
  ∃ before sent, Mirrors limit sent before future feed stream ∧
    earlier ++ sink.written = stream.out.take (before.length + sent)

variable {earlier : List UInt8} {sink : Sink}

def Sink.Within (sink : Sink) : Prop :=
  ∀ room, sink.room = some room → sink.written.length ≤ room

theorem Sink.fits_le (sink : Sink) (bytes : List UInt8) : sink.fits bytes ≤ bytes.length := by
  rw [Sink.fits]
  split
  · exact le_rfl
  · exact Nat.min_le_left _ _

theorem Mirrors.written (mirrors : Mirrors limit sent before future feed stream) :
    Written limit sent before feed.self.window feed.self.base feed.self.delivered
      feed.self.limit stream.out := by
  rcases mirrors with reading | finished
  · exact reading.written
  · exact finished.written

theorem Mirrors.rewrite (mirrors : Mirrors limit sent before future feed stream)
    {before' window : List UInt8} {sent' base delivered : Nat}
    (written : Written limit sent' before' window base delivered feed.self.limit stream.out) :
    Mirrors limit sent' before' future
      { feed with self := { feed.self with window, base, delivered } } stream := by
  rcases mirrors with reading | finished
  · exact Or.inl ⟨reading.buffer, written, reading.control⟩
  · exact Or.inr ⟨finished.state, finished.done, written, finished.error, finished.rest,
      finished.unread⟩

theorem Serving.prefix (serving : Serving limit future earlier sink feed stream) :
    earlier ++ sink.written <+: stream.out := by
  obtain ⟨before, sent, -, handed⟩ := serving
  rw [handed]
  exact List.take_prefix _ _

theorem Serving.all (serving : Serving limit future earlier sink feed stream)
    (delivered : ¬feed.self.delivered < feed.self.window.length) :
    earlier ++ sink.written = stream.out := by
  obtain ⟨before, sent, mirrors, handed⟩ := serving
  have written := mirrors.written
  have sent_le := written.sent
  have count := written.delivered
  rw [handed]
  apply List.take_of_length_le
  rw [written.out, List.length_append]
  omega

theorem Serving.deliver (serving : Serving limit future earlier sink feed stream) :
    Serving limit future earlier (deliver feed.self sink).2
      { feed with self := (deliver feed.self sink).1 } stream := by
  obtain ⟨before, sent, mirrors, handed⟩ := serving
  have written := mirrors.written
  have count := written.delivered
  have sent_le := written.sent
  have bound := sink.fits_le (feed.self.window.drop feed.self.delivered)
  rw [List.length_drop] at bound
  refine ⟨before, sent + sink.fits (feed.self.window.drop feed.self.delivered), ?_, ?_⟩
  · apply mirrors.rewrite
    refine ⟨written.out, written.base, written.room, written.history, ?_, ?_, written.limit⟩
    · rw [count]
    · omega
  · have rest : feed.self.window.drop feed.self.delivered
        = stream.out.drop (before.length + sent) := by
      rw [written.out, count, List.drop_length_add_append]
    have joined := List.take_add (l := stream.out) (i := before.length + sent)
      (j := sink.fits (feed.self.window.drop feed.self.delivered))
    rw [Deflate.deliver, ← List.append_assoc, handed, ← Nat.add_assoc, joined, rest]

theorem deliver_within (inflater : Inflater) (within : sink.Within) :
    (deliver inflater sink).2.Within := by
  intro room same
  have least := within room same
  have roomy : sink.room = some room := same
  rw [deliver]
  dsimp only
  rw [List.length_append, List.length_take, Sink.fits, roomy]
  dsimp only
  omega

theorem deliver_full (inflater : Inflater) (sink : Sink)
    (held : (deliver inflater sink).1.delivered < (deliver inflater sink).1.window.length) :
    ∃ room, sink.room = some room ∧ room ≤ (deliver inflater sink).2.written.length := by
  rw [deliver] at held ⊢
  dsimp only at held ⊢
  rw [List.length_append, List.length_take]
  cases same : sink.room with
  | none =>
    rw [Sink.fits, same] at held
    dsimp only at held
    rw [List.length_drop] at held
    omega
  | some room =>
    refine ⟨room, rfl, ?_⟩
    rw [Sink.fits, same] at held ⊢
    dsimp only at held ⊢
    rw [List.length_drop] at held ⊢
    omega

theorem Serving.slide (serving : Serving limit future earlier sink feed stream)
    (delivered : ¬feed.self.delivered < feed.self.window.length) :
    Serving limit future earlier sink { feed with self := feed.self.slide } stream := by
  rw [Inflater.slide]
  split
  · exact serving
  · rename_i long
    obtain ⟨before, sent, mirrors, handed⟩ := serving
    have written := mirrors.written
    have count := written.delivered
    have sent_le := written.sent
    obtain ⟨shift, shift_eq⟩ : ∃ shift, feed.self.window.length - windowSize = shift := ⟨_, rfl⟩
    dsimp only
    rw [shift_eq]
    have order : shift ≤ feed.self.window.length := by omega
    refine ⟨before ++ feed.self.window.take shift, sent - shift, ?_, ?_⟩
    · apply mirrors.rewrite
      constructor
      · rw [List.append_assoc, List.take_append_drop]
        exact written.out
      · rw [List.length_append, List.length_take, Nat.min_eq_left order, written.base]
      · rw [List.length_drop]
        exact (Nat.sub_le _ _).trans written.room
      · rw [List.length_drop]
        right
        omega
      · rw [count]
      · rw [List.length_drop]
        omega
      · exact written.limit
    · have same : before.length + shift + (sent - shift) = before.length + sent := by omega
      rw [handed, List.length_append, List.length_take, Nat.min_eq_left order, same]

theorem slide_room (inflater : Inflater) :
    ¬bufLen - inflater.slide.window.length < slideRoom := by
  have buffer : bufLen = 131072 := rfl
  have window : windowSize = 32768 := rfl
  have slide : slideRoom = 16384 := rfl
  rw [Inflater.slide]
  split
  · omega
  · dsimp only
    rw [List.length_drop]
    omega

theorem Serving.step {later : Stream} {next : Feed} {before : List UInt8} {sent : Nat}
    (mirrors : Mirrors limit sent before future feed stream)
    (handed : earlier ++ sink.written = stream.out.take (before.length + sent))
    (grows : stream.out <+: later.out) (onward : Mirrors limit sent before future next later) :
    Serving limit future earlier sink next later := by
  refine ⟨before, sent, onward, ?_⟩
  have written := mirrors.written
  have sent_le := written.sent
  obtain ⟨more, same⟩ := grows
  rw [handed, ← same, List.take_append_of_le_length]
  rw [written.out, List.length_append]
  omega

/-! ### Calls -/

def Served (limit : Nat) (future earlier : List UInt8) (room : Option Nat) (stream : Stream)
    (fed : Fed) : Prop :=
  (∀ bytes, room = some bytes → fed.written.length ≤ bytes) ∧
  match fed.outcome with
  | .ok (status, left) => ∃ later, Stream.Reaches limit stream later ∧
      Serving limit future earlier ⟨room, fed.written⟩ ⟨fed.inflater, left⟩ later ∧
      match status with
      | .outputFull => ∃ bytes, room = some bytes ∧ bytes ≤ fed.written.length
      | .streamEnd => later.state = .done ∧ earlier ++ fed.written = later.out
      | .needsInput => left = [] ∧ later.state ≠ .done ∧ earlier ++ fed.written = later.out ∧
          (future = [] → later.move limit = .ok none)
  | .error (.refused error) => fed.inflater.error = some error ∧
      ∃ later, Stream.Reaches limit stream later ∧ later.move limit = .error (.refused error) ∧
        earlier ++ fed.written <+: later.out
  | .error .panicked => False

theorem Served.after {room : Option Nat} {fed : Fed}
    (reaches : Stream.Reaches limit stream later)
    (served : Served limit future earlier room later fed) :
    Served limit future earlier room stream fed := by
  obtain ⟨within, outcome⟩ := served
  refine ⟨within, ?_⟩
  split at outcome
  · obtain ⟨last, more, serving, ends⟩ := outcome
    exact ⟨last, reaches.trans more, serving, ends⟩
  · obtain ⟨error, last, more, refused⟩ := outcome
    exact ⟨error, last, reaches.trans more, refused⟩
  · exact outcome

theorem Meets.cases {piece : Decoding Step} {ok : Step → Feed → Prop} {bad : Error → Feed → Prop}
    (meets : Meets piece feed ok bad) :
    (∃ step next, piece feed = .ok step next ∧ ok step next) ∨
      ∃ error next, piece feed = .error (.refused error) next ∧ bad error next := by
  rw [Meets] at meets
  split at meets
  · rename_i step next same
    exact Or.inl ⟨step, next, same, meets⟩
  · rename_i error next same
    exact Or.inr ⟨error, next, same, meets⟩
  · exact absurd meets id

theorem step_served {fast : Bool} {turns : Nat} {inflater : Inflater} {input : List UInt8}
    (rest : ∀ (inflater : Inflater) (input : List UInt8) (sink : Sink) (stream : Stream),
      sink.Within → Serving limit future earlier sink ⟨inflater, input⟩ stream →
      stream.budget future + 1 < turns ∨ stream.state = .done ∧ 0 < turns →
        Served limit future earlier sink.room stream (runLoop fast turns inflater input sink))
    (within : sink.Within)
    (serving : Serving limit future earlier sink ⟨inflater, input⟩ stream)
    (running : inflater.state ≠ .done) (roomy : ¬bufLen - inflater.window.length < slideRoom)
    (enough : stream.budget future + 1 < turns + 1 ∨ stream.state = .done ∧ 0 < turns + 1) :
    Served limit future earlier sink.room stream
      (match step fast { self := inflater, input } with
        | .ok .needsInput feed =>
          let (inflater, sink) := deliver feed.self sink
          ⟨inflater, sink.written,
            .ok (if inflater.delivered < inflater.window.length then .outputFull
              else .needsInput, feed.input)⟩
        | .ok .needsRoom feed => runLoop fast turns feed.self feed.input sink
        | .ok .done feed => runLoop fast turns feed.self feed.input sink
        | .error (.refused error) feed =>
          ⟨{ feed.self with error := some error }, sink.written, .error (.refused error)⟩
        | .error .panicked feed => ⟨feed.self, sink.written, .error .panicked⟩) := by
  have delivered := serving.prefix
  obtain ⟨before, sent, mirrors, handed⟩ := serving
  have reading : Reading limit sent before future (⟨inflater, input⟩ : Feed).self.nbits
      ⟨inflater, input⟩ stream := by
    rcases mirrors with reading | finished
    · exact reading
    · exact absurd finished.state running
  have ongoing := reading.control.running
  have more : stream.budget future < turns := by
    rcases enough with enough | ⟨done, -⟩
    · omega
    · exact absurd done ongoing
  rcases (step_turns fast reading).cases with ⟨result, next, stepped, turned⟩ |
    ⟨error, next, stepped, later, reaches, refused⟩
  · rw [stepped]
    cases result with
    | needsInput =>
      obtain ⟨left, later, reaches, read, stuck⟩ := turned
      have onward := Serving.step mirrors handed (reaches.onward reading.valid).2.2.1
        (Or.inl read)
      have given := onward.deliver
      have full := deliver_full next.self sink
      have kept := deliver_within next.self within
      dsimp only
      obtain ⟨last, last_eq⟩ : ∃ last, deliver next.self sink = last := ⟨_, rfl⟩
      have room : last.2.room = sink.room := by
        rw [← last_eq]
        rfl
      rw [last_eq] at given full kept ⊢
      rw [← room] at full ⊢
      refine ⟨kept, later, reaches, given, ?_⟩
      by_cases held : last.1.delivered < last.1.window.length
      · rw [if_pos held]
        exact full held
      · rw [if_neg held]
        exact ⟨left, read.control.running, given.all held, stuck⟩
    | needsRoom =>
      obtain ⟨later, reaches, read, full⟩ := turned
      have valid := reading.valid
      have onward := reaches.onward valid
      have serving := Serving.step mirrors handed onward.2.2.1 (Or.inl read)
      have grown : stream.out.length < later.out.length := by
        have slide : slideRoom = 16384 := rfl
        have here := congrArg List.length reading.written.out
        have there := congrArg List.length read.written.out
        rw [List.length_append] at here there
        dsimp only at here
        omega
      have more_moves : TransGen (Stream.Moves limit) stream later := by
        rcases ReflTransGen.cases_head reaches with same | ⟨first, moves, rest⟩
        · rw [same] at grown
          exact absurd grown (Nat.lt_irrefl _)
        · exact TransGen.head' moves rest
      have mirrored : Mirrors limit sent before future next later := Or.inl read
      have lower := budget_lt mirrors.unread mirrored.unread (measure_lt valid more_moves)
      exact (rest next.self next.input sink later within serving (Or.inl (by omega))).after reaches
    | done =>
      obtain ⟨later, reaches, finished⟩ := turned
      have onward := reaches.onward reading.valid
      have serving := Serving.step mirrors handed onward.2.2.1 (Or.inr finished)
      exact (rest next.self next.input sink later within serving
        (Or.inr ⟨finished.done, by omega⟩)).after reaches
  · rw [stepped]
    refine ⟨within, rfl, later, reaches, refused, ?_⟩
    exact delivered.trans (reaches.onward reading.valid).2.2.1

theorem runLoop_served (fast : Bool) (turns : Nat) (inflater : Inflater) (input : List UInt8)
    (sink : Sink) (stream : Stream) (within : sink.Within)
    (serving : Serving limit future earlier sink ⟨inflater, input⟩ stream)
    (enough : stream.budget future + 1 < turns ∨ stream.state = .done ∧ 0 < turns) :
    Served limit future earlier sink.room stream (runLoop fast turns inflater input sink) := by
  induction turns generalizing inflater input sink stream with
  | zero => omega
  | succ turns ih =>
    obtain ⟨handed, handed_eq⟩ : ∃ handed, deliver inflater sink = handed := ⟨_, rfl⟩
    have kept : handed.2.Within := by
      rw [← handed_eq]
      exact deliver_within inflater within
    have delivered := serving.deliver
    have full := deliver_full inflater sink
    have roomy : handed.2.room = sink.room := by
      rw [← handed_eq]
      rfl
    rw [handed_eq] at delivered full
    rw [runLoop, handed_eq]
    obtain ⟨inflater, sink⟩ := handed
    dsimp only at delivered full roomy kept ⊢
    rw [← roomy] at full ⊢
    split
    · rename_i held
      exact ⟨kept, stream, ReflTransGen.refl, delivered, full held⟩
    · rename_i all
      have out := delivered.all all
      split
      · rename_i done
        refine ⟨kept, stream, ReflTransGen.refl, delivered, ?_, out⟩
        obtain ⟨before, sent, mirrors, -⟩ := delivered
        rw [← mirrors.state]
        exact done
      · rename_i running
        obtain ⟨slid, slid_eq⟩ : ∃ slid, (if bufLen - inflater.window.length < slideRoom
          then inflater.slide else inflater) = slid := ⟨_, rfl⟩
        have roomier : ¬bufLen - slid.window.length < slideRoom := by
          rw [← slid_eq]
          split
          · exact slide_room inflater
          · assumption
        have opened : Serving limit future earlier sink ⟨slid, input⟩ stream := by
          rw [← slid_eq]
          split
          · exact delivered.slide all
          · exact delivered
        have going : slid.state ≠ .done := by
          rw [← slid_eq]
          split
          · rw [Inflater.slide]
            split <;> exact running
          · exact running
        rw [slid_eq]
        exact step_served ih kept opened going roomier enough

/-- Input at hand and input still to come are told apart only by the call. -/
theorem Mirrors.split (mirrors : Mirrors limit sent before [] feed stream)
    {input later : List UInt8} (same : feed.input = input ++ later) :
    Mirrors limit sent before later { feed with input } stream := by
  rcases mirrors with reading | finished
  · apply Or.inl
    refine ⟨?_, reading.written, reading.control⟩
    have held := reading.buffer
    constructor
    · exact held.buffer
    · exact held.least
    · exact held.few
    · rw [held.rest, same, List.append_nil]
    · rw [held.count, same, List.length_append, List.length_nil, Nat.add_zero]
  · apply Or.inr
    refine ⟨finished.state, finished.done, finished.written, finished.error, ?_, ?_⟩
    · rw [finished.rest, same, List.append_nil, List.append_assoc]
    · rw [finished.unread, same, List.append_nil, List.append_assoc]

theorem Mirrors.join (mirrors : Mirrors limit sent before future feed stream) :
    Mirrors limit sent before [] { feed with input := feed.input ++ future } stream := by
  rcases mirrors with reading | finished
  · apply Or.inl
    refine ⟨?_, reading.written, reading.control⟩
    have held := reading.buffer
    constructor
    · exact held.buffer
    · exact held.least
    · exact held.few
    · rw [held.rest, List.append_nil]
    · rw [held.count, List.length_append, List.length_nil, Nat.add_zero]
  · apply Or.inr
    refine ⟨finished.state, finished.done, finished.written, finished.error, ?_, ?_⟩
    · rw [finished.rest, List.append_nil, List.append_assoc]
    · rw [finished.unread, List.append_nil, List.append_assoc]

theorem Mirrors.no_error (mirrors : Mirrors limit sent before future feed stream) :
    feed.self.error = none := by
  rcases mirrors with reading | finished
  · exact reading.control.error
  · exact finished.error

theorem feed_served (fast : Bool) {inflater : Inflater} {input : List UInt8} (room : Option Nat)
    (serving : Serving limit future earlier ⟨room, []⟩ ⟨inflater, input⟩ stream) :
    Served limit future earlier room stream (inflater.feed fast input room) := by
  have enough : stream.budget future + 1 < 300 * (inflater.nbits + 8 * input.length + 1) + 2 ∨
      stream.state = .done ∧ 0 < 300 * (inflater.nbits + 8 * input.length + 1) + 2 := by
    obtain ⟨before, sent, reading | finished, -⟩ := serving
    · have rank := reading.valid.rank_le
      have count := reading.buffer.count
      left
      rw [Stream.budget]
      dsimp only at count
      omega
    · exact Or.inr ⟨finished.done, Nat.succ_pos _⟩
  have no_error : inflater.error = none := by
    obtain ⟨before, sent, mirrors, -⟩ := serving
    exact mirrors.no_error
  rw [Inflater.feed, no_error]
  exact runLoop_served fast _ inflater input ⟨room, []⟩ stream (fun _ _ => Nat.zero_le _) serving
    enough

end

/-! ### Sessions -/

/-- One call: how many bytes it is given, the room, and whether the fast loop may run. -/
structure Call where
  take : Nat
  room : Option Nat
  fast : Bool

structure Session where
  inflater : Inflater
  rest : List UInt8
  written : List UInt8
  last : Option (Except Fault Status)
deriving DecidableEq

namespace Session

def new (limit : Nat) (data : List UInt8) : Session where
  inflater := Inflater.new.setLimit limit
  rest := data
  written := []
  last := none

/-- The next call is given the bytes after the consumed ones. -/
def call (session : Session) (call : Call) : Session :=
  let fed := session.inflater.feed call.fast (session.rest.take call.take) call.room
  match fed.outcome with
  | .ok (status, left) =>
    { inflater := fed.inflater
      rest := left ++ session.rest.drop call.take
      written := session.written ++ fed.written
      last := some (.ok status) }
  | .error fault =>
    { session with
      inflater := fed.inflater
      written := session.written ++ fed.written
      last := some (.error fault) }

def run (limit : Nat) (data : List UInt8) (calls : List Call) : Session :=
  calls.foldl call (new limit data)

def verdict (session : Session) : Option Stream.Verdict :=
  match session.last with
  | some (.ok .streamEnd) => some .streamEnd
  | some (.ok .needsInput) => if session.rest = [] then some .needsInput else none
  | some (.error (.refused error)) => some (.refused error)
  | _ => none

/-- Bytes of the stream itself: those consumed but for the trailing ones. -/
def used (data : List UInt8) (session : Session) : Nat :=
  data.length - session.rest.length - session.inflater.trailing.length

structure Live (limit : Nat) (data : List UInt8) (session : Session) (stream : Stream) : Prop where
  reaches : Stream.Reaches limit (.new data) stream
  serving : Serving limit [] session.written ⟨none, []⟩ ⟨session.inflater, session.rest⟩ stream
  last : session.last = none ∨ ∃ status, session.last = some (.ok status)
  ended : session.last = some (.ok .streamEnd) →
    stream.state = .done ∧ session.written = stream.out
  waits : session.last = some (.ok .needsInput) → stream.state ≠ .done ∧
    session.written = stream.out ∧ (session.rest = [] → stream.move limit = .ok none)

structure Failed (limit : Nat) (data : List UInt8) (session : Session) (error : Error)
    (stream : Stream) : Prop where
  reaches : Stream.Reaches limit (.new data) stream
  refused : stream.move limit = .error (.refused error)
  written : session.written <+: stream.out
  kept : session.inflater.error = some error
  last : session.last = some (.error (.refused error))

def Follows (limit : Nat) (data : List UInt8) (session : Session) : Prop :=
  (∃ stream, Live limit data session stream) ∨ ∃ error stream, Failed limit data session error stream

/-! ### Following the data -/

section
variable {limit : Nat} {data : List UInt8} {session : Session}

theorem new_follows (limit : Nat) (data : List UInt8) : (new limit data).Follows limit data := by
  have written : Written limit 0 [] [] 0 0 limit [] := by
    refine ⟨rfl, rfl, Nat.zero_le _, Or.inl rfl, rfl, le_rfl, rfl⟩
  have buffer : Buffer [] 0 0 0 data (leValue data) (8 * data.length) := by
    constructor
    · rw [pow_zero, Nat.mod_one]
    · exact le_rfl
    · exact Nat.zero_le _
    · rw [pow_zero, Nat.div_one, List.append_nil]
    · rw [List.length_nil, Nat.add_zero, Nat.zero_add]
  have control : ((new limit data).inflater.control).Follows (.new data) :=
    ⟨rfl, rfl, fun fixed => absurd fixed (by simp [new, Inflater.control, Inflater.new,
      Inflater.setLimit]), rfl, rfl, ⟨rfl, rfl, rfl⟩, trivial, by simp [Stream.new]⟩
  refine Or.inl ⟨.new data, Relation.ReflTransGen.refl, ?_, Or.inl rfl, ?_, ?_⟩
  · exact ⟨[], 0, Or.inl ⟨buffer, written, control⟩, rfl⟩
  · intro impossible
    exact absurd impossible (by simp [new])
  · intro impossible
    exact absurd impossible (by simp [new])

theorem Live.served {stream : Stream} (live : session.Live limit data stream) (call : Call) :
    Served limit (session.rest.drop call.take) session.written call.room stream
      (session.inflater.feed call.fast (session.rest.take call.take) call.room) := by
  apply feed_served
  obtain ⟨before, sent, mirrors, handed⟩ := live.serving
  exact ⟨before, sent, mirrors.split (List.take_append_drop _ _).symm, handed⟩

theorem call_follows (follows : session.Follows limit data) (call : Call) :
    (session.call call).Follows limit data := by
  rcases follows with ⟨stream, live⟩ | ⟨error, stream, failed⟩
  · have served := live.served call
    obtain ⟨fed, fed_eq⟩ : ∃ fed, session.inflater.feed call.fast (session.rest.take call.take)
      call.room = fed := ⟨_, rfl⟩
    rw [fed_eq] at served
    obtain ⟨-, outcome⟩ := served
    rw [Session.call, fed_eq]
    split at outcome
    · rename_i status left same
      obtain ⟨later, reaches, ⟨before, sent, mirrors, handed⟩, ends⟩ := outcome
      rw [same]
      refine Or.inl ⟨later, live.reaches.trans reaches, ?_, Or.inr ⟨status, rfl⟩, ?_, ?_⟩
      · refine ⟨before, sent, mirrors.join, ?_⟩
        rw [List.append_nil]
        exact handed
      · intro done
        cases done
        exact ends
      · intro waits
        cases waits
        obtain ⟨rfl, running, out, stuck⟩ := ends
        exact ⟨running, out, stuck⟩
    · rename_i error same
      obtain ⟨kept, later, reaches, refused, written⟩ := outcome
      rw [same]
      exact Or.inr ⟨error, later, live.reaches.trans reaches, refused, written, kept, rfl⟩
    · exact absurd outcome id
  · have fed : session.inflater.feed call.fast (session.rest.take call.take) call.room
        = ⟨session.inflater, [], .error (.refused error)⟩ := by
      rw [Inflater.feed, failed.kept]
    rw [Session.call, fed]
    refine Or.inr ⟨error, stream, failed.reaches, failed.refused, ?_, failed.kept, rfl⟩
    rw [List.append_nil]
    exact failed.written

theorem calls_follow (calls : List Call) (session : Session)
    (follows : session.Follows limit data) : (calls.foldl call session).Follows limit data := by
  induction calls generalizing session with
  | nil => exact follows
  | cons call calls ih => exact ih (session.call call) (call_follows follows call)

theorem run_follows (limit : Nat) (data : List UInt8) (calls : List Call) :
    (run limit data calls).Follows limit data :=
  calls_follow calls _ (new_follows limit data)

structure Concluded (limit : Nat) (data : List UInt8) (session : Session)
    (verdict : Stream.Verdict) (stream : Stream) : Prop where
  reaches : Stream.Reaches limit (.new data) stream
  ends : stream.Ends limit verdict
  written : session.written <+: stream.out
  whole : (∀ error, verdict ≠ .refused error) → session.written = stream.out
  used : verdict = .streamEnd → session.used data = data.length - stream.unread / 8

theorem concluded {verdict : Stream.Verdict} (follows : session.Follows limit data)
    (ended : session.verdict = some verdict) :
    ∃ stream, session.Concluded limit data verdict stream := by
  rw [Session.verdict] at ended
  rcases follows with ⟨stream, live⟩ | ⟨error, stream, failed⟩
  · have written := live.serving.prefix
    rw [List.append_nil] at written
    rcases live.last with none | ⟨status, last⟩
    · rw [none] at ended
      exact absurd ended (by simp)
    · rw [last] at ended
      cases status with
      | outputFull => exact absurd ended (by simp)
      | streamEnd =>
        cases ended
        obtain ⟨done, out⟩ := live.ended last
        refine ⟨stream, live.reaches, done, written, fun _ => out, fun _ => ?_⟩
        obtain ⟨before, sent, mirrors, -⟩ := live.serving
        rcases mirrors with reading | finished
        · exact absurd done reading.control.running
        · rw [Session.used, finished.unread, List.length_append, List.length_append]
          dsimp only [List.length_nil]
          omega
      | needsInput =>
        dsimp only at ended
        split at ended
        · rename_i empty
          cases ended
          obtain ⟨running, out, stuck⟩ := live.waits last
          exact ⟨stream, live.reaches, ⟨running, stuck empty⟩, written, fun _ => out,
            fun impossible => absurd impossible (by simp)⟩
        · exact absurd ended (by simp)
  · rw [failed.last] at ended
    cases ended
    exact ⟨stream, failed.reaches, failed.refused, failed.written,
      fun other => absurd rfl (other error), fun impossible => absurd impossible (by simp)⟩

end

end Session

end Purrdf.Deflate

/-!
## Runs over the same data agree

However the input and the output space are cut, and whether the fast loop runs or not, a run
ends the way its data does. A refusal is the one verdict before which a run may have written
less than another: bytes still in the buffer are dropped with it.
-/

namespace Purrdf.Deflate.Session

variable {limit : Nat} {data : List UInt8}

theorem concluded_agree {session other : Session} {here there : Stream.Verdict}
    {stream later : Stream} (first : session.Concluded limit data here stream)
    (second : other.Concluded limit data there later) :
    here = there ∧ (here = .streamEnd → session.used data = other.used data) ∧
      ((∀ error, here ≠ .refused error) → session.written = other.written) ∧
      (session.written <+: other.written ∨ other.written <+: session.written) := by
  have same := Stream.Reaches.unique first.reaches second.reaches first.ends second.ends
  subst same
  have verdict := first.ends.unique second.ends
  subst verdict
  refine ⟨rfl, ?_, ?_, List.prefix_or_prefix_of_prefix first.written second.written⟩
  · intro ended
    rw [first.used ended, second.used ended]
  · intro accepted
    rw [first.whole accepted, second.whole accepted]

structure Proceeds (session : Session) (call : Call) (next : Session) : Prop where
  safe : next.last ≠ some (.error .panicked)
  waits : next.last = some (.ok .needsInput) → next.rest = session.rest.drop call.take
  fills : next.last = some (.ok .outputFull) →
    ∃ bytes, call.room = some bytes ∧ next.written.length = session.written.length + bytes

theorem Follows.proceeds {session : Session} (follows : session.Follows limit data)
    (call : Call) : session.Proceeds call (session.call call) := by
  rcases follows with ⟨stream, live⟩ | ⟨error, stream, failed⟩
  · have served := live.served call
    obtain ⟨fed, fed_eq⟩ : ∃ fed, session.inflater.feed call.fast (session.rest.take call.take)
      call.room = fed := ⟨_, rfl⟩
    rw [fed_eq] at served
    obtain ⟨within, outcome⟩ := served
    rw [Session.call, fed_eq]
    split at outcome
    · rename_i status left same
      obtain ⟨later, -, -, ends⟩ := outcome
      rw [same]
      constructor
      · simp
      · intro waits
        cases waits
        obtain ⟨rfl, -⟩ := ends
        rfl
      · intro full
        cases full
        obtain ⟨bytes, room, enough⟩ := ends
        refine ⟨bytes, room, ?_⟩
        rw [List.length_append, Nat.le_antisymm (within bytes room) enough]
    · rename_i error same
      rw [same]
      constructor <;> simp
    · exact absurd outcome id
  · have fed : session.inflater.feed call.fast (session.rest.take call.take) call.room
        = ⟨session.inflater, [], .error (.refused error)⟩ := by
      rw [Inflater.feed, failed.kept]
    rw [Session.call, fed]
    constructor <;> simp

/-- Runs over the same data that come to an end agree, and every call proceeds. -/
theorem runs_agree (limit : Nat) (data : List UInt8) (calls others : List Call) :
    (∀ here there, (run limit data calls).verdict = some here →
      (run limit data others).verdict = some there →
        here = there ∧
        (here = .streamEnd → (run limit data calls).used data = (run limit data others).used data) ∧
        ((∀ error, here ≠ .refused error) →
          (run limit data calls).written = (run limit data others).written) ∧
        ((run limit data calls).written <+: (run limit data others).written ∨
          (run limit data others).written <+: (run limit data calls).written)) ∧
    ∀ call, (run limit data calls).Proceeds call ((run limit data calls).call call) := by
  constructor
  · intro here there ended ended'
    obtain ⟨stream, first⟩ := concluded (run_follows limit data calls) ended
    obtain ⟨later, second⟩ := concluded (run_follows limit data others) ended'
    exact concluded_agree first second
  · exact (run_follows limit data calls).proceeds

/-- A stored byte, then a block of no known type. -/
def refusedData : List UInt8 := [0x00, 1, 0, 0xfe, 0xff, 65, 7]

/-- Fed whole, the byte before the refusal is lost; fed in two pieces, it is written. -/
theorem runs_differ :
    (run 100 refusedData [⟨7, none, true⟩]).verdict = some (.refused .invalidBlockType) ∧
    (run 100 refusedData [⟨7, none, true⟩]).written = [] ∧
    (run 100 refusedData [⟨6, none, true⟩, ⟨1, none, true⟩]).verdict
      = some (.refused .invalidBlockType) ∧
    (run 100 refusedData [⟨6, none, true⟩, ⟨1, none, true⟩]).written = [65] := by
  decide +kernel

/-- One stored byte, whole and bit by bit of room. -/
theorem runs_agree_stored :
    (run 100 [1, 1, 0, 0xfe, 0xff, 65] [⟨6, none, true⟩]).written
      = (run 100 [1, 1, 0, 0xfe, 0xff, 65]
          [⟨3, some 0, true⟩, ⟨9, some 0, false⟩, ⟨9, some 1, false⟩]).written := by
  have agree := (runs_agree 100 [1, 1, 0, 0xfe, 0xff, 65] [⟨6, none, true⟩]
    [⟨3, some 0, true⟩, ⟨9, some 0, false⟩, ⟨9, some 1, false⟩]).1 .streamEnd .streamEnd
      (by decide +kernel) (by decide +kernel)
  exact agree.2.2.1 (by simp)

end Purrdf.Deflate.Session
