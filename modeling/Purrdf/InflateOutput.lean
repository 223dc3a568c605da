import Purrdf.InflateTurns

/-!
# Decoding into the window

The room a turn may write into ends at the limit or at the end of the buffer. Stored bytes are
copied from the bit buffer and then from the input, and a block leaves its last bits behind.
-/

namespace Purrdf.Deflate

open Relation

/-! ### Room -/

structure Room (limit stop : Nat) (limited : Bool) (written decoded : Nat) : Prop where
  inside : written ≤ stop
  stop_le : stop ≤ bufLen
  free : written = stop ∨ decoded + (stop - written) ≤ limit
  limited_end : limited = true → limit ≤ decoded + (stop - written)
  buffer_end : limited = false → stop = bufLen

section
variable {limit sent stop written decoded : Nat} {limited : Bool} {before future : List UInt8}
  {feed : Feed} {stream later : Stream}

theorem Written.totalOut {self : Inflater}
    (written : Written limit sent before self.window self.base self.delivered self.limit
      stream.out) : self.totalOut = stream.out.length := by
  rw [Inflater.totalOut, written.base, written.out, List.length_append]

theorem Written.outEnd {self : Inflater}
    (written : Written limit sent before self.window self.base self.delivered self.limit
      stream.out) :
    Room limit self.outEnd.1 self.outEnd.2 self.window.length stream.out.length := by
  have room := written.room
  rw [Inflater.outEnd, written.totalOut, written.limit]
  split
  · constructor
    · exact Nat.le_add_right _ _
    · dsimp only
      omega
    · dsimp only
      omega
    · dsimp only
      omega
    · intro off
      exact absurd off (by simp)
  · constructor
    · exact room
    · exact le_rfl
    · dsimp only
      omega
    · intro off
      exact absurd off (by simp)
    · intro _
      rfl

theorem Room.grow (room : Room limit stop limited written decoded) {more : Nat}
    (fits : written + more ≤ stop) : Room limit stop limited (written + more) (decoded + more) := by
  have free := room.free
  constructor
  · exact fits
  · exact room.stop_le
  · omega
  · intro on
    have ends := room.limited_end on
    omega
  · exact room.buffer_end

theorem Room.below (room : Room limit stop limited written decoded) (more : written < stop) :
    decoded < limit := by
  have free := room.free
  omega

theorem outOfRoom_turns
    (reading : Reading limit sent before future feed.self.nbits feed stream)
    (room : Room limit stop limited feed.self.window.length stream.out.length)
    (full : feed.self.window.length = stop)
    (refuses : limit ≤ stream.out.length →
      stream.move limit = .error (.refused (.limitExceeded limit))) :
    Meets (outOfRoom limited) feed (Turned limit sent before future stream)
      (Refused limit stream) := by
  rw [outOfRoom, meets_bind, meets_get]
  cases limited with
  | true =>
    have ends := room.limited_end rfl
    rw [if_pos rfl, reading.written.limit]
    apply meets_refused
    apply refuses
    omega
  | false =>
    have ends := room.buffer_end rfl
    rw [if_neg (by simp), meets_pure]
    exact ⟨stream, ReflTransGen.refl, reading, full.trans ends⟩

theorem Written.append {window out : List UInt8} {base delivered cap : Nat}
    (written : Written limit sent before window base delivered cap out) {bytes : List UInt8}
    (fits : window.length + bytes.length ≤ bufLen) :
    Written limit sent before (window ++ bytes) base delivered cap (out ++ bytes) := by
  constructor
  · rw [written.out, List.append_assoc]
  · exact written.base
  · rw [List.length_append]
    exact fits
  · rw [List.length_append]
    rcases written.history with none | some
    · exact Or.inl none
    · exact Or.inr (some.trans (Nat.le_add_right _ _))
  · exact written.delivered
  · rw [List.length_append]
    exact written.sent.trans (Nat.le_add_right _ _)
  · exact written.limit

/-! ### The end of a block -/

/-- The decoder with some trailing bytes and nothing buffered. -/
def Feed.withTrailing (feed : Feed) (trailing : List UInt8) (bitbuf : Nat) : Feed :=
  { feed with self := { feed.self with trailing, bitbuf, nbits := 0 } }

theorem byte_value (bits : Nat) : (UInt8.ofNat (bits % 2 ^ 8)).toNat = bits % 256 := by
  rw [UInt8.toNat_ofNat']
  omega

def Feed.withKept (feed : Feed) (trailing : List UInt8) : Feed :=
  { feed with self := { feed.self with trailing } }

theorem keepTrailing_spec (bad : Error → Feed → Prop) (bytes : Nat) (feed : Feed)
    (exact bits unread : Nat)
    (held : Buffer future exact feed.self.bitbuf feed.self.nbits feed.input bits unread)
    (whole : feed.self.nbits = 8 * bytes) (room : feed.self.trailing.length + bytes ≤ 7) :
    Meets (keepTrailing bytes) feed (fun _ next => ∃ kept bitbuf,
      next = feed.withTrailing (feed.self.trailing ++ kept) bitbuf ∧
      bits = leValue (kept ++ feed.input ++ future) ∧ kept.length = bytes) bad := by
  induction bytes generalizing feed exact bits unread with
  | zero =>
    rw [keepTrailing, meets_pure]
    have rest := held.rest
    rw [whole, Nat.mul_zero, pow_zero, Nat.div_one] at rest
    refine ⟨[], feed.self.bitbuf, ?_, rest, rfl⟩
    have none : feed.self.nbits = 0 := by omega
    rw [Feed.withTrailing, List.append_nil, ← none]
  | succ bytes ih =>
    have eight : 8 ≤ feed.self.nbits := by omega
    have low : feed.self.bitbuf % 2 ^ 8 = bits % 2 ^ 8 := held.low eight
    rw [keepTrailing, meets_bind, meets_get, if_pos (by omega), meets_bind, meets_update,
      meets_bind]
    change Meets (consume 8)
      (feed.withKept (feed.self.trailing ++ [UInt8.ofNat (feed.self.bitbuf % 2 ^ 8)])) _ _
    have kept : 8 ≤ (feed.withKept (feed.self.trailing
        ++ [UInt8.ofNat (feed.self.bitbuf % 2 ^ 8)])).self.nbits := eight
    refine (meets_consume kept).mpr ?_
    have next := ih ((feed.withKept (feed.self.trailing
        ++ [UInt8.ofNat (feed.self.bitbuf % 2 ^ 8)])).load (feed.self.bitbuf / 2 ^ 8)
          (feed.self.nbits - 8) feed.input) (exact - 8) (bits / 2 ^ 8) (unread - 8)
      (held.consume eight) (by simp only [Feed.load, Feed.withKept]; omega) (by
        simp only [Feed.load, Feed.withKept, List.length_append, List.length_singleton]
        omega)
    apply next.mono
    · rintro - last ⟨kept, bitbuf, same, value, length⟩
      refine ⟨UInt8.ofNat (bits % 2 ^ 8) :: kept, bitbuf, ?_, ?_, ?_⟩
      · rw [same, ← low]
        simp [Feed.withTrailing, Feed.load, Feed.withKept]
      · change bits = (UInt8.ofNat (bits % 2 ^ 8)).toNat + 256 * leValue (kept ++ feed.input ++ future)
        change bits / 2 ^ 8 = leValue (kept ++ feed.input ++ future) at value
        rw [byte_value, ← value]
        omega
      · rw [List.length_cons, length]
    · intro error last refused
      exact refused

theorem afterBlock_spec (bad : Error → Feed → Prop)
    (reading : Reading limit sent before future feed.self.nbits feed stream) :
    Meets afterBlock feed (fun step next => step = none ∧
      Mirrors limit sent before future next stream.leaveBlock) bad := by
  have control := reading.control
  have same : feed.self.block = stream.block := control.block
  have count := reading.buffer.count
  have few := reading.buffer.few
  rw [Stream.leaveBlock, afterBlock, meets_bind, meets_get, same]
  split
  · rw [meets_bind]
    have partial_le := Nat.mod_le feed.self.nbits 8
    refine (meets_consume partial_le).mpr ?_
    rw [meets_bind, meets_update, meets_bind]
    have held := reading.buffer.consume partial_le
    have whole : feed.self.nbits - feed.self.nbits % 8 = 8 * (feed.self.nbits / 8) := by omega
    have kept := keepTrailing_spec bad (feed.self.nbits / 8)
      ((feed.load (feed.self.bitbuf / 2 ^ (feed.self.nbits % 8))
        (feed.self.nbits - feed.self.nbits % 8) feed.input).withKept [])
      (feed.self.nbits - feed.self.nbits % 8) (stream.bits / 2 ^ (feed.self.nbits % 8))
      (stream.unread - feed.self.nbits % 8) held whole (by
        simp only [Feed.withKept, List.length_nil]
        omega)
    apply kept.mono
    · rintro - next ⟨kept, bitbuf, rfl, value, length⟩
      rw [meets_bind, meets_update, meets_become]
      have skipped : feed.self.nbits % 8 = stream.unread % 8 := by omega
      rw [skipped] at value
      refine ⟨rfl, Or.inr ⟨rfl, rfl, reading.written, control.error, value, ?_⟩⟩
      change stream.unread - stream.unread % 8 = 8 * (kept ++ feed.input ++ future).length
      rw [List.length_append, List.length_append, length]
      omega
    · intro error next refused
      exact refused
  · rw [meets_become]
    exact ⟨rfl, Or.inl (reading.enter trivial (by simp))⟩

theorem afterBlock_turns
    (reading : Reading limit sent before future feed.self.nbits feed later)
    (moves : stream.move limit = .ok (some later.leaveBlock)) :
    Meets afterBlock feed (Turned limit sent before future stream) (Refused limit stream) := by
  apply (afterBlock_spec (Refused limit stream) reading).mono
  · rintro step next ⟨rfl, mirrors⟩
    exact Turned.goes moves mirrors
  · intro error next refused
    exact refused

/-! ### Stored bytes -/

/-- Part of a stored block has been copied, though the decoder's state says where it began. -/
def Drained (limit sent : Nat) (before future : List UInt8) (stop : Nat) (limited : Bool)
    (stream : Stream) (left : Nat) (feed : Feed) : Prop :=
  ∃ later remaining, later.state = .stored remaining ∧
    Stream.Reaches limit stream (later.enter (.stored left)) ∧
    Reading limit sent before future feed.self.nbits feed later ∧
    Room limit stop limited feed.self.window.length later.out.length

theorem Drained.byte {left : Nat} (byte : UInt8) (bitbuf nbits : Nat) (input : List UInt8)
    (drained : Drained limit sent before future stop limited stream (left + 1) feed)
    (room : feed.self.window.length < stop)
    (held : ∀ bits unread,
      Buffer future feed.self.nbits feed.self.bitbuf feed.self.nbits feed.input bits unread →
        byte = UInt8.ofNat (bits % 2 ^ 8) ∧ 8 ≤ unread ∧
          Buffer future nbits bitbuf nbits input (bits / 2 ^ 8) (unread - 8)) :
    Drained limit sent before future stop limited stream left
      ((feed.withWindow (feed.self.window ++ [byte])).load bitbuf nbits input) := by
  obtain ⟨later, remaining, state, reaches, reading, fits⟩ := drained
  obtain ⟨rfl, enough, buffer⟩ := held _ _ reading.buffer
  have control := reading.control
  have sound := control.sound
  have stop_le := fits.stop_le
  simp only [Stream.Sound, state] at sound
  refine ⟨(later.emit (later.bits % 2 ^ 8)).drop 8, remaining, state, ?_, ⟨buffer, ?_, ?_⟩, ?_⟩
  · apply reaches.tail
    have below : ¬limit ≤ (later.enter (.stored (left + 1))).out.length :=
      Nat.not_le.mpr (fits.below room)
    have ready : ¬(later.enter (.stored (left + 1))).unread < 8 := Nat.not_lt.mpr enough
    change Stream.moveStored limit (later.enter (.stored (left + 1))) (left + 1) = _
    rw [Stream.moveStored, if_neg below, if_neg ready]
    rfl
  · apply reading.written.append
    rw [List.length_singleton]
    omega
  · refine ⟨control.state, control.block, control.fixed, control.trailing, control.error,
      control.widths, ?_, control.running⟩
    simp only [Stream.Sound, Stream.drop, Stream.emit, state]
    omega
  · have next : feed.self.window.length + 1 ≤ stop := room
    have grown := fits.grow next
    simpa [Feed.load, Feed.withWindow, Stream.drop, Stream.emit] using grown

/-- Bytes still in the bit buffer are copied while there is room. -/
theorem drainStored_spec (bad : Error → Feed → Prop) (left : Nat) (feed : Feed)
    (drained : Drained limit sent before future stop limited stream left feed) :
    Meets (drainStored stop left) feed (fun left next =>
      Drained limit sent before future stop limited stream left next ∧
        (8 ≤ next.self.nbits → left ≠ 0 → next.self.window.length = stop)) bad := by
  induction left generalizing feed with
  | zero =>
    rw [drainStored, meets_pure]
    exact ⟨drained, fun _ some => absurd rfl some⟩
  | succ left ih =>
    have inside : feed.self.window.length ≤ stop ∧ stop ≤ bufLen := by
      obtain ⟨later, remaining, -, -, -, fits⟩ := drained
      exact ⟨fits.inside, fits.stop_le⟩
    rw [drainStored, meets_bind, meets_get]
    split
    · rename_i ready
      obtain ⟨eight, room⟩ := ready
      rw [meets_bind]
      have slack : feed.self.window.length < bufLen + copySlack := by omega
      refine (meets_push slack).mpr ?_
      rw [meets_bind]
      have kept : 8 ≤ (feed.withWindow
        (feed.self.window ++ [UInt8.ofNat (feed.bits 8)])).self.nbits := eight
      refine (meets_consume kept).mpr ?_
      apply ih
      apply drained.byte _ _ _ _ room
      intro bits unread held
      have count := held.count
      have low : feed.bits 8 = bits % 2 ^ 8 := held.low eight
      rw [low]
      exact ⟨rfl, by omega, held.consume eight⟩
    · rename_i stopped
      rw [meets_pure]
      refine ⟨drained, fun eight _ => ?_⟩
      by_contra short
      exact stopped ⟨eight, by omega⟩

/-- The decoder with some input bytes copied to its window. -/
def Feed.copied (feed : Feed) (n : Nat) : Feed :=
  { self := { feed.self with window := feed.self.window ++ feed.input.take n },
    input := feed.input.drop n }

theorem Drained.copied {left : Nat} (n : Nat) (feed : Feed)
    (drained : Drained limit sent before future stop limited stream (left + n) feed)
    (none : feed.self.nbits = 0) (some : n ≤ feed.input.length)
    (room : feed.self.window.length + n ≤ stop) :
    Drained limit sent before future stop limited stream left (feed.copied n) := by
  induction n generalizing feed with
  | zero =>
    have same : feed.copied 0 = feed := by
      simp [Feed.copied]
    rwa [same]
  | succ n ih =>
    cases input : feed.input with
    | nil =>
      rw [input] at some
      exact absurd some (by simp)
    | cons byte rest =>
      rw [input, List.length_cons] at some
      have next := drained.byte byte 0 0 rest (by omega) (by
          intro bits unread held
          have value := held.rest
          have count := held.count
          have small := byte.toNat_lt
          rw [input, none, pow_zero, Nat.div_one] at value
          rw [input, List.length_cons] at count
          change bits = byte.toNat + 256 * leValue (rest ++ future) at value
          have low : bits % 2 ^ 8 = byte.toNat := by omega
          refine ⟨?_, by omega, ?_⟩
          · rw [low, UInt8.ofNat_toNat]
          · constructor
            · rw [pow_zero, Nat.mod_one]
            · exact le_rfl
            · exact Nat.zero_le _
            · omega
            · omega)
      have whole := ih _ next rfl (Nat.le_of_succ_le_succ some) (by
        simp only [Feed.load, Feed.withWindow, List.length_append, List.length_singleton]
        omega)
      have empty : feed.self.bitbuf = 0 := by
        obtain ⟨later, remaining, -, -, reading, -⟩ := drained
        have buffer := reading.buffer.buffer
        rwa [none, pow_zero, Nat.mod_one] at buffer
      have same : feed.copied (n + 1) = ((feed.withWindow
          (feed.self.window ++ [byte])).load 0 0 rest).copied n := by
        simp [Feed.copied, Feed.load, Feed.withWindow, input, none, empty]
      rwa [same]

theorem copyStored_spec (bad : Error → Feed → Prop) {left : Nat}
    (drained : Drained limit sent before future stop limited stream left feed)
    (stopped : 8 ≤ feed.self.nbits → left ≠ 0 → feed.self.window.length = stop) :
    Meets (copyStored stop left) feed (fun left next =>
      Drained limit sent before future stop limited stream left next ∧
        (left ≠ 0 → next.self.window.length = stop ∨ next.self.nbits = 0 ∧ next.input = [])) bad := by
  rw [copyStored, meets_bind, meets_get]
  split
  · rename_i few
    have inside : feed.self.window.length ≤ stop ∧ feed.self.nbits = 0 := by
      obtain ⟨later, remaining, state, -, reading, fits⟩ := drained
      have sound := reading.control.sound
      have count := reading.buffer.count
      simp only [Stream.Sound, state] at sound
      exact ⟨fits.inside, by omega⟩
    obtain ⟨inside, none⟩ := inside
    obtain ⟨n, n_eq⟩ : ∃ n, min (min left feed.input.length) (stop - feed.self.window.length) = n :=
      ⟨_, rfl⟩
    dsimp only
    rw [n_eq, meets_bind, meets_set, meets_pure]
    have whole : left - n + n = left := by omega
    rw [← whole] at drained
    refine ⟨drained.copied n feed none (by omega) (by omega), fun more => ?_⟩
    by_cases full : feed.self.window.length + n = stop
    · apply Or.inl
      change (feed.self.window ++ feed.input.take n).length = stop
      rw [List.length_append, List.length_take]
      omega
    · refine Or.inr ⟨none, ?_⟩
      change feed.input.drop n = []
      rw [List.drop_eq_nil_iff]
      omega
  · rename_i many
    rw [meets_pure]
    exact ⟨drained, fun more => Or.inl (stopped (Nat.not_lt.mp many) more)⟩

theorem storedRest_turns {left : Nat}
    (reading : Reading limit sent before future feed.self.nbits feed stream)
    (state : stream.state = .stored (left + 1))
    (room : Room limit stop limited feed.self.window.length stream.out.length)
    (stopped : feed.self.window.length = stop ∨ feed.self.nbits = 0 ∧ feed.input = []) :
    Meets (get >>= fun feed : Feed => if feed.self.window.length = stop then outOfRoom limited
        else pure (some .needsInput)) feed (Turned limit sent before future stream)
      (Refused limit stream) := by
  have moves : stream.move limit = stream.moveStored limit (left + 1) := by
    rw [Stream.move, state]
  rw [Stream.moveStored] at moves
  rw [meets_bind, meets_get]
  split
  · rename_i full
    apply outOfRoom_turns reading room full
    intro excess
    rw [moves, if_pos excess]
    rfl
  · rename_i short
    obtain ⟨none, input⟩ := stopped.resolve_left short
    rw [meets_pure]
    apply Turned.waits reading input
    intro nil
    have below := room.below (Nat.lt_of_le_of_ne room.inside short)
    have count := reading.buffer.count
    have few : stream.unread < 8 := by
      rw [count, none, input, nil]
      simp
    rw [moves, if_neg (Nat.not_le.mpr below), if_pos few]

theorem stepStored_turns {remaining : Nat}
    (reading : Reading limit sent before future feed.self.nbits feed stream)
    (state : stream.state = .stored remaining) :
    Meets (stepStored remaining) feed (Turned limit sent before future stream)
      (Refused limit stream) := by
  have room := reading.written.outEnd
  obtain ⟨⟨stop, limited⟩, ends⟩ : ∃ ends, feed.self.outEnd = ends := ⟨_, rfl⟩
  rw [ends] at room
  change Room limit stop limited _ _ at room
  have start : Stream.Reaches limit stream (stream.enter (.stored remaining)) := by
    rw [Stream.enter, ← state]
    exact ReflTransGen.refl
  rw [stepStored, meets_bind, meets_get, ends]
  dsimp only
  rw [meets_bind]
  apply (drainStored_spec (Refused limit stream) remaining feed
    ⟨stream, remaining, state, start, reading, room⟩).mono
  · rintro left next ⟨drained, stopped⟩
    rw [meets_bind]
    apply (copyStored_spec (Refused limit stream) drained stopped).mono
    · rintro left next ⟨⟨later, remaining, state, reaches, reading, room⟩, stopped⟩
      split
      · rename_i all
        subst all
        exact (afterBlock_turns reading rfl).after reaches
      · rename_i more
        have control := reading.control
        have sound := control.sound
        simp only [Stream.Sound, state] at sound
        have entered : Reading limit sent before future (next.withState (.stored left)).self.nbits
            (next.withState (.stored left)) (later.enter (.stored left)) :=
          reading.enter sound (by simp)
        obtain ⟨left, rfl⟩ := Nat.exists_eq_succ_of_ne_zero more
        rw [meets_bind, meets_update]
        have rest := storedRest_turns entered rfl room (stopped more)
        exact rest.after reaches
    · intro error next refused
      exact refused
  · intro error next refused
    exact refused

/-! ### Match copies -/

def Stream.copied (stream : Stream) (distance n left : Nat) : Stream :=
  { stream with out := appendCopy distance n stream.out, state := .copy left distance }

theorem copied_reaches {distance left : Nat} (n : Nat) (stream : Stream)
    (state : stream.state = .copy (left + n) distance) (fits : 0 < n → stream.out.length + n ≤ limit) :
    Stream.Reaches limit stream (stream.copied distance n left) := by
  induction n generalizing stream with
  | zero =>
    have same : stream.copied distance 0 left = stream := by
      rw [Nat.add_zero] at state
      rw [Stream.copied, ← state]
      rfl
    rw [same]
    exact ReflTransGen.refl
  | succ n ih =>
    have room := fits (Nat.succ_pos n)
    have moves : stream.Moves limit
        { stream with
          out := stream.out ++ [Stream.back stream.out distance]
          state := .copy (left + n) distance } := by
      have below : ¬limit ≤ stream.out.length := by omega
      rw [Stream.Moves, Stream.move, state]
      change stream.moveCopy limit distance (left + n + 1) = _
      rw [Stream.moveCopy, if_neg below]
    refine ReflTransGen.head moves (ih _ rfl fun _ => ?_)
    rw [List.length_append, List.length_singleton]
    omega

theorem Written.inside {window out : List UInt8} {base delivered cap distance : Nat}
    (written : Written limit sent before window base delivered cap out)
    (near : distance ≤ windowSize) (decoded : distance ≤ out.length) :
    distance ≤ window.length := by
  rcases written.history with none | some
  · rw [written.out, none] at decoded
    exact decoded
  · exact near.trans some

theorem Written.copied {window out : List UInt8} {base delivered cap distance n : Nat}
    (written : Written limit sent before window base delivered cap out) (positive : 1 ≤ distance)
    (inside : distance ≤ window.length) (fits : window.length + n ≤ bufLen) :
    Written limit sent before (appendCopy distance n window) base delivered cap
      (appendCopy distance n out) := by
  have tiled : window.length + (tile window distance n).length ≤ bufLen := by
    rwa [tile_length]
  have grown := written.append tiled
  have out_eq : appendCopy distance n out = out ++ tile window distance n := by
    rw [written.out, appendCopy_append before positive inside, appendCopy_eq positive inside,
      List.append_assoc]
  rwa [out_eq, appendCopy_eq positive inside]

theorem Reading.copied {exact distance : Nat} (n left : Nat)
    (reading : Reading limit sent before future exact feed stream) (tables : stream.block.Tables)
    (positive : 1 ≤ distance) (near : distance ≤ windowSize)
    (decoded : distance ≤ stream.out.length) (few : left ≤ maxMatch)
    (fits : feed.self.window.length + n ≤ bufLen) :
    Reading limit sent before future exact
      ((feed.withWindow (appendCopy distance n feed.self.window)).withState (.copy left distance))
      (stream.copied distance n left) := by
  have control := reading.control
  have inside := reading.written.inside near decoded
  refine ⟨reading.buffer, reading.written.copied positive inside fits, ?_⟩
  refine ⟨rfl, control.block, control.fixed, control.trailing, control.error, control.widths, ?_,
    by simp [Stream.copied]⟩
  refine ⟨tables, few, positive, near, ?_⟩
  change distance ≤ (appendCopy distance n stream.out).length
  rw [appendCopy_length]
  omega

theorem meets_copySome {distance n : Nat} (positive : 1 ≤ distance)
    (inside : distance ≤ feed.self.window.length) (fits : feed.self.window.length + n ≤ bufLen)
    {ok : Unit → Feed → Prop} {bad : Error → Feed → Prop} :
    Meets (actIf (0 < n) (copyMatch distance n)) feed ok bad
      ↔ ok () (feed.withWindow (appendCopy distance n feed.self.window)) := by
  rw [meets_actIf]
  cases n with
  | zero => exact Iff.rfl
  | succ n =>
    rw [if_pos (by simp)]
    exact meets_copyMatch positive inside fits

theorem stepCopy_turns {length distance : Nat}
    (reading : Reading limit sent before future feed.self.nbits feed stream)
    (state : stream.state = .copy length distance) :
    Meets (stepCopy length distance) feed (Turned limit sent before future stream)
      (Refused limit stream) := by
  have room := reading.written.outEnd
  have sound := reading.control.sound
  simp only [Stream.Sound, state] at sound
  obtain ⟨tables, few, positive, near, decoded⟩ := sound
  have inside := reading.written.inside near decoded
  obtain ⟨⟨stop, limited⟩, ends⟩ : ∃ ends, feed.self.outEnd = ends := ⟨_, rfl⟩
  rw [ends] at room
  change Room limit stop limited _ _ at room
  have written_le := room.inside
  have stop_le := room.stop_le
  have free := room.free
  obtain ⟨n, n_eq⟩ : ∃ n, min length (stop - feed.self.window.length) = n := ⟨_, rfl⟩
  have fits : feed.self.window.length + n ≤ bufLen := by omega
  have copied := reading.copied n (length - n) tables positive near decoded (by omega) fits
  have whole : length - n + n = length := by omega
  have reaches : Stream.Reaches limit stream (stream.copied distance n (length - n)) := by
    apply copied_reaches n stream
    · rw [whole, state]
    · intro some
      omega
  rw [stepCopy, meets_bind, meets_get, ends]
  dsimp only
  rw [n_eq, meets_bind]
  refine (meets_copySome positive inside fits).mpr ?_
  split
  · rename_i all
    rw [all] at copied reaches
    rw [meets_become]
    refine ⟨(stream.copied distance n 0).enter .symbols, ?_, Or.inl ?_⟩
    · exact TransGen.tail' reaches rfl
    · exact copied.enter tables (by simp)
  · rename_i more
    obtain ⟨left, left_eq⟩ := Nat.exists_eq_succ_of_ne_zero more
    rw [left_eq] at copied reaches ⊢
    rw [meets_bind, meets_update]
    have grown : feed.self.window.length + n ≤ stop := by omega
    have full : (appendCopy distance n feed.self.window).length = stop := by
      rw [appendCopy_length]
      omega
    have later := room.grow grown
    rw [← appendCopy_length distance n feed.self.window,
      ← appendCopy_length distance n stream.out] at later
    refine Meets.after reaches (outOfRoom_turns copied later full ?_)
    intro excess
    change Stream.moveCopy limit (stream.copied distance n (left + 1)) distance (left + 1) = _
    rw [Stream.moveCopy, if_pos excess]
    rfl

end

end Purrdf.Deflate
