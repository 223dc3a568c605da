import Purrdf.InflateSymbols

/-!
# The fast symbol loop

While eight input bytes and the room for a longest match remain, the loop decodes symbols from
a buffer whose upper bits are a copy of input it has not consumed. It takes the stream through
the same steps.
-/

namespace Purrdf.Deflate

open Relation

section
variable {limit sent stop : Nat} {before future : List UInt8} {feed : Feed} {stream : Stream}
  {entry : Entry} {α : Type} {ok : α → Feed → Prop} {bad : Error → Feed → Prop} {exact : Nat}

theorem refilled (reading : Reading limit sent before future exact feed stream)
    (eight : 8 ≤ feed.input.length) {rest : Unit → Decoding α}
    (go : ∀ next, Reading limit sent before future 64 next stream → 56 ≤ next.self.nbits →
      next.self.window = feed.self.window → Meets (rest ()) next ok bad) :
    Meets (refill >>= rest) feed ok bad := by
  have few := reading.buffer.few
  rw [refill, meets_bind, meets_bind, meets_get, meets_set]
  apply go
  · exact ⟨reading.buffer.refill eight, reading.written, reading.control⟩
  · change 56 ≤ feed.self.nbits + (63 - feed.self.nbits) / 8 * 8
    omega
  · rfl

theorem lookedUp {table : DecodeTable} {kind : Kind} (sound : table.Sound kind)
    (reading : Reading limit sent before future exact feed stream) (many : 15 ≤ feed.self.nbits)
    {rest : Entry → Decoding α}
    (go : ∀ entry, entry.bits ≤ 15 → Stands table kind stream.bits entry →
      Meets (rest entry) feed ok bad) :
    Meets (found table >>= rest) feed ok bad := by
  obtain ⟨lengths, width, decodes⟩ := sound.decodes
  obtain ⟨entry, here, -, few⟩ := decodes.found feed.self.bitbuf
  rw [found, meets_bind, meets_bind, meets_get, here]
  dsimp only
  rw [meets_pure]
  exact go entry few (sound.stands here (few.trans many) (reading.buffer.low le_rfl))

/-! ### Steps of a match -/

theorem length_moves (state : stream.state = .symbols)
    (decoded : stream.block.litlen.decode stream.bits = entry) (length : entry.tag = .length)
    (enough : entry.bits ≤ stream.unread) :
    stream.Moves limit ((stream.drop entry.bits).enter (.lengthExtra entry.value entry.aux)) := by
  rw [Stream.Moves, symbol_move state, Stream.moveSymbol, decoded]
  rw [if_neg (Nat.not_lt.mpr enough), length]

theorem lengthExtra_moves {base extra : Nat} (enough : extra ≤ stream.unread) :
    (stream.enter (.lengthExtra base extra)).Moves limit
      ((stream.drop extra).enter (.distance (base + stream.bits % 2 ^ extra))) := by
  have many : ¬(stream.enter (.lengthExtra base extra)).unread < extra := Nat.not_lt.mpr enough
  change Stream.moveLengthExtra (stream.enter (.lengthExtra base extra)) base extra = _
  rw [Stream.moveLengthExtra, if_neg many]
  rfl

theorem distance_move {length : Nat} (decoded : stream.block.dist.decode stream.bits = entry)
    (enough : entry.bits ≤ stream.unread) :
    (stream.enter (.distance length)).move limit =
      match entry.tag with
      | .distance => .ok (some
          ((stream.drop entry.bits).enter (.distanceExtra length entry.value entry.aux)))
      | .badSymbol => Stream.refuse (.invalidDistanceSymbol entry.value)
      | _ => Stream.refuse (.invalidCode .distance) := by
  have same : (stream.enter (.distance length)).block.dist.decode
      (stream.enter (.distance length)).bits = entry := decoded
  have many : ¬(stream.enter (.distance length)).unread < entry.bits := Nat.not_lt.mpr enough
  change Stream.moveDistance (stream.enter (.distance length)) length = _
  rw [Stream.moveDistance, same, if_neg many]
  cases entry.tag <;> rfl

theorem distanceExtra_move {length base extra : Nat} (enough : extra ≤ stream.unread) :
    (stream.enter (.distanceExtra length base extra)).move limit =
      if stream.out.length < base + stream.bits % 2 ^ extra then
        Stream.refuse (.distanceTooFar (base + stream.bits % 2 ^ extra) stream.out.length)
      else .ok (some
        ((stream.drop extra).enter (.copy length (base + stream.bits % 2 ^ extra)))) := by
  have many : ¬(stream.enter (.distanceExtra length base extra)).unread < extra :=
    Nat.not_lt.mpr enough
  change Stream.moveDistanceExtra (stream.enter (.distanceExtra length base extra)) length base
    extra = _
  rw [Stream.moveDistanceExtra, if_neg many]
  rfl

theorem copy_reaches {length distance : Nat} (room : stream.out.length + length ≤ limit) :
    Stream.Reaches limit (stream.enter (.copy length distance))
      (((stream.enter (.copy length distance)).copied distance length 0).enter .symbols) := by
  have state : (stream.enter (.copy length distance)).state = .copy (0 + length) distance := by
    rw [Nat.zero_add]
    rfl
  exact ReflTransGen.tail (copied_reaches length _ state fun _ => room) rfl

theorem Reading.matched {distance length : Nat}
    (reading : Reading limit sent before future exact feed stream)
    (state : stream.state = .symbols) (positive : 1 ≤ distance) (near : distance ≤ windowSize)
    (decoded : distance ≤ stream.out.length) (fits : feed.self.window.length + length ≤ bufLen) :
    Reading limit sent before future exact
      (feed.withWindow (appendCopy distance length feed.self.window))
      (((stream.enter (.copy length distance)).copied distance length 0).enter .symbols) := by
  have control := reading.control
  have sound := control.sound
  simp only [Stream.Sound, state] at sound
  have inside := reading.written.inside near decoded
  refine ⟨reading.buffer, reading.written.copied positive inside fits, ?_⟩
  exact ⟨control.state.trans state, control.block, control.fixed, control.trailing, control.error,
    control.widths, sound, by simp [Stream.enter]⟩

/-! ### A turn -/

def FastTurned (limit sent : Nat) (before future : List UInt8) (stop : Nat) (stream : Stream) :
    Turn → Feed → Prop
  | .again, next => before.length + stop ≤ limit ∧
      ∃ later exact, TransGen (Stream.Moves limit) stream later ∧ later.state = .symbols ∧
        later.unread < stream.unread ∧ Reading limit sent before future exact next later
  | .stop, next =>
    (∃ exact, stream.state = .symbols ∧ Reading limit sent before future exact next stream) ∨
    ∃ later, TransGen (Stream.Moves limit) stream later ∧ later.state ≠ .symbols ∧
      Mirrors limit sent before future next later
  | .fail error, next => Refused limit stream error next

theorem Reading.mask (reading : Reading limit sent before future exact feed stream) :
    Meets maskBuffer feed (fun _ next =>
      Reading limit sent before future next.self.nbits next stream) bad := by
  have few := reading.buffer.few
  have narrow : feed.self.nbits < 64 := by omega
  rw [maskBuffer, meets_update, if_pos narrow]
  exact ⟨reading.buffer.mask, reading.written, reading.control⟩

theorem fastDistance_turns {origin : Stream} {length : Nat}
    (reading : Reading limit sent before future exact feed stream)
    (state : stream.state = .symbols)
    (reaches : TransGen (Stream.Moves limit) origin (stream.enter (.distance length)))
    (shorter : stream.unread < origin.unread) (many : 28 ≤ feed.self.nbits)
    (length_le : length ≤ maxMatch) (room : feed.self.window.length + maxMatch ≤ stop)
    (stop_le : stop ≤ bufLen) (spare : before.length + stop ≤ limit) :
    Meets (found stream.block.dist >>= fun distEntry =>
      match distEntry.tag with
      | .distance => do
          consume distEntry.bits
          let feed ← get
          let distance := distEntry.value + feed.bits distEntry.aux
          consume distEntry.aux
          if feed.self.totalOut < distance then
            return .fail (.distanceTooFar distance feed.self.totalOut)
          else
            copyMatch distance length
            return .again
      | .badSymbol => return .fail (.invalidDistanceSymbol distEntry.value)
      | _ => return .fail (.invalidCode .distance))
      feed (FastTurned limit sent before future stop origin) bad := by
  have coded : ∀ remaining, stream.state ≠ .stored remaining := by simp [state]
  have sound := reading.control.sound
  simp only [Stream.Sound, state] at sound
  have count := reading.buffer.count
  apply lookedUp sound.dist reading (by omega)
  intro entry few stands
  have decoded := stands.alone (by simp)
  have enough : entry.bits ≤ stream.unread := by omega
  have moves : (stream.enter (.distance length)).move limit = _ := distance_move decoded enough
  cases tag : entry.tag with
  | distance =>
    have bounds := sound.dist.distance_bounds (by rw [decoded, tag])
    rw [decoded] at bounds
    rw [tag] at moves
    apply consumed_exact reading (by omega) coded
    intro past read nbits
    have field : past.bits entry.aux = (stream.drop entry.bits).bits % 2 ^ entry.aux :=
      read.buffer.low (by omega)
    have total : past.self.totalOut = (stream.drop entry.bits).out.length :=
      read.written.totalOut
    have extra : entry.aux ≤ (stream.drop entry.bits).unread := by
      change entry.aux ≤ stream.unread - entry.bits
      omega
    have onward : ((stream.drop entry.bits).enter
        (.distanceExtra length entry.value entry.aux)).move limit = _ := distanceExtra_move extra
    rw [meets_bind, meets_get, field, total]
    obtain ⟨distance, distance_eq⟩ : ∃ distance,
      entry.value + (stream.drop entry.bits).bits % 2 ^ entry.aux = distance := ⟨_, rfl⟩
    have small := Nat.mod_lt (stream.drop entry.bits).bits (Nat.two_pow_pos entry.aux)
    rw [distance_eq] at onward ⊢
    apply consumed_exact read (by omega) coded
    intro last read _
    have toExtra := reaches.tail moves
    split
    · rename_i far
      rw [if_pos far] at onward
      exact ⟨_, toExtra.to_reflTransGen, onward⟩
    · rename_i near
      rw [if_neg near] at onward
      have toCopy := toExtra.tail onward
      have kept : feed.self.window = last.self.window :=
        List.append_cancel_left (reading.written.out.symm.trans read.written.out)
      rw [kept] at room
      have decoded_le : distance ≤ stream.out.length := Nat.not_lt.mp near
      have positive : 1 ≤ distance := by omega
      have closely : distance ≤ windowSize := by omega
      have fits : last.self.window.length + length ≤ bufLen := by omega
      have inside := read.written.inside closely decoded_le
      rw [meets_bind]
      refine (meets_copyMatch positive inside fits).mpr ?_
      rw [meets_pure]
      have written := read.written.out
      have below : ((stream.drop entry.bits).drop entry.aux).out.length + length ≤ limit := by
        rw [written, List.length_append]
        omega
      refine ⟨spare, _, _, toCopy.trans_left (copy_reaches below), rfl, ?_,
        read.matched state positive closely decoded_le fits⟩
      change stream.unread - entry.bits - entry.aux < origin.unread
      omega
  | badSymbol =>
    rw [tag] at moves
    exact ⟨_, reaches.to_reflTransGen, moves⟩
  | _ =>
    rw [tag] at moves
    exact ⟨_, reaches.to_reflTransGen, moves⟩

theorem fastMatch_turns
    (reading : Reading limit sent before future exact feed stream)
    (state : stream.state = .symbols) (many : 56 ≤ feed.self.nbits)
    (decoded : stream.block.litlen.decode stream.bits = entry) (length : entry.tag = .length)
    (few : entry.bits ≤ 15) (room : feed.self.window.length + maxMatch ≤ stop)
    (stop_le : stop ≤ bufLen) (spare : before.length + stop ≤ limit) :
    Meets (fastMatch entry) feed (FastTurned limit sent before future stop stream) bad := by
  have coded : ∀ remaining, stream.state ≠ .stored remaining := by simp [state]
  have sound := reading.control.sound
  simp only [Stream.Sound, state] at sound
  have bounds := sound.litlen.length_bounds (by rw [decoded, length])
  have positive := (sound.litlen.bits_bounds stream.bits).1
  rw [decoded] at bounds positive
  have count := reading.buffer.count
  have enough : entry.bits ≤ stream.unread := by omega
  rw [fastMatch]
  apply consumed_exact reading (by omega) coded
  intro past read nbits
  have same : past.self.block = ((stream.drop entry.bits).drop entry.aux).block :=
    read.control.block
  have field : past.bits entry.aux = (stream.drop entry.bits).bits % 2 ^ entry.aux :=
    read.buffer.low (by omega)
  have extra : entry.aux ≤ (stream.drop entry.bits).unread := by
    change entry.aux ≤ stream.unread - entry.bits
    omega
  have toLength : stream.Moves limit _ := length_moves state decoded length enough
  have toDistance : Stream.Moves limit ((stream.drop entry.bits).enter
      (.lengthExtra entry.value entry.aux)) _ := lengthExtra_moves extra
  have small := Nat.mod_lt (stream.drop entry.bits).bits (Nat.two_pow_pos entry.aux)
  rw [meets_bind, meets_get, field]
  obtain ⟨matched, matched_eq⟩ : ∃ matched,
    entry.value + (stream.drop entry.bits).bits % 2 ^ entry.aux = matched := ⟨_, rfl⟩
  rw [matched_eq] at toDistance ⊢
  rw [same]
  apply consumed_exact read (by omega) coded
  intro last read nbits'
  have kept : feed.self.window = last.self.window :=
    List.append_cancel_left (reading.written.out.symm.trans read.written.out)
  rw [kept] at room
  refine fastDistance_turns read state ((TransGen.single toLength).tail toDistance) ?_ (by omega)
    (by omega) room stop_le spare
  change stream.unread - entry.bits - entry.aux < stream.unread
  omega

theorem fastTurn_turns
    (reading : Reading limit sent before future exact feed stream)
    (state : stream.state = .symbols) (stop_le : stop ≤ bufLen) (wide : maxMatch + 2 ≤ stop)
    (spare : stop = feed.self.window.length ∨ before.length + stop ≤ limit) :
    Meets (fastTurn (stop - (maxMatch + 2))) feed
      (FastTurned limit sent before future stop stream) bad := by
  have coded : ∀ remaining, stream.state ≠ .stored remaining := by simp [state]
  have sound := reading.control.sound
  simp only [Stream.Sound, state] at sound
  have same : feed.self.block = stream.block := reading.control.block
  have moves : stream.move limit = stream.moveSymbol limit := symbol_move state
  rw [fastTurn, meets_bind, meets_get]
  split
  · rw [meets_pure]
    exact Or.inl ⟨exact, state, reading⟩
  · rename_i going
    have spare : before.length + stop ≤ limit := by
      rcases spare with full | spare <;> omega
    apply refilled reading (by omega)
    intro full read many kept
    rw [same]
    apply lookedUp sound.litlen read (by omega)
    intro entry few stands
    have count := read.buffer.count
    have room : full.self.window.length + (maxMatch + 2) ≤ stop := by
      rw [kept]
      omega
    have below : stream.out.length + (maxMatch + 2) ≤ limit := by
      rw [read.written.out, List.length_append]
      omega
    have enough : entry.bits ≤ stream.unread := by omega
    cases stands with
    | single tag decoded =>
      have positive := (sound.litlen.bits_bounds stream.bits).1
      rw [decoded] at positive
      rw [Stream.moveSymbol, decoded, if_neg (Nat.not_lt.mpr enough)] at moves
      cases kind : entry.tag with
      | literal =>
        have moves : stream.Moves limit _ :=
          literal_moves state decoded kind enough (by omega)
        apply pushed read state (by omega)
        intro next written nbits _
        apply consumed_exact written (by omega) (by simp [Stream.emit, state])
        intro last read _
        rw [meets_pure]
        refine ⟨spare, _, _, TransGen.single moves, state, ?_, read⟩
        change stream.unread - entry.bits < stream.unread
        omega
      | pair => exact absurd kind tag
      | length =>
        exact fastMatch_turns read state many decoded kind few (by omega) stop_le spare
      | endOfBlock =>
        rw [kind] at moves
        apply consumed_exact read (by omega) coded
        intro next read _
        rw [meets_bind]
        apply read.mask.mono
        · rintro - next masked
          rw [meets_bind]
          apply (afterBlock_spec bad masked).mono
          · rintro step last ⟨-, mirrors⟩
            rw [meets_pure]
            refine Or.inr ⟨_, TransGen.single moves, ?_, mirrors⟩
            rw [Stream.leaveBlock]
            split <;> simp [Stream.enter]
          · intro error last refused
            exact refused
        · intro error next refused
          exact refused
      | badSymbol =>
        rw [kind] at moves
        exact ⟨stream, ReflTransGen.refl, moves⟩
      | _ =>
        rw [kind] at moves
        exact ⟨stream, ReflTransGen.refl, moves⟩
    | pair tag order bytes first second =>
      have moves : TransGen (Stream.Moves limit) stream _ :=
        pair_moves state order first second enough (by omega)
      rw [tag]
      dsimp only
      apply pushed read state (by omega)
      intro next written nbits grown
      apply pushed written state (by omega)
      intro last written nbits' grown
      apply consumed_exact written (by omega) (by simp [Stream.emit, state])
      intro past read _
      rw [meets_pure]
      refine ⟨spare, _, _, moves, state, ?_, read⟩
      change stream.unread - entry.bits < stream.unread
      omega

/-! ### The loop -/

/-- Where the loop leaves its stream: among the symbols still, or past the end of the block. -/
def FastLeft (limit sent : Nat) (before future : List UInt8) (stream : Stream) (next : Feed) :
    Prop :=
  (∃ later exact, Stream.Reaches limit stream later ∧ later.state = .symbols ∧
    Reading limit sent before future exact next later) ∨
  ∃ later, TransGen (Stream.Moves limit) stream later ∧ later.state ≠ .symbols ∧
    Mirrors limit sent before future next later

theorem FastLeft.after {next : Feed} {later : Stream} (reaches : Stream.Reaches limit stream later)
    (left : FastLeft limit sent before future later next) :
    FastLeft limit sent before future stream next := by
  rcases left with ⟨last, exact, more, state, reading⟩ | ⟨last, more, state, mirrors⟩
  · exact Or.inl ⟨last, exact, reaches.trans more, state, reading⟩
  · exact Or.inr ⟨last, TransGen.trans_right reaches more, state, mirrors⟩

theorem fastLoop_turns (turns : Nat) (feed : Feed) (stream : Stream) (exact : Nat)
    (reading : Reading limit sent before future exact feed stream)
    (state : stream.state = .symbols) (stop_le : stop ≤ bufLen) (wide : maxMatch + 2 ≤ stop)
    (spare : stop = feed.self.window.length ∨ before.length + stop ≤ limit)
    (enough : feed.unread < turns) :
    Meets (fastLoop (stop - (maxMatch + 2)) turns) feed (fun result next =>
      match result with
      | none => FastLeft limit sent before future stream next
      | some error => Refused limit stream error next) bad := by
  induction turns generalizing feed stream exact with
  | zero => exact absurd enough (Nat.not_lt_zero _)
  | succ turns ih =>
    rw [fastLoop, meets_bind]
    apply (fastTurn_turns reading state stop_le wide spare).mono
    · intro turn next turned
      cases turn with
      | again =>
        obtain ⟨spare, later, exact, more, state, fewer, read⟩ := turned
        have here := reading.buffer.count
        have there := read.buffer.count
        have less : next.unread < turns := by
          rw [Feed.unread] at enough ⊢
          omega
        apply (ih next later exact read state (Or.inr spare) less).mono
        · intro result last ended
          cases result with
          | none => exact FastLeft.after more.to_reflTransGen ended
          | some error => exact Refused.after more.to_reflTransGen ended
        · intro error last refused
          exact refused
      | stop =>
        apply turned.imp
        · rintro ⟨exact, state, read⟩
          exact ⟨stream, exact, ReflTransGen.refl, state, read⟩
        · exact id
      | fail error => exact turned
    · intro error next refused
      exact refused

theorem Mirrors.mask (mirrors : Mirrors limit sent before future feed stream) :
    Meets maskBuffer feed (fun _ next => Mirrors limit sent before future next stream) bad := by
  rcases mirrors with reading | finished
  · apply reading.mask.mono
    · intro _ next masked
      exact Or.inl masked
    · intro error next refused
      exact refused
  · rw [maskBuffer, meets_update]
    apply Or.inr
    split
    · exact ⟨finished.state, finished.done, finished.written, finished.error, finished.rest,
        finished.unread⟩
    · exact finished

theorem fastSymbols_turns
    (reading : Reading limit sent before future feed.self.nbits feed stream)
    (state : stream.state = .symbols) :
    Meets fastSymbols feed (fun _ next =>
      (∃ later, Stream.Reaches limit stream later ∧ later.state = .symbols ∧
        Reading limit sent before future next.self.nbits next later) ∨
      ∃ later, TransGen (Stream.Moves limit) stream later ∧ later.state ≠ .symbols ∧
        Mirrors limit sent before future next later) (Refused limit stream) := by
  have room := reading.written.outEnd
  rw [fastSymbols, meets_bind, meets_get]
  dsimp only
  obtain ⟨stop, stop_eq⟩ : ∃ stop, feed.self.outEnd.1 = stop := ⟨_, rfl⟩
  rw [stop_eq] at room ⊢
  split
  · rw [meets_pure]
    exact Or.inl ⟨stream, ReflTransGen.refl, state, reading⟩
  · rename_i wide
    have inside := room.inside
    have spare : stop = feed.self.window.length ∨ before.length + stop ≤ limit := by
      have free := room.free
      have out := congrArg List.length reading.written.out
      rw [List.length_append] at out
      omega
    rw [meets_bind]
    apply (fastLoop_turns (feed.unread + 1) feed stream _ reading state room.stop_le
      (Nat.not_lt.mp wide) spare (Nat.lt_succ_self _)).mono
    · intro result next ended
      rw [meets_bind]
      cases result with
      | none =>
        rcases ended with ⟨later, exact, reaches, state, read⟩ | ⟨later, more, state, mirrors⟩
        · apply read.mask.mono
          · intro _ last masked
            rw [meets_pure]
            exact Or.inl ⟨later, reaches, state, masked⟩
          · intro error last refused
            exact refused
        · apply mirrors.mask.mono
          · intro _ last masked
            rw [meets_pure]
            exact Or.inr ⟨later, more, state, masked⟩
          · intro error last refused
            exact refused
      | some error => exact ended
    · intro error next refused
      exact refused

theorem Mirrors.state (mirrors : Mirrors limit sent before future feed stream) :
    feed.self.state = stream.state := by
  rcases mirrors with reading | finished
  · exact reading.control.state
  · rw [finished.state, finished.done]

theorem stepSymbols_turns (fast : Bool)
    (reading : Reading limit sent before future feed.self.nbits feed stream)
    (state : stream.state = .symbols) :
    Meets (stepSymbols fast) feed (Turned limit sent before future stream)
      (Refused limit stream) := by
  have fed : Meets (actIf fast fastSymbols) feed (fun _ next =>
      (∃ later, Stream.Reaches limit stream later ∧ later.state = .symbols ∧
        Reading limit sent before future next.self.nbits next later) ∨
      ∃ later, TransGen (Stream.Moves limit) stream later ∧ later.state ≠ .symbols ∧
        Mirrors limit sent before future next later) (Refused limit stream) := by
    rw [meets_actIf]
    split
    · exact fastSymbols_turns reading state
    · exact Or.inl ⟨stream, ReflTransGen.refl, state, reading⟩
  rw [stepSymbols, meets_bind]
  apply fed.mono
  · rintro - next (⟨later, reaches, state, read⟩ | ⟨later, more, state, mirrors⟩)
    · have here : next.self.state = .symbols := read.control.state.trans state
      rw [meets_bind, meets_get, if_pos here]
      exact (stepSymbol_turns read state).after reaches
    · have here : next.self.state ≠ .symbols := by
        rwa [mirrors.state]
      rw [meets_bind, meets_get, if_neg here, meets_pure]
      exact ⟨later, more, mirrors⟩
  · intro error next refused
    exact refused

end

end Purrdf.Deflate
