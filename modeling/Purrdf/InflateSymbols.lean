import Purrdf.InflateOutput

/-!
# Symbols one at a time

A literal, a pair of literals, a match or the end of the block, each decoded from buffered bits
that confirm it and written where the room for it is known to be.
-/

namespace Purrdf.Deflate

open Relation

section
variable {limit sent stop : Nat} {limited : Bool} {before future : List UInt8} {feed : Feed}
  {stream : Stream} {entry : Entry}

/-! ### Steps of the stream -/

theorem emit_mod (stream : Stream) (byte : Nat) : stream.emit (byte % 256) = stream.emit byte := by
  have same : UInt8.ofNat (byte % 256) = UInt8.ofNat byte := by
    apply UInt8.toNat_inj.mp
    rw [UInt8.toNat_ofNat', UInt8.toNat_ofNat']
    omega
  rw [Stream.emit, Stream.emit, same]

theorem symbol_move (state : stream.state = .symbols) :
    stream.move limit = stream.moveSymbol limit := by
  rw [Stream.move, state]

theorem literal_moves (state : stream.state = .symbols)
    (decoded : stream.block.litlen.decode stream.bits = entry) (literal : entry.tag = .literal)
    (enough : entry.bits ≤ stream.unread) (below : stream.out.length < limit) :
    stream.Moves limit ((stream.emit entry.value).drop entry.bits) := by
  rw [Stream.Moves, symbol_move state, Stream.moveSymbol, decoded]
  rw [if_neg (Nat.not_lt.mpr enough), literal]
  rw [if_neg (Nat.not_le.mpr below)]

theorem literal_refused (state : stream.state = .symbols)
    (decoded : stream.block.litlen.decode stream.bits = entry) (literal : entry.tag = .literal)
    (enough : entry.bits ≤ stream.unread) (excess : limit ≤ stream.out.length) :
    stream.move limit = .error (.refused (.limitExceeded limit)) := by
  rw [symbol_move state, Stream.moveSymbol, decoded]
  rw [if_neg (Nat.not_lt.mpr enough), literal]
  rw [if_pos excess]
  rfl

theorem pair_moves (state : stream.state = .symbols) (order : entry.aux < entry.bits)
    (first : stream.block.litlen.decode stream.bits = ⟨entry.aux, .literal, 0, entry.value % 256⟩)
    (second : stream.block.litlen.decode (stream.bits / 2 ^ entry.aux)
      = ⟨entry.bits - entry.aux, .literal, 0, entry.value / 256⟩)
    (enough : entry.bits ≤ stream.unread) (below : stream.out.length + 1 < limit) :
    TransGen (Stream.Moves limit) stream
      (((stream.emit entry.value).emit (entry.value / 2 ^ 8)).drop entry.bits) := by
  have near : entry.aux ≤ stream.unread := order.le.trans enough
  have one : stream.Moves limit ((stream.emit (entry.value % 256)).drop entry.aux) :=
    literal_moves state first rfl near (by omega)
  rw [emit_mod] at one
  have far : entry.bits - entry.aux ≤ ((stream.emit entry.value).drop entry.aux).unread :=
    Nat.sub_le_sub_right enough _
  have room : ((stream.emit entry.value).drop entry.aux).out.length < limit := by
    simpa [Stream.drop, Stream.emit] using below
  have still : ((stream.emit entry.value).drop entry.aux).state = .symbols := state
  have two := literal_moves still second rfl far room
  have whole : (((stream.emit entry.value).emit (entry.value / 2 ^ 8)).drop entry.aux).drop
      (entry.bits - entry.aux)
      = ((stream.emit entry.value).emit (entry.value / 2 ^ 8)).drop entry.bits := by
    rw [Stream.drop_drop, Nat.add_sub_cancel' order.le]
  rw [← whole]
  exact TransGen.tail (TransGen.single one) two

/-! ### Turns -/

theorem Reading.emit {exact : Nat}
    (reading : Reading limit sent before future exact feed stream)
    (state : stream.state = .symbols) (room : feed.self.window.length < bufLen) (byte : Nat) :
    Reading limit sent before future exact
      (feed.withWindow (feed.self.window ++ [UInt8.ofNat byte])) (stream.emit byte) := by
  have control := reading.control
  have sound := control.sound
  simp only [Stream.Sound, state] at sound
  refine ⟨reading.buffer, reading.written.append room, ?_⟩
  refine ⟨control.state, control.block, control.fixed, control.trailing, control.error,
    control.widths, ?_, control.running⟩
  simp only [Stream.Sound, Stream.emit, state]
  exact sound

theorem pushed {exact byte : Nat} {α : Type}
    (reading : Reading limit sent before future exact feed stream)
    (state : stream.state = .symbols) (room : feed.self.window.length < bufLen)
    {rest : Unit → Decoding α} {ok : α → Feed → Prop} {bad : Error → Feed → Prop}
    (go : ∀ next, Reading limit sent before future exact next (stream.emit byte) →
      next.self.nbits = feed.self.nbits →
      next.self.window.length = feed.self.window.length + 1 → Meets (rest ()) next ok bad) :
    Meets (push byte >>= rest) feed ok bad := by
  rw [meets_bind]
  refine (meets_push (room.trans_le (Nat.le_add_right _ _))).mpr ?_
  apply go _ (reading.emit state room byte) rfl
  exact List.length_append

theorem meets_checkDistanceEntry {ok : Unit → Feed → Prop} {bad : Error → Feed → Prop} :
    Meets (checkDistanceEntry entry) feed ok bad ↔
      match entry.tag with
      | .distance => ok () feed
      | .badSymbol => bad (.invalidDistanceSymbol entry.value) feed
      | _ => bad (.invalidCode .distance) feed := by
  rw [checkDistanceEntry]
  cases entry.tag <;> exact Iff.rfl

section

variable (reading : Reading limit sent before future feed.self.nbits feed stream)

include reading

theorem stepLengthExtra_turns {base extra : Nat} (state : stream.state = .lengthExtra base extra) :
    Meets (stepLengthExtra base extra) feed (Turned limit sent before future stream)
      (Refused limit stream) := by
  have sound := reading.control.sound
  simp only [Stream.Sound, state] at sound
  obtain ⟨tables, extra_le, length_le⟩ := sound
  have moves : stream.move limit = stream.moveLengthExtra base extra := by
    rw [Stream.move, state]
  rw [Stream.moveLengthExtra] at moves
  rw [stepLengthExtra]
  apply ensured (by omega) reading
  · intro short
    rw [moves, if_pos short]
  · intro next loaded enough many
    rw [if_neg many] at moves
    have field : next.bits extra = stream.bits % 2 ^ extra := loaded.buffer.low enough
    have small := Nat.mod_lt stream.bits (Nat.two_pow_pos extra)
    rw [meets_bind, meets_get, field]
    apply consumed loaded enough (by simp [state])
    intro last read _
    rw [meets_become]
    apply Turned.goes moves
    apply Or.inl (read.enter _ (by simp))
    exact ⟨tables, by omega⟩

theorem stepDistance_turns {length : Nat} (state : stream.state = .distance length) :
    Meets (stepDistance length) feed (Turned limit sent before future stream)
      (Refused limit stream) := by
  have same : feed.self.block = stream.block := reading.control.block
  have sound := reading.control.sound
  simp only [Stream.Sound, state] at sound
  obtain ⟨tables, length_le⟩ := sound
  have moves : stream.move limit = stream.moveDistance length := by
    rw [Stream.move, state]
  rw [Stream.moveDistance] at moves
  rw [stepDistance, meets_bind, meets_get, same]
  apply peeked tables.dist reading
  · intro short
    rw [moves, if_pos short]
  · rfl
  · intro entry next loaded enough stands
    have decoded := stands.alone (by simp)
    have count := loaded.buffer.count
    rw [decoded, if_neg (by omega)] at moves
    dsimp only
    rw [meets_bind, meets_checkDistanceEntry]
    cases tag : entry.tag with
    | distance =>
      rw [tag] at moves
      have distance : (stream.block.dist.decode stream.bits).tag = .distance := by
        rw [decoded, tag]
      have bounds := tables.dist.distance_bounds distance
      rw [decoded] at bounds
      apply consumed loaded enough (by simp [state])
      intro last read _
      rw [meets_become]
      apply Turned.goes moves
      apply Or.inl (read.enter _ (by simp))
      exact ⟨tables, length_le, bounds.1, bounds.2.1, bounds.2.2⟩
    | badSymbol =>
      rw [tag] at moves
      exact ⟨stream, ReflTransGen.refl, moves⟩
    | _ =>
      rw [tag] at moves
      exact ⟨stream, ReflTransGen.refl, moves⟩

theorem stepDistanceExtra_turns {length base extra : Nat}
    (state : stream.state = .distanceExtra length base extra) :
    Meets (stepDistanceExtra length base extra) feed (Turned limit sent before future stream)
      (Refused limit stream) := by
  have sound := reading.control.sound
  simp only [Stream.Sound, state] at sound
  obtain ⟨tables, length_le, extra_le, positive, distance_le⟩ := sound
  have moves : stream.move limit = stream.moveDistanceExtra length base extra := by
    rw [Stream.move, state]
  rw [Stream.moveDistanceExtra] at moves
  dsimp only at moves
  rw [stepDistanceExtra]
  apply ensured (by omega) reading
  · intro short
    rw [moves, if_pos short]
  · intro next loaded enough many
    rw [if_neg many] at moves
    have field : next.bits extra = stream.bits % 2 ^ extra := loaded.buffer.low enough
    have small := Nat.mod_lt stream.bits (Nat.two_pow_pos extra)
    rw [meets_bind, meets_get, field]
    apply consumed loaded enough (by simp [state])
    intro last read _
    have total : last.self.totalOut = stream.out.length := read.written.totalOut
    rw [checkDistance, meets_bind, meets_bind, meets_get, total]
    split
    · rename_i far
      rw [if_pos far] at moves
      exact ⟨stream, ReflTransGen.refl, moves⟩
    · rename_i near
      rw [if_neg near] at moves
      rw [meets_pure, meets_become]
      apply Turned.goes moves
      apply Or.inl (read.enter _ (by simp))
      exact ⟨tables, length_le, by omega, by omega, Nat.not_lt.mp near⟩

theorem literal_turns {byte n : Nat} (state : stream.state = .symbols)
    (room : Room limit stop limited feed.self.window.length stream.out.length)
    (enough : n ≤ feed.self.nbits) (decoded : stream.block.litlen.decode stream.bits = entry)
    (literal : entry.tag = .literal) (width : entry.bits = n)
    (value : entry.value % 256 = byte % 256) :
    Meets (if stop ≤ feed.self.window.length then outOfRoom limited
      else do
        push byte
        consume n
        return none) feed (Turned limit sent before future stream) (Refused limit stream) := by
  have count := reading.buffer.count
  subst width
  have there : entry.bits ≤ stream.unread := by omega
  split
  · rename_i full
    apply outOfRoom_turns reading room (Nat.le_antisymm room.inside full)
    exact literal_refused state decoded literal there
  · rename_i free
    have inside := Nat.not_le.mp free
    have below := room.below inside
    have moves := literal_moves state decoded literal there below
    rw [← emit_mod, value, emit_mod] at moves
    apply pushed reading state (inside.trans_le room.stop_le)
    intro next written nbits _
    rw [← nbits] at written enough
    have coded : ∀ remaining, (stream.emit byte).state ≠ .stored remaining := by
      simp [Stream.emit, state]
    apply consumed written enough coded
    intro last read _
    rw [meets_pure]
    exact Turned.goes moves (Or.inl read)

theorem stepSymbol_turns (state : stream.state = .symbols) :
    Meets stepSymbol feed (Turned limit sent before future stream) (Refused limit stream) := by
  have same : feed.self.block = stream.block := reading.control.block
  have sound := reading.control.sound
  simp only [Stream.Sound, state] at sound
  have coded : ∀ remaining, stream.state ≠ .stored remaining := by simp [state]
  have moves : stream.move limit = stream.moveSymbol limit := symbol_move state
  have opening := reading.written.outEnd
  obtain ⟨⟨stop, limited⟩, ends⟩ : ∃ ends, feed.self.outEnd = ends := ⟨_, rfl⟩
  rw [ends] at opening
  change Room limit stop limited _ _ at opening
  rw [Stream.moveSymbol] at moves
  rw [stepSymbol, meets_bind, meets_get, ends, same]
  dsimp only
  apply peeked sound.litlen reading
  · intro short
    rw [moves, if_pos short]
  · rfl
  · intro entry next loaded enough stands
    have kept : feed.self.window = next.self.window :=
      List.append_cancel_left (reading.written.out.symm.trans loaded.written.out)
    rw [kept] at opening
    have count := loaded.buffer.count
    dsimp only
    rw [kept]
    cases stands with
    | single tag decoded =>
      rw [decoded, if_neg (by omega)] at moves
      cases kind : entry.tag with
      | literal =>
        exact literal_turns loaded state opening enough decoded kind rfl rfl
      | pair => exact absurd kind tag
      | length =>
        rw [kind] at moves
        have length : (stream.block.litlen.decode stream.bits).tag = .length := by
          rw [decoded, kind]
        have bounds := sound.litlen.length_bounds length
        rw [decoded] at bounds
        apply consumed loaded enough coded
        intro last read _
        rw [meets_become]
        apply Turned.goes moves
        apply Or.inl (read.enter _ (by simp))
        exact ⟨sound, bounds.1, bounds.2⟩
      | endOfBlock =>
        rw [kind] at moves
        apply consumed loaded enough coded
        intro last read _
        exact afterBlock_turns read moves
      | badSymbol =>
        rw [kind] at moves
        exact meets_refused moves
      | _ =>
        rw [kind] at moves
        exact meets_refused moves
    | pair tag order bytes first second =>
      rw [tag]
      dsimp only
      split
      · exact literal_turns loaded state opening (by omega) first rfl rfl (Nat.mod_mod _ _)
      · rename_i free
        have inside : next.self.window.length + 1 < stop := by omega
        have stop_le := opening.stop_le
        have below : stream.out.length + 1 < limit := by
          have room := opening.free
          omega
        have moves := pair_moves state order first second (by omega) below
        apply pushed loaded state (by omega)
        intro next written nbits grown
        rw [← nbits] at written
        apply pushed written state (by omega)
        intro last written nbits' grown
        rw [← nbits'] at written
        apply consumed written (by omega) (by simp [Stream.emit, state])
        intro last read _
        rw [meets_pure]
        exact ⟨_, moves, Or.inl read⟩

end

end

end Purrdf.Deflate
