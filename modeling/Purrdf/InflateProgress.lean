import Purrdf.InflateFast

/-!
# A stream comes to its end

Every step of a stream keeps what its state says of it, adds to what is decoded, and lowers a
measure: a step reads a bit, copies a byte of a match, or leaves a state for a lower one.
-/

namespace Purrdf.Deflate

open Relation

def State.rank : State → Nat
  | .stored _ => 1
  | .dynamicCodeLengths => 3
  | .dynamicLengths => 2
  | .symbols => 1
  | .lengthExtra _ _ => 1
  | .distanceExtra length _ _ => 3 + length
  | .copy length _ => 2 + length
  | _ => 0

namespace Stream

def measure (stream : Stream) : Nat :=
  300 * stream.unread + stream.state.rank

structure Valid (stream : Stream) : Prop where
  sound : stream.Sound
  widths : stream.block.Widths

structure Reads (stream later : Stream) : Prop where
  unread : later.unread ≤ stream.unread
  bits : later.bits = stream.bits / 2 ^ (stream.unread - later.unread)

structure Onward (stream later : Stream) : Prop where
  valid : later.Valid
  lowers : later.measure < stream.measure
  grows : stream.out <+: later.out
  reads : stream.Reads later

end Stream

section
variable {limit : Nat} {stream later : Stream} {block : Block}

theorem Stream.Valid.rank_le (valid : stream.Valid) : stream.state.rank ≤ 261 := by
  have sound := valid.sound
  rw [Stream.Sound] at sound
  have longest : maxMatch = 258 := rfl
  cases state : stream.state with
  | distanceExtra length base extra =>
    rw [state] at sound
    have few := sound.2.1
    change 3 + length ≤ 261
    omega
  | copy length distance =>
    rw [state] at sound
    have few := sound.2.1
    change 2 + length ≤ 261
    omega
  | _ => simp [State.rank]

theorem lowers_of_bits (valid : later.Valid) (fewer : later.unread < stream.unread) :
    later.measure < stream.measure := by
  have rank := valid.rank_le
  rw [Stream.measure, Stream.measure]
  omega

theorem Stream.Reads.trans {last : Stream} (here : stream.Reads later)
    (there : later.Reads last) : stream.Reads last := by
  have first := here.unread
  have second := there.unread
  constructor
  · exact second.trans first
  · rw [there.bits, here.bits, Nat.div_div_eq_div_mul, ← pow_add]
    congr 2
    omega

theorem reads_of_drop {n : Nat} (enough : n ≤ stream.unread)
    (unread : later.unread = stream.unread - n) (bits : later.bits = stream.bits / 2 ^ n) :
    stream.Reads later := by
  constructor
  · rw [unread]
    exact Nat.sub_le _ _
  · rw [unread, bits, Nat.sub_sub_self enough]

theorem reads_of_same (unread : later.unread = stream.unread) (bits : later.bits = stream.bits) :
    stream.Reads later := by
  apply reads_of_drop (Nat.zero_le _) unread
  rw [bits, pow_zero, Nat.div_one]

theorem leaveBlock_onward (valid : stream.Valid) (ranked : 0 < stream.state.rank) :
    stream.Onward stream.leaveBlock := by
  rw [Stream.leaveBlock]
  split
  · refine ⟨⟨trivial, valid.widths⟩, ?_, List.prefix_rfl,
      reads_of_drop (Nat.mod_le _ _) rfl rfl⟩
    rw [Stream.measure, Stream.measure]
    change 300 * (stream.unread - stream.unread % 8) + 0 < _
    omega
  · refine ⟨⟨trivial, valid.widths⟩, ?_, List.prefix_rfl, reads_of_same rfl rfl⟩
    rw [Stream.measure, Stream.measure]
    change 300 * stream.unread + 0 < _
    omega

theorem tables_built {litlen dist : DecodeTable} {symbols distances : List Nat}
    (widths : block.Widths)
    (litlenBuilt : block.litlen.build symbols .literalLength true = .ok litlen)
    (distBuilt : block.dist.build distances .distance false = .ok dist) :
    Block.Tables { block with litlen, dist } ∧ Block.Widths { block with litlen, dist } := by
  have eleven := widths.litlen
  have eight := widths.dist
  rw [litlenBits] at eleven
  rw [distBits] at eight
  obtain ⟨soundLitlen, widthLitlen⟩ :=
    build_sound (by omega) (by omega) (fun _ => rfl) litlenBuilt
  obtain ⟨soundDist, widthDist⟩ :=
    build_sound (by omega) (by omega) (fun off => by simp at off) distBuilt
  exact ⟨⟨soundLitlen, soundDist⟩,
    widthLitlen.trans widths.litlen, widthDist.trans widths.dist, widths.codeLength⟩

theorem built_pair {litlen dist : Except Fault DecodeTable} {installed : Block}
    (ok : (do
      let litlen ← litlen
      let dist ← dist
      return { block with litlen, dist } : Except Fault Block) = .ok installed) :
    ∃ first second, litlen = .ok first ∧ dist = .ok second ∧
      installed = { block with litlen := first, dist := second } := by
  cases litlen with
  | error fault => exact absurd ok (by simp [bind, Except.bind])
  | ok first =>
    cases dist with
    | error fault => exact absurd ok (by simp [bind, Except.bind])
    | ok second => exact ⟨first, second, rfl, rfl, (Except.ok.inj ok).symm⟩

theorem fixedTables_valid {installed : Block} (widths : block.Widths)
    (ok : Stream.fixedTables block = .ok installed) : installed.Tables ∧ installed.Widths := by
  obtain ⟨litlen, dist, litlenBuilt, distBuilt, rfl⟩ := built_pair ok
  exact tables_built widths litlenBuilt distBuilt

theorem dynamicTables_valid {installed : Block} (widths : block.Widths)
    (ok : Stream.dynamicTables block = .ok installed) : installed.Tables ∧ installed.Widths := by
  obtain ⟨litlen, dist, litlenBuilt, distBuilt, rfl⟩ := built_pair ok
  exact tables_built widths litlenBuilt distBuilt

/-! ### What each step does -/

theorem enterBlock_onward {kind : Nat} (widths : stream.block.Widths)
    (moves : stream.enterBlock kind = .ok (some later)) :
    later.Valid ∧ later.unread = stream.unread ∧ later.bits = stream.bits ∧
      later.out = stream.out := by
  rcases kind with _ | _ | _ | kind
  · cases moves
    exact ⟨⟨trivial, widths⟩, rfl, rfl, rfl⟩
  · have moved : (Stream.fixedTables stream.block >>= fun block =>
        .ok (some { stream with block, state := .symbols })) = .ok (some later) := moves
    cases tables : Stream.fixedTables stream.block with
    | error fault =>
      rw [tables, error_bind] at moved
      exact absurd moved (by simp)
    | ok block =>
      rw [tables, ok_bind] at moved
      cases moved
      obtain ⟨sound, kept⟩ := fixedTables_valid widths tables
      exact ⟨⟨sound, kept⟩, rfl, rfl, rfl⟩
  · cases moves
    exact ⟨⟨trivial, widths⟩, rfl, rfl, rfl⟩
  · exact absurd moves (by simp [Stream.enterBlock, Stream.refuse])

theorem moveBlockHeader_onward (valid : stream.Valid)
    (moves : stream.moveBlockHeader = .ok (some later)) : stream.Onward later := by
  rw [Stream.moveBlockHeader] at moves
  split at moves
  · exact absurd moves (by simp)
  · rename_i many
    obtain ⟨headed, headed_eq⟩ : ∃ headed, ((stream.withBlock fun block =>
      { block with finalBlock := stream.bits % 2 ^ 1 == 1 }).drop 3) = headed := ⟨_, rfl⟩
    have widths : headed.block.Widths := by
      rw [← headed_eq]
      exact ⟨valid.widths.litlen, valid.widths.dist, valid.widths.codeLength⟩
    have short : headed.unread = stream.unread - 3 := by
      rw [← headed_eq]
      rfl
    have same : headed.out = stream.out ∧ headed.bits = stream.bits / 2 ^ 3 := by
      rw [← headed_eq]
      exact ⟨rfl, rfl⟩
    rw [headed_eq] at moves
    obtain ⟨valid, unread, bits, out⟩ := enterBlock_onward widths moves
    refine ⟨valid, lowers_of_bits valid ?_, ?_, ?_⟩
    · omega
    · exact ⟨[], by rw [List.append_nil, out, same.1]⟩
    · exact reads_of_drop (Nat.not_lt.mp many) (unread.trans short) (bits.trans same.2)

theorem moveStoredHeader_onward (valid : stream.Valid) (state : stream.state = .storedHeader)
    (moves : stream.moveStoredHeader = .ok (some later)) : stream.Onward later := by
  rw [Stream.moveStoredHeader] at moves
  split at moves
  · rename_i partial_byte
    cases moves
    have kept : (stream.drop (stream.unread % 8)).Valid :=
      ⟨valid.sound.drop _ (by simp [state]), valid.widths⟩
    refine ⟨kept, lowers_of_bits kept ?_, List.prefix_rfl, reads_of_drop (by omega) rfl rfl⟩
    change stream.unread - stream.unread % 8 < stream.unread
    omega
  · split at moves
    · exact absurd moves (by simp)
    · rename_i whole many
      dsimp only at moves
      split at moves
      · cases moves
        have kept : ((stream.drop 32).enter (.stored (stream.bits % 2 ^ 16))).Valid := by
          refine ⟨?_, valid.widths⟩
          change (stream.unread - 32) % 8 = 0
          omega
        refine ⟨kept, lowers_of_bits kept ?_, List.prefix_rfl, reads_of_drop (by omega) rfl rfl⟩
        change stream.unread - 32 < stream.unread
        omega
      · exact absurd moves (by simp [Stream.refuse])

theorem moveStored_onward {remaining : Nat} (valid : stream.Valid)
    (state : stream.state = .stored remaining)
    (moves : stream.moveStored limit remaining = .ok (some later)) : stream.Onward later := by
  have sound := valid.sound
  simp only [Stream.Sound, state] at sound
  cases remaining with
  | zero =>
    cases moves
    apply leaveBlock_onward valid
    rw [state]
    exact Nat.one_pos
  | succ remaining =>
    rw [Stream.moveStored] at moves
    split at moves
    · exact absurd moves (by simp [Stream.refuse])
    · split at moves
      · exact absurd moves (by simp)
      · rename_i many
        cases moves
        have kept : (((stream.emit (stream.bits % 2 ^ 8)).drop 8).enter
            (.stored remaining)).Valid := by
          refine ⟨?_, valid.widths⟩
          change (stream.unread - 8) % 8 = 0
          omega
        refine ⟨kept, lowers_of_bits kept ?_, List.prefix_append _ _,
          reads_of_drop (by omega) rfl rfl⟩
        change stream.unread - 8 < stream.unread
        omega

theorem moveDynamicCounts_onward (valid : stream.Valid)
    (moves : stream.moveDynamicCounts = .ok (some later)) : stream.Onward later := by
  have widths := valid.widths
  rw [Stream.moveDynamicCounts] at moves
  split at moves
  · exact absurd moves (by simp)
  · rename_i many
    dsimp only at moves
    split at moves
    · exact absurd moves (by simp [Stream.refuse])
    · rename_i few
      cases moves
      have kept : (((stream.withBlock fun block => { block with
          hlit := 257 + stream.bits % 2 ^ 5
          hdist := 1 + stream.bits / 2 ^ 5 % 32
          hclen := 4 + stream.bits / 2 ^ 10 % 16
          clLengths := List.replicate 19 0, clIndex := 0 }).drop 14).enter
            .dynamicCodeLengths).Valid := by
        refine ⟨⟨⟨⟨Nat.le_add_right _ _, Nat.not_lt.mp few⟩, ⟨Nat.le_add_right _ _, ?_⟩, ?_⟩,
          Nat.zero_le _, List.length_replicate, ?_⟩, widths.litlen, widths.dist,
          widths.codeLength⟩
        · change 1 + stream.bits / 2 ^ 5 % 32 ≤ 32
          omega
        · change 4 + stream.bits / 2 ^ 10 % 16 ≤ 19
          omega
        · intro len member
          rw [List.eq_of_mem_replicate member]
          exact Nat.zero_le _
      refine ⟨kept, lowers_of_bits kept ?_, List.prefix_rfl, reads_of_drop (by omega) rfl rfl⟩
      change stream.unread - 14 < stream.unread
      omega

theorem moveDynamicCodeLengths_onward (valid : stream.Valid)
    (state : stream.state = .dynamicCodeLengths)
    (moves : stream.moveDynamicCodeLengths = .ok (some later)) : stream.Onward later := by
  have widths := valid.widths
  have sound := valid.sound
  simp only [Stream.Sound, state] at sound
  obtain ⟨counts, index, size, bounded⟩ := sound
  rw [Stream.moveDynamicCodeLengths] at moves
  split at moves
  · rename_i more
    split at moves
    · exact absurd moves (by simp)
    · rename_i many
      split at moves
      · exact absurd moves (by simp)
      · rename_i symbol _
        cases moves
        have kept : ((stream.withBlock fun block => { block with
            clLengths := block.clLengths.set symbol (stream.bits % 2 ^ 3)
            clIndex := block.clIndex + 1 }).drop 3).Valid := by
          refine ⟨?_, widths.litlen, widths.dist, widths.codeLength⟩
          simp only [Stream.Sound, Stream.withBlock, Stream.drop, state]
          refine ⟨⟨counts.hlit, counts.hdist, counts.hclen⟩, more, ?_, ?_⟩
          · rw [List.length_set]
            exact size
          · intro len member
            rcases List.mem_or_eq_of_mem_set member with old | new
            · exact bounded len old
            · omega
        refine ⟨kept, lowers_of_bits kept ?_, List.prefix_rfl, reads_of_drop (by omega) rfl rfl⟩
        change stream.unread - 3 < stream.unread
        omega
  · cases built : stream.block.codeLength.build stream.block.clLengths .codeLength false with
    | error fault =>
      rw [built, error_bind] at moves
      exact absurd moves (by simp)
    | ok table =>
      rw [built, ok_bind] at moves
      cases moves
      have width := widths.codeLength
      rw [codeLengthBits] at width
      obtain ⟨sound, same⟩ :=
        build_sound (by omega) (by omega) (fun off => by simp at off) built
      refine ⟨⟨⟨⟨counts.hlit, counts.hdist, counts.hclen⟩, sound, Nat.zero_le _, ?_⟩,
        widths.litlen, widths.dist, same.trans widths.codeLength⟩, ?_, List.prefix_rfl,
        reads_of_same rfl rfl⟩
      · intro len member
        exact absurd member (List.not_mem_nil)
      · rw [Stream.measure, Stream.measure, state]
        exact Nat.lt_succ_self _

theorem moveDynamicLengths_onward (valid : stream.Valid)
    (state : stream.state = .dynamicLengths)
    (moves : stream.moveDynamicLengths = .ok (some later)) : stream.Onward later := by
  have widths := valid.widths
  have sound := valid.sound
  simp only [Stream.Sound, state] at sound
  obtain ⟨counts, table, within, bounded⟩ := sound
  have positive := (table.bits_bounds stream.bits).1
  rw [Stream.moveDynamicLengths] at moves
  dsimp only at moves
  split at moves
  · split at moves
    · exact absurd moves (by simp)
    · split at moves
      · exact absurd moves (by simp [Stream.refuse])
      · split at moves
        · exact absurd moves (by simp)
        · rename_i many
          split at moves
          · exact absurd moves (by simp [Stream.refuse])
          · rename_i lengths extended
            cases moves
            obtain ⟨total, small⟩ := extendLengths_ok bounded extended
            have kept : ((stream.withBlock fun block => { block with lengths }).drop
                ((stream.block.codeLength.decode stream.bits).bits
                  + repeatExtra (stream.block.codeLength.decode stream.bits).value)).Valid := by
              refine ⟨?_, widths.litlen, widths.dist, widths.codeLength⟩
              simp only [Stream.Sound, Stream.withBlock, Stream.drop, state]
              exact ⟨⟨counts.hlit, counts.hdist, counts.hclen⟩, table, total, small⟩
            refine ⟨kept, lowers_of_bits kept ?_, List.prefix_rfl, reads_of_drop (by omega) rfl rfl⟩
            change stream.unread - _ < stream.unread
            omega
  · split at moves
    · exact absurd moves (by simp [Stream.refuse])
    · cases tables : Stream.dynamicTables stream.block with
      | error fault =>
        rw [tables, error_bind] at moves
        exact absurd moves (by simp)
      | ok block =>
        rw [tables, ok_bind] at moves
        cases moves
        obtain ⟨sound, kept⟩ := dynamicTables_valid widths tables
        refine ⟨⟨sound, kept⟩, ?_, List.prefix_rfl, reads_of_same rfl rfl⟩
        rw [Stream.measure, Stream.measure, state]
        exact Nat.lt_succ_self _

theorem moveSymbol_onward (valid : stream.Valid) (state : stream.state = .symbols)
    (moves : stream.moveSymbol limit = .ok (some later)) : stream.Onward later := by
  have tables := valid.sound
  simp only [Stream.Sound, state] at tables
  have positive := (tables.litlen.bits_bounds stream.bits).1
  obtain ⟨entry, decoded⟩ : ∃ entry, stream.block.litlen.decode stream.bits = entry := ⟨_, rfl⟩
  rw [decoded] at positive
  rw [Stream.moveSymbol, decoded] at moves
  have still : (stream.drop entry.bits).Sound := valid.sound.drop _ (by simp [state])
  have fewer : ¬stream.unread < entry.bits → stream.unread - entry.bits < stream.unread := by
    omega
  split at moves
  · exact absurd moves (by simp)
  · rename_i many
    cases tag : entry.tag with
    | literal =>
      rw [tag] at moves
      dsimp only at moves
      split at moves
      · exact absurd moves (by simp [Stream.refuse])
      · cases moves
        have kept : ((stream.emit entry.value).drop entry.bits).Valid := by
          refine ⟨?_, valid.widths⟩
          simp only [Stream.Sound, Stream.drop, Stream.emit, state]
          exact tables
        exact ⟨kept, lowers_of_bits kept (fewer many), List.prefix_append _ _,
          reads_of_drop (Nat.not_lt.mp many) rfl rfl⟩
    | length =>
      rw [tag] at moves
      cases moves
      have bounds := tables.litlen.length_bounds (by rw [decoded, tag])
      rw [decoded] at bounds
      have kept : ((stream.drop entry.bits).enter (.lengthExtra entry.value entry.aux)).Valid :=
        ⟨⟨tables, bounds⟩, valid.widths⟩
      exact ⟨kept, lowers_of_bits kept (fewer many), List.prefix_rfl,
        reads_of_drop (Nat.not_lt.mp many) rfl rfl⟩
    | endOfBlock =>
      rw [tag] at moves
      cases moves
      have dropped : (stream.drop entry.bits).Valid := ⟨still, valid.widths⟩
      have ranked : 0 < (stream.drop entry.bits).state.rank := by
        change 0 < stream.state.rank
        rw [state]
        exact Nat.one_pos
      have left := leaveBlock_onward dropped ranked
      have lower := lowers_of_bits dropped (fewer many)
      exact ⟨left.valid, left.lowers.trans lower, left.grows,
        (reads_of_drop (Nat.not_lt.mp many) rfl rfl : stream.Reads _).trans left.reads⟩
    | _ =>
      rw [tag] at moves
      exact absurd moves (by simp [Stream.refuse])

theorem moveLengthExtra_onward {base extra : Nat} (valid : stream.Valid)
    (state : stream.state = .lengthExtra base extra)
    (moves : stream.moveLengthExtra base extra = .ok (some later)) : stream.Onward later := by
  have sound := valid.sound
  simp only [Stream.Sound, state] at sound
  obtain ⟨tables, extra_le, length_le⟩ := sound
  have small := Nat.mod_lt stream.bits (Nat.two_pow_pos extra)
  rw [Stream.moveLengthExtra] at moves
  split at moves
  · exact absurd moves (by simp)
  · cases moves
    refine ⟨⟨⟨tables, ?_⟩, valid.widths⟩, ?_, List.prefix_rfl, reads_of_drop (by omega) rfl rfl⟩
    · omega
    · rw [Stream.measure, Stream.measure, state]
      change 300 * (stream.unread - extra) + 0 < 300 * stream.unread + 1
      omega

theorem moveDistance_onward {length : Nat} (valid : stream.Valid)
    (state : stream.state = .distance length)
    (moves : stream.moveDistance length = .ok (some later)) : stream.Onward later := by
  have sound := valid.sound
  simp only [Stream.Sound, state] at sound
  obtain ⟨tables, length_le⟩ := sound
  have positive := (tables.dist.bits_bounds stream.bits).1
  obtain ⟨entry, decoded⟩ : ∃ entry, stream.block.dist.decode stream.bits = entry := ⟨_, rfl⟩
  rw [decoded] at positive
  rw [Stream.moveDistance, decoded] at moves
  split at moves
  · exact absurd moves (by simp)
  · rename_i many
    cases tag : entry.tag with
    | distance =>
      rw [tag] at moves
      cases moves
      have bounds := tables.dist.distance_bounds (by rw [decoded, tag])
      rw [decoded] at bounds
      have kept : ((stream.drop entry.bits).enter
          (.distanceExtra length entry.value entry.aux)).Valid :=
        ⟨⟨tables, length_le, bounds⟩, valid.widths⟩
      refine ⟨kept, lowers_of_bits kept ?_, List.prefix_rfl, reads_of_drop (by omega) rfl rfl⟩
      change stream.unread - entry.bits < stream.unread
      omega
    | _ =>
      rw [tag] at moves
      exact absurd moves (by simp [Stream.refuse])

theorem moveDistanceExtra_onward {length base extra : Nat} (valid : stream.Valid)
    (state : stream.state = .distanceExtra length base extra)
    (moves : stream.moveDistanceExtra length base extra = .ok (some later)) :
    stream.Onward later := by
  have sound := valid.sound
  simp only [Stream.Sound, state] at sound
  obtain ⟨tables, length_le, extra_le, positive, distance_le⟩ := sound
  have small := Nat.mod_lt stream.bits (Nat.two_pow_pos extra)
  rw [Stream.moveDistanceExtra] at moves
  split at moves
  · exact absurd moves (by simp)
  · dsimp only at moves
    split at moves
    · exact absurd moves (by simp [Stream.refuse])
    · rename_i near
      cases moves
      refine ⟨⟨⟨tables, length_le, ?_, ?_, Nat.not_lt.mp near⟩, valid.widths⟩, ?_,
        List.prefix_rfl, reads_of_drop (by omega) rfl rfl⟩
      · omega
      · omega
      · rw [Stream.measure, Stream.measure, state]
        change 300 * (stream.unread - extra) + (2 + length) < 300 * stream.unread + (3 + length)
        omega

theorem moveCopy_onward {distance length : Nat} (valid : stream.Valid)
    (state : stream.state = .copy length distance)
    (moves : stream.moveCopy limit distance length = .ok (some later)) :
    stream.Onward later := by
  have sound := valid.sound
  simp only [Stream.Sound, state] at sound
  obtain ⟨tables, length_le, positive, near, decoded⟩ := sound
  cases length with
  | zero =>
    cases moves
    refine ⟨⟨tables, valid.widths⟩, ?_, List.prefix_rfl, reads_of_same rfl rfl⟩
    rw [Stream.measure, Stream.measure, state]
    exact Nat.lt_succ_self _
  | succ length =>
    rw [Stream.moveCopy] at moves
    split at moves
    · exact absurd moves (by simp [Stream.refuse])
    · cases moves
      refine ⟨⟨⟨tables, Nat.le_of_succ_le length_le, positive, near, ?_⟩, valid.widths⟩, ?_,
        List.prefix_append _ _, reads_of_same rfl rfl⟩
      · rw [List.length_append]
        exact decoded.trans (Nat.le_add_right _ _)
      · rw [Stream.measure, Stream.measure, state]
        change 300 * stream.unread + (2 + length) < 300 * stream.unread + (2 + (length + 1))
        omega

theorem Stream.Moves.onward (valid : stream.Valid) (moves : stream.Moves limit later) :
    stream.Onward later := by
  rw [Stream.Moves, Stream.move] at moves
  cases state : stream.state <;> rw [state] at moves <;> dsimp only at moves
  case done => exact absurd moves (by simp)
  case blockHeader => exact moveBlockHeader_onward valid moves
  case storedHeader => exact moveStoredHeader_onward valid state moves
  case stored remaining => exact moveStored_onward valid state moves
  case dynamicCounts => exact moveDynamicCounts_onward valid moves
  case dynamicCodeLengths => exact moveDynamicCodeLengths_onward valid state moves
  case dynamicLengths => exact moveDynamicLengths_onward valid state moves
  case symbols => exact moveSymbol_onward valid state moves
  case lengthExtra base extra => exact moveLengthExtra_onward valid state moves
  case distance length => exact moveDistance_onward valid state moves
  case distanceExtra length base extra => exact moveDistanceExtra_onward valid state moves
  case copy length distance => exact moveCopy_onward valid state moves

theorem Stream.Reaches.onward (valid : stream.Valid) (reaches : Stream.Reaches limit stream later) :
    later.Valid ∧ later.measure ≤ stream.measure ∧ stream.out <+: later.out ∧
      stream.Reads later := by
  induction reaches with
  | refl => exact ⟨valid, le_rfl, List.prefix_rfl, reads_of_same rfl rfl⟩
  | tail _ moves ih =>
    obtain ⟨valid, lower, grows, reads⟩ := ih
    have next := moves.onward valid
    exact ⟨next.valid, next.lowers.le.trans lower, grows.trans next.grows,
      reads.trans next.reads⟩

theorem measure_lt (valid : stream.Valid) (more : TransGen (Stream.Moves limit) stream later) :
    later.measure < stream.measure := by
  obtain ⟨next, moves, rest⟩ := TransGen.head'_iff.mp more
  have first := moves.onward valid
  exact (Stream.Reaches.onward first.valid rest).2.1.trans_lt first.lowers

end

end Purrdf.Deflate
