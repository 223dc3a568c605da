import Purrdf.InflateMirror

/-!
# The turns of the decoder

Every turn of the state machine takes the stream it mirrors at least one step further, or
stops where the stream does for want of input, or where the buffer is full, or refuses what the
stream refuses.
-/

namespace Purrdf.Deflate

open Relation

section
variable {limit sent : Nat} {before future : List UInt8} {feed next : Feed}
  {stream later : Stream}

/-! ### How a turn ends -/

theorem Turned.goes (moves : stream.Moves limit later)
    (mirrors : Mirrors limit sent before future next later) :
    Turned limit sent before future stream none next :=
  ⟨later, TransGen.single moves, mirrors⟩

theorem Turned.waits (reading : Reading limit sent before future next.self.nbits next stream)
    (input : next.input = []) (stuck : future = [] → stream.move limit = .ok none) :
    Turned limit sent before future stream (some .needsInput) next :=
  ⟨input, stream, ReflTransGen.refl, reading, stuck⟩

theorem Refused.here {error : Error} (refuses : stream.move limit = .error (.refused error)) :
    Refused limit stream error next :=
  ⟨stream, ReflTransGen.refl, refuses⟩

theorem meets_refused {error : Error} {ok : Option Step → Feed → Prop}
    (refuses : stream.move limit = .error (.refused error)) :
    Meets (refuse error) feed ok (Refused limit stream) := by
  rw [meets_refuse]
  exact ⟨stream, ReflTransGen.refl, refuses⟩

theorem Turned.after {step : Option Step} (reaches : Stream.Reaches limit stream later)
    (turned : Turned limit sent before future later step next) :
    Turned limit sent before future stream step next := by
  cases step with
  | none =>
    obtain ⟨last, more, mirrors⟩ := turned
    exact ⟨last, TransGen.trans_right reaches more, mirrors⟩
  | some step =>
    cases step with
    | needsInput =>
      obtain ⟨input, last, more, reading, stuck⟩ := turned
      exact ⟨input, last, reaches.trans more, reading, stuck⟩
    | needsRoom =>
      obtain ⟨last, more, reading, full⟩ := turned
      exact ⟨last, reaches.trans more, reading, full⟩
    | done =>
      obtain ⟨last, more, finished⟩ := turned
      exact ⟨last, reaches.trans more, finished⟩

theorem Refused.after {error : Error} (reaches : Stream.Reaches limit stream later)
    (refused : Refused limit later error next) : Refused limit stream error next := by
  obtain ⟨last, more, refuses⟩ := refused
  exact ⟨last, reaches.trans more, refuses⟩

theorem Meets.after {piece : Decoding (Option Step)} (reaches : Stream.Reaches limit stream later)
    (meets : Meets piece feed (Turned limit sent before future later) (Refused limit later)) :
    Meets piece feed (Turned limit sent before future stream) (Refused limit stream) :=
  meets.mono (fun _ _ turned => turned.after reaches) fun _ _ refused => refused.after reaches

/-! ### Where the pieces of a turn lead -/

theorem Reading.enter {exact : Nat}
    (reading : Reading limit sent before future exact feed stream) {state : State}
    (sound : (stream.enter state).Sound) (running : state ≠ .done) :
    Reading limit sent before future exact (feed.withState state) (stream.enter state) := by
  have control := reading.control
  refine ⟨reading.buffer, reading.written, ?_⟩
  exact ⟨rfl, control.block, control.fixed, control.trailing, control.error, control.widths, sound,
    running⟩

theorem Reading.withBlock
    (reading : Reading limit sent before future feed.self.nbits feed stream) (block : Block)
    (fixed : feed.self.tablesFixed = true → block.Fixed) (widths : block.Widths)
    (sound : (stream.withBlock fun _ => block).Sound) :
    Reading limit sent before future (feed.withBlock block).self.nbits (feed.withBlock block)
      (stream.withBlock fun _ => block) := by
  have control := reading.control
  refine ⟨reading.buffer, reading.written, ?_⟩
  exact ⟨control.state, rfl, fixed, control.trailing, control.error, widths, sound,
    control.running⟩

theorem Stream.Sound.drop (sound : stream.Sound) (n : Nat)
    (coded : ∀ remaining, stream.state ≠ .stored remaining) : (stream.drop n).Sound := by
  obtain ⟨bits, unread, state, block, out⟩ := stream
  cases state with
  | stored remaining => exact absurd rfl (coded remaining)
  | _ => exact sound

theorem Reading.consume {exact n : Nat}
    (reading : Reading limit sent before future exact feed stream) (enough : n ≤ feed.self.nbits)
    (coded : ∀ remaining, stream.state ≠ .stored remaining) :
    Reading limit sent before future (exact - n)
      (feed.load (feed.self.bitbuf / 2 ^ n) (feed.self.nbits - n) feed.input)
      (stream.drop n) := by
  have control := reading.control
  refine ⟨reading.buffer.consume enough, reading.written, ?_⟩
  exact ⟨control.state, control.block, control.fixed, control.trailing, control.error,
    control.widths, control.sound.drop n coded, control.running⟩

theorem ensured {n : Nat} (bound : n ≤ 56)
    (reading : Reading limit sent before future feed.self.nbits feed stream)
    {body : Decoding (Option Step)} (stuck : stream.unread < n → stream.move limit = .ok none)
    (go : ∀ next, Reading limit sent before future next.self.nbits next stream →
      n ≤ next.self.nbits → ¬stream.unread < n →
        Meets body next (Turned limit sent before future stream) (Refused limit stream)) :
    Meets (ensure n >>= fun ready => if ready = true then body else pure (some .needsInput)) feed
      (Turned limit sent before future stream) (Refused limit stream) := by
  rw [meets_bind]
  apply meets_ensure bound reading.buffer
  · intro bitbuf nbits input held enough
    have many := held.count
    rw [if_pos rfl]
    exact go _ (reading.load held) enough (by omega)
  · intro bitbuf nbits held short
    rw [if_neg (by simp), meets_pure]
    apply Turned.waits (reading.load held) rfl
    intro nil
    subst nil
    exact stuck (held.empty_future short).1

theorem peeked {table : DecodeTable} {kind : Kind} (sound : table.Sound kind)
    (reading : Reading limit sent before future feed.self.nbits feed stream)
    {body : Option Entry → Decoding (Option Step)}
    (stuck : stream.unread < (table.decode stream.bits).bits → stream.move limit = .ok none)
    (waits : body none = pure (some .needsInput))
    (go : ∀ entry next, Reading limit sent before future next.self.nbits next stream →
      entry.bits ≤ next.self.nbits → Stands table kind stream.bits entry →
        Meets (body (some entry)) next (Turned limit sent before future stream)
          (Refused limit stream)) :
    Meets (peek table >>= body) feed (Turned limit sent before future stream)
      (Refused limit stream) := by
  rw [meets_bind]
  apply meets_peek sound reading.buffer
  · intro entry bitbuf nbits input held enough stands
    exact go entry _ (reading.load held) enough stands
  · intro bitbuf nbits held short
    rw [waits, meets_pure]
    apply Turned.waits (reading.load held) rfl
    intro nil
    subst nil
    apply stuck
    obtain ⟨few, same⟩ := held.empty_future short
    rw [same]
    exact few

theorem consumed_exact {n exact : Nat} {α : Type}
    (reading : Reading limit sent before future exact feed stream) (enough : n ≤ feed.self.nbits)
    (coded : ∀ remaining, stream.state ≠ .stored remaining) {rest : Unit → Decoding α}
    {ok : α → Feed → Prop} {bad : Error → Feed → Prop}
    (go : ∀ next, Reading limit sent before future (exact - n) next (stream.drop n) →
      next.self.nbits = feed.self.nbits - n → Meets (rest ()) next ok bad) :
    Meets (consume n >>= rest) feed ok bad := by
  rw [meets_bind]
  refine (meets_consume enough).mpr ?_
  exact go _ (reading.consume enough coded) rfl

theorem consumed {n : Nat} {α : Type}
    (reading : Reading limit sent before future feed.self.nbits feed stream)
    (enough : n ≤ feed.self.nbits) (coded : ∀ remaining, stream.state ≠ .stored remaining)
    {rest : Unit → Decoding α} {ok : α → Feed → Prop} {bad : Error → Feed → Prop}
    (go : ∀ next, Reading limit sent before future next.self.nbits next (stream.drop n) →
      next.self.nbits = feed.self.nbits - n → Meets (rest ()) next ok bad) :
    Meets (consume n >>= rest) feed ok bad := by
  apply consumed_exact reading enough coded
  intro next read nbits
  apply go next _ nbits
  rw [nbits]
  exact read

/-! ### Block headers -/

theorem build_congr {table other : DecodeTable} (same : table.primaryBits = other.primaryBits)
    (lengths : List Nat) (kind : Kind) (pairs : Bool) :
    table.build lengths kind pairs = other.build lengths kind pairs := by
  cases table
  cases other
  cases same
  rfl

theorem fixed_lengths_ok :
    ((∀ len ∈ fixedLitlenLengths, len ≤ 15) ∧ fixedLitlenLengths.length ≤ 288) ∧
      (∀ len ∈ fixedDistLengths, len ≤ 15) ∧ fixedDistLengths.length ≤ 288 := by
  refine ⟨⟨?_, ?_⟩, ?_, ?_⟩
  · intro len member
    obtain ⟨symbol, -, rfl⟩ := List.mem_map.mp member
    split_ifs <;> omega
  · simp [fixedLitlenLengths]
  · intro len member
    rw [List.eq_of_mem_replicate member]
    omega
  · simp [fixedDistLengths]

theorem ok_bind {α β : Type} (value : α) (rest : α → Except Fault β) :
    (Except.ok value >>= rest) = rest value :=
  rfl

theorem error_bind {α β : Type} (fault : Fault) (rest : α → Except Fault β) :
    ((Except.error fault : Except Fault α) >>= rest) = .error fault :=
  rfl

theorem Block.Fixed.tables {block : Block} (fixed : block.Fixed) :
    Stream.fixedTables block = .ok block := by
  rw [Stream.fixedTables, fixed.litlen, ok_bind, fixed.dist, ok_bind]
  rfl

structure FixedInstalled (block installed : Block) : Prop where
  tables : Stream.fixedTables block = .ok installed
  fixed : installed.Fixed
  sound : installed.Tables
  widths : installed.Widths

theorem fixed_sound {block : Block} (widths : block.Widths) (fixed : block.Fixed) :
    block.Tables := by
  constructor
  · refine (build_sound ?_ ?_ (fun _ => rfl) fixed.litlen).1
    · rw [widths.litlen, litlenBits]
      omega
    · rw [widths.litlen, litlenBits]
      omega
  · refine (build_sound ?_ ?_ (fun off => by simp at off) fixed.dist).1
    · rw [widths.dist, distBits]
      omega
    · rw [widths.dist, distBits]
      omega

theorem meets_fixedTables (same : feed.self.block = stream.block) (widths : stream.block.Widths)
    (fixed : feed.self.tablesFixed = true → stream.block.Fixed)
    {ok : Unit → Feed → Prop} {bad : Error → Feed → Prop}
    (good : ∀ block, FixedInstalled stream.block block →
      ok () ((feed.withBlock block).withFixed true))
    (refused : ∀ error next, Stream.fixedTables stream.block = .error (.refused error) →
      bad error next) :
    Meets fixedTables feed ok bad := by
  obtain ⟨⟨short, size⟩, shortDist, sizeDist⟩ := fixed_lengths_ok
  rw [fixedTables, meets_bind, meets_get]
  split
  · rename_i installed
    have here := fixed installed
    have kept : (feed.withBlock stream.block).withFixed true = feed := by
      rw [← same, ← installed]
      rfl
    rw [meets_pure, ← kept]
    exact good _ ⟨here.tables, here, fixed_sound widths here, widths⟩
  · rw [meets_bind, meets_built short size, same]
    constructor
    · intro litlen litlenBuilt
      rw [meets_bind, meets_updateBlock, meets_bind, meets_built shortDist sizeDist]
      constructor
      · intro dist distBuilt
        rw [meets_bind, meets_updateBlock, meets_update]
        change ok () ((feed.withBlock { feed.self.block with litlen, dist }).withFixed true)
        rw [same]
        apply good
        have widthLitlen := (build_sound (by rw [widths.litlen, litlenBits]; omega)
          (by rw [widths.litlen, litlenBits]; omega) (fun _ => rfl) litlenBuilt).2
        have widthDist := (build_sound (by rw [widths.dist, distBits]; omega)
          (by rw [widths.dist, distBits]; omega) (fun off => by simp at off) distBuilt).2
        have placed : Block.Fixed { stream.block with litlen, dist } := by
          constructor
          · rw [← litlenBuilt]
            exact build_congr widthLitlen _ _ _
          · rw [← distBuilt]
            exact build_congr widthDist _ _ _
        have keep : Block.Widths { stream.block with litlen, dist } :=
          ⟨widthLitlen.trans widths.litlen, widthDist.trans widths.dist, widths.codeLength⟩
        refine ⟨?_, placed, fixed_sound keep placed, keep⟩
        rw [Stream.fixedTables, litlenBuilt, ok_bind, distBuilt, ok_bind]
        rfl
      · intro error distFails
        apply refused
        rw [Stream.fixedTables, litlenBuilt, ok_bind, distFails, error_bind]
    · intro error litlenFails
      apply refused
      rw [Stream.fixedTables, litlenFails, error_bind]

theorem enterBlock_turns {kind : Nat}
    (reading : Reading limit sent before future feed.self.nbits feed later)
    (moves : stream.move limit = later.enterBlock kind) :
    Meets (enterBlock kind) feed (Turned limit sent before future stream)
      (Refused limit stream) := by
  have control := reading.control
  rcases kind with _ | _ | _ | kind
  · apply Turned.goes moves
    exact Or.inl (reading.enter trivial (by simp))
  · have moved : stream.move limit = Stream.fixedTables later.block >>= fun block =>
        .ok (some { later with block, state := .symbols }) := moves
    change Meets (fixedTables >>= fun _ => become .symbols) _ _ _
    rw [meets_bind]
    apply meets_fixedTables control.block control.widths control.fixed
    · intro block installed
      rw [meets_become]
      rw [installed.tables, ok_bind] at moved
      apply Turned.goes moved
      refine Or.inl ⟨reading.buffer, reading.written, ?_⟩
      exact ⟨rfl, rfl, fun _ => installed.fixed, control.trailing, control.error,
        installed.widths, installed.sound, by simp⟩
    · intro error next fails
      apply Refused.here
      rw [moved, fails, error_bind]
  · apply Turned.goes moves
    exact Or.inl (reading.enter trivial (by simp))
  · exact meets_refused moves

theorem Stream.drop_zero (stream : Stream) : stream.drop 0 = stream := by
  cases stream
  simp [Stream.drop]

theorem reaches_aligned (state : stream.state = .storedHeader) :
    Stream.Reaches limit stream (stream.drop (stream.unread % 8)) := by
  by_cases aligned : stream.unread % 8 = 0
  · rw [aligned, Stream.drop_zero]
    exact ReflTransGen.refl
  · apply ReflTransGen.single
    rw [Stream.Moves, Stream.move, state]
    dsimp only
    rw [Stream.moveStoredHeader, if_pos aligned]

theorem repeatExtra_le (symbol : Nat) : repeatExtra symbol ≤ 7 := by
  rw [repeatExtra]
  split_ifs <;> omega

/-- A run keeps the lengths within fifteen bits and within their total. -/
theorem extendLengths_ok {total symbol value : Nat} {lengths extended : List Nat}
    (bounded : ∀ len ∈ lengths, len ≤ 15)
    (ok : extendLengths total lengths symbol value = .ok extended) :
    extended.length ≤ total ∧ ∀ len ∈ extended, len ≤ 15 := by
  have run : ∀ fill count, repeatRun lengths symbol value = .ok (fill, count) → fill ≤ 15 := by
    intro fill count found
    rw [repeatRun] at found
    split at found
    · cases found
      assumption
    split at found
    · cases last : lengths.getLast? with
      | none =>
        rw [last] at found
        exact absurd found (by simp)
      | some fill =>
        rw [last] at found
        cases found
        exact bounded _ (List.mem_of_getLast? last)
    split at found
    · cases found
      omega
    · cases found
      omega
  rw [extendLengths] at ok
  cases found : repeatRun lengths symbol value with
  | error error =>
    rw [found] at ok
    exact absurd ok (by simp [bind, Except.bind])
  | ok pair =>
    obtain ⟨fill, count⟩ := pair
    rw [found] at ok
    change (if total < lengths.length + count then Except.error Error.codeLengthsOverrun
      else .ok (lengths ++ List.replicate count fill)) = .ok extended at ok
    split at ok
    · exact absurd ok (by simp)
    · cases ok
      constructor
      · rw [List.length_append, List.length_replicate]
        omega
      · intro len member
        rcases List.mem_append.mp member with old | new
        · exact bounded len old
        · rw [List.eq_of_mem_replicate new]
          exact run fill count found

theorem Stream.drop_drop (stream : Stream) (a b : Nat) :
    (stream.drop a).drop b = stream.drop (a + b) := by
  simp only [Stream.drop, Nat.div_div_eq_div_mul, ← pow_add, Nat.sub_sub]

theorem Stands.alone {table : DecodeTable} {kind : Kind} {bits : Nat} {entry : Entry}
    (stands : Stands table kind bits entry) (single : kind ≠ .literalLength) :
    table.decode bits = entry := by
  cases stands with
  | single tag same => exact same
  | pair tag order bytes => exact absurd bytes single

section

variable (reading : Reading limit sent before future feed.self.nbits feed stream)

include reading

theorem stepBlockHeader_turns (state : stream.state = .blockHeader) :
    Meets stepBlockHeader feed (Turned limit sent before future stream)
      (Refused limit stream) := by
  have moves : stream.move limit = stream.moveBlockHeader := by
    rw [Stream.move, state]
  rw [stepBlockHeader]
  apply ensured (by omega) reading
  · intro short
    rw [moves, Stream.moveBlockHeader, if_pos short]
  · intro next loaded enough many
    have held := loaded.buffer
    have control := loaded.control
    have low : next.self.bitbuf % 2 ^ 1 = stream.bits % 2 ^ 1 := held.low (by omega)
    have kind_bits : next.self.bitbuf / 2 % 4 = stream.bits / 2 % 4 := by
      simpa using held.field 1 2 (by omega)
    have same : next.self.block = stream.block := control.block
    rw [Stream.moveBlockHeader, if_neg many] at moves
    rw [meets_bind, meets_get, meets_bind, meets_updateBlock]
    have headed := loaded.withBlock
      { stream.block with finalBlock := stream.bits % 2 ^ 1 == 1 }
      (fun fixed => ⟨(control.fixed fixed).litlen, (control.fixed fixed).dist⟩)
      ⟨control.widths.litlen, control.widths.dist, control.widths.codeLength⟩
      (by simp [Stream.Sound, Stream.withBlock, state])
    dsimp only [Feed.bits]
    rw [low, kind_bits, same]
    apply consumed headed enough (by simp [Stream.withBlock, state])
    intro last read _
    exact enterBlock_turns read moves

theorem stepStoredHeader_turns (state : stream.state = .storedHeader) :
    Meets stepStoredHeader feed (Turned limit sent before future stream)
      (Refused limit stream) := by
  have count := reading.buffer.count
  have partial_bits : feed.self.nbits % 8 = stream.unread % 8 := by omega
  rw [stepStoredHeader, meets_bind, meets_get, meets_bind]
  refine (meets_consume (Nat.mod_le _ _)).mpr ?_
  apply Meets.after (reaches_aligned state)
  have coded : ∀ remaining, stream.state ≠ .stored remaining := by simp [state]
  have aligned := reading.consume (Nat.mod_le feed.self.nbits 8) coded
  rw [partial_bits] at aligned ⊢
  obtain ⟨start, start_eq⟩ : ∃ start, stream.drop (stream.unread % 8) = start := ⟨_, rfl⟩
  have start_state : start.state = .storedHeader := by
    rw [← start_eq]
    exact state
  have whole : ¬start.unread % 8 ≠ 0 := by
    rw [← start_eq]
    simp only [Stream.drop]
    omega
  have moves : start.move limit = start.moveStoredHeader := by
    rw [Stream.move, start_state]
  rw [Stream.moveStoredHeader, if_neg whole] at moves
  rw [start_eq] at aligned ⊢
  apply ensured (by omega) aligned
  · intro short
    rw [moves, if_pos short]
  · intro next loaded enough many
    have held := loaded.buffer
    rw [if_neg many] at moves
    dsimp only at moves
    rw [meets_bind, meets_get]
    dsimp only [Feed.bits]
    have len : next.self.bitbuf % 2 ^ 16 = start.bits % 2 ^ 16 := held.low (by omega)
    have nlen : next.self.bitbuf / 2 ^ 16 % 2 ^ 16 = start.bits / 2 ^ 16 % 2 ^ 16 :=
      held.field 16 16 (by omega)
    rw [len, nlen]
    apply consumed loaded enough (by simp [start_state])
    intro last read _
    split
    · rename_i complement
      rw [if_pos complement] at moves
      apply Turned.goes moves
      refine Or.inl (read.enter ?_ (by simp))
      simp only [Stream.Sound, Stream.enter, Stream.drop]
      omega
    · rename_i mismatch
      rw [if_neg mismatch] at moves
      exact meets_refused moves

theorem stepDynamicCounts_turns (state : stream.state = .dynamicCounts) :
    Meets stepDynamicCounts feed (Turned limit sent before future stream)
      (Refused limit stream) := by
  have moves : stream.move limit = stream.moveDynamicCounts := by
    rw [Stream.move, state]
  rw [stepDynamicCounts]
  apply ensured (by omega) reading
  · intro short
    rw [moves, Stream.moveDynamicCounts, if_pos short]
  · intro next loaded enough many
    have held := loaded.buffer
    have control := loaded.control
    have same : next.self.block = stream.block := control.block
    rw [Stream.moveDynamicCounts, if_neg many] at moves
    dsimp only at moves
    have hlit : next.self.bitbuf % 2 ^ 5 = stream.bits % 2 ^ 5 := held.low (by omega)
    have hdist : next.self.bitbuf / 2 ^ 5 % 32 = stream.bits / 2 ^ 5 % 32 :=
      held.field 5 5 (by omega)
    have hclen : next.self.bitbuf / 2 ^ 10 % 16 = stream.bits / 2 ^ 10 % 16 :=
      held.field 10 4 (by omega)
    rw [meets_bind, meets_get]
    dsimp only [Feed.bits]
    rw [hlit, hdist, hclen, meets_bind, meets_updateBlock, same]
    have counted := loaded.withBlock { stream.block with
        hlit := 257 + stream.bits % 2 ^ 5
        hdist := 1 + stream.bits / 2 ^ 5 % 32
        hclen := 4 + stream.bits / 2 ^ 10 % 16 }
      (fun fixed => ⟨(control.fixed fixed).litlen, (control.fixed fixed).dist⟩)
      ⟨control.widths.litlen, control.widths.dist, control.widths.codeLength⟩
      (by simp [Stream.Sound, Stream.withBlock, state])
    apply consumed counted enough (by simp [Stream.withBlock, state])
    intro last read _
    have control := read.control
    have same : last.self.block = _ := control.block
    split
    · rename_i many_codes
      rw [if_pos many_codes] at moves
      exact meets_refused moves
    · rename_i few_codes
      rw [if_neg few_codes] at moves
      rw [meets_bind, meets_updateBlock, meets_become, same]
      apply Turned.goes moves
      refine Or.inl ⟨read.buffer, read.written, ?_⟩
      refine ⟨rfl, rfl, ?_, control.trailing, control.error, ?_, ?_, by simp [Stream.enter]⟩
      · intro fixed
        have placed := control.fixed fixed
        exact ⟨placed.litlen, placed.dist⟩
      · exact ⟨control.widths.litlen, control.widths.dist, control.widths.codeLength⟩
      · refine ⟨⟨⟨Nat.le_add_right _ _, Nat.not_lt.mp few_codes⟩, ⟨Nat.le_add_right _ _, ?_⟩, ?_⟩,
          Nat.zero_le _, List.length_replicate, ?_⟩
        · change 1 + stream.bits / 2 ^ 5 % 32 ≤ 32
          omega
        · change 4 + stream.bits / 2 ^ 10 % 16 ≤ 19
          omega
        · intro len member
          rw [List.eq_of_mem_replicate member]
          omega

theorem stepDynamicCodeLengths_turns (state : stream.state = .dynamicCodeLengths) :
    Meets stepDynamicCodeLengths feed (Turned limit sent before future stream)
      (Refused limit stream) := by
  have control := reading.control
  have same : feed.self.block = stream.block := control.block
  have sound := control.sound
  simp only [Stream.Sound, state] at sound
  obtain ⟨counts, index, size, bounded⟩ := sound
  have moves : stream.move limit = stream.moveDynamicCodeLengths := by
    rw [Stream.move, state]
  rw [Stream.moveDynamicCodeLengths] at moves
  rw [stepDynamicCodeLengths, meets_bind, meets_get]
  dsimp only
  rw [same]
  split
  · rename_i more
    rw [if_pos more] at moves
    apply ensured (by omega) reading
    · intro short
      rw [moves, if_pos short]
    · intro next loaded enough many
      have control := loaded.control
      have same : next.self.block = stream.block := control.block
      rw [if_neg many] at moves
      have field : next.self.bitbuf % 2 ^ 3 = stream.bits % 2 ^ 3 :=
        loaded.buffer.low (by omega)
      have inside : stream.block.clIndex < codeLengthOrder.length := by
        have bound := counts.hclen
        have order : codeLengthOrder.length = 19 := rfl
        omega
      have placed := List.getElem?_eq_getElem inside
      obtain ⟨symbol, symbol_eq⟩ :
          ∃ symbol, codeLengthOrder[stream.block.clIndex] = symbol := ⟨_, rfl⟩
      rw [symbol_eq] at placed
      rw [placed] at moves
      rw [meets_bind, meets_get, placed]
      dsimp only [Feed.bits]
      rw [meets_bind, meets_updateBlock, field, same]
      have kept : ∀ clIndex ≤ stream.block.hclen, (stream.withBlock fun _ => { stream.block with
          clLengths := stream.block.clLengths.set symbol (stream.bits % 2 ^ 3)
          clIndex }).Sound := by
        intro clIndex bound
        simp only [Stream.Sound, Stream.withBlock, state]
        refine ⟨⟨counts.hlit, counts.hdist, counts.hclen⟩, bound, ?_, ?_⟩
        · rw [List.length_set]
          exact size
        · intro len member
          rcases List.mem_or_eq_of_mem_set member with old | new
          · exact bounded len old
          · omega
      have entered := loaded.withBlock { stream.block with
          clLengths := stream.block.clLengths.set symbol (stream.bits % 2 ^ 3) }
        (fun fixed => ⟨(control.fixed fixed).litlen, (control.fixed fixed).dist⟩)
        ⟨control.widths.litlen, control.widths.dist, control.widths.codeLength⟩
        (kept stream.block.clIndex index)
      apply consumed entered enough (by simp [Stream.withBlock, state])
      intro last read _
      have control := read.control
      have same : last.self.block = _ := control.block
      rw [meets_bind, meets_updateBlock, meets_pure, same]
      apply Turned.goes moves
      refine Or.inl (read.withBlock { stream.block with
          clLengths := stream.block.clLengths.set symbol (stream.bits % 2 ^ 3)
          clIndex := stream.block.clIndex + 1 } ?_ ?_ ?_)
      · intro fixed
        have table := control.fixed fixed
        exact ⟨table.litlen, table.dist⟩
      · exact ⟨control.widths.litlen, control.widths.dist, control.widths.codeLength⟩
      · have sound := kept (stream.block.clIndex + 1) more
        simp only [Stream.Sound, Stream.withBlock, state] at sound
        simp only [Stream.Sound, Stream.withBlock, Stream.drop, state]
        exact sound
  · rename_i all
    rw [if_neg all] at moves
    rw [meets_bind, meets_built bounded (by omega)]
    constructor
    · intro table built
      rw [meets_bind, meets_updateBlock, meets_become]
      rw [built, ok_bind] at moves
      apply Turned.goes moves
      change Mirrors limit sent before future ((feed.withBlock
        { feed.self.block with codeLength := table, lengths := [] }).withState .dynamicLengths) _
      rw [same]
      have width := control.widths.codeLength
      obtain ⟨table_sound, table_width⟩ := build_sound (by rw [width, codeLengthBits]; omega)
        (by rw [width, codeLengthBits]; omega) (fun off => by simp at off) built
      refine Or.inl ⟨reading.buffer, reading.written, ?_⟩
      refine ⟨rfl, rfl, ?_, control.trailing, control.error, ?_, ?_, by simp [Stream.enter]⟩
      · intro fixed
        have placed := control.fixed fixed
        exact ⟨placed.litlen, placed.dist⟩
      · exact ⟨control.widths.litlen, control.widths.dist, table_width.trans width⟩
      · exact ⟨⟨counts.hlit, counts.hdist, counts.hclen⟩, table_sound, Nat.zero_le _,
          fun len member => by simp [Stream.enter, Stream.withBlock] at member⟩
    · intro error fails
      rw [fails, error_bind] at moves
      exact ⟨stream, ReflTransGen.refl, moves⟩

theorem dynamicTables_turns (counts : stream.block.Counts)
    (full : stream.block.lengths.length = stream.block.hlit + stream.block.hdist)
    (bounded : ∀ len ∈ stream.block.lengths, len ≤ 15)
    (moves : stream.move limit = Stream.dynamicTables stream.block >>= fun block => .ok (some { stream with block, state := .symbols })) :
    Meets (do
      let litlen ← built (stream.block.litlen.build
        (stream.block.lengths.take stream.block.hlit) .literalLength true)
      updateBlock fun block => { block with litlen }
      let dist ← built (stream.block.dist.build
        (stream.block.lengths.drop stream.block.hlit) .distance false)
      updateBlock fun block => { block with dist }
      update fun inflater => { inflater with tablesFixed := false }
      become .symbols) feed (Turned limit sent before future stream) (Refused limit stream) := by
  have control := reading.control
  have same : feed.self.block = stream.block := control.block
  have widths := control.widths
  have hlit := counts.hlit.2
  have hdist := counts.hdist.2
  have front : ∀ len ∈ stream.block.lengths.take stream.block.hlit, len ≤ 15 :=
    fun len member => bounded len (List.mem_of_mem_take member)
  have back : ∀ len ∈ stream.block.lengths.drop stream.block.hlit, len ≤ 15 :=
    fun len member => bounded len (List.mem_of_mem_drop member)
  have symbols : litlenSymbols = 286 := rfl
  rw [Stream.dynamicTables] at moves
  rw [meets_bind, meets_built front (by rw [List.length_take]; omega)]
  constructor
  · intro litlen litlenBuilt
    rw [litlenBuilt, ok_bind] at moves
    rw [meets_bind, meets_updateBlock, meets_bind, meets_built back (by rw [List.length_drop]; omega)]
    constructor
    · intro dist distBuilt
      rw [distBuilt, ok_bind] at moves
      rw [meets_bind, meets_updateBlock, meets_bind, meets_update, meets_become]
      apply Turned.goes moves
      change Mirrors limit sent before future (((feed.withBlock
        { feed.self.block with litlen, dist }).withFixed false).withState .symbols) _
      rw [same]
      obtain ⟨soundLitlen, widthLitlen⟩ := build_sound (by rw [widths.litlen, litlenBits]; omega)
        (by rw [widths.litlen, litlenBits]; omega) (fun _ => rfl) litlenBuilt
      obtain ⟨soundDist, widthDist⟩ := build_sound (by rw [widths.dist, distBits]; omega)
        (by rw [widths.dist, distBits]; omega) (fun off => by simp at off) distBuilt
      refine Or.inl ⟨reading.buffer, reading.written, ?_⟩
      refine ⟨rfl, rfl, fun fixed => absurd fixed (by simp [Inflater.control, Feed.withFixed,
        Feed.withState]), control.trailing, control.error, ?_, ?_, by simp⟩
      · exact ⟨widthLitlen.trans widths.litlen, widthDist.trans widths.dist, widths.codeLength⟩
      · exact ⟨soundLitlen, soundDist⟩
    · intro error fails
      rw [fails, error_bind] at moves
      exact ⟨stream, ReflTransGen.refl, moves⟩
  · intro error fails
    rw [fails, error_bind] at moves
    exact ⟨stream, ReflTransGen.refl, moves⟩

theorem stepDynamicLengths_turns (state : stream.state = .dynamicLengths) :
    Meets stepDynamicLengths feed (Turned limit sent before future stream)
      (Refused limit stream) := by
  have control := reading.control
  have same : feed.self.block = stream.block := control.block
  have sound := control.sound
  simp only [Stream.Sound, state] at sound
  obtain ⟨counts, table, within, bounded⟩ := sound
  have coded : ∀ remaining, stream.state ≠ .stored remaining := by simp [state]
  have moves : stream.move limit = stream.moveDynamicLengths := by
    rw [Stream.move, state]
  rw [Stream.moveDynamicLengths] at moves
  dsimp only at moves
  rw [stepDynamicLengths, meets_bind, meets_get]
  dsimp only
  rw [same]
  split
  · rename_i more
    rw [if_pos more] at moves
    apply peeked table reading
    · intro short
      rw [moves, if_pos short]
    · rfl
    · intro entry next loaded enough stands
      have decoded := stands.alone (by simp)
      have short := (table.bits_bounds stream.bits).2
      have count := loaded.buffer.count
      rw [decoded] at moves short
      rw [if_neg (by omega)] at moves
      dsimp only
      split
      · rename_i other
        rw [if_pos other] at moves
        exact meets_refused moves
      · rename_i literal
        rw [if_neg literal] at moves
        have extra := repeatExtra_le entry.value
        apply ensured (by omega) loaded
        · intro few
          rw [moves, if_pos few]
        · intro next loaded enough many
          rw [if_neg many] at moves
          apply consumed loaded (by omega) coded
          intro past read nbits
          rw [meets_bind, meets_get]
          have field : past.bits (repeatExtra entry.value)
              = (stream.drop entry.bits).bits % 2 ^ repeatExtra entry.value :=
            read.buffer.low (by omega)
          rw [field]
          apply consumed read (by omega) coded
          intro last reread _
          rw [Stream.drop_drop] at reread
          have control := reread.control
          have same : last.self.block = stream.block := control.block
          cases extended : extendLengths (stream.block.hlit + stream.block.hdist)
              stream.block.lengths entry.value
              ((stream.drop entry.bits).bits % 2 ^ repeatExtra entry.value) with
          | error error =>
            rw [extended] at moves
            exact meets_refused moves
          | ok lengths =>
            rw [extended] at moves
            obtain ⟨total, small⟩ := extendLengths_ok bounded extended
            dsimp only
            rw [meets_bind, meets_updateBlock, meets_pure, same]
            apply Turned.goes moves
            refine Or.inl (reread.withBlock { stream.block with lengths } ?_ ?_ ?_)
            · intro fixed
              have table := control.fixed fixed
              exact ⟨table.litlen, table.dist⟩
            · exact ⟨control.widths.litlen, control.widths.dist, control.widths.codeLength⟩
            · simp only [Stream.Sound, Stream.withBlock, Stream.drop, state]
              exact ⟨⟨counts.hlit, counts.hdist, counts.hclen⟩, table, total, small⟩
  · rename_i all
    rw [if_neg all] at moves
    split
    · rename_i missing
      rw [if_pos missing] at moves
      exact meets_refused moves
    · rename_i present
      rw [if_neg present] at moves
      exact dynamicTables_turns reading counts (by omega) bounded moves

end

end

end Purrdf.Deflate
