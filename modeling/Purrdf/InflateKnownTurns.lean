import Purrdf.InflateTwinSymbols

/-!
# Turns whose outcome is known

What a turn does where the header, the symbol or the lengths it meets are known.
-/

namespace Purrdf.Deflate
open CanonicalCode

def turnsFrom (fast : Bool) : Nat → Feed → Option Feed
  | 0, feed => some feed
  | turns + 1, feed =>
    match turn fast feed with
    | .ok none next => turnsFrom fast turns next
    | _ => none

theorem turnsFrom_turn {fast : Bool} {turns : Nat} {feed next : Feed}
    (h : turn fast feed = .ok none next) :
    turnsFrom fast (turns + 1) feed = turnsFrom fast turns next := by
  rw [turnsFrom, h]

theorem stepLoop_from {fast : Bool} {turns : Nat} {feed next : Feed} (more : Nat)
    (h : turnsFrom fast turns feed = some next) :
    stepLoop fast (turns + more) feed = stepLoop fast more next := by
  induction turns generalizing feed with
  | zero =>
    cases h
    rw [Nat.zero_add]
  | succ turns ih =>
    unfold turnsFrom at h
    split at h
    · next later hturn =>
        rw [Nat.succ_add]
        simp only [stepLoop, Bind.bind, EStateM.bind, hturn]
        exact ih h
    · cases h

@[irreducible] def fixedLitlen : DecodeTable :=
  ((DecodeTable.new litlenBits).build fixedLitlenLengths .literalLength true).toOption.getD
    (.new litlenBits)

@[irreducible] def fixedDist : DecodeTable :=
  ((DecodeTable.new distBits).build fixedDistLengths .distance false).toOption.getD (.new distBits)

theorem fixedLitlen_built : (DecodeTable.new litlenBits).build fixedLitlenLengths .literalLength true
    = .ok fixedLitlen := by
  obtain ⟨litlen, dist, -, -, hlitlen, -⟩ := fixed_built
  have h := hlitlen (.new litlenBits) rfl
  unfold fixedLitlen
  rw [h]
  rfl

theorem fixedDist_built : (DecodeTable.new distBits).build fixedDistLengths .distance false
    = .ok fixedDist := by
  obtain ⟨litlen, dist, -, -, -, hdist⟩ := fixed_built
  have h := hdist (.new distBits) rfl
  unfold fixedDist
  rw [h]
  rfl

/-- Where the end of a block has its code in some bits, a lookup finds it once the code is
buffered. -/
theorem confirmed_end {table built : DecodeTable} {lengths : List Nat} {bitbuf : Nat}
    (hwidth : table.primaryBits = litlenBits)
    (hbuilt : table.build lengths .literalLength true = .ok built)
    (hcode : Matches lengths 256 bitbuf) (nbits : Nat) :
    confirmed built bitbuf nbits = some (if lengthOf lengths 256 ≤ nbits then
      some (Kind.literalLength.symbolEntry 256 (lengthOf lengths 256)) else none) := by
  have hpositive : 0 < table.primaryBits := by simp [hwidth, litlenBits]
  have hbound : table.primaryBits ≤ 15 := by simp [hwidth, litlenBits]
  obtain ⟨hsound, -⟩ := build_sound hpositive hbound (fun _ => rfl) hbuilt
  obtain ⟨-, width, hdecodes⟩ := build_decodes hpositive hbound (fun _ => rfl) hbuilt
  have hdecode := (hdecodes.reaches bitbuf).matched 256 hcode
  have hbits : (built.decode bitbuf).bits = lengthOf lengths 256 := by
    rw [hdecode]
    exact symbolEntry_bits _ _ _
  rcases confirmed_spec hsound bitbuf nbits with ⟨entry, hfound, henough, hstands⟩ | ⟨hnone, hshort⟩
  · cases hstands bitbuf rfl with
    | single hsingle hsame =>
      rw [hfound, ← hdecode, ← hbits, hsame, if_pos henough]
    | pair hpair _ _ hfirst _ =>
      rw [hdecode] at hfirst
      exact absurd (congrArg Entry.tag hfirst) (by simp [Kind.symbolEntry])
  · rw [hnone, if_neg (by omega)]

def endEntry (bits : Nat) : Entry := ⟨bits, .endOfBlock, 0, 0⟩

theorem deliver_nothing {inflater : Inflater} (hwindow : inflater.window = [])
    (written : List UInt8) :
    deliver inflater ⟨none, written⟩ = (inflater, ⟨none, written⟩) := by
  simp only [deliver, Sink.fits, hwindow, List.drop_nil, List.take_nil, List.append_nil,
    List.length_nil, Nat.add_zero]
  rw [← hwindow]

theorem feed_waits {fast : Bool} {inflater : Inflater} {input : List UInt8} {next : Feed}
    (herror : inflater.error = none) (hwindow : inflater.window = [])
    (hrunning : inflater.state ≠ .done)
    (hstep : step fast ⟨inflater, input⟩ = .ok .needsInput next) (hwindow' : next.self.window = []) :
    inflater.feed fast input none = ⟨next.self, [], .ok (.needsInput, next.input)⟩ := by
  unfold Inflater.feed
  rw [herror]
  dsimp only
  unfold runLoop
  rw [deliver_nothing hwindow]
  simp [hwindow, hrunning, bufLen, decodeRoom, windowSize, slideRoom, hstep,
    deliver_nothing hwindow', hwindow']

theorem bind_run {α β : Type} (piece : Decoding α) (rest : α → Decoding β) (feed : Feed) :
    (piece >>= rest) feed = match piece feed with
      | .ok value next => rest value next
      | .error fault next => .error fault next := by
  simp only [Bind.bind, EStateM.bind]
  cases piece feed <;> rfl

theorem get_run (feed : Feed) : (MonadState.get : Decoding Feed) feed = .ok feed feed := rfl

theorem pure_run {α : Type} (value : α) (feed : Feed) : (pure value : Decoding α) feed = .ok value feed := rfl

theorem update_run (change : Inflater → Inflater) (feed : Feed) :
    update change feed = .ok () { feed with self := change feed.self } := rfl

theorem stepSymbols_short {fast : Bool} {feed : Feed} (hstate : feed.self.state = .symbols)
    (hinput : feed.input.length < 8) (hcounted : feed.self.nbits < 64)
    (hclear : feed.self.bitbuf < 2 ^ feed.self.nbits) :
    stepSymbols fast feed = stepSymbol feed := by
  have hmask : maskBuffer feed = .ok () feed := by
    simp [maskBuffer, update_run, hcounted, Nat.mod_eq_of_lt hclear]
  have hturn : ∀ stop, fastTurn stop feed = .ok .stop feed := by
    intro stop
    simp [fastTurn, bind_run, get_run, hinput, pure_run]
  have hfast : fastSymbols feed = .ok () feed := by
    simp only [fastSymbols, bind_run, get_run]
    split
    · rfl
    · simp [bind_run, fastLoop, hturn, hmask, pure_run]
  cases fast <;> simp [stepSymbols, actIf, bind_run, get_run, pure_run, hfast, hstate]

theorem ensure_run (n : Nat) (feed : Feed) : ensure n feed =
    .ok (pull n feed.self.bitbuf feed.self.nbits feed.input).1
      (feed.load (pull n feed.self.bitbuf feed.self.nbits feed.input).2.1
        (pull n feed.self.bitbuf feed.self.nbits feed.input).2.2.1
        (pull n feed.self.bitbuf feed.self.nbits feed.input).2.2.2) := rfl

theorem consume_run {n : Nat} {feed : Feed} (henough : n ≤ feed.self.nbits) :
    consume n feed = .ok () (feed.load (feed.self.bitbuf / 2 ^ n) (feed.self.nbits - n) feed.input) := by
  simp only [consume, bind_run, get_run, henough, if_true]
  rfl

theorem turn_header {fast : Bool} {feed : Feed} {bitbuf nbits : Nat} {input : List UInt8}
    (hstate : feed.self.state = .blockHeader)
    (hpull : pull 3 feed.self.bitbuf feed.self.nbits feed.input = (true, bitbuf, nbits, input))
    (henough : 3 ≤ nbits) {left : Nat} (hleft : bitbuf / 2 ^ 3 = left) {final : Bool}
    (hfinal : (bitbuf % 2 ^ 1 == 1) = final) :
    turn fast feed = enterBlock (bitbuf / 2 % 4)
      ((feed.load left (nbits - 3) input).withBlock
        { feed.self.block with finalBlock := final }) := by
  subst hleft hfinal
  have hturn : turn fast feed = stepBlockHeader feed := by
    unfold turn
    rw [bind_run, get_run]
    dsimp only
    rw [hstate]
  rw [hturn]
  unfold stepBlockHeader
  rw [bind_run, ensure_run, hpull]
  dsimp only
  rw [if_pos rfl, bind_run, get_run]
  dsimp only
  rw [bind_run]
  unfold updateBlock
  rw [update_run]
  dsimp only
  rw [bind_run, consume_run henough]
  rfl

theorem enterBlock_fixed {feed : Feed} (hkept : Kept feed.self.block feed.self.tablesFixed) :
    enterBlock 1 feed = .ok none (((feed.withBlock
      { feed.self.block with litlen := fixedLitlen, dist := fixedDist }).withFixed true).withState
        .symbols) := by
  have hlitlen : ∀ table : DecodeTable, table.primaryBits = litlenBits →
      table.build fixedLitlenLengths .literalLength true = .ok fixedLitlen := by
    intro table hwidth
    rw [← fixedLitlen_built]
    exact build_congr hwidth _ _ _
  have hdist : ∀ table : DecodeTable, table.primaryBits = distBits →
      table.build fixedDistLengths .distance false = .ok fixedDist := by
    intro table hwidth
    rw [← fixedDist_built]
    exact build_congr hwidth _ _ _
  change (fixedTables >>= fun _ => become .symbols) feed = _
  rw [bind_run, fixedTables_eq hkept hlitlen hdist]
  rfl

theorem enterBlock_marked {feed : Feed} (hmark : feed.self.tablesFixed = true) :
    enterBlock 1 feed = .ok none (feed.withState .symbols) := by
  have hfixed : fixedTables feed = .ok () feed := by
    unfold fixedTables
    rw [bind_run, get_run]
    dsimp only
    rw [hmark]
    rfl
  change (fixedTables >>= fun _ => become .symbols) feed = _
  rw [bind_run, hfixed]
  rfl

theorem turn_symbols {fast : Bool} {feed : Feed} {entry : Option Entry} {bitbuf nbits : Nat}
    {input : List UInt8} (hstate : feed.self.state = .symbols) (hinput : feed.input.length < 8)
    (hcounted : feed.self.nbits < 64) (hclear : feed.self.bitbuf < 2 ^ feed.self.nbits)
    (hpeek : peekFrom feed.self.block.litlen feed.self.bitbuf feed.self.nbits feed.input =
      some (entry, bitbuf, nbits, input)) :
    (entry = none → turn fast feed = .ok (some .needsInput) (feed.load bitbuf nbits input)) ∧
      ∀ bits left, bits ≤ nbits → bitbuf / 2 ^ bits = left → entry = some (endEntry bits) →
        turn fast feed = afterBlock (feed.load left (nbits - bits) input) := by
  have hturn : turn fast feed = stepSymbol feed := by
    rw [← stepSymbols_short hstate hinput hcounted hclear]
    unfold turn
    rw [bind_run, get_run]
    dsimp only
    rw [hstate]
  have hfound : peek feed.self.block.litlen feed = .ok entry (feed.load bitbuf nbits input) := by
    rw [peek_eq, hpeek]
    rfl
  rw [hturn]
  unfold stepSymbol
  rw [bind_run, get_run]
  dsimp only
  rw [bind_run, hfound]
  refine ⟨?_, ?_⟩
  · rintro rfl
    rfl
  · rintro bits left henough rfl rfl
    dsimp only [endEntry]
    rw [bind_run, consume_run henough]
    rfl

theorem afterBlock_final {feed : Feed} (hfinal : feed.self.block.finalBlock = true)
    (hrest : feed.self.nbits < 8) :
    afterBlock feed = .ok none
      ⟨{ feed.self with bitbuf := 0, nbits := 0, trailing := [], state := .done }, feed.input⟩ := by
  unfold afterBlock
  rw [bind_run, get_run]
  dsimp only
  rw [if_pos hfinal, bind_run, consume_run (Nat.mod_le _ _)]
  rw [Nat.mod_eq_of_lt hrest, Nat.div_eq_of_lt hrest, Nat.sub_self]
  rfl

theorem turn_refused {fast : Bool} {feed : Feed} {litlen : DecodeTable} {error : Error}
    (hstate : feed.self.state = .dynamicLengths)
    (hread : feed.self.block.hlit + feed.self.block.hdist ≤ feed.self.block.lengths.length)
    (hend : feed.self.block.lengths.getD endOfBlock 0 ≠ 0)
    (hlitlen : feed.self.block.litlen.build (feed.self.block.lengths.take feed.self.block.hlit)
      .literalLength true = .ok litlen)
    (hdist : feed.self.block.dist.build (feed.self.block.lengths.drop feed.self.block.hlit)
      .distance false = .error (.refused error)) :
    turn fast feed = .error (.refused error) (feed.withBlock { feed.self.block with litlen }) := by
  unfold turn
  rw [bind_run, get_run]
  dsimp only
  rw [hstate]
  dsimp only
  unfold stepDynamicLengths
  rw [bind_run, get_run]
  dsimp only
  rw [if_neg (Nat.not_lt.mpr hread), if_neg hend, hlitlen, hdist]
  rfl

theorem step_refused {fast : Bool} {feed next last : Feed} {turns : Nat} {error : Error}
    (hfrom : turnsFrom fast turns feed = some next) (hmany : turns < feed.turns)
    (hturn : turn fast next = .error (.refused error) last) :
    step fast feed = .error (.refused error) last := by
  obtain ⟨more, hmore⟩ := Nat.exists_eq_add_of_lt hmany
  unfold step
  rw [bind_run, get_run]
  dsimp only
  rw [hmore, Nat.add_assoc, stepLoop_from _ hfrom]
  unfold stepLoop
  rw [bind_run, hturn]

theorem step_returns {fast : Bool} {feed next last : Feed} {turns : Nat} {result : Step}
    (hfrom : turnsFrom fast turns feed = some next) (hmany : turns < feed.turns)
    (hturn : turn fast next = .ok (some result) last) : step fast feed = .ok result last := by
  obtain ⟨more, hmore⟩ := Nat.exists_eq_add_of_lt hmany
  unfold step
  rw [bind_run, get_run]
  dsimp only
  rw [hmore, Nat.add_assoc, stepLoop_from _ hfrom]
  unfold stepLoop
  rw [bind_run, hturn]
  rfl

theorem feed_refuses {fast : Bool} {inflater : Inflater} {input : List UInt8} {next : Feed}
    {error : Error} (herror : inflater.error = none) (hwindow : inflater.window = [])
    (hrunning : inflater.state ≠ .done)
    (hstep : step fast ⟨inflater, input⟩ = .error (.refused error) next) :
    inflater.feed fast input none =
      ⟨{ next.self with error := some error }, [], .error (.refused error)⟩ := by
  unfold Inflater.feed
  rw [herror]
  dsimp only
  unfold runLoop
  rw [deliver_nothing hwindow]
  simp [hwindow, hrunning, bufLen, decodeRoom, windowSize, slideRoom, hstep]

theorem feed_ends {fast : Bool} {inflater : Inflater} {input : List UInt8} {next : Feed}
    (herror : inflater.error = none) (hwindow : inflater.window = [])
    (hrunning : inflater.state ≠ .done)
    (hstep : step fast ⟨inflater, input⟩ = .ok .done next) (hwindow' : next.self.window = [])
    (hdone : next.self.state = .done) :
    inflater.feed fast input none = ⟨next.self, [], .ok (.streamEnd, next.input)⟩ := by
  unfold Inflater.feed
  rw [herror]
  dsimp only
  unfold runLoop
  rw [deliver_nothing hwindow]
  simp [hwindow, hrunning, bufLen, decodeRoom, windowSize, slideRoom, hstep]
  unfold runLoop
  rw [deliver_nothing hwindow']
  simp [hwindow', hdone]

end Purrdf.Deflate
