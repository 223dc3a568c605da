import Purrdf.InflateKnownTurns

/-!
# Decoders after a reset

A decoder that has been reset answers every later call as a new one does, as long as no reset
comes after a refused distance code while the mark of the fixed tables stands: the literal table
of the refused block is then taken for the fixed one.
-/

namespace Purrdf.Deflate

open CanonicalCode

variable {feed twin : Feed}

@[simp] theorem Feed.swap_state (feed : Feed) (state : State) (block : Block) (fixed : Bool) :
    (feed.swap state block fixed).self.state = state := rfl

theorem turn_alike (fast : Bool) (h : Twins feed twin) :
    Alike (turn fast) (turn fast) feed twin (fun _ => Twins) Spoils := by
  obtain ⟨other, fixed', hpaired, hfellows, hshares⟩ := id h
  obtain rfl := hpaired.twin_eq
  unfold turn
  apply Alike.get
  rw [Feed.swap_state]
  cases hstate : feed.self.state with
  | done => exact alike_pure (hstate ▸ h)
  | blockHeader =>
    rw [hstate] at hpaired
    exact stepBlockHeader_alike hpaired hfellows
  | storedHeader =>
    rw [hstate] at hpaired
    exact stepStoredHeader_alike hpaired hfellows
  | stored remaining =>
    rw [hstate] at hpaired
    exact stepStored_alike hpaired hfellows
  | dynamicCounts =>
    rw [hstate] at hpaired
    exact stepDynamicCounts_alike hpaired hfellows
  | dynamicCodeLengths =>
    rw [hstate] at hpaired hshares
    exact stepDynamicCodeLengths_alike hpaired hfellows hshares
  | dynamicLengths =>
    rw [hstate] at hpaired hshares
    exact stepDynamicLengths_alike hpaired hfellows hshares
  | symbols =>
    rw [hstate] at hpaired hshares
    exact stepSymbols_alike hfellows hshares fast hpaired
  | lengthExtra base extra =>
    rw [hstate] at hpaired hshares
    exact stepLengthExtra_alike hfellows hshares hpaired
  | distance length =>
    rw [hstate] at hpaired hshares
    exact stepDistance_alike hfellows hshares hpaired
  | distanceExtra length base extra =>
    rw [hstate] at hpaired hshares
    exact stepDistanceExtra_alike hfellows hshares hpaired
  | copy length distance =>
    rw [hstate] at hpaired hshares
    exact stepCopy_alike hfellows hshares hpaired

theorem stepLoop_alike (fast : Bool) (turns : Nat) (h : Twins feed twin) :
    Alike (stepLoop fast turns) (stepLoop fast turns) feed twin (fun _ => Twins) Spoils := by
  induction turns generalizing feed twin with
  | zero => exact alike_panicked
  | succ turns ih =>
    unfold stepLoop
    refine ((turn_alike fast h).mono ?_ fun _ _ => id).bind
    intro step next next' htwins
    cases step with
    | none => exact ih htwins
    | some step => exact alike_pure htwins

theorem step_alike (fast : Bool) (h : Twins feed twin) :
    Alike (step fast) (step fast) feed twin (fun _ => Twins) Spoils := by
  obtain ⟨other, fixed', hpaired, -, -⟩ := id h
  obtain rfl := hpaired.twin_eq
  unfold step
  apply Alike.get
  exact stepLoop_alike fast feed.turns h

/-! ### Calls -/

section

variable {inflater twin : Inflater} {input : List UInt8}

/-- The mark of a decoder is true, unless a distance code has just been refused. -/
structure Inflater.Marked (inflater : Inflater) : Prop where
  widths : inflater.block.Widths
  kept : inflater.error ≠ some (.oversubscribedCode .distance) →
    Kept inflater.block inflater.tablesFixed

/-- Two decoders that answer alike: both have refused, or they go on alike. -/
structure Siblings (inflater twin : Inflater) : Prop where
  error : twin.error = inflater.error
  twins : inflater.error = none → ∀ input, Twins ⟨inflater, input⟩ ⟨twin, input⟩

structure SameCall (fed twin : Fed) : Prop where
  written : twin.written = fed.written
  outcome : twin.outcome = fed.outcome
  siblings : fed.outcome ≠ .error .panicked → Siblings fed.inflater twin.inflater
  marked : fed.outcome ≠ .error .panicked → fed.inflater.Marked

theorem Twins.refeed (h : Twins ⟨inflater, input⟩ ⟨twin, input⟩) (later : List UInt8) :
    Twins ⟨inflater, later⟩ ⟨twin, later⟩ := by
  obtain ⟨other, fixed', hpaired, hfellows, hshares⟩ := h
  cases hpaired.twin_eq
  exact ⟨other, fixed', ⟨rfl, rfl, rfl, rfl⟩, hfellows, hshares⟩

theorem Twins.seen (h : Twins ⟨inflater, input⟩ ⟨twin, input⟩) :
    twin.error = inflater.error ∧ twin.state = inflater.state ∧ twin.window = inflater.window ∧
      twin.delivered = inflater.delivered ∧ twin.base = inflater.base ∧
      twin.nbits = inflater.nbits := by
  obtain ⟨other, fixed', hpaired, -, -⟩ := h
  cases hpaired.twin_eq
  exact ⟨rfl, rfl, rfl, rfl, rfl, rfl⟩

theorem Twins.rewindow (h : Twins ⟨inflater, input⟩ ⟨twin, input⟩) (window : List UInt8)
    (delivered base : Nat) :
    Twins ⟨{ inflater with window, delivered, base }, input⟩
      ⟨{ twin with window, delivered, base }, input⟩ := by
  obtain ⟨other, fixed', hpaired, hfellows, hshares⟩ := h
  cases hpaired.twin_eq
  exact ⟨other, fixed', ⟨rfl, rfl, rfl, rfl⟩, hfellows, hshares⟩

theorem Twins.siblings (h : Twins ⟨inflater, input⟩ ⟨twin, input⟩) : Siblings inflater twin :=
  ⟨h.seen.1, fun _ => h.refeed⟩

theorem Twins.marked (h : Twins ⟨inflater, input⟩ ⟨twin, input⟩) : inflater.Marked := by
  obtain ⟨other, fixed', -, hfellows, -⟩ := h
  exact ⟨hfellows.kept.widths, fun _ => hfellows.kept⟩

theorem Twins.delivers (h : Twins ⟨inflater, input⟩ ⟨twin, input⟩) (sink : Sink) :
    Twins ⟨(deliver inflater sink).1, input⟩ ⟨(deliver twin sink).1, input⟩ ∧
      (deliver twin sink).2 = (deliver inflater sink).2 := by
  obtain ⟨other, fixed', hpaired, hfellows, hshares⟩ := h
  cases hpaired.twin_eq
  exact ⟨⟨other, fixed', ⟨rfl, rfl, rfl, rfl⟩, hfellows, hshares⟩, rfl⟩

theorem Twins.slides (h : Twins ⟨inflater, input⟩ ⟨twin, input⟩) :
    Twins ⟨inflater.slide, input⟩ ⟨twin.slide, input⟩ := by
  obtain ⟨-, -, hwindow, hdelivered, hbase, -⟩ := h.seen
  unfold Inflater.slide
  rw [hwindow]
  split
  · exact h
  · dsimp only
    rw [hdelivered, hbase]
    exact h.rewindow _ _ _

theorem runLoop_alike (fast : Bool) (turns : Nat) (sink : Sink)
    (h : Twins ⟨inflater, input⟩ ⟨twin, input⟩) :
    SameCall (runLoop fast turns inflater input sink) (runLoop fast turns twin input sink) := by
  induction turns generalizing inflater twin input sink with
  | zero => exact ⟨rfl, rfl, fun hne => absurd rfl hne, fun hne => absurd rfl hne⟩
  | succ turns ih =>
    unfold runLoop
    obtain ⟨hnext, hsink⟩ := h.delivers sink
    generalize deliver inflater sink = left at hnext hsink ⊢
    generalize deliver twin sink = right at hnext hsink ⊢
    obtain ⟨next, sink⟩ := left
    obtain ⟨next', sink'⟩ := right
    obtain rfl : sink' = sink := hsink
    obtain ⟨-, hstate, hwindow, hdelivered, -, -⟩ := hnext.seen
    dsimp only at hstate hwindow hdelivered ⊢
    rw [hstate, hwindow, hdelivered]
    by_cases hfull : next.delivered < next.window.length
    · rw [if_pos hfull, if_pos hfull]
      exact ⟨rfl, rfl, fun _ => hnext.siblings, fun _ => hnext.marked⟩
    rw [if_neg hfull, if_neg hfull]
    by_cases hdone : next.state = .done
    · rw [if_pos hdone, if_pos hdone]
      exact ⟨rfl, rfl, fun _ => hnext.siblings, fun _ => hnext.marked⟩
    rw [if_neg hdone, if_neg hdone]
    have hslid : Twins
        ⟨if bufLen - next.window.length < slideRoom then next.slide else next, input⟩
        ⟨if bufLen - next.window.length < slideRoom then next'.slide else next', input⟩ := by
      split
      · exact hnext.slides
      · exact hnext
    have hstep := step_alike fast hslid
    unfold Alike at hstep
    split at hstep
    · next step feed step' feed' hrun hrun' =>
        obtain ⟨rfl, htwins⟩ := hstep
        have hinput : feed'.input = feed.input := by
          obtain ⟨other, fixed', hpaired, -, -⟩ := id htwins
          rw [hpaired.twin_eq]
          rfl
        obtain ⟨left, input⟩ := feed
        obtain ⟨right, input'⟩ := feed'
        obtain rfl : input' = input := hinput
        rw [hrun, hrun']
        cases step' with
        | needsInput =>
          obtain ⟨hlast, hsink⟩ := htwins.delivers sink'
          obtain ⟨-, -, hwindow, hdelivered, -, -⟩ := hlast.seen
          dsimp only
          refine ⟨congrArg Sink.written hsink, ?_, fun _ => hlast.siblings, fun _ => hlast.marked⟩
          dsimp only
          rw [hwindow, hdelivered]
        | needsRoom => exact ih sink' htwins
        | done => exact ih sink' htwins
    · next error feed error' feed' hrun hrun' =>
        obtain ⟨rfl, hspoils⟩ := hstep
        rw [hrun, hrun']
        refine ⟨rfl, rfl, fun _ => ⟨rfl, fun hnone => ?_⟩, fun _ => ⟨hspoils.1, fun hne => ?_⟩⟩
        · cases hnone
        · exact hspoils.2 fun herror => hne (congrArg some herror)
    · next hrun hrun' =>
        rw [hrun, hrun']
        exact ⟨rfl, rfl, fun hne => absurd rfl hne, fun hne => absurd rfl hne⟩
    · exact hstep.elim

theorem feed_alike (fast : Bool) (input : List UInt8) (room : Option Nat)
    (h : Siblings inflater twin) (hmarked : inflater.Marked) :
    SameCall (inflater.feed fast input room) (twin.feed fast input room) := by
  unfold Inflater.feed
  rw [h.error]
  cases herror : inflater.error with
  | some error => exact ⟨rfl, rfl, fun _ => h, fun _ => hmarked⟩
  | none =>
    have htwins := h.twins herror input
    obtain ⟨-, -, -, -, -, hnbits⟩ := htwins.seen
    dsimp only
    rw [hnbits]
    exact runLoop_alike fast _ _ htwins

end

/-! ### Sequences of calls -/

structure Request where
  fast : Bool
  input : List UInt8
  room : Option Nat

/-- What a sequence of calls returns, up to the first panic. -/
def Inflater.answers (inflater : Inflater) :
    List Request → List (List UInt8 × Except Fault (Status × List UInt8))
  | [] => []
  | request :: requests =>
    let fed := inflater.feed request.fast request.input request.room
    (fed.written, fed.outcome) ::
      match fed.outcome with
      | .error .panicked => []
      | _ => fed.inflater.answers requests

theorem answers_head (inflater : Inflater) (request : Request) (requests : List Request) :
    (inflater.answers (request :: requests)).head?.map Prod.snd =
      some (inflater.feed request.fast request.input request.room).outcome := rfl

theorem answers_alike {inflater twin : Inflater} (requests : List Request)
    (h : Siblings inflater twin) (hmarked : inflater.Marked) :
    twin.answers requests = inflater.answers requests := by
  induction requests generalizing inflater twin with
  | nil => rfl
  | cons request requests ih =>
    have hsame := feed_alike request.fast request.input request.room h hmarked
    unfold Inflater.answers
    dsimp only
    rw [hsame.written, hsame.outcome]
    congr 1
    split
    · rfl
    · next hreturns => exact ih (hsame.siblings hreturns) (hsame.marked hreturns)

/-- A distance code was refused while the mark of the fixed tables stood. -/
def Inflater.Spoiled (inflater : Inflater) : Prop :=
  inflater.error = some (.oversubscribedCode .distance) ∧ inflater.tablesFixed = true

instance (inflater : Inflater) : Decidable inflater.Spoiled :=
  inferInstanceAs (Decidable (_ ∧ _))

/-- The decoders that calls lead to, when no spoiled one is reset. -/
inductive Reached : Inflater → Prop
  | new : Reached .new
  | setLimit {inflater : Inflater} (limit : Nat) (h : Reached inflater) :
      Reached (inflater.setLimit limit)
  | feed {inflater : Inflater} (request : Request) (h : Reached inflater)
      (hreturns :
        (inflater.feed request.fast request.input request.room).outcome ≠ .error .panicked) :
      Reached (inflater.feed request.fast request.input request.room).inflater
  | reset {inflater : Inflater} (h : Reached inflater) (htrue : ¬inflater.Spoiled) :
      Reached inflater.reset

theorem new_kept : Kept Block.new false :=
  ⟨⟨rfl, rfl, rfl⟩, by simp⟩

theorem shares_refl (state : State) (block : Block) : Shares state block block := by
  cases state <;> simp [Shares]

theorem Inflater.Marked.siblings {inflater : Inflater} (h : inflater.Marked) :
    Siblings inflater inflater := by
  refine ⟨rfl, fun hnone input => ?_⟩
  have hkept := h.kept (by simp [hnone])
  exact ⟨inflater.block, inflater.tablesFixed, ⟨rfl, rfl, rfl, rfl⟩, ⟨rfl, hkept, hkept⟩,
    shares_refl _ _⟩

theorem Inflater.Marked.kept_of_reset {inflater : Inflater} (h : inflater.Marked)
    (htrue : ¬inflater.Spoiled) : Kept inflater.reset.block inflater.tablesFixed := by
  refine ⟨⟨h.widths.litlen, h.widths.dist, h.widths.codeLength⟩, fun hmark => ?_⟩
  have hfixed := (h.kept fun herror => htrue ⟨herror, hmark⟩).fixed hmark
  exact ⟨hfixed.litlen, hfixed.dist⟩

theorem Reached.marked {inflater : Inflater} (h : Reached inflater) : inflater.Marked := by
  induction h with
  | new => exact ⟨new_kept.widths, fun _ => new_kept⟩
  | setLimit limit _ ih => exact ⟨ih.widths, ih.kept⟩
  | feed request _ hreturns ih =>
    exact (feed_alike request.fast request.input request.room ih.siblings ih).marked hreturns
  | reset _ htrue ih =>
    have hkept := ih.kept_of_reset htrue
    exact ⟨hkept.widths, fun _ => hkept⟩

/-- A decoder that is not spoiled is as good as new after a reset. -/
theorem reset_restores {inflater : Inflater} (h : Reached inflater) (htrue : ¬inflater.Spoiled)
    (requests : List Request) :
    inflater.reset.answers requests = (Inflater.new.setLimit inflater.limit).answers requests := by
  have hkept := h.marked.kept_of_reset htrue
  have hsiblings : Siblings inflater.reset (Inflater.new.setLimit inflater.limit) :=
    ⟨rfl, fun _ input => ⟨.new, false, ⟨rfl, rfl, rfl, rfl⟩, ⟨rfl, hkept, new_kept⟩, trivial⟩⟩
  exact (answers_alike requests hsiblings ⟨hkept.widths, fun _ => hkept⟩).symm

/-! ### A spoiled decoder -/

/-- Three turns of the first call: a block of the fixed code is read, and the header of the next
begins. -/
def opened : Inflater :=
  { Inflater.new with
    state := .symbols
    nbits := 5
    tablesFixed := true
    block := { Block.new with litlen := fixedLitlen, dist := fixedDist } }

def waiting : Inflater :=
  { opened with state := .dynamicCounts, nbits := 3 }

def fixedBlock : List UInt8 := [2, 16]

/-- The header of a dynamic block whose one literal code stands for the end, and whose three
distance codes have one bit each. -/
def dynamicHeader : List UInt8 := [8, 7, 2, 0, 0, 0, 0, 64, 254, 175, 1]

def readLengths : List Nat := List.replicate 256 0 ++ [1]

theorem fixed_lookups : confirmed fixedLitlen 0 5 = some none ∧
    confirmed fixedLitlen 512 13 = some (some (endEntry 7)) := by
  have hlength : lengthOf fixedLitlenLengths 256 = 7 ∧ word fixedLitlenLengths 256 = 0 := by
    decide +kernel
  have hlookup : ∀ bitbuf, bitbuf % 2 ^ 7 = 0 → ∀ nbits,
      confirmed fixedLitlen bitbuf nbits = some (if 7 ≤ nbits then some (endEntry 7) else none) := by
    intro bitbuf hbits nbits
    have hcode : Matches fixedLitlenLengths 256 bitbuf := by
      constructor
      · simp [hlength.1]
      · rw [hlength.1, hlength.2]
        exact hbits
    have h := confirmed_end rfl fixedLitlen_built hcode nbits
    rw [hlength.1] at h
    exact h
  exact ⟨hlookup 0 rfl 5, hlookup 512 rfl 13⟩

theorem feed_fixedBlock :
    Inflater.new.feed true fixedBlock none = ⟨waiting, [], .ok (.needsInput, [])⟩ := by
  have hfirst : turn true ⟨.new, fixedBlock⟩ = .ok none ⟨opened, [16]⟩ := by
    have hpull : pull 3 0 0 fixedBlock = (true, 2, 8, [16]) := by simp [pull, fixedBlock]
    rw [@turn_header _ _ _ _ _ rfl hpull (by simp) 0 (by simp) false (by simp)]
    exact enterBlock_fixed new_kept
  have hsecond : turn true ⟨opened, [16]⟩ =
      .ok none ⟨{ opened with state := .blockHeader, bitbuf := 4, nbits := 6 }, []⟩ := by
    have hpeek : peekFrom fixedLitlen 0 5 [16] = some (some (endEntry 7), 512, 13, []) := by
      simp [peekFrom, fixed_lookups]
    have hsymbol := (@turn_symbols true ⟨opened, [16]⟩ _ _ _ _ rfl (by simp) (by simp [opened])
      (by simp [opened, Inflater.new]) hpeek).2 7 4 (by simp) (by simp) rfl
    rw [hsymbol]
    rfl
  have hthird : turn true ⟨{ opened with state := .blockHeader, bitbuf := 4, nbits := 6 }, []⟩ =
      .ok none ⟨waiting, []⟩ := by
    have hpull : pull 3 4 6 [] = (true, 4, 6, []) := by simp [pull]
    rw [@turn_header _ _ _ _ _ rfl hpull (by simp) 0 (by simp) false (by simp)]
    rfl
  have hlast : turn true ⟨waiting, []⟩ = .ok (some .needsInput) ⟨waiting, []⟩ := by
    have hpull : pull 14 waiting.bitbuf waiting.nbits [] = (false, 0, 3, []) := by
      simp [pull, waiting, opened, Inflater.new]
    have hturn : turn true ⟨waiting, []⟩ = stepDynamicCounts ⟨waiting, []⟩ := by
      unfold turn
      rw [bind_run, get_run]
      rfl
    rw [hturn]
    unfold stepDynamicCounts
    rw [bind_run, ensure_run, hpull]
    rfl
  have hturns : turnsFrom true 3 ⟨.new, fixedBlock⟩ = some ⟨waiting, []⟩ := by
    rw [turnsFrom_turn hfirst, turnsFrom_turn hsecond, turnsFrom_turn hthird]
    rfl
  refine feed_waits rfl rfl (by simp [Inflater.new]) (step_returns hturns ?_ hlast) rfl
  simp [Feed.turns, Feed.unread, fixedBlock, Inflater.new]

theorem waiting_reached : Reached waiting := by
  have h := Reached.new.feed ⟨true, fixedBlock, none⟩
  rw [feed_fixedBlock] at h
  exact h (by simp)

/-- In the middle of a header, with the mark set, a reset is harmless. -/
theorem reset_restores_waiting : waiting.reset.answers [⟨true, [3], none⟩] =
    (Inflater.new.setLimit waiting.limit).answers [⟨true, [3], none⟩] :=
  reset_restores waiting_reached (by simp [Inflater.Spoiled, waiting, opened, Inflater.new]) _

theorem turnsFrom_twins {fast : Bool} {turns : Nat} {feed next : Feed}
    (hfrom : turnsFrom fast turns feed = some next) (h : Twins feed feed) : Twins next next := by
  induction turns generalizing feed with
  | zero =>
    cases hfrom
    exact h
  | succ turns ih =>
    unfold turnsFrom at hfrom
    split at hfrom
    · next later hturn =>
        have hlater := turn_alike fast h
        unfold Alike at hlater
        rw [hturn] at hlater
        exact ih hfrom hlater.2
    · cases hfrom

theorem three_refused (table : DecodeTable) : table.build [1, 1, 1] .distance false =
    .error (.refused (.oversubscribedCode .distance)) := by
  have hspend : spend 1 ((List.range' 1 15).map (count [1, 1, 1])) = false := by decide
  simp [DecodeTable.build, hspend, Kind.alphabet]

theorem feed_dynamicHeader : ∃ block litlen,
    (waiting.feed true dynamicHeader none).inflater.reset =
      { Inflater.new with block, tablesFixed := true } ∧ block.litlen = litlen ∧
    (DecodeTable.new litlenBits).build readLengths .literalLength true = .ok litlen := by
  have hread : (turnsFrom true 26 ⟨waiting, dynamicHeader⟩).any (fun feed =>
      feed.self.state == .dynamicLengths && feed.self.block.hlit == 257 &&
        feed.self.block.hdist == 3 && feed.self.block.lengths == readLengths ++ [1, 1, 1] &&
        feed.self.tablesFixed && feed.self.limit == 2 ^ 64 - 1) = true := by
    decide +kernel
  obtain ⟨feed, hfrom, hfeed⟩ := (Option.any_eq_true _ _).mp hread
  simp only [Bool.and_eq_true, beq_iff_eq] at hfeed
  obtain ⟨⟨⟨⟨⟨hstate, hhlit⟩, hhdist⟩, hlengths⟩, hmark⟩, hlimit⟩ := hfeed
  have hspend : spend 1 ((List.range' 1 15).map (count readLengths)) = true := by decide +kernel
  have hsize : readLengths.length = 257 := by decide +kernel
  have hend : (readLengths ++ [1, 1, 1]).getD endOfBlock 0 = 1 := by decide +kernel
  have hshort : ∀ len ∈ readLengths, len ≤ 15 := by decide +kernel
  obtain ⟨litlen, hlitlen⟩ := build_of_spend (.new litlenBits) .literalLength true hshort
    (by simp [hsize]) hspend
  have htwins := turnsFrom_twins hfrom (waiting_reached.marked.siblings.twins rfl dynamicHeader)
  have hwidth : feed.self.block.litlen.primaryBits = (DecodeTable.new litlenBits).primaryBits :=
    htwins.marked.widths.litlen
  have htake : feed.self.block.lengths.take feed.self.block.hlit = readLengths := by
    rw [hlengths, hhlit]
    exact List.take_left' hsize
  have hdrop : feed.self.block.lengths.drop feed.self.block.hlit = [1, 1, 1] := by
    rw [hlengths, hhlit]
    exact List.drop_left' hsize
  have hturn := @turn_refused true feed litlen (.oversubscribedCode .distance) hstate
    (by simp [hlengths, hhlit, hhdist, hsize]) (by rw [hlengths, hend]; exact Nat.one_ne_zero)
    (by rw [htake, build_congr hwidth]; exact hlitlen) (by rw [hdrop]; exact three_refused _)
  have hmany : 26 < Feed.turns ⟨waiting, dynamicHeader⟩ := by
    simp [Feed.turns, Feed.unread, dynamicHeader]
    omega
  have hfed := feed_refuses rfl rfl (by simp [waiting]) (step_refused hfrom hmany hturn)
  refine ⟨{ feed.self.block with litlen, finalBlock := false }, litlen, ?_, rfl, hlitlen⟩
  rw [hfed]
  unfold Inflater.reset
  simp [Inflater.new, Feed.withBlock, hmark, hlimit]

/-- A marked decoder that is given the header of a last block of the fixed code ends there when
the end has the code `0` in its literal table. -/
theorem marked_ends {block : Block} (hend : confirmed block.litlen 0 5 = some (some (endEntry 1))) :
    (Inflater.feed true { Inflater.new with block, tablesFixed := true } [3] none).outcome =
      .ok (.streamEnd, []) := by
  have hpull : pull 3 0 0 [3] = (true, 3, 8, []) := by simp [pull]
  have hfirst : turn true ⟨{ Inflater.new with block, tablesFixed := true }, [3]⟩ = .ok none
      ⟨{ Inflater.new with
        block := { block with finalBlock := true }
        tablesFixed := true
        nbits := 5
        state := .symbols }, []⟩ := by
    rw [@turn_header true ⟨{ Inflater.new with block, tablesFixed := true }, [3]⟩ _ _ _
      rfl hpull (by simp) 0 (by simp) true (by simp)]
    exact enterBlock_marked rfl
  have hpeek : peekFrom block.litlen 0 5 [] = some (some (endEntry 1), 0, 5, []) := by
    simp [peekFrom, hend]
  have hsecond := (@turn_symbols true ⟨{ Inflater.new with
      block := { block with finalBlock := true }
      tablesFixed := true
      nbits := 5
      state := .symbols }, []⟩ _ _ _ _ rfl (by simp) (by simp) (by simp [Inflater.new])
    hpeek).2 1 0 (by simp) (by simp) rfl
  have hturns : turnsFrom true 2 ⟨{ Inflater.new with block, tablesFixed := true }, [3]⟩ =
      some ⟨{ Inflater.new with
        block := { block with finalBlock := true }
        tablesFixed := true
        state := .done }, []⟩ := by
    rw [turnsFrom_turn hfirst]
    rw [afterBlock_final rfl (by simp [Feed.load])] at hsecond
    exact turnsFrom_turn hsecond
  have hlast : turn true ⟨{ Inflater.new with
        block := { block with finalBlock := true }
        tablesFixed := true
        state := .done }, []⟩ = .ok (some .done) _ := rfl
  rw [feed_ends rfl rfl (by simp [Inflater.new])
    (step_returns hturns (by simp [Feed.turns, Feed.unread, Inflater.new]) hlast) rfl rfl]

theorem new_waits : (Inflater.new.feed true [3] none).outcome = .ok (.needsInput, []) := by
  have hpull : pull 3 0 0 [3] = (true, 3, 8, []) := by simp [pull]
  have hfirst : turn true ⟨.new, [3]⟩ = .ok none
      ⟨{ opened with block := { opened.block with finalBlock := true } }, []⟩ := by
    rw [@turn_header true ⟨.new, [3]⟩ _ _ _ rfl hpull (by simp) 0 (by simp) true (by simp)]
    exact enterBlock_fixed ⟨⟨rfl, rfl, rfl⟩, fun hfalse => absurd hfalse Bool.false_ne_true⟩
  have hpeek : peekFrom fixedLitlen 0 5 [] = some (none, 0, 5, []) := by
    simp [peekFrom, fixed_lookups]
  have hlast := (@turn_symbols true
    ⟨{ opened with block := { opened.block with finalBlock := true } }, []⟩ _ _ _ _ rfl (by simp)
    (by simp [opened]) (by simp [opened, Inflater.new]) hpeek).1 rfl
  have hturns : turnsFrom true 1 ⟨.new, [3]⟩ =
      some ⟨{ opened with block := { opened.block with finalBlock := true } }, []⟩ :=
    turnsFrom_turn hfirst
  rw [feed_waits rfl rfl (by simp [Inflater.new])
    (step_returns hturns (by simp [Feed.turns, Feed.unread, Inflater.new]) hlast) rfl]
  rfl

/-- A decoder that has refused a distance code need not be as good as new after a reset. -/
theorem reset_spoils : ∃ requests later : List Request,
    (requests.foldl (fun inflater request =>
        (inflater.feed request.fast request.input request.room).inflater) Inflater.new).reset.answers
      later ≠ Inflater.new.answers later := by
  refine ⟨[⟨true, fixedBlock, none⟩, ⟨true, dynamicHeader, none⟩], [⟨true, [3], none⟩], ?_⟩
  obtain ⟨block, litlen, hreset, hlitlen, hbuilt⟩ := feed_dynamicHeader
  have hcode : lengthOf readLengths 256 = 1 ∧ word readLengths 256 = 0 := by decide +kernel
  have hmatch : Matches readLengths 256 0 := by
    constructor
    · simp [hcode.1]
    · rw [hcode.2, Nat.zero_mod]
  have hend := confirmed_end rfl hbuilt hmatch 5
  rw [hcode.1] at hend
  rw [← hlitlen] at hend
  have hspoiled := marked_ends hend
  intro hsame
  rw [List.foldl_cons, List.foldl_cons, List.foldl_nil] at hsame
  rw [feed_fixedBlock] at hsame
  rw [hreset] at hsame
  have houtcome := congrArg (fun answers => answers.head?.map Prod.snd) hsame
  rw [answers_head, answers_head, hspoiled, new_waits] at houtcome
  cases houtcome

end Purrdf.Deflate
