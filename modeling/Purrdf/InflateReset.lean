import Purrdf.InflateTurns

/-!
# Resetting a decoder

A reset keeps the tables and the mark that they hold the fixed code. Two decoders that differ
in these alone run alike: each piece of a step changes the rest of the state in the same way,
and reads of a block only what its header has written since.
-/

namespace Purrdf.Deflate

/-- Return to the state of a new decoder, keeping the limit, the tables and their mark. -/
def Inflater.reset (inflater : Inflater) : Inflater :=
  { inflater with
    state := .blockHeader
    block := { inflater.block with finalBlock := false }
    bitbuf := 0
    nbits := 0
    window := []
    delivered := 0
    base := 0
    error := none
    trailing := [] }

/-! ### Two runs of a piece -/

/-- Two pieces end alike: with the same value, with the same refusal, or both in a panic. -/
def Alike {α : Type} (piece other : Decoding α) (feed twin : Feed) (ok : α → Feed → Feed → Prop)
    (bad : Error → Feed → Prop) : Prop :=
  match piece feed, other twin with
  | .ok value next, .ok value' next' => value' = value ∧ ok value next next'
  | .error (.refused error) next, .error (.refused error') _ => error' = error ∧ bad error next
  | .error .panicked _, .error .panicked _ => True
  | _, _ => False

section

variable {α β : Type} {feed twin : Feed} {bad : Error → Feed → Prop}

theorem Alike.bind {piece other : Decoding α} {rest rest' : α → Decoding β}
    {ok : β → Feed → Feed → Prop}
    (h : Alike piece other feed twin
      (fun value next next' => Alike (rest value) (rest' value) next next' ok bad) bad) :
    Alike (piece >>= rest) (other >>= rest') feed twin ok bad := by
  unfold Alike at h ⊢
  simp only [Bind.bind, EStateM.bind]
  cases hpiece : piece feed with
  | ok value next =>
    cases hother : other twin with
    | ok value' next' =>
      rw [hpiece, hother] at h
      obtain ⟨rfl, h⟩ := h
      exact h
    | error fault next' =>
      rw [hpiece, hother] at h
      exact h.elim
  | error fault next =>
    cases hother : other twin with
    | ok value' next' =>
      rw [hpiece, hother] at h
      cases fault <;> exact h.elim
    | error fault' next' =>
      rw [hpiece, hother] at h
      cases fault <;> cases fault' <;> exact h

theorem Alike.get {rest rest' : Feed → Decoding β} {ok : β → Feed → Feed → Prop}
    (h : Alike (rest feed) (rest' twin) feed twin ok bad) :
    Alike (MonadState.get >>= rest) (MonadState.get >>= rest') feed twin ok bad := h

variable {ok : α → Feed → Feed → Prop}

theorem alike_pure {value : α} (h : ok value feed twin) :
    Alike (pure value) (pure value) feed twin ok bad := ⟨rfl, h⟩

theorem alike_refuse {error : Error} (h : bad error feed) :
    Alike (refuse error) (refuse error) feed twin ok bad := ⟨rfl, h⟩

theorem alike_panicked :
    Alike (panicked : Decoding α) panicked feed twin ok bad := trivial

theorem Alike.mono {piece other : Decoding α} {ok ok' : α → Feed → Feed → Prop}
    {bad' : Error → Feed → Prop} (h : Alike piece other feed twin ok bad)
    (hok : ∀ value next next', ok value next next' → ok' value next next')
    (hbad : ∀ error next, bad error next → bad' error next) :
    Alike piece other feed twin ok' bad' := by
  unfold Alike at h ⊢
  split at h
  · exact ⟨h.1, hok _ _ _ h.2⟩
  · exact ⟨h.1, hbad _ _ h.2⟩
  · trivial
  · exact h.elim

end

/-! ### Pieces that leave the block alone -/

def Feed.swap (feed : Feed) (state : State) (block : Block) (fixed : Bool) : Feed :=
  ((feed.withState state).withBlock block).withFixed fixed

def swapResult {α : Type} (state : State) (block : Block) (fixed : Bool) :
    EStateM.Result Fault Feed α → EStateM.Result Fault Feed α
  | .ok value next => .ok value (next.swap state block fixed)
  | .error fault next => .error fault (next.swap state block fixed)

/-- A piece that neither reads nor changes the state, the block and its mark. -/
def Oblivious {α : Type} (piece : Decoding α) : Prop :=
  ∀ feed state block fixed,
    piece (feed.swap state block fixed) = swapResult state block fixed (piece feed)

section

variable {α β : Type}

theorem oblivious_pure (value : α) : Oblivious (pure value : Decoding α) :=
  fun _ _ _ _ => rfl

theorem oblivious_refuse (error : Error) : Oblivious (refuse error : Decoding α) :=
  fun _ _ _ _ => rfl

theorem oblivious_panicked : Oblivious (panicked : Decoding α) :=
  fun _ _ _ _ => rfl

theorem Oblivious.bind {piece : Decoding α} {rest : α → Decoding β} (h : Oblivious piece)
    (hrest : ∀ value, Oblivious (rest value)) : Oblivious (piece >>= rest) := by
  intro feed state block fixed
  simp only [Bind.bind, EStateM.bind, h feed state block fixed]
  cases piece feed with
  | ok value next => exact hrest value next state block fixed
  | error fault next => rfl

theorem Oblivious.get {rest : Feed → Decoding β}
    (hsame : ∀ feed state block fixed, rest (feed.swap state block fixed) = rest feed)
    (h : ∀ feed, Oblivious (rest feed)) : Oblivious (MonadState.get >>= rest) := by
  intro feed state block fixed
  change rest (feed.swap state block fixed) (feed.swap state block fixed) = _
  rw [hsame]
  exact h feed feed state block fixed

theorem Oblivious.ite {condition : Prop} [Decidable condition] {piece other : Decoding α}
    (h : Oblivious piece) (h' : Oblivious other) :
    Oblivious (if condition then piece else other) := by
  split
  · exact h
  · exact h'

theorem oblivious_update {change : Inflater → Inflater}
    (h : ∀ (feed : Feed) state block fixed,
      change (feed.swap state block fixed).self =
        (Feed.swap { feed with self := change feed.self } state block fixed).self) :
    Oblivious (update change) := by
  intro feed state block fixed
  change EStateM.Result.ok () { feed.swap state block fixed with
    self := change (feed.swap state block fixed).self } = _
  rw [h]
  rfl

theorem oblivious_ensure (n : Nat) : Oblivious (ensure n) :=
  fun _ _ _ _ => rfl

theorem oblivious_consume (n : Nat) : Oblivious (consume n) := by
  refine .get (fun _ _ _ _ => rfl) fun feed => .ite ?_ oblivious_panicked
  exact oblivious_update fun _ _ _ _ => rfl

theorem oblivious_push (byte : Nat) : Oblivious (push byte) := by
  refine .get (fun _ _ _ _ => rfl) fun feed => .ite ?_ oblivious_panicked
  exact oblivious_update fun _ _ _ _ => rfl

theorem peek_eq (table : DecodeTable) (feed : Feed) :
    peek table feed = (peekFrom table feed.self.bitbuf feed.self.nbits feed.input).elim
      (.error .panicked feed) fun found =>
        .ok found.1 (feed.load found.2.1 found.2.2.1 found.2.2.2) := by
  have hget : ∀ next : Feed → Decoding (Option Entry),
      ((get : Decoding Feed) >>= next) feed = next feed feed := fun _ => rfl
  unfold peek
  rw [hget]
  cases peekFrom table feed.self.bitbuf feed.self.nbits feed.input <;> rfl

theorem oblivious_peek (table : DecodeTable) : Oblivious (peek table) := by
  intro feed state block fixed
  rw [peek_eq, peek_eq]
  change (peekFrom table feed.self.bitbuf feed.self.nbits feed.input).elim _ _ = _
  cases peekFrom table feed.self.bitbuf feed.self.nbits feed.input <;> rfl

theorem oblivious_copyMatch (distance length : Nat) : Oblivious (copyMatch distance length) := by
  refine .get (fun _ _ _ _ => rfl) fun feed => .ite ?_ oblivious_panicked
  exact oblivious_update fun _ _ _ _ => rfl

theorem oblivious_keepTrailing (bytes : Nat) : Oblivious (keepTrailing bytes) := by
  induction bytes with
  | zero => exact oblivious_pure ()
  | succ bytes ih =>
    refine .get (fun _ _ _ _ => rfl) fun feed => .ite ?_ oblivious_panicked
    exact .bind (oblivious_update fun _ _ _ _ => rfl) fun _ => .bind (oblivious_consume 8) fun _ => ih

theorem oblivious_actIf (condition : Bool) {piece : Decoding Unit} (h : Oblivious piece) :
    Oblivious (actIf condition piece) := by
  unfold actIf
  exact .ite h (oblivious_pure ())

theorem oblivious_checkDistanceEntry (entry : Entry) : Oblivious (checkDistanceEntry entry) := by
  unfold checkDistanceEntry
  split
  · exact oblivious_pure ()
  · exact oblivious_refuse _
  · exact oblivious_refuse _

theorem oblivious_checkDistance (distance : Nat) : Oblivious (checkDistance distance) :=
  .get (fun _ _ _ _ => rfl) fun _ => .ite (oblivious_refuse _) (oblivious_pure ())

theorem oblivious_maskBuffer : Oblivious maskBuffer := by
  refine oblivious_update fun feed state block fixed => ?_
  by_cases h : feed.self.nbits < 64 <;>
    simp [Feed.swap, Feed.withState, Feed.withBlock, Feed.withFixed, h]

theorem oblivious_refill : Oblivious refill := fun _ _ _ _ => rfl

theorem oblivious_outOfRoom (limited : Bool) : Oblivious (outOfRoom limited) :=
  .get (fun _ _ _ _ => rfl) fun _ => .ite (oblivious_refuse _) (oblivious_pure _)

theorem oblivious_drainStored (stop remaining : Nat) : Oblivious (drainStored stop remaining) := by
  induction remaining with
  | zero => exact oblivious_pure 0
  | succ remaining ih =>
    refine .get (fun _ _ _ _ => rfl) fun feed => .ite ?_ (oblivious_pure _)
    exact .bind (oblivious_push _) fun _ => .bind (oblivious_consume 8) fun _ => ih

theorem oblivious_copyStored (stop remaining : Nat) : Oblivious (copyStored stop remaining) := by
  intro feed state block fixed
  change (if feed.self.nbits < 8 then (_ : Decoding Nat) else _) _ =
    swapResult state block fixed ((if feed.self.nbits < 8 then (_ : Decoding Nat) else _) _)
  by_cases h : feed.self.nbits < 8
  · rw [if_pos h, if_pos h]
    rfl
  · rw [if_neg h, if_neg h]
    rfl

theorem oblivious_found (table : DecodeTable) : Oblivious (found table) := by
  refine .get (fun _ _ _ _ => rfl) fun feed => ?_
  split
  · exact oblivious_panicked
  · exact oblivious_pure _

end

/-! ### Two decoders that differ in their blocks -/

/-- The mark is true: it stands only where the fixed tables are in place. -/
structure Kept (block : Block) (fixed : Bool) : Prop where
  widths : block.Widths
  fixed : fixed = true → block.Fixed

def Shares (state : State) (block other : Block) : Prop :=
  match state with
  | .dynamicCodeLengths => block.hlit = other.hlit ∧ block.hdist = other.hdist ∧
      block.hclen = other.hclen ∧ block.clIndex = other.clIndex ∧ block.clLengths = other.clLengths
  | .dynamicLengths => block.hlit = other.hlit ∧ block.hdist = other.hdist ∧
      block.codeLength = other.codeLength ∧ block.lengths = other.lengths
  | .symbols | .lengthExtra _ _ | .distance _ | .distanceExtra _ _ _ | .copy _ _ =>
    block.litlen = other.litlen ∧ block.dist = other.dist
  | _ => True

structure Paired (state : State) (block : Block) (fixed : Bool) (other : Block) (fixed' : Bool)
    (feed twin : Feed) : Prop where
  state_eq : feed.self.state = state
  block_eq : feed.self.block = block
  fixed_eq : feed.self.tablesFixed = fixed
  twin_eq : twin = feed.swap state other fixed'

structure Fellows (block : Block) (fixed : Bool) (other : Block) (fixed' : Bool) : Prop where
  final : block.finalBlock = other.finalBlock
  kept : Kept block fixed
  kept' : Kept other fixed'

def Twins (feed twin : Feed) : Prop :=
  ∃ other fixed', Paired feed.self.state feed.self.block feed.self.tablesFixed other fixed' feed twin ∧
    Fellows feed.self.block feed.self.tablesFixed other fixed' ∧
      Shares feed.self.state feed.self.block other

/-- What a refusal leaves: a true mark, unless the distance code of a block was refused after
its literals were installed. -/
def Spoils (error : Error) (feed : Feed) : Prop :=
  feed.self.block.Widths ∧ (error ≠ .oversubscribedCode .distance →
    Kept feed.self.block feed.self.tablesFixed)

section

variable {α β : Type} {state : State} {block other : Block} {fixed fixed' : Bool}
  {feed twin : Feed} {bad : Error → Feed → Prop}

theorem Fellows.spoils (h : Fellows block fixed other fixed') (error : Error) (feed twin : Feed)
    (hpaired : Paired state block fixed other fixed' feed twin) : Spoils error feed := by
  unfold Spoils
  rw [hpaired.block_eq, hpaired.fixed_eq]
  exact ⟨h.kept.widths, fun _ => h.kept⟩

theorem Paired.twins (h : Paired state block fixed other fixed' feed twin)
    (hfellows : Fellows block fixed other fixed') (hshares : Shares state block other) :
    Twins feed twin := by
  obtain ⟨rfl, rfl, rfl, hpaired⟩ := h
  exact ⟨other, fixed', ⟨rfl, rfl, rfl, hpaired⟩, hfellows, hshares⟩

theorem Paired.run {piece : Decoding α} {ok : α → Feed → Feed → Prop}
    (h : Paired state block fixed other fixed' feed twin) (hpiece : Oblivious piece)
    (hok : ∀ value next next', Paired state block fixed other fixed' next next' →
      ok value next next')
    (hbad : ∀ error next next', Paired state block fixed other fixed' next next' →
      bad error next) :
    Alike piece piece feed twin ok bad := by
  obtain ⟨rfl, rfl, rfl, rfl⟩ := h
  have hself := hpiece feed feed.self.state feed.self.block feed.self.tablesFixed
  change piece feed = _ at hself
  have hpaired : ∀ next : Feed,
      next = next.swap feed.self.state feed.self.block feed.self.tablesFixed →
      Paired feed.self.state feed.self.block feed.self.tablesFixed other fixed' next
        (next.swap feed.self.state other fixed') := by
    intro next hnext
    have hstate := congrArg (fun feed => feed.self.state) hnext
    have hblock := congrArg (fun feed => feed.self.block) hnext
    have hfixed := congrArg (fun feed => feed.self.tablesFixed) hnext
    exact ⟨hstate, hblock, hfixed, rfl⟩
  unfold Alike
  rw [hpiece feed feed.self.state other fixed']
  cases hrun : piece feed with
  | ok value next =>
    rw [hrun] at hself
    exact ⟨rfl, hok _ _ _ (hpaired next (EStateM.Result.ok.inj hself).2)⟩
  | error fault next =>
    rw [hrun] at hself
    cases fault with
    | refused error => exact ⟨rfl, hbad _ _ _ (hpaired next (EStateM.Result.error.inj hself).2)⟩
    | panicked => trivial

variable {ok : β → Feed → Feed → Prop} {rest rest' : Unit → Decoding β}

theorem Paired.andThen {piece : Decoding α} {rest rest' : α → Decoding β}
    (h : Paired state block fixed other fixed' feed twin) (hpiece : Oblivious piece)
    (hbad : ∀ error next next', Paired state block fixed other fixed' next next' → bad error next)
    (hrest : ∀ value next next', Paired state block fixed other fixed' next next' →
      Alike (rest value) (rest' value) next next' ok bad) :
    Alike (piece >>= rest) (piece >>= rest') feed twin ok bad :=
  (h.run hpiece hrest hbad).bind

theorem Paired.updateBlock (h : Paired state block fixed other fixed' feed twin)
    {change change' : Block → Block}
    (hrest : ∀ next next', Paired state (change block) fixed (change' other) fixed' next next' →
      Alike (rest ()) (rest' ()) next next' ok bad) :
    Alike (Deflate.updateBlock change >>= rest) (Deflate.updateBlock change' >>= rest') feed twin
      ok bad := by
  obtain ⟨rfl, rfl, rfl, rfl⟩ := h
  exact hrest (feed.withBlock (change feed.self.block))
    ((feed.swap feed.self.state other fixed').withBlock (change' other)) ⟨rfl, rfl, rfl, rfl⟩

theorem Paired.mark (h : Paired state block fixed other fixed' feed twin) (mark : Bool)
    (hrest : ∀ next next', Paired state block mark other mark next next' →
      Alike (rest ()) (rest' ()) next next' ok bad) :
    Alike (update (fun inflater => { inflater with tablesFixed := mark }) >>= rest)
      (update (fun inflater => { inflater with tablesFixed := mark }) >>= rest') feed twin
      ok bad := by
  obtain ⟨rfl, rfl, rfl, rfl⟩ := h
  exact hrest (feed.withFixed mark) ((feed.swap feed.self.state other fixed').withFixed mark)
    ⟨rfl, rfl, rfl, rfl⟩

theorem Paired.become (h : Paired state block fixed other fixed' feed twin) (later : State)
    (hfellows : Fellows block fixed other fixed') (hshares : Shares later block other) :
    Alike (Deflate.become later) (Deflate.become later) feed twin (fun _ => Twins) bad := by
  obtain ⟨rfl, rfl, rfl, rfl⟩ := h
  exact ⟨rfl, other, fixed', ⟨rfl, rfl, rfl, rfl⟩, hfellows, hshares⟩

theorem Paired.enter (h : Paired state block fixed other fixed' feed twin) (later : State)
    (hrest : ∀ next next', Paired later block fixed other fixed' next next' →
      Alike (rest ()) (rest' ()) next next' ok bad) :
    Alike (update (fun inflater => { inflater with state := later }) >>= rest)
      (update (fun inflater => { inflater with state := later }) >>= rest') feed twin ok bad := by
  obtain ⟨rfl, rfl, rfl, rfl⟩ := h
  exact hrest (feed.withState later) ((feed.swap feed.self.state other fixed').withState later)
    ⟨rfl, rfl, rfl, rfl⟩

end

end Purrdf.Deflate
