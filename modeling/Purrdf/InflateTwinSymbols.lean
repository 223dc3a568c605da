import Purrdf.InflateReset

/-!
# Decoders that differ in their blocks

Each state reads of its block what the header of that block has written, so decoders whose
blocks agree there end every turn alike.
-/

namespace Purrdf.Deflate

variable {state : State} {block other : Block} {fixed fixed' : Bool} {feed twin : Feed}

@[simp] theorem Feed.swap_block (feed : Feed) (state : State) (block : Block) (fixed : Bool) :
    (feed.swap state block fixed).self.block = block := rfl

@[simp] theorem Feed.swap_outEnd (feed : Feed) (state : State) (block : Block) (fixed : Bool) :
    (feed.swap state block fixed).self.outEnd = feed.self.outEnd := rfl

@[simp] theorem Feed.swap_bits (feed : Feed) (state : State) (block : Block) (fixed : Bool)
    (count : Nat) : (feed.swap state block fixed).bits count = feed.bits count := rfl

theorem Kept.tables {later : Block} (h : Kept block fixed) (hlitlen : later.litlen = block.litlen)
    (hdist : later.dist = block.dist) (hcode : later.codeLength.primaryBits = codeLengthBits) :
    Kept later fixed := by
  refine ⟨⟨?_, ?_, hcode⟩, fun hfixed => ⟨?_, ?_⟩⟩
  · rw [hlitlen]
    exact h.widths.litlen
  · rw [hdist]
    exact h.widths.dist
  · rw [hlitlen]
    exact (h.fixed hfixed).litlen
  · rw [hdist]
    exact (h.fixed hfixed).dist

/-! ### Building tables -/

theorem build_primaryBits {table result : DecodeTable} {lengths : List Nat} {kind : Kind}
    {pairs : Bool} (h : table.build lengths kind pairs = .ok result) :
    result.primaryBits = table.primaryBits := by
  unfold DecodeTable.build at h
  dsimp only at h
  split at h
  · cases h
  · split at h
    · cases h
    · split at h
      · cases h
      · split at h
        · cases h
        · cases h
          rfl

theorem build_refused {table : DecodeTable} {lengths : List Nat} {kind : Kind} {pairs : Bool}
    {error : Error} (h : table.build lengths kind pairs = .error (.refused error)) :
    error = .oversubscribedCode kind.alphabet ∧
      spend 1 ((List.range' 1 15).map (CanonicalCode.count lengths)) = false := by
  unfold DecodeTable.build at h
  dsimp only at h
  split at h
  · cases h
  · split at h
    · next hspend =>
        cases h
        exact ⟨rfl, by simpa using hspend⟩
    · split at h
      · cases h
      · split at h <;> cases h

theorem build_of_spend (table : DecodeTable) {lengths : List Nat} (kind : Kind) (pairs : Bool)
    (hshort : ∀ len ∈ lengths, len ≤ 15) (hsize : lengths.length ≤ 288)
    (hspend : spend 1 ((List.range' 1 15).map (CanonicalCode.count lengths)) = true) :
    ∃ result, table.build lengths kind pairs = .ok result := by
  cases hresult : table.build lengths kind pairs with
  | ok result => exact ⟨result, rfl⟩
  | error fault =>
    cases fault with
    | refused error =>
      rw [(build_refused hresult).2] at hspend
      cases hspend
    | panicked => exact absurd hresult (build_total table kind pairs hshort hsize)

theorem fixed_spend :
    spend 1 ((List.range' 1 15).map (CanonicalCode.count fixedLitlenLengths)) = true ∧
      spend 1 ((List.range' 1 15).map (CanonicalCode.count fixedDistLengths)) = true := by
  decide +kernel

theorem fixed_built : ∃ litlen dist : DecodeTable,
    litlen.primaryBits = litlenBits ∧ dist.primaryBits = distBits ∧
      (∀ table : DecodeTable, table.primaryBits = litlenBits →
        table.build fixedLitlenLengths .literalLength true = .ok litlen) ∧
      ∀ table : DecodeTable, table.primaryBits = distBits →
        table.build fixedDistLengths .distance false = .ok dist := by
  obtain ⟨⟨hshort, hsize⟩, hshort', hsize'⟩ := fixed_lengths_ok
  obtain ⟨litlen, hlitlen⟩ :=
    build_of_spend (.new litlenBits) .literalLength true hshort hsize fixed_spend.1
  obtain ⟨dist, hdist⟩ := build_of_spend (.new distBits) .distance false hshort' hsize' fixed_spend.2
  refine ⟨litlen, dist, build_primaryBits hlitlen, build_primaryBits hdist, ?_, ?_⟩
  · intro table hwidth
    rw [← hlitlen]
    exact build_congr hwidth _ _ _
  · intro table hwidth
    rw [← hdist]
    exact build_congr hwidth _ _ _

theorem alike_built {α : Type} {result result' : Except Fault DecodeTable}
    {rest rest' : DecodeTable → Decoding α} {ok : α → Feed → Feed → Prop}
    {bad : Error → Feed → Prop} (hsame : result' = result)
    (hbad : ∀ error, result = .error (.refused error) → bad error feed)
    (hrest : ∀ table, result = .ok table → Alike (rest table) (rest' table) feed twin ok bad) :
    Alike (built result >>= rest) (built result' >>= rest') feed twin ok bad := by
  subst hsame
  cases result' with
  | ok table => exact hrest table rfl
  | error fault =>
    cases fault with
    | refused error => exact ⟨rfl, hbad error rfl⟩
    | panicked => trivial

theorem Paired.afterBlock (h : Paired state block fixed other fixed' feed twin)
    (hfellows : Fellows block fixed other fixed') :
    Alike Deflate.afterBlock Deflate.afterBlock feed twin (fun _ => Twins) Spoils := by
  unfold Deflate.afterBlock
  apply Alike.get
  have hsame : feed.self.block.finalBlock = twin.self.block.finalBlock := by
    rw [h.block_eq, h.twin_eq]
    exact hfellows.final
  have htwin := h.twin_eq
  rw [← hsame]
  split
  · subst htwin
    refine h.andThen (oblivious_consume (feed.self.nbits % 8)) hfellows.spoils fun _ _ _ h => ?_
    refine h.andThen (oblivious_update fun _ _ _ _ => rfl) hfellows.spoils fun _ _ _ h => ?_
    refine h.andThen (oblivious_keepTrailing (feed.self.nbits / 8)) hfellows.spoils fun _ _ _ h => ?_
    refine h.andThen (oblivious_update fun _ _ _ _ => rfl) hfellows.spoils fun _ _ _ h => ?_
    exact h.become .done hfellows trivial
  · exact h.become .blockHeader hfellows trivial

theorem fixedTables_eq (hkept : Kept feed.self.block feed.self.tablesFixed) {litlen dist : DecodeTable}
    (hlitlen : ∀ table : DecodeTable, table.primaryBits = litlenBits →
      table.build fixedLitlenLengths .literalLength true = .ok litlen)
    (hdist : ∀ table : DecodeTable, table.primaryBits = distBits →
      table.build fixedDistLengths .distance false = .ok dist) :
    fixedTables feed =
      .ok () ((feed.withBlock { feed.self.block with litlen, dist }).withFixed true) := by
  have hl := hlitlen _ hkept.widths.litlen
  have hd := hdist _ hkept.widths.dist
  change (if feed.self.tablesFixed then (_ : Decoding Unit) else _) feed = _
  cases hmark : feed.self.tablesFixed with
  | true =>
    have hin := hkept.fixed hmark
    rw [hin.litlen] at hl
    rw [hin.dist] at hd
    rw [if_pos rfl, ← Except.ok.inj hl, ← Except.ok.inj hd, ← hmark]
    rfl
  | false =>
    rw [if_neg Bool.false_ne_true, hl, hd]
    rfl

theorem Paired.enterBlock (h : Paired .blockHeader block fixed other fixed' feed twin)
    (hfellows : Fellows block fixed other fixed') (kind : Nat) :
    Alike (Deflate.enterBlock kind) (Deflate.enterBlock kind) feed twin (fun _ => Twins) Spoils := by
  rcases kind with _ | _ | _ | kind
  · exact h.become .storedHeader hfellows trivial
  · obtain ⟨litlen, dist, hbits, hbits', hlitlen, hdist⟩ := fixed_built
    obtain ⟨hstate, rfl, rfl, rfl⟩ := h
    have hinstalled : ∀ {block : Block} {fixed : Bool}, Kept block fixed →
        Kept { block with litlen, dist } true := by
      intro block fixed hkept
      exact ⟨⟨hbits, hbits', hkept.widths.codeLength⟩, fun _ => ⟨hlitlen _ hbits, hdist _ hbits'⟩⟩
    have hpaired : Paired .blockHeader { feed.self.block with litlen, dist } true
        { other with litlen, dist } true
        ((feed.withBlock { feed.self.block with litlen, dist }).withFixed true)
        (((feed.swap .blockHeader other fixed').withBlock { other with litlen, dist }).withFixed
          true) := ⟨hstate, rfl, rfl, rfl⟩
    have hbecome : Alike (Deflate.become .symbols) (Deflate.become .symbols) _ _ (fun _ => Twins)
        Spoils := hpaired.become .symbols
      ⟨hfellows.final, hinstalled hfellows.kept, hinstalled hfellows.kept'⟩ ⟨rfl, rfl⟩
    refine Alike.bind ?_
    unfold Alike
    rw [fixedTables_eq hfellows.kept hlitlen hdist, fixedTables_eq hfellows.kept' hlitlen hdist]
    exact ⟨rfl, hbecome⟩
  · exact h.become .dynamicCounts hfellows trivial
  · exact alike_refuse (hfellows.spoils _ _ _ h)

/-! ### Headers -/

theorem Fellows.header {block' other' : Block} (h : Fellows block fixed other fixed')
    (hfinal : block'.finalBlock = other'.finalBlock)
    (htables : block'.litlen = block.litlen ∧ block'.dist = block.dist ∧
      block'.codeLength.primaryBits = codeLengthBits)
    (htables' : other'.litlen = other.litlen ∧ other'.dist = other.dist ∧
      other'.codeLength.primaryBits = codeLengthBits) :
    Fellows block' fixed other' fixed' :=
  ⟨hfinal, h.kept.tables htables.1 htables.2.1 htables.2.2,
    h.kept'.tables htables'.1 htables'.2.1 htables'.2.2⟩

theorem stepBlockHeader_alike (h : Paired .blockHeader block fixed other fixed' feed twin)
    (hfellows : Fellows block fixed other fixed') :
    Alike stepBlockHeader stepBlockHeader feed twin (fun _ => Twins) Spoils := by
  unfold stepBlockHeader
  refine h.andThen (oblivious_ensure 3) hfellows.spoils fun ready feed _ h => ?_
  cases ready with
  | false => exact alike_pure (h.twins hfellows trivial)
  | true =>
    obtain rfl := h.twin_eq
    apply Alike.get
    refine h.updateBlock fun _ _ h => ?_
    have hlater : Fellows { block with finalBlock := feed.bits 1 == 1 } fixed
        { other with finalBlock := feed.bits 1 == 1 } fixed' :=
      hfellows.header rfl ⟨rfl, rfl, hfellows.kept.widths.codeLength⟩
        ⟨rfl, rfl, hfellows.kept'.widths.codeLength⟩
    refine h.andThen (oblivious_consume 3) hlater.spoils fun _ _ _ h => ?_
    exact h.enterBlock hlater (feed.self.bitbuf / 2 % 4)

theorem stepStoredHeader_alike (h : Paired .storedHeader block fixed other fixed' feed twin)
    (hfellows : Fellows block fixed other fixed') :
    Alike stepStoredHeader stepStoredHeader feed twin (fun _ => Twins) Spoils := by
  unfold stepStoredHeader
  obtain rfl := h.twin_eq
  apply Alike.get
  refine h.andThen (oblivious_consume (feed.self.nbits % 8)) hfellows.spoils fun _ _ _ h => ?_
  refine h.andThen (oblivious_ensure 32) hfellows.spoils fun ready feed _ h => ?_
  cases ready with
  | false => exact alike_pure (h.twins hfellows trivial)
  | true =>
    obtain rfl := h.twin_eq
    apply Alike.get
    refine h.andThen (oblivious_consume 32) hfellows.spoils fun _ _ _ h => ?_
    change Alike (if feed.bits 16 + feed.self.bitbuf / 2 ^ 16 % 2 ^ 16 = 0xFFFF then _ else _)
      (if feed.bits 16 + feed.self.bitbuf / 2 ^ 16 % 2 ^ 16 = 0xFFFF then _ else _) _ _ _ _
    split
    · exact h.become _ hfellows trivial
    · exact alike_refuse (hfellows.spoils _ _ _ h)

theorem stepStored_alike {remaining : Nat}
    (h : Paired (.stored remaining) block fixed other fixed' feed twin)
    (hfellows : Fellows block fixed other fixed') :
    Alike (stepStored remaining) (stepStored remaining) feed twin (fun _ => Twins) Spoils := by
  unfold stepStored
  obtain rfl := h.twin_eq
  apply Alike.get
  dsimp only
  rw [Feed.swap_outEnd]
  obtain ⟨stop, limited⟩ := feed.self.outEnd
  refine h.andThen (oblivious_drainStored stop remaining) hfellows.spoils fun left _ _ h => ?_
  refine h.andThen (oblivious_copyStored stop left) hfellows.spoils fun left _ _ h => ?_
  split
  · exact h.afterBlock hfellows
  · refine h.enter (.stored left) fun feed _ h => ?_
    obtain rfl := h.twin_eq
    apply Alike.get
    change Alike (if feed.self.window.length = stop then _ else _)
      (if feed.self.window.length = stop then _ else _) _ _ _ _
    split
    · exact h.run (oblivious_outOfRoom limited) (fun _ _ _ h => h.twins hfellows trivial)
        hfellows.spoils
    · exact alike_pure (h.twins hfellows trivial)

theorem stepDynamicCounts_alike (h : Paired .dynamicCounts block fixed other fixed' feed twin)
    (hfellows : Fellows block fixed other fixed') :
    Alike stepDynamicCounts stepDynamicCounts feed twin (fun _ => Twins) Spoils := by
  unfold stepDynamicCounts
  refine h.andThen (oblivious_ensure 14) hfellows.spoils fun ready feed _ h => ?_
  cases ready with
  | false => exact alike_pure (h.twins hfellows trivial)
  | true =>
    obtain rfl := h.twin_eq
    apply Alike.get
    refine h.updateBlock fun _ _ h => ?_
    have hcodes := hfellows.kept.widths.codeLength
    have hcodes' := hfellows.kept'.widths.codeLength
    have hcounted : Fellows { block with
          hlit := 257 + feed.bits 5
          hdist := 1 + feed.self.bitbuf / 2 ^ 5 % 32
          hclen := 4 + feed.self.bitbuf / 2 ^ 10 % 16 } fixed
        { other with
          hlit := 257 + feed.bits 5
          hdist := 1 + feed.self.bitbuf / 2 ^ 5 % 32
          hclen := 4 + feed.self.bitbuf / 2 ^ 10 % 16 } fixed' :=
      hfellows.header hfellows.final ⟨rfl, rfl, hcodes⟩ ⟨rfl, rfl, hcodes'⟩
    refine h.andThen (oblivious_consume 14) hcounted.spoils fun _ _ _ h => ?_
    change Alike (if litlenSymbols < 257 + feed.bits 5 then _ else _)
      (if litlenSymbols < 257 + feed.bits 5 then _ else _) _ _ _ _
    split
    · exact alike_refuse (hcounted.spoils _ _ _ h)
    · refine h.updateBlock fun _ _ h => ?_
      exact h.become .dynamicCodeLengths
        (hcounted.header hfellows.final ⟨rfl, rfl, hcodes⟩ ⟨rfl, rfl, hcodes'⟩)
        ⟨rfl, rfl, rfl, rfl, rfl⟩

theorem stepDynamicCodeLengths_alike
    (h : Paired .dynamicCodeLengths block fixed other fixed' feed twin)
    (hfellows : Fellows block fixed other fixed')
    (hshares : Shares .dynamicCodeLengths block other) :
    Alike stepDynamicCodeLengths stepDynamicCodeLengths feed twin (fun _ => Twins) Spoils := by
  obtain ⟨hlit, hdist, hclen, hindex, hlengths⟩ := id hshares
  have hwidth := hfellows.kept.widths.codeLength
  have hwidth' := hfellows.kept'.widths.codeLength
  unfold stepDynamicCodeLengths
  obtain rfl := h.twin_eq
  obtain rfl := h.block_eq
  apply Alike.get
  dsimp only
  rw [Feed.swap_block, ← hclen, ← hindex, ← hlengths]
  split
  · refine h.andThen (oblivious_ensure 3) hfellows.spoils fun ready loaded _ h => ?_
    cases ready with
    | false => exact alike_pure (h.twins hfellows hshares)
    | true =>
      obtain rfl := h.twin_eq
      apply Alike.get
      cases codeLengthOrder[feed.self.block.clIndex]? with
      | none => exact alike_panicked
      | some symbol =>
        refine h.updateBlock fun _ _ h => ?_
        refine h.andThen (oblivious_consume 3) (Fellows.spoils ?_) fun _ _ _ h => ?_
        · exact hfellows.header hfellows.final ⟨rfl, rfl, hwidth⟩ ⟨rfl, rfl, hwidth'⟩
        refine h.updateBlock fun _ _ h => ?_
        apply alike_pure
        refine h.twins (hfellows.header hfellows.final ⟨rfl, rfl, hwidth⟩ ⟨rfl, rfl, hwidth'⟩)
          ⟨hlit, hdist, hclen, ?_, ?_⟩
        · simp [hindex]
        · dsimp only
          rw [hlengths]
          rfl
  · refine alike_built (build_congr (hwidth'.trans hwidth.symm) _ _ _)
      (fun error _ => hfellows.spoils error _ _ h) fun table htable => ?_
    have hbits := (build_primaryBits htable).trans hwidth
    refine h.updateBlock fun _ _ h => ?_
    exact h.become .dynamicLengths
      (hfellows.header hfellows.final ⟨rfl, rfl, hbits⟩ ⟨rfl, rfl, hbits⟩)
      ⟨hlit, hdist, rfl, rfl⟩

theorem stepDynamicLengths_alike
    (h : Paired .dynamicLengths block fixed other fixed' feed twin)
    (hfellows : Fellows block fixed other fixed') (hshares : Shares .dynamicLengths block other) :
    Alike stepDynamicLengths stepDynamicLengths feed twin (fun _ => Twins) Spoils := by
  obtain ⟨hlit, hdist, hcode, hlengths⟩ := id hshares
  have hwidth := hfellows.kept.widths.codeLength
  have hwidth' := hfellows.kept'.widths.codeLength
  unfold stepDynamicLengths
  obtain rfl := h.twin_eq
  obtain rfl := h.block_eq
  apply Alike.get
  dsimp only
  rw [Feed.swap_block, ← hlit, ← hdist, ← hcode, ← hlengths]
  split
  · refine h.andThen (oblivious_peek _) hfellows.spoils fun entry _ _ h => ?_
    cases entry with
    | none => exact alike_pure (h.twins hfellows hshares)
    | some entry =>
      dsimp only
      split
      · exact alike_refuse (hfellows.spoils _ _ _ h)
      refine h.andThen (oblivious_ensure _) hfellows.spoils fun ready _ _ h => ?_
      cases ready with
      | false => exact alike_pure (h.twins hfellows hshares)
      | true =>
        refine h.andThen (oblivious_consume _) hfellows.spoils fun _ loaded _ h => ?_
        obtain rfl := h.twin_eq
        apply Alike.get
        refine h.andThen (oblivious_consume _) hfellows.spoils fun _ _ _ h => ?_
        rw [Feed.swap_bits]
        cases extendLengths (feed.self.block.hlit + feed.self.block.hdist)
          feed.self.block.lengths entry.value (loaded.bits (repeatExtra entry.value)) with
        | error error => exact alike_refuse (hfellows.spoils _ _ _ h)
        | ok lengths =>
          refine h.updateBlock fun _ _ h => ?_
          apply alike_pure
          exact h.twins (hfellows.header hfellows.final ⟨rfl, rfl, hwidth⟩
            ⟨rfl, rfl, hwidth'⟩) ⟨hlit, hdist, hcode, rfl⟩
  · split
    · exact alike_refuse (hfellows.spoils _ _ _ h)
    have hlitlen := hfellows.kept.widths.litlen
    have hlitlen' := hfellows.kept'.widths.litlen
    refine alike_built (build_congr (hlitlen'.trans hlitlen.symm) _ _ _)
      (fun error _ => hfellows.spoils error _ _ h) fun litlen hbuilt => ?_
    have hbits := (build_primaryBits hbuilt).trans hlitlen
    have hwide := hfellows.kept.widths.dist
    have hwide' := hfellows.kept'.widths.dist
    refine h.updateBlock fun _ _ h => ?_
    refine alike_built (build_congr (hwide'.trans hwide.symm) _ _ _) ?_ fun dist hbuilt' => ?_
    · -- the literals are in place and the mark still stands
      intro error hfail
      obtain ⟨rfl, -⟩ := build_refused hfail
      unfold Spoils
      rw [h.block_eq]
      exact ⟨⟨hbits, hwide, hwidth⟩, fun hne => absurd rfl hne⟩
    have hbits' := (build_primaryBits hbuilt').trans hwide
    refine h.updateBlock fun _ _ h => ?_
    refine h.mark false fun _ _ h => ?_
    refine h.become .symbols ⟨hfellows.final, ⟨⟨hbits, hbits', hwidth⟩, ?_⟩,
      ⟨⟨hbits, hbits', hwidth'⟩, ?_⟩⟩ ⟨rfl, rfl⟩
    · intro hfalse
      cases hfalse
    · intro hfalse
      cases hfalse

end Purrdf.Deflate

/-!
## Symbols of decoders that differ in their blocks

From the header's end to the block's, decoders whose blocks have the same literal and distance
tables end every turn alike, the fast loop included.
-/

namespace Purrdf.Deflate

variable {state : State} {block other : Block} {fixed fixed' : Bool} {feed twin : Feed}

theorem oblivious_literal (limited : Bool) (window stop value bits : Nat) :
    Oblivious (if stop ≤ window then outOfRoom limited else do
      push value
      consume bits
      return none) := by
  apply Oblivious.ite (oblivious_outOfRoom limited)
  exact .bind (oblivious_push _) fun _ => .bind (oblivious_consume _) fun _ => oblivious_pure _

theorem oblivious_pair {α : Type} (value bits : Nat) (result : α) :
    Oblivious (do
      push value
      push (value / 2 ^ 8)
      consume bits
      return result) := by
  apply Oblivious.bind (oblivious_push _)
  intro _
  apply Oblivious.bind (oblivious_push _)
  intro _
  exact .bind (oblivious_consume _) fun _ => oblivious_pure _

theorem Twins.andThen {α β : Type} {piece : Decoding α} {rest rest' : α → Decoding β}
    {ok : β → Feed → Feed → Prop} (h : Twins feed twin) (hpiece : Oblivious piece)
    (hrest : ∀ value next next', Twins next next' →
      Alike (rest value) (rest' value) next next' ok Spoils) :
    Alike (piece >>= rest) (piece >>= rest') feed twin ok Spoils := by
  obtain ⟨other, fixed', hpaired, hfellows, hshares⟩ := h
  refine hpaired.andThen hpiece hfellows.spoils fun value next next' hnext => ?_
  exact hrest value next next' (hnext.twins hfellows hshares)

theorem Twins.spoils (h : Twins feed twin) (error : Error) : Spoils error feed := by
  obtain ⟨other, fixed', hpaired, hfellows, -⟩ := h
  exact hfellows.spoils error _ _ hpaired

variable (hfellows : Fellows block fixed other fixed') (hshares : Shares .symbols block other)

include hfellows hshares

theorem stepSymbol_alike (h : Paired .symbols block fixed other fixed' feed twin) :
    Alike stepSymbol stepSymbol feed twin (fun _ => Twins) Spoils := by
  have htwins : ∀ (step : Option Step) next next',
      Paired .symbols block fixed other fixed' next next' → Twins next next' :=
    fun _ _ _ h => h.twins hfellows hshares
  unfold stepSymbol
  obtain rfl := h.twin_eq
  obtain rfl := h.block_eq
  apply Alike.get
  dsimp only
  rw [Feed.swap_outEnd, Feed.swap_block, ← hshares.1]
  obtain ⟨stop, limited⟩ := feed.self.outEnd
  refine h.andThen (oblivious_peek _) hfellows.spoils fun entry _ _ h => ?_
  cases entry with
  | none => exact alike_pure (h.twins hfellows hshares)
  | some entry =>
    dsimp only
    cases entry.tag with
    | literal =>
      exact h.run (oblivious_literal limited _ _ _ _) htwins hfellows.spoils
    | pair =>
      exact h.run (.ite (oblivious_literal limited _ _ _ _) (oblivious_pair _ _ _)) htwins
        hfellows.spoils
    | length =>
      refine h.andThen (oblivious_consume _) hfellows.spoils fun _ _ _ h => ?_
      exact h.become _ hfellows hshares
    | endOfBlock =>
      refine h.andThen (oblivious_consume _) hfellows.spoils fun _ _ _ h => ?_
      exact h.afterBlock hfellows
    | _ => exact alike_refuse (hfellows.spoils _ _ _ h)

theorem stepLengthExtra_alike {base extra : Nat}
    (h : Paired (.lengthExtra base extra) block fixed other fixed' feed twin) :
    Alike (stepLengthExtra base extra) (stepLengthExtra base extra) feed twin (fun _ => Twins)
      Spoils := by
  unfold stepLengthExtra
  refine h.andThen (oblivious_ensure extra) hfellows.spoils fun ready _ _ h => ?_
  cases ready with
  | false => exact alike_pure (h.twins hfellows hshares)
  | true =>
    obtain rfl := h.twin_eq
    apply Alike.get
    refine h.andThen (oblivious_consume extra) hfellows.spoils fun _ _ _ h => ?_
    exact h.become _ hfellows hshares

theorem stepDistance_alike {length : Nat}
    (h : Paired (.distance length) block fixed other fixed' feed twin) :
    Alike (stepDistance length) (stepDistance length) feed twin (fun _ => Twins) Spoils := by
  unfold stepDistance
  obtain rfl := h.twin_eq
  obtain rfl := h.block_eq
  apply Alike.get
  rw [Feed.swap_block, ← hshares.2]
  refine h.andThen (oblivious_peek _) hfellows.spoils fun entry _ _ h => ?_
  cases entry with
  | none => exact alike_pure (h.twins hfellows hshares)
  | some entry =>
    refine h.andThen (oblivious_checkDistanceEntry entry) hfellows.spoils fun _ _ _ h => ?_
    refine h.andThen (oblivious_consume _) hfellows.spoils fun _ _ _ h => ?_
    exact h.become _ hfellows hshares

theorem stepDistanceExtra_alike {length base extra : Nat}
    (h : Paired (.distanceExtra length base extra) block fixed other fixed' feed twin) :
    Alike (stepDistanceExtra length base extra) (stepDistanceExtra length base extra) feed twin
      (fun _ => Twins) Spoils := by
  unfold stepDistanceExtra
  refine h.andThen (oblivious_ensure extra) hfellows.spoils fun ready feed _ h => ?_
  cases ready with
  | false => exact alike_pure (h.twins hfellows hshares)
  | true =>
    obtain rfl := h.twin_eq
    apply Alike.get
    refine h.andThen (oblivious_consume extra) hfellows.spoils fun _ _ _ h => ?_
    refine h.andThen (oblivious_checkDistance (base + feed.bits extra)) hfellows.spoils
      fun _ _ _ h => ?_
    exact h.become _ hfellows hshares

theorem stepCopy_alike {length distance : Nat}
    (h : Paired (.copy length distance) block fixed other fixed' feed twin) :
    Alike (stepCopy length distance) (stepCopy length distance) feed twin (fun _ => Twins)
      Spoils := by
  unfold stepCopy
  obtain rfl := h.twin_eq
  apply Alike.get
  dsimp only
  rw [Feed.swap_outEnd]
  obtain ⟨stop, limited⟩ := feed.self.outEnd
  refine h.andThen (oblivious_actIf _ (oblivious_copyMatch distance
    (min length (stop - feed.self.window.length)))) hfellows.spoils fun _ _ _ h => ?_
  change Alike (if length - min length (stop - feed.self.window.length) = 0 then _ else _)
    (if length - min length (stop - feed.self.window.length) = 0 then _ else _) _ _ _ _
  split
  · exact h.become .symbols hfellows hshares
  · refine h.enter _ fun _ _ h => ?_
    exact h.run (oblivious_outOfRoom limited) (fun _ _ _ h => h.twins hfellows hshares)
      hfellows.spoils

/-! ### The fast loop -/

structure Onward (turn : Turn) (feed twin : Feed) : Prop where
  twins : Twins feed twin
  symbols : turn ≠ .stop → feed.self.state = .symbols

theorem Paired.onward (h : Paired .symbols block fixed other fixed' feed twin) (turn : Turn) :
    Onward turn feed twin :=
  ⟨h.twins hfellows hshares, fun _ => h.state_eq⟩

theorem fastMatch_alike (entry : Entry) (h : Paired .symbols block fixed other fixed' feed twin) :
    Alike (fastMatch entry) (fastMatch entry) feed twin Onward Spoils := by
  unfold fastMatch
  refine h.andThen (oblivious_consume _) hfellows.spoils fun _ feed _ h => ?_
  obtain rfl := h.twin_eq
  apply Alike.get
  have hdist : feed.self.block.dist = other.dist := by
    rw [h.block_eq]
    exact hshares.2
  refine h.andThen (oblivious_consume _) hfellows.spoils fun _ _ _ h => ?_
  rw [Feed.swap_block, ← hdist]
  refine h.andThen (oblivious_found _) hfellows.spoils fun distEntry _ _ h => ?_
  cases distEntry.tag with
  | distance =>
    refine h.andThen (oblivious_consume _) hfellows.spoils fun _ feed _ h => ?_
    obtain rfl := h.twin_eq
    apply Alike.get
    exact h.run (.bind (oblivious_consume _) fun _ => .ite (oblivious_pure _)
      (.bind (oblivious_copyMatch _ _) fun _ => oblivious_pure _))
      (fun turn _ _ h => h.onward hfellows hshares turn) hfellows.spoils
  | _ => exact alike_pure (h.onward hfellows hshares _)

theorem fastTurn_alike (fastEnd : Nat) (h : Paired .symbols block fixed other fixed' feed twin) :
    Alike (fastTurn fastEnd) (fastTurn fastEnd) feed twin Onward Spoils := by
  have honward : ∀ turn next next', Paired .symbols block fixed other fixed' next next' →
      Onward turn next next' := fun turn _ _ h => h.onward hfellows hshares turn
  unfold fastTurn
  obtain rfl := h.twin_eq
  apply Alike.get
  change Alike (if feed.input.length < 8 ∨ fastEnd < feed.self.window.length then _ else _)
    (if feed.input.length < 8 ∨ fastEnd < feed.self.window.length then _ else _) _ _ _ _
  split
  · exact alike_pure (h.onward hfellows hshares _)
  have hlitlen : feed.self.block.litlen = other.litlen := by
    rw [h.block_eq]
    exact hshares.1
  refine h.andThen oblivious_refill hfellows.spoils fun _ _ _ h => ?_
  rw [Feed.swap_block, ← hlitlen]
  refine h.andThen (oblivious_found _) hfellows.spoils fun entry _ _ h => ?_
  cases entry.tag with
  | literal =>
    refine h.run (.bind (oblivious_push _) fun _ => ?_) honward hfellows.spoils
    exact .bind (oblivious_consume _) fun _ => oblivious_pure _
  | pair => exact h.run (oblivious_pair _ _ _) honward hfellows.spoils
  | length => exact fastMatch_alike hfellows hshares entry h
  | endOfBlock =>
    refine h.andThen (oblivious_consume _) hfellows.spoils fun _ _ _ h => ?_
    refine h.andThen oblivious_maskBuffer hfellows.spoils fun _ _ _ h => ?_
    refine ((h.afterBlock hfellows).mono ?_ fun _ _ => id).bind
    exact fun _ next next' htwins => alike_pure ⟨htwins, fun hne => absurd rfl hne⟩
  | _ => exact alike_pure (h.onward hfellows hshares _)

theorem fastLoop_alike (fastEnd turns : Nat)
    (h : Paired .symbols block fixed other fixed' feed twin) :
    Alike (fastLoop fastEnd turns) (fastLoop fastEnd turns) feed twin (fun _ => Twins) Spoils := by
  induction turns generalizing block fixed other fixed' feed twin with
  | zero => exact alike_panicked
  | succ turns ih =>
    unfold fastLoop
    refine ((fastTurn_alike hfellows hshares fastEnd h).mono ?_ fun _ _ => id).bind
    intro turn next next' honward
    cases turn with
    | again =>
      obtain ⟨other, fixed', hpaired, hfellows, hshares⟩ := honward.twins
      rw [honward.symbols (by simp)] at hpaired hshares
      exact ih hfellows hshares hpaired
    | stop => exact alike_pure honward.twins
    | fail error => exact alike_pure honward.twins

theorem fastSymbols_alike (h : Paired .symbols block fixed other fixed' feed twin) :
    Alike fastSymbols fastSymbols feed twin (fun _ => Twins) Spoils := by
  unfold fastSymbols
  obtain rfl := h.twin_eq
  apply Alike.get
  dsimp only
  rw [Feed.swap_outEnd]
  split
  · exact alike_pure (h.twins hfellows hshares)
  refine ((fastLoop_alike hfellows hshares (feed.self.outEnd.1 - (maxMatch + 2)) (feed.unread + 1)
    h).mono ?_ fun _ _ => id).bind
  intro result next next' htwins
  refine htwins.andThen oblivious_maskBuffer fun _ last last' htwins => ?_
  cases result with
  | none => exact alike_pure htwins
  | some error => exact alike_refuse (htwins.spoils error)

theorem stepSymbols_alike (fast : Bool) (h : Paired .symbols block fixed other fixed' feed twin) :
    Alike (stepSymbols fast) (stepSymbols fast) feed twin (fun _ => Twins) Spoils := by
  have hfast : Alike (actIf fast fastSymbols) (actIf fast fastSymbols) feed twin (fun _ => Twins)
      Spoils := by
    cases fast with
    | false => exact alike_pure (h.twins hfellows hshares)
    | true => exact fastSymbols_alike hfellows hshares h
  unfold stepSymbols
  refine (hfast.mono ?_ fun _ _ => id).bind
  intro _ feed _ htwins
  obtain ⟨other, fixed', hpaired, hfellows, hshares⟩ := id htwins
  obtain rfl := hpaired.twin_eq
  apply Alike.get
  change Alike (if feed.self.state = .symbols then _ else _)
    (if feed.self.state = .symbols then _ else _) _ _ _ _
  split
  · next hstate =>
      rw [hstate] at hpaired hshares
      rw [hstate]
      exact stepSymbol_alike hfellows hshares hpaired
  · exact alike_pure htwins

end Purrdf.Deflate
