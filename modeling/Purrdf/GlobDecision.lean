import Purrdf.GlobMatching

/-!
# Glob matching decides the pattern language

The meter is separated from the rounds it pays for: a round charges a fixed list of units
and then does what `Turn` says. Under a limit that covers all of them the loop ends with
the decision, and under a smaller one it refuses.
-/

namespace Purrdf.Glob

def Meter.charge (meter : Meter) : List Nat → Except MatchError Meter
  | [] => .ok meter
  | offset :: offsets => do
      let meter ← meter.tick offset
      meter.charge offsets

theorem Meter.charge_append (meter : Meter) (first second : List Nat) :
    meter.charge (first ++ second) = (meter.charge first).bind fun meter => meter.charge second := by
  induction first generalizing meter with
  | nil => rfl
  | cons offset first ih =>
    rw [List.cons_append, charge, charge]
    rcases meter.tick offset with error | next
    · rfl
    · exact ih next

theorem Meter.charge_ok {meter : Meter} {offsets : List Nat}
    (room : meter.work + offsets.length ≤ meter.limit) :
    meter.charge offsets = .ok ⟨meter.work + offsets.length, meter.limit⟩ := by
  induction offsets generalizing meter with
  | nil => rfl
  | cons offset offsets ih =>
    rw [List.length_cons] at room
    rw [charge, tick, if_neg (by omega)]
    show charge ⟨meter.work + 1, meter.limit⟩ offsets = _
    have room' : meter.work + 1 + offsets.length ≤ meter.limit := by omega
    rw [@ih ⟨meter.work + 1, meter.limit⟩ room', List.length_cons, Nat.add_assoc,
      Nat.add_comm 1]

theorem Meter.charge_error {meter : Meter} {offsets : List Nat} (within : meter.work ≤ meter.limit)
    (excess : meter.limit < meter.work + offsets.length) :
    ∃ offset, meter.charge offsets = .error ⟨meter.limit, meter.limit, offset⟩ := by
  induction offsets generalizing meter with
  | nil =>
    rw [List.length_nil] at excess
    omega
  | cons offset offsets ih =>
    rw [List.length_cons] at excess
    rw [charge, tick]
    by_cases full : meter.work = meter.limit
    · rw [if_pos full, full]
      exact ⟨offset, rfl⟩
    · rw [if_neg full]
      exact @ih ⟨meter.work + 1, meter.limit⟩ (by dsimp only; omega) (by dsimp only; omega)

section

variable {mode : Mode} {ranges : List Range} {tokens : List Token} {input : List Char}
  {state : Machine}

def Charges {α : Type} (run : Meter → Except MatchError (α × Meter)) (offsets : List Nat)
    (value : α) : Prop :=
  ∀ meter, run meter = (meter.charge offsets).map fun meter => (value, meter)

theorem Charges.none {α : Type} {value : α} : Charges (fun meter => .ok (value, meter)) [] value :=
  fun _ => rfl

theorem Charges.tick {α : Type} {run : Meter → Except MatchError (α × Meter)} {offset : Nat}
    {offsets : List Nat} {value : α} (h : Charges run offsets value) :
    Charges (fun meter => (meter.tick offset).bind run) (offset :: offsets) value := by
  intro meter
  show (meter.tick offset).bind run = _
  rw [Meter.charge]
  rcases meter.tick offset with error | next
  · rfl
  · exact h next

theorem nextBoundary_spec (position : Nat) (rest : List Char) (behind : input.drop position = rest) :
    ∃ offsets result, Charges (fun meter => nextBoundary input meter position rest) offsets result ∧
      match result with
      | some next => ∃ before, next = before + 1 ∧ position ≤ before ∧ input[before]? = some '/' ∧
          ∀ index, position ≤ index → index < before → input[index]? ≠ some '/'
      | none => ∀ index, position ≤ index → input[index]? ≠ some '/' := by
  induction rest generalizing position with
  | nil =>
    refine ⟨[], none, .none, ?_⟩
    intro index lower at_index
    obtain ⟨bound, -⟩ := List.getElem?_eq_some_iff.mp at_index
    have := List.drop_eq_nil_iff.mp behind
    omega
  | cons ch rest ih =>
    have first : input[position]? = some ch := by
      have head : (input.drop position)[0]? = some ch := by rw [behind]; rfl
      rw [List.getElem?_drop] at head
      exact head
    have later : input.drop (position + 1) = rest := by
      rw [← List.drop_drop, behind, List.drop_one, List.tail_cons]
    by_cases slash : ch = '/'
    · refine ⟨[byteOffset input position], some (position + 1), ?_, position, rfl, Nat.le_refl _,
        by rw [first, slash], ?_⟩
      · apply Charges.tick
        simp only [if_pos slash]
        exact .none
      · intro index lower upper
        omega
    · obtain ⟨offsets, result, charges, found⟩ := ih (position + 1) later
      have other : ∀ index, index = position → input[index]? ≠ some '/' := by
        rintro index rfl same
        rw [first] at same
        cases same
        exact slash rfl
      refine ⟨byteOffset input position :: offsets, result, ?_, ?_⟩
      · apply Charges.tick
        simp only [if_neg slash]
        exact charges
      · cases result with
        | none =>
          intro index lower
          rcases Nat.eq_or_lt_of_le lower with same | further
          · exact other index same.symm
          · exact found index further
        | some next =>
          obtain ⟨before, next_eq, lower, at_before, nearest⟩ := found
          refine ⟨before, next_eq, by omega, at_before, ?_⟩
          intro index low high
          rcases Nat.eq_or_lt_of_le low with same | further
          · exact other index same.symm
          · exact nearest index further high

theorem retry_spec (mismatch : Mismatch mode ranges tokens input state) :
    ∃ offsets outcome, Charges (retry mode input state) offsets outcome ∧
      Turn mode ranges tokens input state outcome := by
  rcases starRetry : (state.star.bind fun retry =>
    (input[retry.input]?.filter mode.permits).map fun _ => retry) with - | starRetry'
  · have exhausted : Exhausted mode input state := by
      intro retry ch starHeld at_ch
      rw [starHeld, Option.bind_some, at_ch] at starRetry
      by_contra permitted
      rw [Bool.not_eq_false] at permitted
      simp [Option.filter, permitted] at starRetry
    rcases directoriesHeld : state.directories with - | directoriesRetry
    · refine ⟨[], .done false state.checked, ?_, .refuse mismatch exhausted ?_⟩
      · intro meter
        rw [retry, starRetry, directoriesHeld]
        rfl
      · intro retry index held
        rw [directoriesHeld] at held
        cases held
    · obtain ⟨offsets, result, charges, found⟩ :=
        nextBoundary_spec directoriesRetry.input _ (Eq.refl (input.drop directoriesRetry.input))
      cases result with
      | none =>
        refine ⟨offsets, .done false state.checked, ?_, .refuse mismatch exhausted ?_⟩
        · intro meter
          rw [retry, starRetry, directoriesHeld]
          have scanned : nextBoundary input meter _ _ = _ := charges meter
          dsimp only
          rw [scanned]
          rcases meter.charge offsets with error | paid
          · rfl
          · rfl
        · intro retry index held lower
          rw [directoriesHeld] at held
          cases held
          exact found index lower
      | some next =>
        obtain ⟨before, rfl, lower, slash, nearest⟩ := found
        refine ⟨offsets, .next { state with
          token := directoriesRetry.token
          position := before + 1
          star := none
          directories := some ⟨directoriesRetry.token, before + 1⟩ }, ?_,
          .retryDirectories mismatch exhausted directoriesHeld lower slash nearest rfl rfl rfl rfl⟩
        intro meter
        rw [retry, starRetry, directoriesHeld]
        have scanned : nextBoundary input meter _ _ = _ := charges meter
        dsimp only
        rw [scanned]
        rcases meter.charge offsets with error | paid
        · rfl
        · rfl
  · obtain ⟨held, starHeld, chosen⟩ := Option.bind_eq_some_iff.mp starRetry
    obtain ⟨ch, at_ch, rfl⟩ := Option.map_eq_some_iff.mp chosen
    obtain ⟨at_ch, permitted⟩ := Option.filter_eq_some_iff.mp at_ch
    refine ⟨[byteOffset input held.input], .next { state with
      token := held.token
      position := held.input + 1
      star := some ⟨held.token, held.input + 1⟩ }, ?_,
      .retryStar mismatch starHeld at_ch permitted rfl rfl rfl rfl⟩
    intro meter
    rw [retry, starRetry]
    exact (Charges.tick .none) meter

theorem accepts_spec {token : Token} (position : Nat)
    (kind : token.single = true ∨ token = .separator) (tabled : Tabled ranges tokens)
    (member : token ∈ tokens) :
    ∃ offsets accepted,
      Charges (accepts ranges mode input token position) offsets accepted ∧
      (accepted = true ↔ ∃ ch, input[position]? = some ch ∧ token.Takes mode ranges ch) := by
  cases token with
  | literal expected =>
    refine ⟨[], _, Charges.none, ?_⟩
    rw [beq_iff_eq]
    exact ⟨fun taken => ⟨_, taken, rfl⟩, fun ⟨_, taken, same⟩ => same ▸ taken⟩
  | separator =>
    refine ⟨[], _, Charges.none, ?_⟩
    rw [beq_iff_eq]
    exact ⟨fun taken => ⟨_, taken, rfl⟩, fun ⟨_, taken, same⟩ => same ▸ taken⟩
  | any =>
    refine ⟨[], _, Charges.none, ?_⟩
    rw [Option.any_eq_true]
    rfl
  | classRanges start stop negated =>
    rcases permitted : input[position]?.filter mode.permits with - | ch
    · refine ⟨[], false, ?_, ?_⟩
      · intro meter
        rw [accepts, permitted]
        rfl
      · simp only [Bool.false_eq_true, false_iff]
        intro ⟨ch, at_ch, takes⟩
        rw [at_ch] at permitted
        simp [Option.filter, takes.1] at permitted
    · obtain ⟨at_ch, free⟩ := Option.filter_eq_some_iff.mp permitted
      refine ⟨[byteOffset input position],
        inRanges ch.val (classSlice ranges start stop) != negated, ?_, ?_⟩
      · intro meter
        rw [accepts, permitted]
        exact (Charges.tick .none) meter
      · have search := @inRanges_iff ch.val _ (tabled start stop negated member)
        have differs : (inRanges ch.val (classSlice ranges start stop) != negated) = true ↔
            (inRanges ch.val (classSlice ranges start stop) = true ↔ negated = false) := by
          cases negated <;> simp
        rw [differs, search]
        constructor
        · intro membership
          exact ⟨ch, at_ch, free, membership⟩
        · intro ⟨other, at_other, _, membership⟩
          rw [at_ch] at at_other
          cases at_other
          exact membership
  | star => rcases kind with single | same; cases single; cases same
  | directories => rcases kind with single | same; cases single; cases same
  | tail => rcases kind with single | same; cases single; cases same

theorem Turn.of_leading {leading : Bool} {outcome : Outcome}
    (h : Turn mode ranges tokens input { state with leading := leading } outcome) :
    Turn mode ranges tokens input state outcome := by
  cases h with
  | accept at_token kind at_ch takes token position star directories =>
    exact .accept at_token kind at_ch takes token position star directories
  | star at_token token position star directories =>
    exact .star at_token token position star directories
  | directories at_token token position star directories =>
    exact .directories at_token token position star directories
  | tail at_token => exact .tail at_token
  | finish finished done => exact .finish finished done
  | retryStar mismatch held at_ch permitted token position star directories =>
    exact .retryStar mismatch held at_ch permitted token position star directories
  | retryDirectories mismatch exhausted held lower slash nearest token position star directories =>
    exact .retryDirectories mismatch exhausted held lower slash nearest token position star
      directories
  | refuse mismatch exhausted closed => exact .refuse mismatch exhausted closed

theorem visit_spec (state : Machine) (tabled : Tabled ranges tokens) :
    ∃ offsets outcome, Charges (visit tokens ranges mode input state) offsets outcome ∧
      Turn mode ranges tokens input state outcome := by
  rcases at_token : tokens[state.token]? with - | token
  · by_cases finished : input[state.position]? = none
    · refine ⟨[], .done true state.checked, ?_, .finish at_token finished⟩
      intro meter
      rw [visit, at_token]
      exact if_pos finished
    · obtain ⟨offsets, outcome, charges, turn⟩ := retry_spec (Or.inl ⟨at_token, finished⟩)
      refine ⟨offsets, outcome, ?_, turn⟩
      intro meter
      rw [visit, at_token]
      exact (if_neg finished).trans (charges meter)
  · have scalar : (token.single = true ∨ token = .separator) → ∃ offsets outcome,
        Charges (fun meter => do
          let taken ← accepts ranges mode input token state.position meter
          if taken.1 then pure (.next (state.advance token), taken.2)
          else retry mode input state taken.2) offsets outcome ∧
        Turn mode ranges tokens input state outcome := by
      intro kind
      obtain ⟨first, accepted, charges, accepts_iff⟩ :=
        accepts_spec state.position kind tabled (List.mem_of_getElem? at_token)
      cases accepted with
      | true =>
        obtain ⟨ch, at_ch, takes⟩ := accepts_iff.mp rfl
        refine ⟨first, .next (state.advance token), ?_,
          .accept at_token kind at_ch takes rfl rfl rfl rfl⟩
        intro meter
        dsimp only
        rw [charges meter]
        rcases meter.charge first with error | paid
        · rfl
        · rfl
      | false =>
        have refuses : ∀ ch, input[state.position]? = some ch → ¬token.Takes mode ranges ch := by
          intro ch at_ch takes
          cases accepts_iff.mpr ⟨ch, at_ch, takes⟩
        obtain ⟨second, outcome, charges', turn⟩ :=
          retry_spec (Or.inr ⟨token, at_token, kind, refuses⟩)
        refine ⟨first ++ second, outcome, ?_, turn⟩
        intro meter
        dsimp only
        rw [charges meter, Meter.charge_append]
        rcases meter.charge first with error | paid
        · rfl
        · exact charges' paid
    cases token with
    | tail =>
      refine ⟨[], .done true state.checked, ?_, .tail at_token⟩
      intro meter
      rw [visit, at_token]
      rfl
    | directories =>
      refine ⟨[], .next { state with
        token := state.token + 1
        directories := some ⟨state.token + 1, state.position⟩
        star := none }, ?_, .directories at_token rfl rfl rfl rfl⟩
      intro meter
      rw [visit, at_token]
      rfl
    | star =>
      refine ⟨[], .next { state with
        token := state.token + 1
        star := some ⟨state.token + 1, state.position⟩ }, ?_, .star at_token rfl rfl rfl rfl⟩
      intro meter
      rw [visit, at_token]
      rfl
    | separator =>
      obtain ⟨offsets, outcome, charges, turn⟩ := scalar (Or.inr rfl)
      refine ⟨offsets, outcome, ?_, turn⟩
      intro meter
      rw [visit, at_token]
      exact charges meter
    | _ =>
      obtain ⟨offsets, outcome, charges, turn⟩ := scalar (Or.inl rfl)
      refine ⟨offsets, outcome, ?_, turn⟩
      intro meter
      rw [visit, at_token]
      exact charges meter

theorem dispatch_spec (state : Machine) (tabled : Tabled ranges tokens) :
    ∃ offsets outcome, 0 < offsets.length ∧
      Charges (dispatch tokens ranges mode input state) offsets outcome ∧
      Turn mode ranges tokens input state outcome := by
  obtain ⟨offsets, outcome, charges, turn⟩ := visit_spec
    { state with leading := state.leading && tokens[state.token]?.any Token.deterministic } tabled
  refine ⟨byteOffset input state.position :: offsets, outcome, ?_, charges.tick, turn.of_leading⟩
  rw [List.length_cons]
  exact Nat.succ_pos _

/-- The loop from any state it can hold: it ends, for a fixed amount of work, with whether
some alternative of the state succeeds, and refuses under any smaller limit. -/
theorem resumeLoop_spec (program : Program mode true tokens) (tabled : Tabled ranges tokens)
    (state : Machine) (held : Held mode tokens input state) :
    ∃ matched checked work, 0 < work ∧ (matched = true ↔ Can mode ranges tokens input state) ∧
      ∀ rounds meter, meter.work ≤ meter.limit → meter.limit - meter.work ≤ rounds →
        (meter.work + work ≤ meter.limit →
          resumeLoop tokens ranges mode input rounds state meter =
            .ok ((matched, checked), ⟨meter.work + work, meter.limit⟩)) ∧
        (meter.limit < meter.work + work →
          ∃ offset, resumeLoop tokens ranges mode input rounds state meter =
            .error ⟨meter.limit, meter.limit, offset⟩) := by
  induction h : rank tokens input state using WellFoundedLT.induction generalizing state with
  | ind below ih =>
    obtain ⟨offsets, outcome, positive, charges, turn⟩ := dispatch_spec state tabled
    -- Out of rounds means out of work.
    have empty : ∀ meter : Meter, meter.work ≤ meter.limit → meter.limit - meter.work ≤ 0 →
        ∃ offset, resumeLoop tokens ranges mode input 0 state meter =
          .error ⟨meter.limit, meter.limit, offset⟩ := by
      intro meter within none
      have full : meter.work = meter.limit := by omega
      rw [resumeLoop, full]
      exact ⟨_, rfl⟩
    have refused : ∀ (rounds : Nat) (meter : Meter), meter.work ≤ meter.limit →
        meter.limit < meter.work + offsets.length →
        ∃ offset, resumeLoop tokens ranges mode input (rounds + 1) state meter =
          .error ⟨meter.limit, meter.limit, offset⟩ := by
      intro rounds meter within excess
      obtain ⟨offset, error⟩ := Meter.charge_error within excess
      rw [resumeLoop, charges meter, error]
      exact ⟨offset, rfl⟩
    cases outcome with
    | done matched checked =>
      refine ⟨matched, checked, offsets.length, positive, turn.done_spec program, ?_⟩
      intro rounds meter within enough
      cases rounds with
      | zero => exact ⟨fun room => by omega, fun _ => empty meter within enough⟩
      | succ rounds =>
        refine ⟨?_, refused rounds meter within⟩
        intro room
        rw [resumeLoop, charges meter, Meter.charge_ok room]
        rfl
    | next state' =>
      subst h
      obtain ⟨matched, checked, work, positive', verdict, run⟩ :=
        ih _ (turn.rank_lt held) state' (turn.next_held program held) rfl
      refine ⟨matched, checked, offsets.length + work, by omega,
        verdict.trans (turn.next_can program held).symm, ?_⟩
      intro rounds meter within enough
      cases rounds with
      | zero => exact ⟨fun room => by omega, fun _ => empty meter within enough⟩
      | succ rounds =>
        by_cases excess : meter.limit < meter.work + offsets.length
        · exact ⟨fun room => by omega, fun _ => refused rounds meter within excess⟩
        · have paid := Meter.charge_ok (Nat.not_lt.mp excess)
          obtain ⟨finish, refuse⟩ := run rounds ⟨meter.work + offsets.length, meter.limit⟩
            (Nat.not_lt.mp excess) (by dsimp only; omega)
          rw [resumeLoop, charges meter, paid, ← Nat.add_assoc]
          exact ⟨finish, refuse⟩

end

/-- **Glob matching decides the pattern language.** Every pattern that compiles and every
input have an amount of work. A limit that covers it gives the decision, which is whether
the tokens of the pattern match the whole input, and a smaller limit a refusal that
reports the limit. -/
theorem matchLiteral_decides (source : List Char) (mode : Mode) (glob : CompiledGlob)
    (compiled : compile source mode = .ok glob) (lexical : List Char) :
    ∃ out matched work, parse source mode {} = .ok out ∧
      (matched = true ↔ Matches mode out.ranges out.tokens lexical) ∧
      (∀ maxWork, work ≤ maxWork → glob.matchLiteral lexical maxWork = .ok ⟨matched, work⟩) ∧
      ∀ maxWork, maxWork < work →
        ∃ offset, glob.matchLiteral lexical maxWork = .error ⟨maxWork, maxWork, offset⟩ := by
  obtain ⟨out, parsed, rfl, program, tabled, language⟩ := compile_spec compiled
  have held : Held glob.mode glob.tokens lexical ⟨0, 0, true, none, none, {}⟩ := by
    constructor
    · exact Nat.zero_le _
    · exact Nat.zero_le _
    · intro retry none
      cases none
    · intro retry none
      cases none
    · intro star directories none
      cases none
  obtain ⟨matched, checked, work, -, verdict, run⟩ := resumeLoop_spec program tabled _ held
  have can : Can glob.mode glob.ranges glob.tokens lexical ⟨0, 0, true, none, none, {}⟩ ↔
      Matches glob.mode out.ranges out.tokens lexical := by
    rw [← language]
    simp [Can, Here]
  refine ⟨out, matched, work, parsed, verdict.trans can, ?_, ?_⟩
  · intro maxWork covers
    have finish := (run maxWork ⟨0, maxWork⟩ (Nat.zero_le _) (Nat.le_refl _)).1 (by
      rw [Nat.zero_add]
      exact covers)
    rw [CompiledGlob.matchLiteral, matchesMetered, resumeMetered, Nat.sub_zero, finish, Nat.zero_add]
    rfl
  · intro maxWork less
    obtain ⟨offset, refuse⟩ := (run maxWork ⟨0, maxWork⟩ (Nat.zero_le _) (Nat.le_refl _)).2 (by
      rw [Nat.zero_add]
      exact less)
    rw [CompiledGlob.matchLiteral, matchesMetered, resumeMetered, Nat.sub_zero, refuse]
    exact ⟨offset, rfl⟩

theorem matchLiteral_decides_nested : ∃ glob out,
    compile "**/a*/**/b?".toList .path = .ok glob ∧
      parse "**/a*/**/b?".toList .path {} = .ok out ∧
      glob.matchLiteral "z/ax/y/bq".toList 100 = .ok ⟨true, 16⟩ ∧
      Matches .path out.ranges out.tokens "z/ax/y/bq".toList := by
  obtain ⟨glob, compiled⟩ : ∃ glob, compile "**/a*/**/b?".toList .path = .ok glob := ⟨_, rfl⟩
  obtain ⟨out, matched, work, parsed, decides, finish, refuse⟩ :=
    matchLiteral_decides _ _ glob compiled "z/ax/y/bq".toList
  have run : glob.matchLiteral "z/ax/y/bq".toList 100 = .ok ⟨true, 16⟩ := by
    cases compiled
    decide +kernel
  refine ⟨glob, out, compiled, parsed, run, decides.mp ?_⟩
  rcases Nat.lt_or_ge 100 work with more | covered
  · obtain ⟨offset, refused⟩ := refuse 100 more
    rw [run] at refused
    cases refused
  · rw [finish 100 covered] at run
    cases run
    rfl

end Purrdf.Glob
