import Purrdf.GlobSetLayout

/-!
# Set matching is one-by-one matching

The leading run a program has checked is evidence about its successors: it carries over every
program skipped on the strength of it, and where it ends a successor that shares more fails
there too.
-/

namespace Purrdf.Glob

section

variable {mode : Mode} {ranges : List Range} {tokens : List Token} {input : List Char}

/-! ### Leading runs -/

def Leading (tokens : List Token) (input : List Char) (count : Nat) : Prop :=
  ∀ index < count, ∃ ch, fixedAt tokens index = some ch ∧ input[index]? = some ch

def Evidence (tokens : List Token) (input : List Char) (checked : Prefix) : Prop :=
  checked.scalars = checked.tokens ∧ Leading tokens input checked.tokens ∧
    ∀ ch, fixedAt tokens checked.tokens = some ch → input[checked.tokens]? ≠ some ch

theorem fixedAt_eq_some {index : Nat} {ch : Char} :
    fixedAt tokens index = some ch ↔ ∃ token, tokens[index]? = some token ∧ token.fixed = some ch := by
  simp [fixedAt, Option.bind_eq_some_iff]

theorem Token.fixed_takes {token : Token} {ch : Char} (fixed : token.fixed = some ch)
    (mode : Mode) (ranges : List Range) (other : Char) :
    (token.single = true ∨ token = .separator) ∧ (token.Takes mode ranges other ↔ other = ch) := by
  cases token with
  | literal expected =>
    cases fixed
    exact ⟨.inl rfl, Iff.rfl⟩
  | separator =>
    cases fixed
    exact ⟨.inr rfl, Iff.rfl⟩
  | _ => cases fixed

theorem here_fixed {index position : Nat} {ch : Char} (fixed : fixedAt tokens index = some ch) :
    Here mode ranges tokens input index position ↔ input[position]? = some ch ∧
      Here mode ranges tokens input (index + 1) (position + 1) := by
  obtain ⟨token, at_token, fixed⟩ := fixedAt_eq_some.mp fixed
  have takes := Token.fixed_takes fixed mode ranges
  rw [here_scalar at_token (takes ch).1]
  constructor
  · rintro ⟨other, at_other, taken, rest⟩
    rw [(takes other).2] at taken
    exact ⟨taken ▸ at_other, rest⟩
  · rintro ⟨at_ch, rest⟩
    exact ⟨ch, at_ch, (takes ch).2.mpr rfl, rest⟩

variable {count : Nat} {meter meter' : Meter}

theorem Leading.here (leading : Leading tokens input count) :
    Here mode ranges tokens input count count ↔ Matches mode ranges tokens input := by
  induction count with
  | zero => simp [Here]
  | succ count ih =>
    obtain ⟨ch, fixed, at_ch⟩ := leading count (Nat.lt_succ_self count)
    have before := ih fun index below => leading index (Nat.lt_succ_of_lt below)
    rw [← before, here_fixed fixed]
    simp [at_ch]

theorem Evidence.not_matches {checked : Prefix} {ch : Char} (evidence : Evidence tokens input checked)
    (fixed : fixedAt tokens checked.tokens = some ch) : ¬Matches mode ranges tokens input := by
  obtain ⟨-, leading, stops⟩ := evidence
  rw [← leading.here, here_fixed fixed]
  exact fun here => stops ch fixed here.1

theorem Leading.length_le (leading : Leading tokens input count) :
    count ≤ tokens.length ∧ count ≤ input.length := by
  cases count with
  | zero => exact ⟨Nat.zero_le _, Nat.zero_le _⟩
  | succ count =>
    obtain ⟨ch, fixed, at_ch⟩ := leading count (Nat.lt_succ_self count)
    obtain ⟨token, at_token, -⟩ := fixedAt_eq_some.mp fixed
    exact ⟨(List.getElem?_eq_some_iff.mp at_token).1, (List.getElem?_eq_some_iff.mp at_ch).1⟩

/-! ### The evidence of a run -/

def Keeps (state : Machine) : Outcome → Prop
  | .next next => next.leading = state.leading ∧ next.checked = state.checked
  | .done _ checked => checked = state.checked

theorem retry_keeps {state : Machine} {outcome : Outcome}
    (run : retry mode input state meter = .ok (outcome, meter')) : Keeps state outcome := by
  simp only [retry, bind, Except.bind] at run
  split at run
  · split at run
    · cases run
    · cases run
      exact ⟨rfl, rfl⟩
  · split at run
    · cases run
    · split at run
      · cases run
        exact ⟨rfl, rfl⟩
      · cases run
        rfl
  · cases run
    rfl

theorem visit_keeps {state : Machine} {outcome : Outcome} (ended : state.leading = false)
    (run : visit tokens ranges mode input state meter = .ok (outcome, meter')) :
    Keeps state outcome := by
  simp only [visit, bind, Except.bind] at run
  split at run
  · split at run
    · cases run
      rfl
    · exact retry_keeps run
  · cases run
    rfl
  · cases run
    exact ⟨rfl, rfl⟩
  · cases run
    exact ⟨rfl, rfl⟩
  · split at run
    · cases run
    · split at run
      · cases run
        exact ⟨rfl, by simp [Machine.advance, ended]⟩
      · exact retry_keeps run

theorem resumeLoop_keeps {rounds : Nat} {state : Machine} {matched : Bool} {checked : Prefix}
    (ended : state.leading = false)
    (run : resumeLoop tokens ranges mode input rounds state meter = .ok ((matched, checked), meter')) :
    
    checked = state.checked := by
  induction rounds generalizing state meter with
  | zero => cases run
  | succ rounds ih =>
    simp only [resumeLoop, dispatch, bind, Except.bind, ended, Bool.false_and] at run
    rcases paid : meter.tick (byteOffset input state.position) with error | charged
    · rw [paid] at run
      cases run
    · rw [paid] at run
      dsimp only at run
      rcases visited : visit tokens ranges mode input { state with leading := false } charged with
        error | ⟨outcome, left⟩
      · rw [visited] at run
        cases run
      · rw [visited] at run
        have kept := visit_keeps rfl visited
        cases outcome with
        | next next =>
          exact (ih kept.1 run).trans kept.2
        | done matched' checked' =>
          cases run
          exact kept

theorem Token.deterministic_eq (token : Token) : token.deterministic = token.fixed.isSome := by
  cases token <;> rfl

theorem accepts_fixed {token : Token} {ch : Char} (fixed : token.fixed = some ch) (position : Nat)
    (meter : Meter) :
    accepts ranges mode input token position meter = .ok (input[position]? == some ch, meter) := by
  cases token with
  | literal expected =>
    cases fixed
    rfl
  | separator =>
    cases fixed
    rfl
  | _ => cases fixed

/-- The state behind a checked run, before either retry exists. -/
def resumed (count : Nat) : Machine := ⟨count, count, true, none, none, ⟨count, count⟩⟩

theorem visit_fixed {ch : Char} (fixed : fixedAt tokens count = some ch) (meter : Meter) :
    visit tokens ranges mode input (resumed count) meter =
      .ok (if input[count]? = some ch then .next (resumed (count + 1))
        else .done false ⟨count, count⟩, meter) := by
  obtain ⟨token, at_token, fixed⟩ := fixedAt_eq_some.mp fixed
  have scalar : visit tokens ranges mode input (resumed count) meter =
      (accepts ranges mode input token count meter).bind fun taken =>
        if taken.1 then .ok (.next ((resumed count).advance token), taken.2)
        else retry mode input (resumed count) taken.2 := by
    have at_token : tokens[(resumed count).token]? = some token := at_token
    cases token with
    | literal expected =>
      rw [visit, at_token]
      rfl
    | separator =>
      rw [visit, at_token]
      rfl
    | _ => cases fixed
  have advanced : (resumed count).advance token = resumed (count + 1) := by
    simp [resumed, Machine.advance]
  rw [scalar, accepts_fixed fixed, advanced]
  by_cases taken : input[count]? = some ch
  · simp [taken, Except.bind]
  · simp [taken, Except.bind, retry, resumed]

theorem resumeLoop_evidence {rounds count : Nat} {matched : Bool} {checked : Prefix}
    (leading : Leading tokens input count)
    (run : resumeLoop tokens ranges mode input rounds (resumed count) meter =
      .ok ((matched, checked), meter')) : Evidence tokens input checked := by
  induction rounds generalizing count meter with
  | zero => cases run
  | succ rounds ih =>
    rcases at_fixed : fixedAt tokens count with - | ch
    · -- the leading run ends here
      have ended : ((resumed count).leading && tokens[(resumed count).token]?.any
          Token.deterministic) = false := by
        rcases at_token : tokens[count]? with - | token
        · simp [resumed, at_token]
        · have none : token.fixed = none := by simpa [fixedAt, at_token] using at_fixed
          simp [resumed, at_token, Token.deterministic_eq, none]
      have same : checked = ⟨count, count⟩ := by
        have run' : resumeLoop tokens ranges mode input (rounds + 1)
            { resumed count with leading := false } meter = .ok ((matched, checked), meter') := by
          rw [← run]
          simp only [resumeLoop, dispatch, ended, Bool.false_and]
        exact resumeLoop_keeps rfl run'
      rw [same]
      exact ⟨rfl, leading, by simp [at_fixed]⟩
    · have lead : ((resumed count).leading && tokens[(resumed count).token]?.any
          Token.deterministic) = true := by
        obtain ⟨token, at_token, fixed⟩ := fixedAt_eq_some.mp at_fixed
        simp [resumed, at_token, Token.deterministic_eq, fixed]
      simp only [resumeLoop, dispatch, bind, Except.bind, lead] at run
      rcases paid : meter.tick (byteOffset input (resumed count).position) with error | charged
      · rw [paid] at run
        cases run
      · rw [paid] at run
        have visited : visit tokens ranges mode input { resumed count with leading := true }
          charged = _ := visit_fixed at_fixed charged
        simp only [visited] at run
        by_cases taken : input[count]? = some ch
        · rw [if_pos taken] at run
          apply ih _ run
          intro index below
          rcases Nat.lt_succ_iff_lt_or_eq.mp below with before | rfl
          · exact leading index before
          · exact ⟨ch, at_fixed, taken⟩
        · rw [if_neg taken] at run
          cases run
          refine ⟨rfl, leading, fun other fixed => ?_⟩
          rw [at_fixed] at fixed
          cases fixed
          exact taken

/-! ### One program -/

theorem held_resumed (leading : Leading tokens input count) :
    Held mode tokens input (resumed count) := by
  constructor
  · exact leading.length_le.1
  · exact leading.length_le.2
  · intro retry none
    cases none
  · intro retry none
    cases none
  · intro star directories none
    cases none

theorem can_resumed (leading : Leading tokens input count) :
    Can mode ranges tokens input (resumed count) ↔ Matches mode ranges tokens input := by
  rw [← leading.here]
  simp [Can, resumed]

/-- A metered computation has a fixed amount of work and a fixed value; a smaller limit
refuses it. -/
def Costs {α : Type} (run : Meter → Except MatchError (α × Meter)) (work : Nat) (value : α) : Prop :=
  ∀ meter : Meter, meter.work ≤ meter.limit →
    (meter.work + work ≤ meter.limit → run meter = .ok (value, ⟨meter.work + work, meter.limit⟩)) ∧
    (meter.limit < meter.work + work → ∃ cause, run meter = .error cause)

theorem Costs.tick {α : Type} {run : Meter → Except MatchError (α × Meter)} {work : Nat} {value : α}
    (h : Costs run work value) (offset : Nat) :
    Costs (fun meter => (meter.tick offset).bind run) (work + 1) value := by
  intro meter within
  simp only [Meter.tick]
  by_cases full : meter.work = meter.limit
  · rw [if_pos full]
    refine ⟨fun room => ?_, fun _ => ⟨_, rfl⟩⟩
    omega
  · rw [if_neg full]
    have spent := h ⟨meter.work + 1, meter.limit⟩ (by dsimp only; omega)
    dsimp only at spent
    have total : meter.work + 1 + work = meter.work + (work + 1) := by omega
    rw [total] at spent
    exact spent

theorem resumeMetered_costs (program : Program mode true tokens) (tabled : Tabled ranges tokens)
    (leading : Leading tokens input count) :
    ∃ matched checked work, Costs (resumeMetered tokens ranges mode input ⟨count, count⟩) work
        (matched, checked) ∧ (matched = true ↔ Matches mode ranges tokens input) ∧
      Evidence tokens input checked := by
  obtain ⟨matched, checked, work, -, verdict, run⟩ :=
    resumeLoop_spec program tabled (resumed count) (held_resumed leading)
  refine ⟨matched, checked, work, ?_, verdict.trans (can_resumed leading), ?_⟩
  · intro meter within
    obtain ⟨finish, refuse⟩ := run (meter.limit - meter.work) meter within (Nat.le_refl _)
    refine ⟨finish, fun excess => ?_⟩
    obtain ⟨offset, error⟩ := refuse excess
    exact ⟨_, error⟩
  · obtain ⟨finish, -⟩ := run work ⟨0, work⟩ (Nat.zero_le _) (Nat.le_refl _)
    exact resumeLoop_evidence leading (finish (Nat.le_of_eq (Nat.zero_add work)))

namespace CompiledGlobSet

variable {set : CompiledGlobSet} {text : List Char} {start : Nat} {program : SetProgram}
  {previous : Prefix} {before : List Token}

theorem matchProgram_costs
    (own : Program set.mode true ((set.tokens.take program.stop).drop start))
    (tabled : Tabled set.ranges ((set.tokens.take program.stop).drop start))
    (shares : Shares program.shared before ((set.tokens.take program.stop).drop start))
    (evidence : Evidence before text previous) :
    ∃ matched checked work,
      Costs (set.matchProgram text start program previous) work (matched, checked) ∧
      (matched = true ↔
        Matches set.mode set.ranges ((set.tokens.take program.stop).drop start) text) ∧
      Evidence ((set.tokens.take program.stop).drop start) text checked := by
  obtain ⟨stop, ⟨count, scalars⟩⟩ := program
  obtain ⟨previousCount, previousScalars⟩ := previous
  obtain ⟨same, shared⟩ := shares
  obtain ⟨same', leading, stops⟩ := evidence
  dsimp only at own tabled same shared same' leading stops ⊢
  subst scalars previousScalars
  by_cases none : count = 0
  · subst none
    have nothing : Leading ((set.tokens.take stop).drop start) text 0 := by
      intro index below
      cases below
    obtain ⟨matched, checked, work, costs, verdict, evidence⟩ :=
      resumeMetered_costs own tabled nothing
    exact ⟨matched, checked, work, costs, verdict, evidence⟩
  · by_cases failed : previousCount < count
    · -- the program before failed at a scalar that this one has too
      obtain ⟨ch, fixed, fixed'⟩ := shared previousCount failed
      have carried : Evidence ((set.tokens.take stop).drop start) text
          ⟨previousCount, previousCount⟩ := by
        refine ⟨rfl, ?_, ?_⟩
        · intro index below
          obtain ⟨other, at_before, at_text⟩ := leading index below
          obtain ⟨other', at_before', at_own⟩ := shared index (Nat.lt_trans below failed)
          rw [at_before] at at_before'
          cases at_before'
          exact ⟨other, at_own, at_text⟩
        · intro other at_own
          dsimp only at at_own ⊢
          rw [fixed'] at at_own
          cases at_own
          exact stops ch fixed
      refine ⟨false, ⟨previousCount, previousCount⟩, 1, ?_, ?_, carried⟩
      · have nothing : Costs (fun meter : Meter =>
            (.ok ((false, (⟨previousCount, previousCount⟩ : Prefix)), meter) :
              Except MatchError _)) 0 (false, ⟨previousCount, previousCount⟩) :=
          fun meter within => ⟨fun _ => rfl, fun excess => absurd within (Nat.not_le.mpr excess)⟩
        have ticked := nothing.tick (byteOffset text previousCount)
        intro meter within
        rw [matchProgram, if_pos none, if_pos failed]
        exact ticked meter within
      · simp only [Bool.false_eq_true, false_iff]
        exact carried.not_matches fixed'
    · have resumable : Leading ((set.tokens.take stop).drop start) text count := by
        intro index below
        obtain ⟨ch, at_before, at_own⟩ := shared index below
        obtain ⟨ch', at_before', at_text⟩ := leading index (Nat.lt_of_lt_of_le below (Nat.not_lt.mp failed))
        rw [at_before] at at_before'
        cases at_before'
        exact ⟨ch, at_own, at_text⟩
      obtain ⟨matched, checked, work, costs, verdict, evidence⟩ :=
        resumeMetered_costs own tabled resumable
      refine ⟨matched, checked, work + 1, ?_, verdict, evidence⟩
      have ticked := costs.tick (byteOffset text count)
      intro meter within
      rw [matchProgram, if_pos none, if_neg failed]
      exact ticked meter within

end CompiledGlobSet

end

/-! ### The whole set -/

/-- A pattern compiled alone matches the input, at some work limit. -/
def MatchesAlone (mode : Mode) (source lexical : List Char) : Prop :=
  ∃ glob maxWork work, compile source mode = .ok glob ∧
    glob.matchLiteral lexical maxWork = .ok ⟨true, work⟩

theorem matchesAlone_iff {mode : Mode} {source lexical : List Char} {alone : Output}
    (parsed : parse source mode {} = .ok alone) :
    MatchesAlone mode source lexical ↔ Matches mode alone.ranges alone.tokens lexical := by
  obtain ⟨glob, compiled⟩ : ∃ glob, compile source mode = .ok glob := by
    simp only [compile, bind, Except.bind, parsed]
    exact ⟨_, rfl⟩
  obtain ⟨out, parsed', rfl, program, tabled, language⟩ := compile_spec compiled
  rw [parsed] at parsed'
  cases parsed'
  have nothing : Leading glob.tokens lexical 0 := by
    intro index below
    cases below
  obtain ⟨matched, checked, work, costs, verdict, -⟩ := resumeMetered_costs program tabled nothing
  rw [← language, ← verdict]
  have run : ∀ maxWork, glob.matchLiteral lexical maxWork =
      (resumeMetered glob.tokens glob.ranges glob.mode lexical ⟨0, 0⟩ ⟨0, maxWork⟩).map
        fun result => ⟨result.1.1, result.2.work⟩ := by
    intro maxWork
    rw [CompiledGlob.matchLiteral, matchesMetered]
    rcases resumeMetered glob.tokens glob.ranges glob.mode lexical {} ⟨0, maxWork⟩ with
      error | ⟨⟨decided, run⟩, meter⟩ <;> rfl
  constructor
  · rintro ⟨glob', maxWork, spent, compiled', ran⟩
    rw [compiled] at compiled'
    cases compiled'
    rw [run] at ran
    obtain ⟨finish, refuse⟩ := costs ⟨0, maxWork⟩ (Nat.zero_le _)
    rcases Nat.lt_or_ge maxWork (0 + work) with excess | room
    · obtain ⟨cause, error⟩ := refuse excess
      rw [error] at ran
      cases ran
    · rw [finish room] at ran
      cases ran
      rfl
  · rintro rfl
    obtain ⟨finish, -⟩ := costs ⟨0, work⟩ (Nat.zero_le _)
    have finished := finish (Nat.le_of_eq (Nat.zero_add work))
    exact ⟨glob, work, 0 + work, compiled, by rw [run, finished]; rfl⟩

namespace CompiledGlobSet

variable {set : CompiledGlobSet} {text : List Char}

/-- The indices from `first` on of the patterns that match alone, in order. -/
def Hits (mode : Mode) (text : List Char) (first : Nat) (sources : List (List Char))
    (hits : List Nat) : Prop :=
  hits.Pairwise (· < ·) ∧ ∀ index, index ∈ hits ↔
    ∃ place source, index = first + place ∧ sources[place]? = some source ∧
      MatchesAlone mode source text

theorem Hits.cons {mode : Mode} {first : Nat} {source : List Char} {sources : List (List Char)}
    {hits : List Nat} {matched : Bool} (rest : Hits mode text (first + 1) sources hits)
    (verdict : matched = true ↔ MatchesAlone mode source text) :
    Hits mode text first (source :: sources) (if matched then first :: hits else hits) := by
  obtain ⟨ordered, members⟩ := rest
  have later : ∀ index ∈ hits, first < index := by
    intro index member
    obtain ⟨place, _, rfl, -⟩ := (members index).mp member
    omega
  have step : ∀ index, (∃ place source', index = first + place ∧
      (source :: sources)[place]? = some source' ∧ MatchesAlone mode source' text) ↔
        (index = first ∧ matched = true) ∨ index ∈ hits := by
    intro index
    rw [members, verdict]
    constructor
    · rintro ⟨place, source', rfl, found, alone⟩
      cases place with
      | zero =>
        cases found
        exact Or.inl ⟨rfl, alone⟩
      | succ place => exact Or.inr ⟨place, source', by omega, found, alone⟩
    · rintro (⟨rfl, alone⟩ | ⟨place, source', rfl, found, alone⟩)
      · exact ⟨0, source, rfl, rfl, alone⟩
      · exact ⟨place + 1, source', by omega, found, alone⟩
  cases matched with
  | false =>
    refine ⟨ordered, fun index => ?_⟩
    rw [step]
    simp
  | true =>
    refine ⟨List.pairwise_cons.mpr ⟨later, ordered⟩, fun index => ?_⟩
    rw [step]
    simp

theorem matchesLoop_spec (tabled : Tabled set.ranges set.tokens) {programs : List SetProgram}
    {sources : List (List Char)} {index start : Nat} {before : List Token} {previous : Prefix}
    (laid : Laid set.mode set.tokens set.ranges start before programs sources)
    (evidence : Evidence before text previous) :
    ∃ hits work, Hits set.mode text index sources hits ∧
      ∀ (matched : Nat) (workspace : List Nat) (meter : Meter), meter.work ≤ meter.limit →
        matched ≤ index → index + programs.length ≤ workspace.length →
        (meter.work + work ≤ meter.limit → ∃ filled,
          set.matchesLoop (some text) index start previous matched workspace meter programs =
            .ok (filled, matched + hits.length, ⟨meter.work + work, meter.limit⟩) ∧
          filled.take (matched + hits.length) = workspace.take matched ++ hits) ∧
        (meter.limit < meter.work + work → ∃ error,
          set.matchesLoop (some text) index start previous matched workspace meter programs =
            .error error) := by
  induction programs generalizing sources index start before previous with
  | nil =>
    cases sources with
    | cons => exact laid.elim
    | nil =>
      refine ⟨[], 0, ⟨List.Pairwise.nil, by simp⟩, fun matched workspace meter within _ _ => ?_⟩
      exact ⟨fun _ => ⟨workspace, rfl, by simp⟩, fun excess => by omega⟩
  | cons program programs ih =>
    cases sources with
    | nil => exact laid.elim
    | cons source sources =>
      obtain ⟨⟨alone, parsed, alike⟩, shares, rest⟩ := laid
      obtain ⟨programAlone, -, -⟩ := parse_spec parsed
      have own : Tabled set.ranges ((set.tokens.take program.stop).drop start) :=
        fun first stop negated member =>
          tabled first stop negated (List.mem_of_mem_take (List.mem_of_mem_drop member))
      obtain ⟨decided, checked, work, costs, verdict, evidence'⟩ :=
        matchProgram_costs (programAlone.alike alike) own shares evidence
      rw [matches_alike alike, ← matchesAlone_iff parsed] at verdict
      obtain ⟨hits, work', hitsRest, runs⟩ := @ih sources (index + 1) program.stop _ checked rest
        evidence'
      refine ⟨if decided then index :: hits else hits, work + work', hitsRest.cons verdict, ?_⟩
      intro matched workspace meter within below room
      rw [List.length_cons] at room
      have first : set.matchSelected (some text) start program previous meter =
          set.matchProgram text start program previous meter := rfl
      obtain ⟨finish, refuse⟩ := costs meter within
      by_cases excess : meter.limit < meter.work + work
      · obtain ⟨cause, refused⟩ := refuse excess
        refine ⟨fun enough => by omega, fun _ => ⟨.pattern index cause, ?_⟩⟩
        rw [matchesLoop, first, refused]
      · have ran := finish (Nat.not_lt.mp excess)
        cases decided with
        | false =>
          obtain ⟨complete, stopped⟩ := runs matched workspace ⟨meter.work + work, meter.limit⟩
            (Nat.not_lt.mp excess) (by omega) (by omega)
          dsimp only at complete stopped
          rw [Nat.add_assoc] at complete stopped
          rw [matchesLoop, first, ran]
          exact ⟨complete, stopped⟩
        | true =>
          obtain ⟨complete, stopped⟩ := runs (matched + 1) (workspace.set matched index)
            ⟨meter.work + work, meter.limit⟩ (Nat.not_lt.mp excess) (by omega)
            (by rw [List.length_set]; omega)
          dsimp only at complete stopped
          rw [Nat.add_assoc] at complete stopped
          rw [matchesLoop, first, ran]
          refine ⟨fun enough => ?_, stopped⟩
          obtain ⟨filled, run, taken⟩ := complete enough
          have stored : (workspace.set matched index).take (matched + 1) =
              workspace.take matched ++ [index] := by
            have inside : matched < (workspace.set matched index).length := by
              rw [List.length_set]
              omega
            rw [List.take_succ_eq_append_getElem inside, List.getElem_set_self,
              List.take_set_of_le (Nat.le_refl matched)]
          have count : matched + 1 + hits.length = matched + (index :: hits).length := by
            rw [List.length_cons]
            omega
          rw [stored, count, List.append_assoc] at taken
          rw [count] at run
          exact ⟨filled, run, taken⟩

theorem Laid.length_eq {mode : Mode} {tokens : List Token} {ranges : List Range} {start : Nat}
    {before : List Token} {programs : List SetProgram} {sources : List (List Char)}
    (laid : Laid mode tokens ranges start before programs sources) :
    programs.length = sources.length ∧ ∀ source ∈ sources, ∃ glob, compile source mode = .ok glob := by
  induction programs generalizing start before sources with
  | nil =>
    cases sources with
    | nil => exact ⟨rfl, by simp⟩
    | cons => exact laid.elim
  | cons program programs ih =>
    cases sources with
    | nil => exact laid.elim
    | cons source sources =>
      obtain ⟨⟨alone, parsed, -⟩, -, rest⟩ := laid
      obtain ⟨length, compiles⟩ := ih rest
      refine ⟨by rw [List.length_cons, List.length_cons, length], ?_⟩
      rw [List.forall_mem_cons]
      refine ⟨?_, compiles⟩
      simp only [compile, bind, Except.bind, parsed]
      exact ⟨_, rfl⟩

/-- **A set matches as its patterns do one by one.** Patterns that compile together compile
alone, and for every input there is an amount of work: a limit that covers it, with a slot
for each pattern, gives exactly the indices of the patterns that match alone, in ascending
order, and a smaller limit a refusal. -/
theorem matchLiteral_eq_each (sources : List (List Char)) (mode : Mode) (set : CompiledGlobSet)
    (compiled : compileSet sources mode = .ok set) (lexical : List Char) :
    (∀ source ∈ sources, ∃ glob, compile source mode = .ok glob) ∧
    ∃ indices work, indices.Pairwise (· < ·) ∧
      (∀ index, index ∈ indices ↔
        ∃ source, sources[index]? = some source ∧ MatchesAlone mode source lexical) ∧
      ∀ (maxWork : Nat) (workspace : List Nat), sources.length ≤ workspace.length →
        (work ≤ maxWork → set.matchLiteral lexical maxWork workspace = .ok ⟨indices, work⟩) ∧
        (maxWork < work → ∃ error, set.matchLiteral lexical maxWork workspace = .error error) := by
  obtain ⟨rfl, tabled, laid⟩ := compileSet_spec compiled
  obtain ⟨length, compiles⟩ := Laid.length_eq laid
  have nothing : Evidence [] lexical {} := by
    refine ⟨rfl, ?_, by simp [fixedAt]⟩
    intro index below
    cases below
  obtain ⟨indices, work, ⟨ordered, members⟩, runs⟩ := matchesLoop_spec tabled laid nothing
  refine ⟨compiles, indices, work, ordered, fun index => ?_, fun maxWork workspace room => ?_⟩
  · rw [members]
    constructor
    · rintro ⟨place, source, rfl, found, alone⟩
      rw [Nat.zero_add]
      exact ⟨source, found, alone⟩
    · rintro ⟨source, found, alone⟩
      exact ⟨index, source, (Nat.zero_add index).symm, found, alone⟩
  · have slots : ¬workspace.length < set.programs.length := by omega
    obtain ⟨finish, refuse⟩ := runs 0 workspace ⟨0, maxWork⟩ (Nat.zero_le _) (Nat.le_refl _) (by omega)
    simp only [Nat.zero_add, List.take_zero, List.nil_append] at finish refuse
    rw [matchLiteral, matchesSurface, if_neg slots]
    constructor
    · intro covers
      obtain ⟨filled, run, taken⟩ := finish covers
      rw [run, Except.map]
      dsimp only
      rw [taken]
    · intro less
      obtain ⟨error, refused⟩ := refuse less
      rw [refused]
      exact ⟨error, rfl⟩

/-- Three patterns with a common run, one of them twice: the second and third are skipped
over an input on which the first fails, and resumed over another. -/
theorem matchLiteral_eq_each_shared : ∃ set : CompiledGlobSet,
    compileSet ["ab*".toList, "abc".toList, "abc".toList] .text = .ok set ∧
    set.matchLiteral "abc".toList 100 [9, 9, 9] = .ok ⟨[0, 1, 2], 11⟩ ∧
    set.matchLiteral "xbc".toList 100 [9, 9, 9] = .ok ⟨[], 3⟩ ∧
    ∃ indices work, indices.Pairwise (· < ·) ∧
      (∀ index, index ∈ indices ↔ ∃ source,
        ["ab*".toList, "abc".toList, "abc".toList][index]? = some source ∧
          MatchesAlone .text source "abc".toList) ∧
      ∀ (maxWork : Nat) (workspace : List Nat), 3 ≤ workspace.length →
        (work ≤ maxWork → set.matchLiteral "abc".toList maxWork workspace = .ok ⟨indices, work⟩) ∧
        (maxWork < work → ∃ error, set.matchLiteral "abc".toList maxWork workspace = .error error) := by
  obtain ⟨set, compiled⟩ :
      ∃ set, compileSet ["ab*".toList, "abc".toList, "abc".toList] .text = .ok set := ⟨_, rfl⟩
  refine ⟨set, compiled, ?_, ?_, (matchLiteral_eq_each _ _ set compiled "abc".toList).2⟩
  · cases compiled
    decide +kernel
  · cases compiled
    decide +kernel

end CompiledGlobSet

end Purrdf.Glob
