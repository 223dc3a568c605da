import Purrdf.GlobDecision

/-!
# Glob sets

An ordered set of patterns under one table of tokens and ranges. Each program records the
leading literal run it shares with its predecessor, and matching resumes behind it, or skips
a program whose predecessor failed inside it.
-/

namespace Purrdf.Glob

structure SetProgram where
  stop : Nat
  shared : Prefix
deriving DecidableEq, Repr

structure CompiledGlobSet where
  tokens : List Token
  ranges : List Range
  programs : List SetProgram
  mode : Mode
deriving DecidableEq, Repr

structure SetCompileError where
  index : Nat
  cause : CompileError
deriving DecidableEq, Repr

inductive SetMatchError where
  | workspace (required provided : Nat)
  | pattern (index : Nat) (cause : MatchError)
deriving DecidableEq, Repr

structure SetMatchReport where
  indices : List Nat
  work : Nat
deriving DecidableEq, Repr

def Prefix.next (shared : Prefix) : Prefix := ⟨shared.tokens + 1, shared.scalars + 1⟩

/-- The leading literals and separators two programs have in common. Each is one scalar of
either pattern, and of the input once it is checked. -/
def commonPrefix : List Token → List Token → Prefix
  | .literal left :: previous, .literal right :: current =>
    if left = right then (commonPrefix previous current).next else {}
  | .separator :: previous, .separator :: current => (commonPrefix previous current).next
  | _, _ => {}

def compileSetLoop (mode : Mode) : Nat → Nat → List (List Char) → Output → List SetProgram →
    Except SetCompileError (Output × List SetProgram)
  | _, _, [], out, programs => .ok (out, programs)
  | index, previousStart, source :: rest, out, programs =>
    match parse source mode out with
    | .error cause => .error ⟨index, cause⟩
    | .ok next =>
      let start := out.tokens.length
      let shared := commonPrefix ((next.tokens.take start).drop previousStart)
        (next.tokens.drop start)
      compileSetLoop mode (index + 1) start rest next
        (programs ++ [⟨next.tokens.length, shared⟩])

def compileSet (sources : List (List Char)) (mode : Mode) :
    Except SetCompileError CompiledGlobSet :=
  (compileSetLoop mode 0 0 sources {} []).map fun (out, programs) =>
    let (tokens, ranges) := normalize out.tokens out.ranges
    ⟨tokens, ranges, programs, mode⟩

/-! ### Matching a set -/

namespace CompiledGlobSet

variable (set : CompiledGlobSet)

/-- Match one program, given the run its last predecessor that ran has checked. -/
def matchProgram (text : List Char) (start : Nat) (program : SetProgram) (previous : Prefix)
    (meter : Meter) : Except MatchError ((Bool × Prefix) × Meter) :=
  let tokens := (set.tokens.take program.stop).drop start
  let shared := program.shared
  if shared.tokens ≠ 0 then
    if previous.tokens < shared.tokens then do
      -- The previous program failed before the common run ended.
      let meter ← meter.tick (byteOffset text previous.scalars)
      pure ((false, previous), meter)
    else do
      let meter ← meter.tick (byteOffset text shared.scalars)
      resumeMetered tokens set.ranges set.mode text shared meter
  else resumeMetered tokens set.ranges set.mode text shared meter

def matchSelected (lexical : Option (List Char)) (start : Nat) (program : SetProgram)
    (previous : Prefix) (meter : Meter) : Except MatchError ((Bool × Prefix) × Meter) :=
  match lexical with
  | some text => set.matchProgram text start program previous meter
  | none => do
      let meter ← meter.tick 0
      pure ((false, previous), meter)

def matchesLoop (lexical : Option (List Char)) : Nat → Nat → Prefix → Nat → List Nat → Meter →
    List SetProgram → Except SetMatchError (List Nat × Nat × Meter)
  | _, _, _, matched, workspace, meter, [] => .ok (workspace, matched, meter)
  | index, start, previous, matched, workspace, meter, program :: rest =>
    match set.matchSelected lexical start program previous meter with
    | .error cause => .error (.pattern index cause)
    | .ok ((true, previous), meter) =>
      matchesLoop lexical (index + 1) program.stop previous (matched + 1)
        (workspace.set matched index) meter rest
    | .ok ((false, previous), meter) =>
      matchesLoop lexical (index + 1) program.stop previous matched workspace meter rest

/-- `matches`. -/
def matchesSurface (lexical : Option (List Char)) (maxWork : Nat) (workspace : List Nat) :
    Except SetMatchError SetMatchReport :=
  if workspace.length < set.programs.length then
    .error (.workspace set.programs.length workspace.length)
  else
    (set.matchesLoop lexical 0 0 {} 0 workspace ⟨0, maxWork⟩ set.programs).map
      fun (workspace, matched, meter) => ⟨workspace.take matched, meter.work⟩

def matchLiteral (lexical : List Char) (maxWork : Nat) (workspace : List Nat) :
    Except SetMatchError SetMatchReport := set.matchesSurface (some lexical) maxWork workspace

end CompiledGlobSet

end Purrdf.Glob

/-!
## The layout of a set

A pattern parsed behind others gives the tokens it gives alone, its classes moved behind the
ranges already there. So each program of a set is, up to the place of its classes, the
pattern compiled alone.
-/

namespace Purrdf.Glob

/-! ### Parsing behind an output -/

def Token.moved (count : Nat) : Token → Token
  | .classRanges start stop negated => .classRanges (count + start) (count + stop) negated
  | token => token

def Output.behind (base out : Output) : Output :=
  ⟨base.tokens ++ out.tokens.map (Token.moved base.ranges.length), base.ranges ++ out.ranges⟩

namespace Output

variable (base out : Output)

@[simp] theorem behind_range (range : Range) :
    (base.behind out).range range = base.behind (out.range range) := by
  simp [behind, Output.range]

@[simp] theorem behind_token (token : Token) :
    (base.behind out).token (token.moved base.ranges.length) = base.behind (out.token token) := by
  simp [behind, Output.token]

@[simp] theorem behind_ranges_length :
    (base.behind out).ranges.length = base.ranges.length + out.ranges.length := by
  simp [behind]

@[simp] theorem behind_empty : base.behind {} = base := by
  simp [behind]

end Output

variable {mode : Mode} {base : Output}

theorem parseMember_behind (firstMember : Nat) (parser : Parser) (out : Output) :
    parseMember firstMember parser (base.behind out) =
      (parseMember firstMember parser out).map fun (next, out) => (next, base.behind out) := by
  simp only [parseMember, bind, Except.bind]
  rcases parser.scalar with error | ⟨first, next⟩
  · rfl
  · dsimp only
    rcases parseLast (parser.offset == firstMember) first next with error | ⟨last, next⟩
    · rfl
    · dsimp only
      split
      · rfl
      · simp [Except.map]

theorem parseClass_behind (opened firstMember rounds : Nat) (parser : Parser) (out : Output) :
    parseClass opened firstMember rounds parser (base.behind out) =
      (parseClass opened firstMember rounds parser out).map
        fun (next, out) => (next, base.behind out) := by
  induction rounds generalizing parser out with
  | zero => rfl
  | succ rounds ih =>
    simp only [parseClass]
    split
    · rfl
    · split
      · rfl
      · split
        · rfl
        · simp only [parseMember_behind, bind, Except.bind]
          rcases parseMember firstMember parser out with error | ⟨next, out⟩
          · rfl
          · exact ih next out

def ParseState.behind (base : Output) (state : ParseState) : ParseState :=
  { state with out := base.behind state.out }

theorem parseBracket_behind (opened : Nat) (parser : Parser) (out : Output) :
    parseBracket opened parser (base.behind out) =
      (parseBracket opened parser out).map (ParseState.behind base) := by
  simp only [parseBracket, parseClass_behind, bind, Except.bind]
  rcases parseClass opened _ _ _ out with error | ⟨next, out'⟩
  · rfl
  · have token : ∀ negated, (base.behind out').token (.classRanges (base.ranges.length +
        out.ranges.length) (base.ranges.length + out'.ranges.length) negated) =
          base.behind (out'.token (.classRanges out.ranges.length out'.ranges.length negated)) :=
      fun negated => Output.behind_token base out'
        (.classRanges out.ranges.length out'.ranges.length negated)
    simp only [Except.map, Output.behind_ranges_length, Nat.add_left_cancel_iff, token]
    split <;> rfl

theorem parseStars_behind (componentStart : Bool) (parser : Parser) (out : Output) :
    parseStars mode componentStart parser (base.behind out) =
      (parseStars mode componentStart parser out).behind base := by
  have token : ∀ token : Token, token.moved base.ranges.length = token →
      (base.behind out).token token = base.behind (out.token token) := by
    intro token same
    rw [← Output.behind_token, same]
  simp only [parseStars]
  split
  · split
    · simp only [token .directories rfl, ParseState.behind]
    · simp only [token .tail rfl, ParseState.behind]
  · simp only [token .star rfl, ParseState.behind]

theorem parseToken_behind (componentStart : Bool) (opened : Nat) (ch : Char) (parser : Parser)
    (out : Output) : parseToken mode componentStart opened ch parser (base.behind out) =
      (parseToken mode componentStart opened ch parser out).map (ParseState.behind base) := by
  have token : ∀ token : Token, token.moved base.ranges.length = token →
      (base.behind out).token token = base.behind (out.token token) := by
    intro token same
    rw [← Output.behind_token, same]
  simp only [parseToken]
  split
  · split
    · rfl
    · split
      · simp only [token .separator rfl, Except.map, ParseState.behind]
      · simp only [token (.literal _) rfl, Except.map, ParseState.behind]
  · split
    · simp only [token .separator rfl, Except.map, ParseState.behind]
    · split
      · rw [parseStars_behind]
        rfl
      · split
        · simp only [token .any rfl, Except.map, ParseState.behind]
        · split
          · exact parseBracket_behind opened parser out
          · split
            · rfl
            · simp only [token (.literal ch) rfl, Except.map, ParseState.behind]

theorem parseLoop_behind (rounds : Nat) (state : ParseState) :
    parseLoop mode rounds (state.behind base) =
      (parseLoop mode rounds state).map base.behind := by
  induction rounds generalizing state with
  | zero => rfl
  | succ rounds ih =>
    have parser : (state.behind base).parser = state.parser := rfl
    have componentStart : (state.behind base).componentStart = state.componentStart := rfl
    have out : (state.behind base).out = base.behind state.out := rfl
    simp only [parseLoop, parser, componentStart, out]
    split
    · rfl
    · simp only [parseToken_behind, bind, Except.bind]
      rcases parseToken mode state.componentStart state.parser.offset _ _ state.out with
        error | next
      · rfl
      · exact ih next

theorem parse_behind (source : List Char) (base : Output) :
    parse source mode base = (parse source mode {}).map base.behind := by
  have start : (⟨⟨0, source⟩, true, base⟩ : ParseState) =
      ParseState.behind base ⟨⟨0, source⟩, true, {}⟩ := by
    simp [ParseState.behind]
  rw [parse, start]
  exact parseLoop_behind source.length _

/-! ### Shared runs -/

def Token.fixed : Token → Option Char
  | .literal expected => some expected
  | .separator => some '/'
  | _ => none

def fixedAt (tokens : List Token) (index : Nat) : Option Char := tokens[index]?.bind Token.fixed

@[simp] theorem fixedAt_zero (token : Token) (tokens : List Token) :
    fixedAt (token :: tokens) 0 = token.fixed := by
  simp [fixedAt]

@[simp] theorem fixedAt_succ (token : Token) (tokens : List Token) (index : Nat) :
    fixedAt (token :: tokens) (index + 1) = fixedAt tokens index := by
  simp [fixedAt]

/-- A run of fixed scalars that two programs start with. -/
def Shares (shared : Prefix) (previous current : List Token) : Prop :=
  shared.scalars = shared.tokens ∧ ∀ index < shared.tokens, ∃ ch,
    fixedAt previous index = some ch ∧ fixedAt current index = some ch

theorem shares_empty (previous current : List Token) : Shares {} previous current := by
  refine ⟨rfl, ?_⟩
  intro index below
  cases below

theorem Shares.next {shared : Prefix} {left right : Token} {previous current : List Token} {ch : Char}
    (h : Shares shared previous current) (fixed : left.fixed = some ch)
    (fixed' : right.fixed = some ch) : Shares shared.next (left :: previous) (right :: current) := by
  refine ⟨congrArg (· + 1) h.1, ?_⟩
  intro index below
  cases index with
  | zero => exact ⟨ch, by simpa using fixed, by simpa using fixed'⟩
  | succ index =>
    obtain ⟨ch, before, now⟩ := h.2 index (Nat.lt_of_succ_lt_succ below)
    exact ⟨ch, by simpa using before, by simpa using now⟩

theorem commonPrefix_shares (previous current : List Token) :
    Shares (commonPrefix previous current) previous current := by
  fun_induction commonPrefix previous current with
  | case1 left previous current ih => exact ih.next rfl rfl
  | case2 => exact shares_empty _ _
  | case3 previous current ih => exact ih.next rfl rfl
  | case4 => exact shares_empty _ _

section

variable {ranges ranges' : List Range} {tokens tokens' : List Token}

theorem Alike.fixed_eq {token token' : Token} (h : Alike ranges ranges' token token') :
    token'.fixed = token.fixed := by
  cases token with
  | classRanges start stop negated =>
    obtain ⟨start', stop', rfl, -⟩ := h
    rfl
  | _ => rw [h.eq_of_ne (by simp)]

theorem fixedAt_alike (alike : List.Forall₂ (Alike ranges ranges') tokens tokens') (index : Nat) :
    fixedAt tokens' index = fixedAt tokens index := by
  induction alike generalizing index with
  | nil => rfl
  | cons head rest ih =>
    cases index with
    | zero => simpa using head.fixed_eq
    | succ index => simpa using ih index

end

/-! ### The programs of a set -/

/-- The programs from one on, against their patterns: each is its pattern up to the place
of its classes, and shares its run with the program before. -/
def Laid (mode : Mode) (tokens : List Token) (ranges : List Range) :
    Nat → List Token → List SetProgram → List (List Char) → Prop
  | _, _, [], [] => True
  | start, previous, program :: programs, source :: sources =>
    (∃ alone, parse source mode {} = .ok alone ∧ List.Forall₂ (Alike alone.ranges ranges)
      alone.tokens ((tokens.take program.stop).drop start)) ∧
    Shares program.shared previous ((tokens.take program.stop).drop start) ∧
    Laid mode tokens ranges program.stop ((tokens.take program.stop).drop start) programs sources
  | _, _, _, _ => False

theorem Slices.stop_le {lower upper : Nat} {tokens : List Token} (h : Slices lower tokens upper)
    {start stop : Nat} {negated : Bool} (member : .classRanges start stop negated ∈ tokens) :
    stop ≤ upper := by
  induction tokens generalizing lower with
  | nil => cases member
  | cons token tokens ih =>
    rcases List.mem_cons.mp member with rfl | inRest
    · exact h.2.2.le
    · cases token with
      | classRanges => exact ih h.2.2 inRest
      | _ => exact ih h inRest

theorem Slices.append {lower middle upper : Nat} {tokens tokens' : List Token}
    (first : Slices lower tokens middle) (second : Slices middle tokens' upper) :
    Slices lower (tokens ++ tokens') upper := by
  induction tokens generalizing lower with
  | nil =>
    have below : lower ≤ middle := first
    clear first
    induction tokens' generalizing lower middle with
    | nil => exact Nat.le_trans below second
    | cons token tokens' ih =>
      cases token with
      | classRanges => exact ⟨Nat.le_trans below second.1, second.2⟩
      | _ => exact ih second below
  | cons token tokens ih =>
    cases token with
    | classRanges => exact ⟨first.1, first.2.1, ih first.2.2⟩
    | _ => exact ih first

theorem Slices.moved {lower upper : Nat} {tokens : List Token} (h : Slices lower tokens upper)
    (count : Nat) : Slices (count + lower) (tokens.map (Token.moved count)) (count + upper) := by
  induction tokens generalizing lower with
  | nil => exact Nat.add_le_add_left h count
  | cons token tokens ih =>
    cases token with
    | classRanges =>
      exact ⟨Nat.add_le_add_left h.1 count, Nat.add_lt_add_left h.2.1 count, ih h.2.2⟩
    | _ => exact ih h

theorem alike_moved {tokens : List Token} {ranges before after : List Range}
    (inside : ∀ start stop negated, .classRanges start stop negated ∈ tokens → stop ≤ ranges.length) :
    List.Forall₂ (Alike ranges (before ++ ranges ++ after)) tokens
      (tokens.map (Token.moved before.length)) := by
  induction tokens with
  | nil => exact .nil
  | cons token tokens ih =>
    refine .cons ?_ (ih fun start stop negated member =>
      inside start stop negated (List.mem_cons_of_mem token member))
    cases token with
    | classRanges start stop negated =>
      have bound := inside start stop negated List.mem_cons_self
      refine ⟨before.length + start, before.length + stop, rfl, fun cp => ?_⟩
      have slice : classSlice (before ++ ranges ++ after) (before.length + start)
          (before.length + stop) = classSlice ranges start stop := by
        rw [classSlice, classSlice, List.append_assoc, List.take_length_add_append,
          List.take_append_of_le_length bound, List.drop_length_add_append]
      rw [slice]
    | _ => rfl

theorem compileSetLoop_laid {index previousStart : Nat} {sources : List (List Char)}
    {out out' : Output} {programs programs' : List SetProgram}
    (run : compileSetLoop mode index previousStart sources out programs = .ok (out', programs')) :
    ∃ tokens ranges added, out'.tokens = out.tokens ++ tokens ∧ out'.ranges = out.ranges ++ ranges ∧
      programs' = programs ++ added ∧ Slices out.ranges.length tokens out'.ranges.length ∧
      Proper ranges ∧ Laid mode out'.tokens out'.ranges out.tokens.length
        (out.tokens.drop previousStart) added sources := by
  induction sources generalizing index previousStart out programs with
  | nil =>
    cases run
    exact ⟨[], [], [], by simp, by simp, by simp, Nat.le_refl _, by simp [Proper], trivial⟩
  | cons source rest ih =>
    rw [compileSetLoop, parse_behind source out] at run
    rcases parsed : parse source mode {} with error | alone
    · rw [parsed] at run
      cases run
    · rw [parsed] at run
      obtain ⟨tokens, ranges, added, tokens_eq, ranges_eq, programs_eq, slices, proper, laid⟩ := ih run
      obtain ⟨-, own, properOwn⟩ := parse_spec parsed
      have moved : (out.behind alone).tokens.drop out.tokens.length =
          alone.tokens.map (Token.moved out.ranges.length) := List.drop_left' rfl
      have previous : ((out.behind alone).tokens.take out.tokens.length).drop previousStart =
          out.tokens.drop previousStart := congrArg _ (List.take_left' rfl)
      have slice : (out'.tokens.take (out.behind alone).tokens.length).drop out.tokens.length =
          alone.tokens.map (Token.moved out.ranges.length) := by
        rw [tokens_eq, List.take_left' rfl, moved]
      have table : out'.ranges = out.ranges ++ alone.ranges ++ ranges := ranges_eq
      rw [moved, previous] at programs_eq
      rw [moved] at laid
      refine ⟨alone.tokens.map (Token.moved out.ranges.length) ++ tokens, alone.ranges ++ ranges,
        ⟨(out.behind alone).tokens.length, commonPrefix (out.tokens.drop previousStart)
          (alone.tokens.map (Token.moved out.ranges.length))⟩ :: added, ?_, ?_, ?_, ?_, ?_, ?_⟩
      · rw [tokens_eq, ← List.append_assoc]
        rfl
      · rw [table, List.append_assoc]
      · rw [programs_eq, List.append_assoc]
        rfl
      · apply Slices.append _ slices
        simpa using own.moved out.ranges.length
      · intro range member
        rcases List.mem_append.mp member with inOwn | later
        · exact properOwn range inOwn
        · exact proper range later
      · refine ⟨⟨alone, parsed, ?_⟩, ?_, ?_⟩
        · dsimp only
          rw [slice, table]
          exact alike_moved fun start stop negated member => own.stop_le member
        · dsimp only
          rw [slice]
          exact commonPrefix_shares _ _
        · dsimp only
          rw [slice]
          exact laid

theorem alike_trans {ranges ranges' ranges'' : List Range} {tokens tokens' tokens'' : List Token}
    (first : List.Forall₂ (Alike ranges ranges') tokens tokens')
    (second : List.Forall₂ (Alike ranges' ranges'') tokens' tokens'') :
    List.Forall₂ (Alike ranges ranges'') tokens tokens'' := by
  induction first generalizing tokens'' with
  | nil =>
    cases second
    exact .nil
  | cons head _ ih =>
    cases second with
    | cons head' rest' => exact .cons (head.trans head') (ih rest')

theorem Laid.alike {tokens tokens' : List Token} {ranges ranges' : List Range}
    (alike : List.Forall₂ (Alike ranges ranges') tokens tokens') {start : Nat}
    {previous previous' : List Token} {programs : List SetProgram} {sources : List (List Char)}
    (before : List.Forall₂ (Alike ranges ranges') previous previous')
    (laid : Laid mode tokens ranges start previous programs sources) :
    Laid mode tokens' ranges' start previous' programs sources := by
  induction programs generalizing start previous previous' sources with
  | nil =>
    cases sources with
    | nil => trivial
    | cons => exact laid.elim
  | cons program programs ih =>
    cases sources with
    | nil => exact laid.elim
    | cons source sources =>
      obtain ⟨⟨alone, parsed, own⟩, shares, rest⟩ := laid
      have slice := List.forall₂_drop start (List.forall₂_take program.stop alike)
      refine ⟨⟨alone, parsed, ?_⟩, ⟨shares.1, ?_⟩, ih slice rest⟩
      · exact alike_trans own slice
      · intro index below
        rw [fixedAt_alike before, fixedAt_alike slice]
        exact shares.2 index below

theorem compileSet_spec {sources : List (List Char)} {set : CompiledGlobSet}
    (compiled : compileSet sources mode = .ok set) :
    set.mode = mode ∧ Tabled set.ranges set.tokens ∧
      Laid mode set.tokens set.ranges 0 [] set.programs sources := by
  rw [compileSet] at compiled
  rcases run : compileSetLoop mode 0 0 sources {} [] with error | ⟨out, programs⟩
  · rw [run] at compiled
    cases compiled
  · rw [run] at compiled
    cases compiled
    obtain ⟨tokens, ranges, added, tokens_eq, ranges_eq, programs_eq, slices, proper, laid⟩ :=
      compileSetLoop_laid run
    rw [List.nil_append] at tokens_eq ranges_eq programs_eq
    rw [← tokens_eq] at slices
    rw [← ranges_eq] at proper
    obtain ⟨-, -, normalized⟩ := normalize_spec rfl slices rfl rfl proper
    refine ⟨rfl, tabled_of_normalized normalized, ?_⟩
    rw [programs_eq]
    exact laid.alike (alike_of_normalized normalized) .nil

end Purrdf.Glob
