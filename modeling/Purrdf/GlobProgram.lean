import Mathlib.Algebra.GroupWithZero.Nat
import Purrdf.GlobCompile

/-!
# Compiled token sequences

What the parser guarantees of the tokens and ranges it emits, and that normalization
changes neither the matched language nor the place of a class in the range table.
-/

namespace Purrdf.Glob

def Program (mode : Mode) : Bool → List Token → Prop
  | _, [] => True
  | _, .literal expected :: tokens => mode.permits expected = true ∧ Program mode false tokens
  | _, .separator :: tokens => mode = .path ∧ Program mode true tokens
  | _, .any :: tokens => Program mode false tokens
  | _, .star :: tokens => Program mode false tokens
  | _, .classRanges _ _ _ :: tokens => Program mode false tokens
  | componentStart, .directories :: tokens =>
    componentStart = true ∧ mode = .path ∧ Program mode true tokens
  | _, .tail :: tokens => mode = .path ∧ tokens = []

/-- The classes own consecutive slices of the range table between two indexes. -/
def Slices : Nat → List Token → Nat → Prop
  | lower, [], upper => lower ≤ upper
  | lower, .classRanges start stop _ :: tokens, upper =>
    lower ≤ start ∧ start < stop ∧ Slices stop tokens upper
  | lower, _ :: tokens, upper => Slices lower tokens upper

theorem Slices.le {lower upper : Nat} {tokens : List Token} (h : Slices lower tokens upper) :
    lower ≤ upper := by
  induction tokens generalizing lower with
  | nil => exact h
  | cons token tokens ih =>
    cases token with
    | classRanges start stop negated =>
      obtain ⟨below, proper, rest⟩ := h
      have := ih rest
      omega
    | _ => exact ih h

/-! ### What a round of the parser emits -/

def Emitted (mode : Mode) (componentStart : Bool) : Token → Bool → List Char → Prop
  | .literal expected, next, _ => next = false ∧ mode.permits expected = true
  | .separator, next, _ => next = true ∧ mode = .path
  | .any, next, _ => next = false
  | .star, next, _ => next = false
  | .classRanges _ _ _, next, _ => next = false
  | .directories, next, _ => componentStart = true ∧ next = true ∧ mode = .path
  | .tail, _, rest => rest = [] ∧ mode = .path

/-- A class takes the ranges its parse added, and other tokens add none. -/
def Sliced : Token → List Range → List Range → Prop
  | .classRanges start stop _, before, after => start = before.length ∧ stop = after.length ∧
      start < stop
  | _, before, after => before = after

def Proper (ranges : List Range) : Prop := ∀ range ∈ ranges, range.1 ≤ range.2

structure Output.Extends (before after : Output) : Prop where
  tokens : after.tokens = before.tokens
  ranges : ∃ added, after.ranges = before.ranges ++ added ∧ Proper added

theorem Output.Extends.refl (out : Output) : out.Extends out :=
  ⟨rfl, [], by simp, by simp [Proper]⟩

theorem Output.Extends.trans {first second third : Output} (h : first.Extends second)
    (h' : second.Extends third) : first.Extends third := by
  obtain ⟨tokens, added, ranges, proper⟩ := h
  obtain ⟨tokens', added', ranges', proper'⟩ := h'
  refine ⟨tokens'.trans tokens, added ++ added', by rw [ranges', ranges, List.append_assoc], ?_⟩
  intro range member
  rcases List.mem_append.mp member with member | member
  · exact proper range member
  · exact proper' range member

variable {parser next : Parser} {mode : Mode}

theorem Parser.take_rest {ch : Char} (h : parser.take = some (ch, next)) :
    parser.rest = ch :: next.rest := by
  obtain ⟨offset, rest⟩ := parser
  cases rest with
  | nil => cases h
  | cons first rest =>
    cases h
    rfl

theorem Parser.scalar_rest {ch : Char} (h : parser.scalar = .ok (ch, next)) :
    next.rest.length < parser.rest.length := by
  rw [Parser.scalar] at h
  rcases taken : parser.take with - | ⟨first, after⟩
  · rw [taken] at h
    cases h
  · have rest := Parser.take_rest taken
    rw [taken] at h
    dsimp only at h
    split at h
    · rcases quoted : after.take with - | ⟨second, last⟩
      · rw [quoted] at h
        cases h
      · have rest' := Parser.take_rest quoted
        rw [quoted] at h
        cases h
        rw [rest, rest']
        simp only [List.length_cons]
        omega
    · cases h
      rw [rest]
      simp

theorem parseLast_rest {leading : Bool} {first last : Char}
    (h : parseLast leading first parser = .ok (last, next)) :
    next.rest.length ≤ parser.rest.length := by
  rw [parseLast] at h
  split at h
  · split at h
    · rename_i ch dash taken
      have rest := Parser.take_rest taken
      have := Parser.scalar_rest h
      rw [rest, List.length_cons]
      omega
    · cases h
      exact Nat.le_refl _
  · cases h
    exact Nat.le_refl _

theorem parseMember_spec {firstMember : Nat} {out out' : Output}
    (h : parseMember firstMember parser out = .ok (next, out')) :
    out.Extends out' ∧ next.rest.length < parser.rest.length := by
  simp only [parseMember, bind, Except.bind] at h
  rcases scalar : parser.scalar with error | ⟨first, after⟩
  · rw [scalar] at h
    cases h
  · have shorter := Parser.scalar_rest scalar
    rw [scalar] at h
    dsimp only at h
    rcases range : parseLast (parser.offset == firstMember) first after with error | ⟨last, final⟩
    · rw [range] at h
      cases h
    · have shorter' := parseLast_rest range
      rw [range] at h
      dsimp only at h
      split at h
      · cases h
      · rename_i ordered
        cases h
        refine ⟨⟨rfl, [(first.val, last.val)], rfl, ?_⟩, by omega⟩
        intro range member
        rw [List.mem_singleton.mp member]
        exact UInt32.not_lt.mp ordered

theorem parseClass_spec {opened firstMember rounds : Nat} {out out' : Output}
    (h : parseClass opened firstMember rounds parser out = .ok (next, out')) :
    out.Extends out' ∧ next.rest.length < parser.rest.length := by
  induction rounds generalizing parser out with
  | zero => cases h
  | succ rounds ih =>
    rw [parseClass] at h
    rcases taken : parser.take with - | ⟨ch, after⟩
    · rw [taken] at h
      cases h
    · have rest := Parser.take_rest taken
      rw [taken] at h
      dsimp only at h
      split at h
      · cases h
        refine ⟨.refl _, ?_⟩
        rw [rest]
        simp
      · split at h
        · cases h
        · simp only [bind, Except.bind] at h
          split at h
          · cases h
          · rename_i pair member
            obtain ⟨extends', shorter⟩ := parseMember_spec member
            obtain ⟨extends'', shorter'⟩ := ih h
            exact ⟨extends'.trans extends'', by omega⟩

structure Round (mode : Mode) (componentStart : Bool) (parser : Parser) (out : Output)
    (state : ParseState) (token : Token) : Prop where
  tokens : state.out.tokens = out.tokens ++ [token]
  emitted : Emitted mode componentStart token state.componentStart state.parser.rest
  sliced : Sliced token out.ranges state.out.ranges
  ranges : ∃ added, state.out.ranges = out.ranges ++ added ∧ Proper added
  shorter : state.parser.rest.length ≤ parser.rest.length

theorem Round.of_token {componentStart next : Bool} {out : Output} {parser after : Parser}
    {token : Token} (emitted : Emitted mode componentStart token next after.rest)
    (sliced : Sliced token out.ranges out.ranges)
    (shorter : after.rest.length ≤ parser.rest.length) :
    Round mode componentStart parser out ⟨after, next, out.token token⟩ token :=
  ⟨rfl, emitted, sliced, ⟨[], by simp [Output.token], by simp [Proper]⟩, shorter⟩

theorem Parser.skip_rest (parser : Parser) :
    ((parser.take.map Prod.snd).getD parser).rest.length ≤ parser.rest.length := by
  rcases taken : parser.take with - | ⟨ch, next⟩
  · exact Nat.le_refl _
  · rw [Parser.take_rest taken, List.length_cons]
    exact Nat.le_succ _

theorem parseStars_spec (mode : Mode) (componentStart : Bool) (parser : Parser) (out : Output) :
    ∃ token, Round mode componentStart parser out (parseStars mode componentStart parser out)
      token := by
  have shorter : (parser.takeStars 1).2.rest.length ≤ parser.rest.length := by
    rw [Parser.takeStars, List.length_drop]
    exact Nat.sub_le _ _
  rw [parseStars]
  generalize parser.takeStars 1 = taken at shorter ⊢
  obtain ⟨stars, after⟩ := taken
  dsimp only at shorter ⊢
  split
  · rename_i whole
    obtain ⟨path, -, start, -⟩ := whole
    split
    · rename_i ch next taken
      have rest := Parser.take_rest taken
      rw [rest, List.length_cons] at shorter
      refine ⟨.directories, .of_token ⟨start, rfl, path⟩ rfl ?_⟩
      split
      · have := next.skip_rest
        omega
      · omega
    · rename_i none
      refine ⟨.tail, .of_token ⟨?_, path⟩ rfl shorter⟩
      rcases rest : after.rest with - | ⟨ch, rest⟩
      · rfl
      · rw [Parser.take, rest] at none
        cases none
  · exact ⟨.star, .of_token rfl rfl shorter⟩

theorem parseBracket_spec {componentStart : Bool} {opened : Nat} {parser : Parser} {out : Output}
    {state : ParseState} (h : parseBracket opened parser out = .ok state) :
    ∃ token, Round mode componentStart parser out state token := by
  simp only [parseBracket, bind, Except.bind] at h
  split at h
  · cases h
  · rename_i pair members
    obtain ⟨⟨tokens, added, ranges, proper⟩, shorter⟩ := parseClass_spec members
    split at h
    · cases h
    · rename_i nonempty
      cases h
      apply Exists.intro (.classRanges out.ranges.length pair.2.ranges.length _)
      constructor
      · rw [Output.token, tokens]
      · rfl
      · refine ⟨rfl, rfl, ?_⟩
        rw [ranges, List.length_append] at nonempty ⊢
        omega
      · exact ⟨added, ranges, proper⟩
      · apply Nat.le_trans (Nat.le_of_lt shorter)
        split
        · exact parser.skip_rest
        · exact Nat.le_refl _

theorem parseToken_spec {componentStart : Bool} {opened : Nat} {ch : Char} {parser : Parser}
    {out : Output} {state : ParseState}
    (h : parseToken mode componentStart opened ch parser out = .ok state) :
    ∃ token, Round mode componentStart parser out state token := by
  have permitted : ∀ literal : Char, ¬(mode = .path ∧ literal = '/') →
      mode.permits literal = true := by
    intro literal other
    cases mode
    · exact Mode.permits_text literal
    · exact (Mode.permits_path literal).mpr fun slash => other ⟨rfl, slash⟩
  rw [parseToken] at h
  split at h
  · split at h
    · cases h
    · rename_i literal next taken
      have shorter : next.rest.length ≤ parser.rest.length := by
        rw [Parser.take_rest taken, List.length_cons]
        exact Nat.le_succ _
      split at h
      · rename_i slash
        cases h
        exact ⟨.separator, .of_token ⟨rfl, slash.1⟩ rfl shorter⟩
      · rename_i other
        cases h
        exact ⟨.literal _, .of_token ⟨rfl, permitted _ other⟩ rfl shorter⟩
  split at h
  · rename_i slash
    cases h
    exact ⟨.separator, .of_token ⟨rfl, slash.2⟩ rfl (Nat.le_refl _)⟩
  rename_i other
  split at h
  · cases h
    exact parseStars_spec mode componentStart parser out
  split at h
  · cases h
    exact ⟨.any, .of_token rfl rfl (Nat.le_refl _)⟩
  split at h
  · exact parseBracket_spec h
  split at h
  · cases h
  · cases h
    exact ⟨.literal ch,
      .of_token ⟨rfl, permitted ch fun both => other both.symm⟩ rfl (Nat.le_refl _)⟩

theorem parseClass_enough {opened firstMember rounds : Nat} {parser : Parser} (out : Output)
    (enough : parser.rest.length ≤ rounds) :
    parseClass opened firstMember (rounds + 1) parser out =
      parseClass opened firstMember rounds parser out := by
  induction rounds generalizing parser out with
  | zero =>
    have empty := List.eq_nil_of_length_eq_zero (Nat.le_zero.mp enough)
    rw [parseClass, parseClass, Parser.take, empty]
  | succ rounds ih =>
    rw [parseClass, parseClass]
    rcases parser.take with - | ⟨ch, after⟩
    · rfl
    · dsimp only
      split
      · rfl
      · split
        · rfl
        · rcases member : parseMember firstMember parser out with error | ⟨next, out'⟩
          · rfl
          · have shorter := (parseMember_spec member).2
            exact ih out' (Nat.le_of_lt_succ (Nat.lt_of_lt_of_le shorter enough))

theorem parseLoop_enough {rounds : Nat} {state : ParseState}
    (enough : state.parser.rest.length ≤ rounds) :
    parseLoop mode (rounds + 1) state = parseLoop mode rounds state := by
  induction rounds generalizing state with
  | zero =>
    have empty := List.eq_nil_of_length_eq_zero (Nat.le_zero.mp enough)
    rw [parseLoop, parseLoop, Parser.take, empty]
  | succ rounds ih =>
    rw [parseLoop, parseLoop]
    rcases taken : state.parser.take with - | ⟨ch, after⟩
    · rfl
    · rcases run : parseToken mode state.componentStart state.parser.offset ch after state.out with
        error | next
      · dsimp only
        rw [run]
        rfl
      · obtain ⟨token, round⟩ := parseToken_spec run
        have rest := Parser.take_rest taken
        have shorter := round.shorter
        rw [rest, List.length_cons] at enough
        dsimp only
        rw [run]
        exact ih (by omega)

theorem Slices.cons {token : Token} {tokens : List Token} {before after : List Range} {upper : Nat}
    (sliced : Sliced token before after) (rest : Slices after.length tokens upper) :
    Slices before.length (token :: tokens) upper := by
  cases token with
  | classRanges start stop negated =>
    obtain ⟨rfl, rfl, proper⟩ := sliced
    exact ⟨Nat.le_refl _, proper, rest⟩
  | _ =>
    have same : before = after := sliced
    rw [same]
    exact rest

theorem parseLoop_spec {rounds : Nat} {state : ParseState} {out : Output}
    (h : parseLoop mode rounds state = .ok out) :
    ∃ tokens added, out.tokens = state.out.tokens ++ tokens ∧
      out.ranges = state.out.ranges ++ added ∧ Proper added ∧
      Program mode state.componentStart tokens ∧
      Slices state.out.ranges.length tokens out.ranges.length := by
  induction rounds generalizing state with
  | zero =>
    cases h
    exact ⟨[], [], by simp, by simp, by simp [Proper], trivial, Nat.le_refl _⟩
  | succ rounds ih =>
    rw [parseLoop] at h
    split at h
    · cases h
      exact ⟨[], [], by simp, by simp, by simp [Proper], trivial, Nat.le_refl _⟩
    · simp only [bind, Except.bind] at h
      split at h
      · cases h
      · rename_i next run
        obtain ⟨token, tokens, emitted, sliced, ⟨added, ranges, proper⟩, -⟩ := parseToken_spec run
        obtain ⟨tokens', added', tokens_eq, ranges_eq, proper', program, slices⟩ := ih h
        refine ⟨token :: tokens', added ++ added', ?_, ?_, ?_, ?_, .cons sliced slices⟩
        · rw [tokens_eq, tokens, List.append_assoc]
          rfl
        · rw [ranges_eq, ranges, List.append_assoc]
        · intro range member
          rcases List.mem_append.mp member with member | member
          · exact proper range member
          · exact proper' range member
        · cases token with
          | literal expected =>
            rw [emitted.1] at program
            exact ⟨emitted.2, program⟩
          | separator =>
            rw [emitted.1] at program
            exact ⟨emitted.2, program⟩
          | directories =>
            rw [emitted.2.1] at program
            exact ⟨emitted.1, emitted.2.2, program⟩
          | tail =>
            refine ⟨emitted.2, ?_⟩
            -- Nothing is left to parse behind a final recursive component.
            have done : parseLoop mode rounds next = .ok next.out := by
              cases rounds with
              | zero => rfl
              | succ rounds => rw [parseLoop, Parser.take, emitted.1]
            rw [done] at h
            cases h
            exact (List.append_right_eq_self.mp tokens_eq.symm)
          | _ =>
            rw [Emitted] at emitted
            rw [emitted] at program
            exact program

theorem parse_spec {source : List Char} {out : Output} (h : parse source mode {} = .ok out) :
    Program mode true out.tokens ∧ Slices 0 out.tokens out.ranges.length ∧ Proper out.ranges := by
  obtain ⟨tokens, added, tokens_eq, ranges_eq, proper, program, slices⟩ := parseLoop_spec h
  rw [List.nil_append] at tokens_eq ranges_eq
  rw [← tokens_eq] at program slices
  rw [← ranges_eq] at proper
  exact ⟨program, slices, proper⟩

end Purrdf.Glob
