import Mathlib.Data.List.Basic

/-!
# The pattern language of globs

The token sequence a glob compiles to, and the inputs it matches, stated without a
matcher. Classes are read off the range table by membership, whatever its order.
-/

namespace Purrdf.Glob

/-- Whether slashes are ordinary text or path-component boundaries. -/
inductive Mode where
  | text
  | path
deriving DecidableEq, Repr

abbrev Range := UInt32 × UInt32

inductive Token where
  | literal (expected : Char)
  | separator
  | any
  | star
  | directories
  | tail
  | classRanges (start stop : Nat) (negated : Bool)
deriving DecidableEq, Repr

/-- Wildcards cannot cross a slash in path mode. -/
def Mode.permits (mode : Mode) (ch : Char) : Bool := mode == .text || ch != '/'

@[simp] theorem Mode.permits_text (ch : Char) : Mode.text.permits ch = true := rfl

@[simp] theorem Mode.permits_path (ch : Char) : Mode.path.permits ch = true ↔ ch ≠ '/' := by
  simp [Mode.permits]

def classSlice (ranges : List Range) (start stop : Nat) : List Range :=
  (ranges.take stop).drop start

def Member (cp : UInt32) (ranges : List Range) : Prop :=
  ∃ range ∈ ranges, range.1 ≤ cp ∧ cp ≤ range.2

def Token.Takes (mode : Mode) (ranges : List Range) : Token → Char → Prop
  | .literal expected, ch => ch = expected
  | .separator, ch => ch = '/'
  | .any, ch => mode.permits ch = true
  | .classRanges start stop negated, ch =>
    mode.permits ch = true ∧ (Member ch.val (classSlice ranges start stop) ↔ negated = false)
  | _, _ => False

/-- The inputs a token sequence matches as a whole. -/
inductive Matches (mode : Mode) (ranges : List Range) : List Token → List Char → Prop where
  | nil : Matches mode ranges [] []
  | scalar {token : Token} {tokens : List Token} {ch : Char} {input : List Char} :
      token.Takes mode ranges ch → Matches mode ranges tokens input →
        Matches mode ranges (token :: tokens) (ch :: input)
  | star {tokens : List Token} {run input : List Char} :
      (∀ ch ∈ run, mode.permits ch = true) → Matches mode ranges tokens input →
        Matches mode ranges (.star :: tokens) (run ++ input)
  | directories {tokens : List Token} {components : List (List Char)} {input : List Char} :
      (∀ component ∈ components, '/' ∉ component) → Matches mode ranges tokens input →
        Matches mode ranges (.directories :: tokens)
          (components.flatMap (fun component => component ++ ['/']) ++ input)
  | tail {input : List Char} : Matches mode ranges [.tail] input

section

variable {mode : Mode} {ranges : List Range} {tokens : List Token} {input : List Char}

@[simp] theorem matches_nil : Matches mode ranges [] input ↔ input = [] := by
  constructor
  · intro h
    cases h
    rfl
  · rintro rfl
    exact .nil

theorem matches_scalar {token : Token} (notStar : token ≠ .star)
    (notDirectories : token ≠ .directories) (notTail : token ≠ .tail) :
    Matches mode ranges (token :: tokens) input ↔
      ∃ ch rest, input = ch :: rest ∧ token.Takes mode ranges ch ∧
        Matches mode ranges tokens rest := by
  constructor
  · intro h
    cases h with
    | scalar takes rest => exact ⟨_, _, rfl, takes, rest⟩
    | star => exact absurd rfl notStar
    | directories => exact absurd rfl notDirectories
    | tail => exact absurd rfl notTail
  · rintro ⟨ch, rest, rfl, takes, h⟩
    exact .scalar takes h

theorem matches_star : Matches mode ranges (.star :: tokens) input ↔
    ∃ count ≤ input.length, (∀ ch ∈ input.take count, mode.permits ch = true) ∧
      Matches mode ranges tokens (input.drop count) := by
  constructor
  · intro h
    cases h with
    | scalar takes => exact takes.elim
    | @star _ run rest permitted h =>
      refine ⟨run.length, by simp, ?_, ?_⟩
      · rw [List.take_left']
        · exact permitted
        · rfl
      · rw [List.drop_left']
        · exact h
        · rfl
  · rintro ⟨count, -, permitted, h⟩
    rw [← List.take_append_drop count input]
    exact .star permitted h

def Boundary (input : List Char) (count : Nat) : Prop :=
  count = 0 ∨ ∃ before, count = before + 1 ∧ input[before]? = some '/'

theorem exists_components (consumed : List Char) (ends : consumed = [] ∨
    consumed.getLast? = some '/') : ∃ components : List (List Char),
      (∀ component ∈ components, '/' ∉ component) ∧
        components.flatMap (fun component => component ++ ['/']) = consumed := by
  suffices general : ∀ (consumed current : List Char), '/' ∉ current →
      (current ++ consumed = [] ∨ (current ++ consumed).getLast? = some '/') →
      ∃ components : List (List Char), (∀ component ∈ components, '/' ∉ component) ∧
        components.flatMap (fun component => component ++ ['/']) = current ++ consumed from
    general consumed [] (by simp) ends
  intro consumed
  induction consumed with
  | nil =>
    intro current free ends
    rw [List.append_nil] at ends ⊢
    rcases ends with rfl | last
    · exact ⟨[], by simp, rfl⟩
    · exact absurd (List.mem_of_getLast? last) free
  | cons ch consumed ih =>
    intro current free ends
    by_cases slash : ch = '/'
    · subst slash
      have ends' : ([] : List Char) ++ consumed = [] ∨
          (([] : List Char) ++ consumed).getLast? = some '/' := by
        rcases consumed with - | ⟨next, consumed⟩
        · exact Or.inl rfl
        · apply Or.inr
          rcases ends with none | last
          · simp at none
          · rw [List.getLast?_append] at last
            simpa using last
      obtain ⟨components, frees, same⟩ := ih [] (by simp) ends'
      refine ⟨current :: components, ?_, ?_⟩
      · intro component member
        rcases List.mem_cons.mp member with rfl | member
        · exact free
        · exact frees component member
      · rw [List.flatMap_cons, same]
        simp
    · obtain ⟨components, frees, same⟩ := ih (current ++ [ch])
        (by simp [free, Ne.symm slash]) (by simpa using ends)
      exact ⟨components, frees, by rw [same]; simp⟩

theorem matches_directories : Matches mode ranges (.directories :: tokens) input ↔
    ∃ count ≤ input.length, Boundary input count ∧
      Matches mode ranges tokens (input.drop count) := by
  constructor
  · intro h
    cases h with
    | scalar takes => exact takes.elim
    | @directories _ components rest frees h =>
      refine ⟨_, ?_, ?_, by rwa [List.drop_left']; rfl⟩
      · rw [List.length_append]
        omega
      · rcases List.eq_nil_or_concat components with rfl | ⟨first, last, rfl⟩
        · exact Or.inl rfl
        · apply Or.inr
          refine ⟨(first.flatMap fun component => component ++ ['/']).length + last.length, ?_, ?_⟩
          · simp
            omega
          · simp only [List.concat_eq_append, List.flatMap_append, List.flatMap_singleton,
              List.append_assoc]
            rw [List.getElem?_append_right (by omega), List.getElem?_append_right (by omega)]
            simp
  · rintro ⟨count, within, boundary, h⟩
    obtain ⟨components, frees, same⟩ := exists_components (input.take count) (by
      rcases boundary with rfl | ⟨before, rfl, slash⟩
      · exact Or.inl (by simp)
      · apply Or.inr
        rw [List.getLast?_eq_getElem?, List.length_take, Nat.min_eq_left within,
          Nat.add_sub_cancel, List.getElem?_take, if_pos (by omega)]
        exact slash)
    rw [← List.take_append_drop count input, ← same]
    exact .directories frees h

end

end Purrdf.Glob

/-!
## Compiling globs

The parser and the class normalization of a glob, and what a compiled token sequence is:
recursive components stand at component starts, no literal is a slash in path mode, and
each class owns a slice of the range table of its own.
-/

namespace Purrdf.Glob

inductive SyntaxReason where
  | trailingEscape
  | unclosedClass
  | emptyClass
  | reversedRange
  | braceAlternative
  | namedClass
deriving DecidableEq, Repr

structure CompileError where
  offset : Nat
  reason : SyntaxReason
deriving DecidableEq, Repr

structure Parser where
  offset : Nat
  rest : List Char
deriving DecidableEq, Repr

structure Output where
  tokens : List Token := []
  ranges : List Range := []
deriving DecidableEq, Repr

namespace Output

def token (out : Output) (token : Token) : Output := { out with tokens := out.tokens ++ [token] }

def range (out : Output) (range : Range) : Output := { out with ranges := out.ranges ++ [range] }

end Output

namespace Parser

def peek (parser : Parser) : Option Char := parser.rest.head?

def take (parser : Parser) : Option (Char × Parser) :=
  match parser.rest with
  | [] => none
  | ch :: rest => some (ch, ⟨parser.offset + ch.utf8Size, rest⟩)

def scalar (parser : Parser) : Except CompileError (Char × Parser) :=
  match parser.take with
  | none => .error ⟨parser.offset, .unclosedClass⟩
  | some (ch, next) =>
    if ch = '\\' then
      match next.take with
      | none => .error ⟨parser.offset, .trailingEscape⟩
      | some taken => .ok taken
    else .ok (ch, next)

/-- Take the stars that follow, and count them on top of `stars`. -/
def takeStars (parser : Parser) (stars : Nat) : Nat × Parser :=
  let run := parser.rest.takeWhile (· == '*')
  (stars + run.length, ⟨parser.offset + run.length, parser.rest.drop run.length⟩)

end Parser

/-- The last scalar of the class member that starts with `first`: `first` itself, unless a
range follows. A hyphen that is the first member starts no range. -/
def parseLast (leading : Bool) (first : Char) (parser : Parser) :
    Except CompileError (Char × Parser) :=
  if ¬(first = '-' ∧ leading) ∧ parser.peek = some '-' ∧
      parser.rest.tail.head? ≠ some ']' then
    match parser.take with
    | some (_, next) => next.scalar
    | none => .ok (first, parser)
  else .ok (first, parser)

def parseMember (firstMember : Nat) (parser : Parser) (out : Output) :
    Except CompileError (Parser × Output) := do
  let (first, next) ← parser.scalar
  let (last, next) ← parseLast (parser.offset == firstMember) first next
  if last < first then .error ⟨parser.offset, .reversedRange⟩
  else .ok (next, out.range (first.val, last.val))

/-- The member loop of a class opened at the offset `opened`. Each round takes a scalar,
so as many rounds as the pattern has scalars are enough. -/
def parseClass (opened firstMember : Nat) : Nat → Parser → Output →
    Except CompileError (Parser × Output)
  | 0, _, _ => .error ⟨opened, .unclosedClass⟩
  | rounds + 1, parser, out =>
    match parser.take with
    | none => .error ⟨opened, .unclosedClass⟩
    | some (ch, next) =>
      if ch = ']' then .ok (next, out)
      else if ch = '[' ∧ next.peek = some ':' then .error ⟨parser.offset, .namedClass⟩
      else do
        let (next, out) ← parseMember firstMember parser out
        parseClass opened firstMember rounds next out

structure ParseState where
  parser : Parser
  componentStart : Bool
  out : Output
deriving DecidableEq, Repr

/-- Whether the rest of a pattern ends its component, with a quoted slash or without. -/
def Parser.endsComponent (parser : Parser) : Bool :=
  parser.rest.isEmpty || parser.peek == some '/' || ['\\', '/'].isPrefixOf parser.rest

def parseStars (mode : Mode) (componentStart : Bool) (parser : Parser) (out : Output) :
    ParseState :=
  let (stars, parser) := parser.takeStars 1
  if mode = .path ∧ stars = 2 ∧ componentStart ∧ parser.endsComponent then
    match parser.take with
    | some (ch, next) =>
      let next := if ch = '\\' then (next.take.map Prod.snd).getD next else next
      ⟨next, true, out.token .directories⟩
    | none => ⟨parser, false, out.token .tail⟩
  else ⟨parser, false, out.token .star⟩

/-- A class opened at `opened`, whose bracket is taken. -/
def parseBracket (opened : Nat) (parser : Parser) (out : Output) :
    Except CompileError ParseState := do
  let negated := parser.peek = some '!' ∨ parser.peek = some '^'
  let parser := if negated then (parser.take.map Prod.snd).getD parser else parser
  let start := out.ranges.length
  let (parser, out) ← parseClass opened parser.offset parser.rest.length parser out
  let stop := out.ranges.length
  if start = stop then .error ⟨opened, .emptyClass⟩
  else .ok ⟨parser, false, out.token (.classRanges start stop negated)⟩

/-- One round of the parse loop, on a pattern whose next scalar is `ch`. -/
def parseToken (mode : Mode) (componentStart : Bool) (opened : Nat) (ch : Char) (parser : Parser)
    (out : Output) : Except CompileError ParseState :=
  if ch = '\\' then
    match parser.take with
    | none => .error ⟨opened, .trailingEscape⟩
    | some (literal, next) =>
      if mode = .path ∧ literal = '/' then .ok ⟨next, true, out.token .separator⟩
      else .ok ⟨next, false, out.token (.literal literal)⟩
  else if ch = '/' ∧ mode = .path then .ok ⟨parser, true, out.token .separator⟩
  else if ch = '*' then .ok (parseStars mode componentStart parser out)
  else if ch = '?' then .ok ⟨parser, false, out.token .any⟩
  else if ch = '[' then parseBracket opened parser out
  else if ch = '{' ∨ ch = '}' then .error ⟨opened, .braceAlternative⟩
  else .ok ⟨parser, false, out.token (.literal ch)⟩

/-- The parse loop. Each round takes a scalar, so as many rounds as the pattern has
scalars are enough. -/
def parseLoop (mode : Mode) : Nat → ParseState → Except CompileError Output
  | 0, state => .ok state.out
  | rounds + 1, state =>
    match state.parser.take with
    | none => .ok state.out
    | some (ch, next) => do
        let state ← parseToken mode state.componentStart state.parser.offset ch next state.out
        parseLoop mode rounds state

def parse (source : List Char) (mode : Mode) (out : Output) : Except CompileError Output :=
  parseLoop mode source.length ⟨⟨0, source⟩, true, out⟩

/-! ### Normalization -/

/-- The order `sort_unstable` sorts ranges in. -/
def rangeLe (left right : Range) : Bool :=
  left.1 < right.1 || (left.1 == right.1 && left.2 ≤ right.2)

def saturatingSucc (value : UInt32) : UInt32 := if value = 4294967295 then value else value + 1

/-- The merge pass over sorted ranges; the ranges already kept are newest first. -/
def mergeRanges : List Range → List Range → List Range
  | kept, [] => kept.reverse
  | [], range :: rest => mergeRanges [range] rest
  | previous :: kept, range :: rest =>
    if range.1 ≤ saturatingSucc previous.2 then
      mergeRanges ((previous.1, max previous.2 range.2) :: kept) rest
    else mergeRanges (range :: previous :: kept) rest

/-- Sort and merge the ranges of one class in place. The slots behind the kept ranges hold
what the sort left there. -/
def normalizeClass (ranges : List Range) (start stop : Nat) : List Range × Nat :=
  let sorted := (classSlice ranges start stop).mergeSort rangeLe
  let kept := mergeRanges [] sorted
  (ranges.take start ++ (kept ++ sorted.drop kept.length) ++ ranges.drop stop, kept.length)

def normalize : List Token → List Range → List Token × List Range
  | [], ranges => ([], ranges)
  | .classRanges start stop negated :: tokens, ranges =>
    let (ranges, kept) := normalizeClass ranges start stop
    let (tokens, ranges) := normalize tokens ranges
    (.classRanges start (start + kept) negated :: tokens, ranges)
  | token :: tokens, ranges =>
    let (tokens, ranges) := normalize tokens ranges
    (token :: tokens, ranges)

structure CompiledGlob where
  tokens : List Token
  ranges : List Range
  mode : Mode
deriving DecidableEq, Repr

def compile (source : List Char) (mode : Mode) : Except CompileError CompiledGlob := do
  let out ← parse source mode {}
  let (tokens, ranges) := normalize out.tokens out.ranges
  pure ⟨tokens, ranges, mode⟩

/-- The range test of the shared table home: a binary search over the window. -/
def inRangesLoop (cp : UInt32) (ranges : List Range) : Nat → Nat → Nat → Bool
  | 0, _, _ => false
  | rounds + 1, lo, hi =>
    if lo < hi then
      let mid := lo + (hi - lo) / 2
      let range := ranges.getD mid (0, 0)
      if cp < range.1 then inRangesLoop cp ranges rounds lo mid
      else if range.2 < cp then inRangesLoop cp ranges rounds (mid + 1) hi
      else true
    else false

/-- Each round of the search halves its window, so as many rounds as there are ranges are
enough. -/
def inRanges (cp : UInt32) (ranges : List Range) : Bool :=
  inRangesLoop cp ranges ranges.length 0 ranges.length

end Purrdf.Glob
