import Mathlib.Data.Prod.Lex
import Mathlib.Order.WellFounded
import Purrdf.GlobExecute

/-!
# The matcher decides the language

The two retries hold every alternative that can still succeed. A star that is dropped at a
separator could only have moved the separator off its slash, and a recursive component
that is dropped at the next one is subsumed by it, since the component count between them
is fixed.
-/

namespace Purrdf.Glob

def Token.single : Token → Bool
  | .literal _ | .any | .classRanges _ _ _ => true
  | _ => false

section

variable {mode : Mode} {ranges : List Range} {tokens : List Token} {input : List Char}

/-! ### The language by positions -/

/-- The tokens from `token` on match the input from `position` on. -/
def Here (mode : Mode) (ranges : List Range) (tokens : List Token) (input : List Char)
    (token position : Nat) : Prop :=
  Matches mode ranges (tokens.drop token) (input.drop position)

/-- Wildcards may take the scalars from `start` to `stop`. -/
def Free (mode : Mode) (input : List Char) (start stop : Nat) : Prop :=
  ∀ (index : Nat) (ch : Char), start ≤ index → index < stop → input[index]? = some ch →
    mode.permits ch = true

theorem free_iff {start count : Nat} : Free mode input start (start + count) ↔
    ∀ ch ∈ (input.drop start).take count, mode.permits ch = true := by
  constructor
  · intro free ch member
    obtain ⟨index, at_index⟩ := List.mem_iff_getElem?.mp member
    rw [List.getElem?_take] at at_index
    split at at_index
    · rename_i below
      rw [List.getElem?_drop] at at_index
      exact free (start + index) ch (by omega) (by omega) at_index
    · cases at_index
  · intro permitted index ch lower upper at_index
    apply permitted ch
    apply List.mem_iff_getElem?.mpr
    refine ⟨index - start, ?_⟩
    rw [List.getElem?_take, if_pos (by omega), List.getElem?_drop, Nat.add_sub_cancel' lower]
    exact at_index

theorem drop_cons {α : Type} {list : List α} {index : Nat} {value : α}
    (h : list[index]? = some value) : list.drop index = value :: list.drop (index + 1) := by
  obtain ⟨bound, rfl⟩ := List.getElem?_eq_some_iff.mp h
  exact List.drop_eq_getElem_cons bound

theorem here_end {token position : Nat} (finished : tokens[token]? = none) :
    Here mode ranges tokens input token position ↔ input[position]? = none := by
  rw [Here, List.drop_eq_nil_of_le (List.getElem?_eq_none_iff.mp finished), matches_nil,
    List.drop_eq_nil_iff, List.getElem?_eq_none_iff]

theorem here_scalar {token position : Nat} {at_token : Token} (h : tokens[token]? = some at_token)
    (kind : at_token.single = true ∨ at_token = .separator) :
    Here mode ranges tokens input token position ↔ ∃ ch, input[position]? = some ch ∧
      at_token.Takes mode ranges ch ∧ Here mode ranges tokens input (token + 1) (position + 1) := by
  have kinds : at_token ≠ .star ∧ at_token ≠ .directories ∧ at_token ≠ .tail := by
    rcases kind with single | rfl
    · cases at_token with
      | star => cases single
      | directories => cases single
      | tail => cases single
      | _ => exact ⟨nofun, nofun, nofun⟩
    · exact ⟨nofun, nofun, nofun⟩
  rw [Here, drop_cons h, matches_scalar kinds.1 kinds.2.1 kinds.2.2]
  constructor
  · intro ⟨ch, rest, same, takes, matched⟩
    have first : input[position]? = some ch := by
      have head : (input.drop position)[0]? = some ch := by rw [same]; rfl
      rw [List.getElem?_drop] at head
      exact head
    rw [drop_cons first] at same
    cases same
    exact ⟨ch, first, takes, matched⟩
  · intro ⟨ch, first, takes, matched⟩
    exact ⟨ch, _, drop_cons first, takes, matched⟩

theorem here_star {token position : Nat} (h : tokens[token]? = some .star)
    (within : position ≤ input.length) :
    Here mode ranges tokens input token position ↔ ∃ stop, position ≤ stop ∧ stop ≤ input.length ∧
      Free mode input position stop ∧ Here mode ranges tokens input (token + 1) stop := by
  rw [Here, drop_cons h, matches_star, List.length_drop]
  constructor
  · intro ⟨count, bound, permitted, matched⟩
    refine ⟨position + count, by omega, by omega, free_iff.mpr permitted, ?_⟩
    rw [List.drop_drop] at matched
    exact matched
  · intro ⟨stop, lower, upper, free, matched⟩
    obtain ⟨count, rfl⟩ := Nat.exists_eq_add_of_le lower
    refine ⟨count, by omega, free_iff.mp free, ?_⟩
    rw [List.drop_drop]
    exact matched

theorem here_directories {token position : Nat} (h : tokens[token]? = some .directories)
    (within : position ≤ input.length) :
    Here mode ranges tokens input token position ↔
      Here mode ranges tokens input (token + 1) position ∨ ∃ before, position ≤ before ∧
        input[before]? = some '/' ∧ Here mode ranges tokens input (token + 1) (before + 1) := by
  rw [Here, drop_cons h, matches_directories, List.length_drop]
  constructor
  · intro ⟨count, bound, boundary, matched⟩
    rw [List.drop_drop] at matched
    rcases boundary with rfl | ⟨before, rfl, slash⟩
    · exact Or.inl matched
    · rw [List.getElem?_drop] at slash
      exact Or.inr ⟨position + before, by omega, slash, matched⟩
  · intro alternatives
    rcases alternatives with matched | ⟨before, lower, slash, matched⟩
    · exact ⟨0, Nat.zero_le _, Or.inl rfl, matched⟩
    · obtain ⟨count, rfl⟩ := Nat.exists_eq_add_of_le lower
      obtain ⟨bound, -⟩ := List.getElem?_eq_some_iff.mp slash
      refine ⟨count + 1, by omega, Or.inr ⟨count, rfl, ?_⟩, ?_⟩
      · rw [List.getElem?_drop]
        exact slash
      · rw [List.drop_drop]
        exact matched

theorem here_tail {token position : Nat} (h : tokens[token]? = some .tail)
    (final : token + 1 = tokens.length) : Here mode ranges tokens input token position := by
  rw [Here, drop_cons h, List.drop_eq_nil_of_le (by omega)]
  exact .tail

/-! ### What a program says of a token by its place -/

variable {componentStart : Bool} {retry : Retry} {token : Token} {ch : Char}

theorem Program.rest {first : Token} (program : Program mode componentStart (first :: tokens)) :
    first = .tail ∧ tokens = [] ∨
      Program mode (decide (first = .separator ∨ first = .directories)) tokens := by
  cases first with
  | literal expected => exact Or.inr program.2
  | separator => exact Or.inr program.2
  | directories => exact Or.inr program.2.2
  | tail => exact Or.inl ⟨rfl, program.2⟩
  | any => exact Or.inr program
  | star => exact Or.inr program
  | classRanges start stop negated => exact Or.inr program

theorem Program.tail_final (program : Program mode componentStart tokens) {token : Nat}
    (h : tokens[token]? = some .tail) : token + 1 = tokens.length := by
  induction tokens generalizing componentStart token with
  | nil => cases h
  | cons first rest ih =>
    cases token with
    | zero =>
      cases h
      rw [program.2]
      rfl
    | succ token =>
      rw [List.getElem?_cons_succ] at h
      rcases program.rest with ⟨-, rfl⟩ | program'
      · cases h
      · rw [List.length_cons, ih program' h]

def ComponentStartAt (tokens : List Token) (first : Bool) (token : Nat) : Prop :=
  (token = 0 ∧ first = true) ∨ ∃ before, token = before + 1 ∧
    (tokens[before]? = some .separator ∨ tokens[before]? = some .directories)

theorem Program.directories_start (program : Program mode componentStart tokens) {token : Nat}
    (h : tokens[token]? = some .directories) :
    mode = .path ∧ ComponentStartAt tokens componentStart token := by
  induction tokens generalizing componentStart token with
  | nil => cases h
  | cons first rest ih =>
    cases token with
    | zero =>
      cases h
      exact ⟨program.2.1, Or.inl ⟨rfl, program.1⟩⟩
    | succ token =>
      rw [List.getElem?_cons_succ] at h
      rcases program.rest with ⟨-, rfl⟩ | program'
      · cases h
      · obtain ⟨path, start⟩ := ih program' h
        refine ⟨path, Or.inr ?_⟩
        rcases start with ⟨rfl, kind⟩ | ⟨before, rfl, kind⟩
        · exact ⟨0, rfl, by simpa using kind⟩
        · exact ⟨before + 1, rfl, kind⟩

theorem Program.mem (program : Program mode componentStart tokens) (member : token ∈ tokens) :
    (token = .separator → mode = .path) ∧
      ∀ expected, token = .literal expected → mode.permits expected = true := by
  induction tokens generalizing componentStart with
  | nil => cases member
  | cons first rest ih =>
    rcases List.mem_cons.mp member with rfl | later
    · cases token with
      | literal expected =>
        refine ⟨by simp, ?_⟩
        intro other same
        cases same
        exact program.1
      | separator => exact ⟨fun _ => program.1, by simp⟩
      | _ => simp
    · rcases program.rest with ⟨-, rfl⟩ | program'
      · cases later
      · exact ih program' later

theorem single_permits (program : Program mode componentStart tokens) (member : token ∈ tokens)
    (single : token.single = true) (takes : token.Takes mode ranges ch) :
    mode.permits ch = true := by
  cases token with
  | literal expected =>
    have same : ch = expected := takes
    rw [same]
    exact (program.mem member).2 expected rfl
  | any => exact takes
  | classRanges start stop negated => exact takes.1
  | separator => cases single
  | star => cases single
  | directories => cases single
  | tail => cases single

/-! ### Runs between two tokens -/

/-- The tokens from `first` to `last` take one scalar each. -/
def Singles (tokens : List Token) (first last : Nat) : Prop :=
  ∀ index, first ≤ index → index < last → ∃ token, tokens[index]? = some token ∧
    token.single = true

theorem Singles.run (program : Program mode componentStart tokens) {first count position : Nat}
    (singles : Singles tokens first (first + count))
    (h : Here mode ranges tokens input first position) (within : position ≤ input.length) :
    position + count ≤ input.length ∧ Free mode input position (position + count) ∧
      Here mode ranges tokens input (first + count) (position + count) := by
  induction count with
  | zero =>
    refine ⟨within, ?_, h⟩
    intro index ch lower upper
    omega
  | succ count ih =>
    obtain ⟨fits, free, here⟩ := ih fun index lower upper => singles index lower (by omega)
    obtain ⟨token, at_token, single⟩ := singles (first + count) (by omega) (by omega)
    obtain ⟨ch, at_ch, takes, here'⟩ := (here_scalar at_token (Or.inl single)).mp here
    obtain ⟨bound, -⟩ := List.getElem?_eq_some_iff.mp at_ch
    refine ⟨by omega, ?_, here'⟩
    intro index other lower upper at_index
    rcases Nat.lt_or_ge index (position + count) with below | same
    · exact free index other lower below at_index
    · have last : index = position + count := by omega
      rw [last, at_ch] at at_index
      cases at_index
      exact single_permits program (List.mem_of_getElem? at_token) single takes

def slashes (input : List Char) (position : Nat) : Nat := (input.take position).count '/'

def separators (tokens : List Token) (token : Nat) : Nat :=
  (tokens.take token).count .separator

theorem slashes_succ {position : Nat} (h : input[position]? = some ch) :
    slashes input (position + 1) = slashes input position + if ch = '/' then 1 else 0 := by
  rw [slashes, List.take_add_one, h, List.count_append, slashes]
  by_cases slash : ch = '/'
  · simp [slash]
  · simp [slash]

theorem separators_succ {index : Nat} (h : tokens[index]? = some token) :
    separators tokens (index + 1) =
      separators tokens index + if token = .separator then 1 else 0 := by
  rw [separators, List.take_add_one, h, List.count_append, separators]
  by_cases separator : token = .separator
  · simp [separator]
  · simp [separator]

theorem slashes_mono (input : List Char) {first last : Nat} (order : first ≤ last) :
    slashes input first ≤ slashes input last :=
  ((List.take_prefix_take_left (l := input) order).sublist).count_le _

theorem slashes_free {first count : Nat} (free : Free .path input first (first + count)) :
    slashes input (first + count) = slashes input first := by
  induction count with
  | zero => rfl
  | succ count ih =>
    have rest := ih fun index ch lower upper => free index ch lower (by omega)
    rcases at_last : input[first + count]? with - | ch
    · rw [← rest, slashes, slashes, List.take_of_length_le, List.take_of_length_le]
      · exact List.getElem?_eq_none_iff.mp at_last
      · have := List.getElem?_eq_none_iff.mp at_last
        omega
    · have other := free (first + count) ch (by omega) (by omega) at_last
      rw [Mode.permits_path] at other
      rw [← Nat.add_assoc, slashes_succ at_last, if_neg other, rest, Nat.add_zero]

theorem separators_singles {first count : Nat} (singles : Singles tokens first (first + count)) :
    separators tokens (first + count) = separators tokens first := by
  induction count with
  | zero => rfl
  | succ count ih =>
    have rest := ih fun index lower upper => singles index lower (by omega)
    obtain ⟨token, at_token, single⟩ := singles (first + count) (by omega) (by omega)
    have other : token ≠ .separator := by
      rintro rfl
      cases single
    rw [← Nat.add_assoc, separators_succ at_token, if_neg other, rest, Nat.add_zero]

/-- No token from `first` to `last` can take whole components. -/
def Plain (tokens : List Token) (first last : Nat) : Prop :=
  ∀ index, first ≤ index → index < last → ∃ token, tokens[index]? = some token ∧
    (token.single = true ∨ token = .separator ∨ token = .star)

theorem Plain.run (program : Program .path componentStart tokens) {first count position : Nat}
    (plain : Plain tokens first (first + count))
    (h : Here .path ranges tokens input first position) (within : position ≤ input.length) :
    ∃ stop, position ≤ stop ∧ stop ≤ input.length ∧
      Here .path ranges tokens input (first + count) stop ∧
      slashes input stop + separators tokens first =
        slashes input position + separators tokens (first + count) := by
  induction count with
  | zero => exact ⟨position, Nat.le_refl _, within, h, rfl⟩
  | succ count ih =>
    obtain ⟨stop, lower, upper, here, same⟩ := ih fun index low high => plain index low (by omega)
    obtain ⟨token, at_token, kind⟩ := plain (first + count) (by omega) (by omega)
    rw [← Nat.add_assoc, separators_succ at_token]
    rcases kind with single | rfl | rfl
    · obtain ⟨ch, at_ch, takes, here'⟩ := (here_scalar at_token (Or.inl single)).mp here
      obtain ⟨bound, -⟩ := List.getElem?_eq_some_iff.mp at_ch
      have other := single_permits program (List.mem_of_getElem? at_token) single takes
      rw [Mode.permits_path] at other
      have notSeparator : token ≠ .separator := by
        rintro rfl
        cases single
      refine ⟨stop + 1, by omega, by omega, here', ?_⟩
      rw [slashes_succ at_ch, if_neg other, if_neg notSeparator]
      omega
    · obtain ⟨ch, at_ch, takes, here'⟩ := (here_scalar at_token (Or.inr rfl)).mp here
      obtain ⟨bound, -⟩ := List.getElem?_eq_some_iff.mp at_ch
      have slash : ch = '/' := takes
      refine ⟨stop + 1, by omega, by omega, here', ?_⟩
      rw [slashes_succ at_ch, if_pos slash, if_pos rfl]
      omega
    · obtain ⟨stop', lower', upper', free, here'⟩ := (here_star at_token upper).mp here
      obtain ⟨more, rfl⟩ := Nat.exists_eq_add_of_le lower'
      refine ⟨stop + more, by omega, upper', here', ?_⟩
      rw [slashes_free free, if_neg (by simp)]
      omega

/-! ### The alternatives the retries hold -/

/-- The star can take more, up to a position the rest matches from. -/
def StarCan (mode : Mode) (ranges : List Range) (tokens : List Token) (input : List Char)
    (retry : Retry) : Prop :=
  ∃ stop, retry.input < stop ∧ stop ≤ input.length ∧ Free mode input retry.input stop ∧
    Here mode ranges tokens input retry.token stop

/-- The recursive component can take more, up to a boundary the rest matches from. -/
def DirectoriesCan (mode : Mode) (ranges : List Range) (tokens : List Token) (input : List Char)
    (retry : Retry) : Prop :=
  ∃ before, retry.input ≤ before ∧ input[before]? = some '/' ∧
    Here mode ranges tokens input retry.token (before + 1)

def Can (mode : Mode) (ranges : List Range) (tokens : List Token) (input : List Char)
    (state : Machine) : Prop :=
  Here mode ranges tokens input state.token state.position ∨
    (∃ retry, state.star = some retry ∧ StarCan mode ranges tokens input retry) ∨
    ∃ retry, state.directories = some retry ∧ DirectoriesCan mode ranges tokens input retry

/-- Since the star the tokens took one scalar each, inside one component. -/
structure StarHeld (mode : Mode) (tokens : List Token) (input : List Char) (state : Machine)
    (retry : Retry) : Prop where
  star : ∃ before, retry.token = before + 1 ∧ tokens[before]? = some .star
  token_le : retry.token ≤ state.token
  position : state.position = retry.input + (state.token - retry.token)
  singles : Singles tokens retry.token state.token
  free : Free mode input retry.input state.position

/-- Since the recursive component as many slashes were taken as separators passed. -/
structure DirectoriesHeld (mode : Mode) (tokens : List Token) (input : List Char)
    (state : Machine) (retry : Retry) : Prop where
  path : mode = .path
  directories : ∃ before, retry.token = before + 1 ∧ tokens[before]? = some .directories
  token_le : retry.token ≤ state.token
  input_le : retry.input ≤ state.position
  plain : Plain tokens retry.token state.token
  slashes : slashes input state.position + separators tokens retry.token =
    slashes input retry.input + separators tokens state.token

structure Held (mode : Mode) (tokens : List Token) (input : List Char) (state : Machine) : Prop where
  token_le : state.token ≤ tokens.length
  position_le : state.position ≤ input.length
  star : ∀ retry, state.star = some retry → StarHeld mode tokens input state retry
  directories : ∀ retry, state.directories = some retry →
    DirectoriesHeld mode tokens input state retry
  nested : ∀ star directories, state.star = some star → state.directories = some directories →
    directories.token < star.token ∧ directories.input ≤ star.input

/-! ### What one round does -/

def Mismatch (mode : Mode) (ranges : List Range) (tokens : List Token) (input : List Char)
    (state : Machine) : Prop :=
  (tokens[state.token]? = none ∧ input[state.position]? ≠ none) ∨
    ∃ token, tokens[state.token]? = some token ∧ (token.single = true ∨ token = .separator) ∧
      ∀ ch, input[state.position]? = some ch → ¬token.Takes mode ranges ch

def Exhausted (mode : Mode) (input : List Char) (state : Machine) : Prop :=
  ∀ retry ch, state.star = some retry → input[retry.input]? = some ch → mode.permits ch = false

/-- The rounds of the loop, up to the record of leading tokens. -/
inductive Turn (mode : Mode) (ranges : List Range) (tokens : List Token) (input : List Char)
    (state : Machine) : Outcome → Prop where
  | accept {token : Token} {ch : Char} {next : Machine} : tokens[state.token]? = some token →
      (token.single = true ∨ token = .separator) → input[state.position]? = some ch →
      token.Takes mode ranges ch → next.token = state.token + 1 →
      next.position = state.position + 1 →
      next.star = (if token = .separator then none else state.star) →
      next.directories = state.directories → Turn mode ranges tokens input state (.next next)
  | star {next : Machine} : tokens[state.token]? = some .star → next.token = state.token + 1 →
      next.position = state.position → next.star = some ⟨state.token + 1, state.position⟩ →
      next.directories = state.directories → Turn mode ranges tokens input state (.next next)
  | directories {next : Machine} : tokens[state.token]? = some .directories →
      next.token = state.token + 1 → next.position = state.position → next.star = none →
      next.directories = some ⟨state.token + 1, state.position⟩ →
      Turn mode ranges tokens input state (.next next)
  | tail {checked : Prefix} : tokens[state.token]? = some .tail →
      Turn mode ranges tokens input state (.done true checked)
  | finish {checked : Prefix} : tokens[state.token]? = none → input[state.position]? = none →
      Turn mode ranges tokens input state (.done true checked)
  | retryStar {retry : Retry} {ch : Char} {next : Machine} :
      Mismatch mode ranges tokens input state → state.star = some retry →
      input[retry.input]? = some ch → mode.permits ch = true → next.token = retry.token →
      next.position = retry.input + 1 → next.star = some ⟨retry.token, retry.input + 1⟩ →
      next.directories = state.directories → Turn mode ranges tokens input state (.next next)
  | retryDirectories {retry : Retry} {before : Nat} {next : Machine} :
      Mismatch mode ranges tokens input state → Exhausted mode input state →
      state.directories = some retry → retry.input ≤ before → input[before]? = some '/' →
      (∀ index, retry.input ≤ index → index < before → input[index]? ≠ some '/') →
      next.token = retry.token → next.position = before + 1 → next.star = none →
      next.directories = some ⟨retry.token, before + 1⟩ →
      Turn mode ranges tokens input state (.next next)
  | refuse {checked : Prefix} : Mismatch mode ranges tokens input state →
      Exhausted mode input state →
      (∀ retry index, state.directories = some retry → retry.input ≤ index →
        input[index]? ≠ some '/') → Turn mode ranges tokens input state (.done false checked)

variable {state next : Machine} {componentStart : Bool}

theorem Mismatch.not_here (h : Mismatch mode ranges tokens input state) :
    ¬Here mode ranges tokens input state.token state.position := by
  intro here
  rcases h with ⟨finished, more⟩ | ⟨token, at_token, kind, refuses⟩
  · exact more ((here_end finished).mp here)
  · obtain ⟨ch, at_ch, takes, -⟩ := (here_scalar at_token kind).mp here
    exact refuses ch at_ch takes

/-- A star whose next scalar it may not take holds no alternative. -/
theorem Exhausted.not_starCan (h : Exhausted mode input state) (held : state.star = some retry) :
    ¬StarCan mode ranges tokens input retry := by
  intro ⟨stop, lower, upper, free, _⟩
  have bound : retry.input < input.length := by omega
  have at_ch := List.getElem?_eq_getElem bound
  have permitted := free retry.input _ (Nat.le_refl _) lower at_ch
  rw [h retry _ held at_ch] at permitted
  cases permitted

/-- Taking one more scalar into the star uses up its nearest alternative. -/
theorem starCan_iff (at_ch : input[retry.input]? = some ch) (permitted : mode.permits ch = true) :
    StarCan mode ranges tokens input retry ↔
      Here mode ranges tokens input retry.token (retry.input + 1) ∨
        StarCan mode ranges tokens input ⟨retry.token, retry.input + 1⟩ := by
  obtain ⟨bound, -⟩ := List.getElem?_eq_some_iff.mp at_ch
  constructor
  · intro ⟨stop, lower, upper, free, here⟩
    rcases Nat.lt_or_ge (retry.input + 1) stop with further | nearest
    · exact Or.inr ⟨stop, further, upper,
        fun index ch low high => free index ch (Nat.le_of_succ_le low) high, here⟩
    · have same : stop = retry.input + 1 := by omega
      rw [same] at here
      exact Or.inl here
  · intro alternatives
    have first : ∀ index ch', index = retry.input → input[index]? = some ch' →
        mode.permits ch' = true := by
      rintro index ch' rfl at_index
      rw [at_ch] at at_index
      cases at_index
      exact permitted
    rcases alternatives with here | ⟨stop, lower, upper, free, here⟩
    · refine ⟨retry.input + 1, by omega, by omega, ?_, here⟩
      intro index ch' low high at_index
      exact first index ch' (by omega) at_index
    · have lower : retry.input + 1 < stop := lower
      refine ⟨stop, by omega, upper, ?_, here⟩
      intro index ch' low high at_index
      rcases Nat.lt_or_ge retry.input index with later | same
      · exact free index ch' later high at_index
      · exact first index ch' (by omega) at_index

/-- The next boundary uses up the nearest alternative of a recursive component. -/
theorem directoriesCan_iff {before : Nat} (lower : retry.input ≤ before)
    (slash : input[before]? = some '/')
    (nearest : ∀ index, retry.input ≤ index → index < before → input[index]? ≠ some '/') :
    DirectoriesCan mode ranges tokens input retry ↔
      Here mode ranges tokens input retry.token (before + 1) ∨
        DirectoriesCan mode ranges tokens input ⟨retry.token, before + 1⟩ := by
  constructor
  · intro ⟨boundary, low, slash', here⟩
    rcases Nat.lt_trichotomy boundary before with earlier | rfl | later
    · exact absurd slash' (nearest boundary low earlier)
    · exact Or.inl here
    · exact Or.inr ⟨boundary, later, slash', here⟩
  · intro alternatives
    rcases alternatives with here | ⟨boundary, low, slash', here⟩
    · exact ⟨before, lower, slash, here⟩
    · have low : before + 1 ≤ boundary := low
      exact ⟨boundary, by omega, slash', here⟩

theorem Turn.done_spec (program : Program mode componentStart tokens) {matched : Bool}
    {checked : Prefix} (turn : Turn mode ranges tokens input state (.done matched checked)) :
    matched = true ↔ Can mode ranges tokens input state := by
  cases turn with
  | tail at_token =>
    simp only [true_iff]
    exact Or.inl (here_tail at_token (program.tail_final at_token))
  | finish finished done =>
    simp only [true_iff]
    exact Or.inl ((here_end finished).mpr done)
  | refuse mismatch exhausted closed =>
    constructor
    · intro h
      cases h
    · intro can
      rcases can with here | ⟨retry, held, can⟩ | ⟨retry, held, before, lower, slash, -⟩
      · exact absurd here mismatch.not_here
      · exact absurd can (exhausted.not_starCan held)
      · exact absurd slash (closed retry before held lower)

/-- What a star could still match, the run behind it matches further on, inside the same
component. -/
theorem StarHeld.shifted (program : Program mode componentStart tokens)
    (held : StarHeld mode tokens input state retry) (can : StarCan mode ranges tokens input retry) :
    ∃ stop, state.position < stop ∧ stop ≤ input.length ∧ Free mode input state.position stop ∧
      Here mode ranges tokens input state.token stop := by
  obtain ⟨stop, lower, upper, free, here⟩ := can
  obtain ⟨count, count_eq⟩ := Nat.exists_eq_add_of_le held.token_le
  have singles := held.singles
  have position := held.position
  rw [count_eq] at singles position
  obtain ⟨fits, free', here'⟩ := singles.run program here upper
  rw [Nat.add_sub_cancel_left] at position
  refine ⟨stop + count, by omega, fits, ?_, by rw [count_eq]; exact here'⟩
  -- The scalars up to the new position were taken by the star or by the run behind it.
  intro index ch low high at_index
  rcases Nat.lt_or_ge index stop with inStar | inRun
  · exact free index ch (by omega) inStar at_index
  · exact free' index ch inRun high at_index

theorem StarHeld.not_start (held : StarHeld mode tokens input state retry)
    (start : ComponentStartAt tokens componentStart state.token) : False := by
  obtain ⟨before, token_eq, star⟩ := held.star
  have token_le := held.token_le
  rcases start with ⟨zero, -⟩ | ⟨last, last_eq, kind⟩
  · omega
  · rcases Nat.lt_or_ge last retry.token with same | inRun
    · have same : last = before := by omega
      rw [same, star] at kind
      simp at kind
    · obtain ⟨token, at_token, single⟩ := held.singles last inRun (by omega)
      rw [at_token] at kind
      rcases kind with kind | kind
      · cases kind
        cases single
      · cases kind
        cases single

/-- What a recursive component could still match, the run behind it matches from a later
boundary on. -/
theorem DirectoriesHeld.shifted (program : Program mode componentStart tokens)
    (held : DirectoriesHeld mode tokens input state retry)
    (start : ComponentStartAt tokens componentStart state.token)
    (can : DirectoriesCan mode ranges tokens input retry) :
    ∃ before, state.position ≤ before ∧ input[before]? = some '/' ∧
      Here mode ranges tokens input state.token (before + 1) := by
  obtain ⟨boundary, lower, slash, here⟩ := can
  have path := held.path
  subst path
  obtain ⟨bound, -⟩ := List.getElem?_eq_some_iff.mp slash
  have later := slashes_succ slash
  rw [if_pos rfl] at later
  have earlier := slashes_mono input lower
  have balance := held.slashes
  rcases Nat.eq_or_lt_of_le held.token_le with same | further
  · -- Nothing stands between the two recursive components.
    rw [← same] at balance ⊢
    refine ⟨boundary, ?_, slash, here⟩
    by_contra beyond
    have := slashes_mono input (show boundary + 1 ≤ state.position by omega)
    omega
  · -- The run ends with a separator, which takes the slash before the boundary.
    obtain ⟨last, last_eq, kind⟩ : ∃ last, state.token = last + 1 ∧
        tokens[last]? = some .separator := by
      rcases start with ⟨zero, -⟩ | ⟨last, last_eq, kind⟩
      · omega
      · refine ⟨last, last_eq, ?_⟩
        obtain ⟨token, at_token, plain⟩ := held.plain last (by omega) (by omega)
        rcases kind with separator | directories
        · exact separator
        · rw [at_token] at directories
          cases directories
          rcases plain with single | separator | star
          · cases single
          · cases separator
          · cases star
    obtain ⟨count, count_eq⟩ := Nat.exists_eq_add_of_le (show retry.token ≤ last by omega)
    have plain : Plain tokens retry.token (retry.token + count) :=
      fun index low high => held.plain index low (by omega)
    obtain ⟨stop, low, high, here', balance'⟩ := plain.run program here (by omega)
    rw [← count_eq] at here' balance'
    obtain ⟨ch, at_ch, takes, here''⟩ := (here_scalar kind (Or.inr rfl)).mp here'
    have slash' : ch = '/' := takes
    rw [slash'] at at_ch
    have passed := separators_succ kind
    rw [if_pos rfl, ← last_eq] at passed
    rw [← last_eq] at here''
    refine ⟨stop, ?_, at_ch, here''⟩
    by_contra beyond
    have := slashes_succ at_ch
    rw [if_pos rfl] at this
    have := slashes_mono input (show stop + 1 ≤ state.position by omega)
    omega

theorem Turn.accept_can (program : Program mode true tokens) (held : Held mode tokens input state)
    (at_token : tokens[state.token]? = some token)
    (kind : token.single = true ∨ token = .separator) (at_ch : input[state.position]? = some ch)
    (takes : token.Takes mode ranges ch) (next_token : next.token = state.token + 1)
    (position : next.position = state.position + 1)
    (star : next.star = if token = .separator then none else state.star)
    (directories : next.directories = state.directories) :
    Can mode ranges tokens input state ↔ Can mode ranges tokens input next := by
  rw [Can, Can, here_scalar at_token kind, next_token, position, directories]
  constructor
  · intro can
    rcases can with ⟨ch', same, -, here⟩ | ⟨retry, starHeld, can⟩ | can
    · exact Or.inl here
    · by_cases separator : token = .separator
      · -- A longer star would take the slash the separator took.
        obtain ⟨stop, lower, upper, free, -⟩ := (held.star retry starHeld).shifted program can
        have permitted := free state.position ch (Nat.le_refl _) lower at_ch
        subst separator
        have slash : ch = '/' := takes
        have path := (program.mem (List.mem_of_getElem? at_token)).1 rfl
        rw [path, slash] at permitted
        cases permitted
      · rw [if_neg separator] at star
        exact Or.inr (Or.inl ⟨retry, star.trans starHeld, can⟩)
    · exact Or.inr (Or.inr can)
  · intro can
    rcases can with here | ⟨retry, starHeld, can⟩ | can
    · exact Or.inl ⟨ch, at_ch, takes, here⟩
    · rw [star] at starHeld
      split at starHeld
      · cases starHeld
      · exact Or.inr (Or.inl ⟨retry, starHeld, can⟩)
    · exact Or.inr (Or.inr can)

theorem Turn.star_can (program : Program mode true tokens) (held : Held mode tokens input state)
    (at_token : tokens[state.token]? = some .star) (token : next.token = state.token + 1)
    (position : next.position = state.position)
    (star : next.star = some ⟨state.token + 1, state.position⟩)
    (directories : next.directories = state.directories) :
    Can mode ranges tokens input state ↔ Can mode ranges tokens input next := by
  rw [Can, Can, here_star at_token held.position_le, token, position, directories]
  have newStar : (∃ retry, next.star = some retry ∧ StarCan mode ranges tokens input retry) ↔
      StarCan mode ranges tokens input ⟨state.token + 1, state.position⟩ := by
    rw [star]
    simp
  rw [newStar]
  constructor
  · intro can
    rcases can with ⟨stop, lower, upper, free, here⟩ | ⟨retry, starHeld, can⟩ | can
    · rcases Nat.eq_or_lt_of_le lower with rfl | further
      · exact Or.inl here
      · exact Or.inr (Or.inl ⟨stop, further, upper, free, here⟩)
    · obtain ⟨stop, lower, upper, free, here⟩ := (held.star retry starHeld).shifted program can
      obtain ⟨stop', lower', upper', free', here'⟩ := (here_star at_token upper).mp here
      refine Or.inr (Or.inl ⟨stop', Nat.lt_of_lt_of_le lower lower', upper', ?_, here'⟩)
      intro index ch low high at_index
      rcases Nat.lt_or_ge index stop with before | after
      · exact free index ch low before at_index
      · exact free' index ch after high at_index
    · exact Or.inr (Or.inr can)
  · intro can
    rcases can with here | ⟨stop, lower, upper, free, here⟩ | can
    · refine Or.inl ⟨state.position, Nat.le_refl _, held.position_le, ?_, here⟩
      intro index ch low high
      omega
    · exact Or.inl ⟨stop, Nat.le_of_lt lower, upper, free, here⟩
    · exact Or.inr (Or.inr can)

theorem Turn.directories_can (program : Program mode true tokens)
    (held : Held mode tokens input state) (at_token : tokens[state.token]? = some .directories)
    (token : next.token = state.token + 1) (position : next.position = state.position)
    (star : next.star = none)
    (directories : next.directories = some ⟨state.token + 1, state.position⟩) :
    Can mode ranges tokens input state ↔ Can mode ranges tokens input next := by
  have newDirectories : (∃ retry, next.directories = some retry ∧
      DirectoriesCan mode ranges tokens input retry) ↔
        DirectoriesCan mode ranges tokens input ⟨state.token + 1, state.position⟩ := by
    rw [directories]
    simp
  obtain ⟨-, start⟩ := program.directories_start at_token
  rw [Can, Can, here_directories at_token held.position_le, token, position, star, newDirectories]
  constructor
  · intro can
    rcases can with (here | can) | ⟨retry, starHeld, -⟩ | ⟨retry, directoriesHeld, can⟩
    · exact Or.inl here
    · exact Or.inr (Or.inr can)
    · exact ((held.star retry starHeld).not_start start).elim
    · obtain ⟨before, lower, slash, here⟩ :=
        (held.directories retry directoriesHeld).shifted program start can
      obtain ⟨bound, -⟩ := List.getElem?_eq_some_iff.mp slash
      rcases (here_directories at_token bound).mp here with here' | ⟨later, lower', slash', here'⟩
      · exact Or.inr (Or.inr ⟨before, lower, slash, here'⟩)
      · exact Or.inr (Or.inr ⟨later, by show state.position ≤ later; omega, slash', here'⟩)
  · intro can
    rcases can with here | ⟨retry, starHeld, -⟩ | can
    · exact Or.inl (Or.inl here)
    · cases starHeld
    · exact Or.inl (Or.inr can)

theorem Turn.next_can (program : Program mode true tokens) (held : Held mode tokens input state)
    (turn : Turn mode ranges tokens input state (.next next)) :
    Can mode ranges tokens input state ↔ Can mode ranges tokens input next := by
  cases turn with
  | accept at_token kind at_ch takes token position star directories =>
    exact Turn.accept_can program held at_token kind at_ch takes token position star directories
  | star at_token token position star directories =>
    exact Turn.star_can program held at_token token position star directories
  | directories at_token token position star directories =>
    exact Turn.directories_can program held at_token token position star directories
  | @retryStar retry ch _ mismatch starHeld at_ch permitted token position star directories =>
    rw [Can, Can, token, position, star, directories, starHeld]
    simp only [Option.some.injEq, exists_eq_left', mismatch.not_here, false_or,
      starCan_iff at_ch permitted, or_assoc]
  | @retryDirectories retry before _ mismatch exhausted directoriesHeld lower slash nearest token
      position star directories =>
      have noStar : ¬∃ retry, state.star = some retry ∧ StarCan mode ranges tokens input retry :=
        fun ⟨retry, starHeld, can⟩ => exhausted.not_starCan starHeld can
      rw [Can, Can, token, position, star, directories, directoriesHeld]
      simp only [Option.some.injEq, exists_eq_left', mismatch.not_here, noStar, false_or, reduceCtorEq,
        false_and, exists_false, directoriesCan_iff lower slash nearest]

/-! ### The invariant -/

theorem StarHeld.advance (program : Program mode true tokens)
    (held : StarHeld mode tokens input state retry) (at_token : tokens[state.token]? = some token)
    (single : token.single = true) (at_ch : input[state.position]? = some ch)
    (takes : token.Takes mode ranges ch) (next_token : next.token = state.token + 1)
    (position : next.position = state.position + 1) :
    StarHeld mode tokens input next retry := by
  have token_le := held.token_le
  have same := held.position
  refine ⟨held.star, by omega, by omega, ?_, ?_⟩
  · intro index lower upper
    rcases Nat.lt_or_ge index state.token with before | last
    · exact held.singles index lower before
    · have same : index = state.token := by omega
      exact ⟨token, by rw [same]; exact at_token, single⟩
  · intro index other lower upper at_index
    rcases Nat.lt_or_ge index state.position with before | last
    · exact held.free index other lower before at_index
    · have same : index = state.position := by omega
      rw [same, at_ch] at at_index
      cases at_index
      exact single_permits program (List.mem_of_getElem? at_token) single takes

theorem DirectoriesHeld.advance (held : DirectoriesHeld mode tokens input state retry)
    (at_token : tokens[state.token]? = some token)
    (plain : token.single = true ∨ token = .separator ∨ token = .star)
    (next_token : next.token = state.token + 1) (position : state.position ≤ next.position)
    (taken : Glob.slashes input next.position =
      Glob.slashes input state.position + if token = .separator then 1 else 0) :
    DirectoriesHeld mode tokens input next retry := by
  have token_le := held.token_le
  have input_le := held.input_le
  refine ⟨held.path, held.directories, by omega, by omega, ?_, ?_⟩
  · intro index lower upper
    rcases Nat.lt_or_ge index state.token with before | last
    · exact held.plain index lower before
    · have same : index = state.token := by omega
      exact ⟨token, by rw [same]; exact at_token, plain⟩
  · have balance := held.slashes
    rw [next_token, separators_succ at_token, taken]
    omega

theorem Turn.accept_held (program : Program mode true tokens)
    (held : Held mode tokens input state) (at_token : tokens[state.token]? = some token)
    (kind : token.single = true ∨ token = .separator) (at_ch : input[state.position]? = some ch)
    (takes : token.Takes mode ranges ch) (next_token : next.token = state.token + 1)
    (position : next.position = state.position + 1)
    (star : next.star = if token = .separator then none else state.star)
    (directories : next.directories = state.directories) : Held mode tokens input next := by
  obtain ⟨tokenBound, -⟩ := List.getElem?_eq_some_iff.mp at_token
  obtain ⟨inputBound, -⟩ := List.getElem?_eq_some_iff.mp at_ch
  have kept : ∀ retry, next.star = some retry → state.star = some retry ∧ token.single = true := by
    intro retry starHeld
    rw [star] at starHeld
    split at starHeld
    · cases starHeld
    · rename_i other
      exact ⟨starHeld, kind.resolve_right other⟩
  refine ⟨by omega, by omega, ?_, ?_, ?_⟩
  · intro retry starHeld
    obtain ⟨starHeld, single⟩ := kept retry starHeld
    exact (held.star retry starHeld).advance program at_token single at_ch takes next_token position
  · intro retry directoriesHeld
    rw [directories] at directoriesHeld
    have before := held.directories retry directoriesHeld
    apply before.advance at_token (kind.imp_right Or.inl) next_token (by omega)
    rw [position, slashes_succ at_ch]
    rcases kind with single | rfl
    · have permitted := single_permits program (List.mem_of_getElem? at_token) single takes
      rw [before.path, Mode.permits_path] at permitted
      have notSeparator : token ≠ .separator := by
        rintro rfl
        cases single
      rw [if_neg permitted, if_neg notSeparator]
    · have slash : ch = '/' := takes
      rw [if_pos slash, if_pos rfl]
  · intro starRetry retry starHeld directoriesHeld
    rw [directories] at directoriesHeld
    exact held.nested starRetry retry (kept starRetry starHeld).1 directoriesHeld

theorem Turn.star_held (held : Held mode tokens input state)
    (at_token : tokens[state.token]? = some .star) (token : next.token = state.token + 1)
    (position : next.position = state.position)
    (star : next.star = some ⟨state.token + 1, state.position⟩)
    (directories : next.directories = state.directories) : Held mode tokens input next := by
  obtain ⟨tokenBound, -⟩ := List.getElem?_eq_some_iff.mp at_token
  have within := held.position_le
  refine ⟨by omega, by omega, ?_, ?_, ?_⟩
  · intro retry starHeld
    rw [star] at starHeld
    cases starHeld
    refine ⟨⟨state.token, rfl, at_token⟩, Nat.le_of_eq token.symm, ?_, ?_, ?_⟩
    · rw [position, token, Nat.sub_self]
      rfl
    · intro index (lower : state.token + 1 ≤ index) upper
      omega
    · intro index ch (lower : state.position ≤ index) upper
      omega
  · intro retry directoriesHeld
    rw [directories] at directoriesHeld
    apply (held.directories retry directoriesHeld).advance at_token (Or.inr (Or.inr rfl)) token
      (by omega)
    rw [position]
    rfl
  · intro starRetry retry starHeld directoriesHeld
    rw [star] at starHeld
    cases starHeld
    rw [directories] at directoriesHeld
    have before := held.directories retry directoriesHeld
    exact ⟨Nat.lt_succ_of_le before.token_le, before.input_le⟩

theorem DirectoriesHeld.fresh (path : mode = .path)
    (directories : ∃ before, retry.token = before + 1 ∧ tokens[before]? = some .directories)
    (token : next.token = retry.token) (position : next.position = retry.input) :
    DirectoriesHeld mode tokens input next retry := by
  refine ⟨path, directories, by omega, by omega, ?_, by rw [token, position]⟩
  intro index lower upper
  omega

theorem Turn.retryStar_held (held : Held mode tokens input state)
    (starHeld : state.star = some retry) (at_ch : input[retry.input]? = some ch)
    (permitted : mode.permits ch = true) (token : next.token = retry.token)
    (position : next.position = retry.input + 1)
    (star : next.star = some ⟨retry.token, retry.input + 1⟩)
    (directories : next.directories = state.directories) : Held mode tokens input next := by
  obtain ⟨inputBound, -⟩ := List.getElem?_eq_some_iff.mp at_ch
  have before := held.star retry starHeld
  have token_le := before.token_le
  have within := held.token_le
  refine ⟨by omega, by omega, ?_, ?_, ?_⟩
  · intro other otherHeld
    rw [star] at otherHeld
    cases otherHeld
    refine ⟨before.star, Nat.le_of_eq token.symm, ?_, ?_, ?_⟩
    · rw [position, token, Nat.sub_self]
    · intro index (lower : retry.token ≤ index) upper
      omega
    · intro index ch (lower : retry.input + 1 ≤ index) upper
      omega
  · intro other directoriesHeld
    rw [directories] at directoriesHeld
    have outer := held.directories other directoriesHeld
    obtain ⟨inside, earlier⟩ := held.nested retry other starHeld directoriesHeld
    refine ⟨outer.path, outer.directories, by omega, by omega, ?_, ?_⟩
    · exact fun index lower upper => outer.plain index lower (by omega)
    · -- The run behind the star took no slash and passed no separator.
      have balance := outer.slashes
      obtain ⟨count, count_eq⟩ := Nat.exists_eq_add_of_le token_le
      have singles := before.singles
      have free := before.free
      have same := before.position
      rw [count_eq, Nat.add_sub_cancel_left] at same
      rw [outer.path] at free permitted
      rw [count_eq] at singles balance
      rw [same] at free balance
      rw [separators_singles singles, slashes_free free] at balance
      rw [Mode.permits_path] at permitted
      rw [token, position, slashes_succ at_ch, if_neg permitted]
      exact balance
  · intro starRetry other otherHeld directoriesHeld
    rw [star] at otherHeld
    cases otherHeld
    rw [directories] at directoriesHeld
    obtain ⟨inside, earlier⟩ := held.nested retry other starHeld directoriesHeld
    exact ⟨inside, Nat.le_succ_of_le earlier⟩

theorem Turn.next_held (program : Program mode true tokens) (held : Held mode tokens input state)
    (turn : Turn mode ranges tokens input state (.next next)) : Held mode tokens input next := by
  have position_le := held.position_le
  have token_le := held.token_le
  cases turn with
  | accept at_token kind at_ch takes token position star directories =>
    exact Turn.accept_held program held at_token kind at_ch takes token position star directories
  | star at_token token position star directories =>
    exact Turn.star_held held at_token token position star directories
  | directories at_token token position star directories =>
    obtain ⟨tokenBound, -⟩ := List.getElem?_eq_some_iff.mp at_token
    obtain ⟨path, -⟩ := program.directories_start at_token
    refine ⟨by omega, by omega, by simp [star], ?_, by simp [star]⟩
    intro retry directoriesHeld
    rw [directories] at directoriesHeld
    cases directoriesHeld
    exact .fresh path ⟨state.token, rfl, at_token⟩ token position
  | retryStar mismatch starHeld at_ch permitted token position star directories =>
    exact Turn.retryStar_held held starHeld at_ch permitted token position star directories
  | retryDirectories mismatch exhausted directoriesHeld lower slash nearest token position star
      directories =>
      obtain ⟨inputBound, -⟩ := List.getElem?_eq_some_iff.mp slash
      have outer := held.directories _ directoriesHeld
      have := outer.token_le
      refine ⟨by omega, by omega, by simp [star], ?_, by simp [star]⟩
      intro retry retryHeld
      rw [directories] at retryHeld
      cases retryHeld
      exact .fresh outer.path outer.directories token position

/-- What a round decreases: the recursive component and its retry, the star and its retry,
the token. -/
def rank (tokens : List Token) (input : List Char) (state : Machine) :
    Nat ×ₗ Nat ×ₗ Nat ×ₗ Nat ×ₗ Nat :=
  toLex (tokens.length + 1 - (state.directories.map Retry.token).getD 0,
    toLex (input.length - (state.directories.map Retry.input).getD 0,
      toLex (tokens.length - (state.star.map Retry.token).getD state.token,
        toLex (input.length - (state.star.map Retry.input).getD 0,
          tokens.length - state.token))))

theorem lex_lt {a b c d e a' b' c' d' e' : Nat} (h : a < a' ∨ a = a' ∧ (b < b' ∨ b = b' ∧
    (c < c' ∨ c = c' ∧ (d < d' ∨ d = d' ∧ e < e')))) :
    toLex (a, toLex (b, toLex (c, toLex (d, e)))) <
      toLex (a', toLex (b', toLex (c', toLex (d', e')))) := by
  simp only [Prod.Lex.toLex_lt_toLex]
  exact h

theorem Turn.rank_lt (held : Held mode tokens input state)
    (turn : Turn mode ranges tokens input state (.next next)) :
    rank tokens input next < rank tokens input state := by
  have token_le := held.token_le
  apply lex_lt
  cases turn with
  | @accept token _ _ at_token kind at_ch takes next_token position star directories =>
    obtain ⟨tokenBound, -⟩ := List.getElem?_eq_some_iff.mp at_token
    rw [directories, next_token, star]
    rcases starHeld : state.star with - | retry
    · rw [ite_self]
      simp only [Option.map_none, Option.getD_none, Nat.lt_irrefl, true_and, false_or]
      omega
    · have := (held.star retry starHeld).token_le
      split
      · simp only [Option.map_none, Option.getD_none, Option.map_some, Option.getD_some, Nat.lt_irrefl,
          true_and, false_or]
        omega
      · simp only [Option.map_some, Option.getD_some, Nat.lt_irrefl, true_and, false_or]
        omega
  | star at_token next_token position star directories =>
    obtain ⟨tokenBound, -⟩ := List.getElem?_eq_some_iff.mp at_token
    rw [directories, next_token, star, Option.map_some, Option.getD_some]
    rcases starHeld : state.star with - | retry
    · simp only [Option.map_none, Option.getD_none, Nat.lt_irrefl, true_and, false_or]
      omega
    · have := (held.star retry starHeld).token_le
      simp only [Option.map_some, Option.getD_some, Nat.lt_irrefl, true_and, false_or]
      omega
  | directories at_token next_token position star directories =>
    obtain ⟨tokenBound, -⟩ := List.getElem?_eq_some_iff.mp at_token
    rw [directories, Option.map_some, Option.getD_some]
    rcases directoriesHeld : state.directories with - | retry
    · simp only [Option.map_none, Option.getD_none]
      omega
    · have := (held.directories retry directoriesHeld).token_le
      simp only [Option.map_some, Option.getD_some]
      omega
  | retryStar mismatch starHeld at_ch permitted next_token position star directories =>
    obtain ⟨inputBound, -⟩ := List.getElem?_eq_some_iff.mp at_ch
    rw [directories, star, starHeld]
    simp only [Option.map_some, Option.getD_some, Nat.lt_irrefl, true_and, false_or]
    omega
  | retryDirectories mismatch exhausted directoriesHeld lower slash nearest next_token position star
      directories =>
      obtain ⟨inputBound, -⟩ := List.getElem?_eq_some_iff.mp slash
      rw [directories, directoriesHeld]
      simp only [Option.map_some, Option.getD_some, Nat.lt_irrefl, true_and, false_or]
      omega

end

end Purrdf.Glob
