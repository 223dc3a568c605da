import Mathlib.Algebra.GroupWithZero.Nat
import Purrdf.Utf8Decoding

/-!
# CSV dialects

The flags under which tables are read and written, as they are after the encoding (UTF-8 is the
only one), the faults of a dialect, and the scan for the next byte of a small set.
-/

namespace Purrdf.Csv

open Utf8

/-- A piece of text. Its bytes are `encode text`. -/
abbrev Text := List Char

/-! ### The field scanner -/

abbrev StopSet := List UInt8

def find (stops : StopSet) : List UInt8 → Option (List UInt8 × UInt8 × List UInt8)
  | [] => none
  | byte :: rest =>
    if byte ∈ stops then some ([], byte, rest)
    else (find stops rest).map fun (run, hit, after) => (byte :: run, hit, after)

@[simp] theorem find_nil (stops : StopSet) : find stops [] = none := rfl

variable {stops : StopSet}

theorem find_hit {byte : UInt8} (stop : byte ∈ stops) (rest : List UInt8) :
    find stops (byte :: rest) = some ([], byte, rest) :=
  if_pos stop

theorem find_pass {byte : UInt8} (pass : byte ∉ stops) (rest : List UInt8) :
    find stops (byte :: rest) =
      (find stops rest).map fun (run, hit, after) => (byte :: run, hit, after) :=
  if_neg pass

theorem find_none {bytes : List UInt8} :
    find stops bytes = none ↔ ∀ byte ∈ bytes, byte ∉ stops := by
  induction bytes with
  | nil => simp
  | cons byte rest ih =>
    by_cases stop : byte ∈ stops
    · simp [find_hit stop, stop]
    · simp [find_pass stop, stop, ih]

theorem find_some {bytes run after : List UInt8} {hit : UInt8}
    (found : find stops bytes = some (run, hit, after)) :
    bytes = run ++ hit :: after ∧ hit ∈ stops ∧ ∀ byte ∈ run, byte ∉ stops := by
  induction bytes generalizing run with
  | nil => exact absurd found (by simp)
  | cons byte rest ih =>
    by_cases stop : byte ∈ stops
    · rw [find_hit stop] at found
      obtain ⟨rfl, rfl, rfl⟩ := Prod.mk.injEq .. ▸ Option.some.inj found
      exact ⟨rfl, stop, by simp⟩
    · rw [find_pass stop] at found
      cases rest' : find stops rest with
      | none =>
        rw [rest'] at found
        exact absurd found (by simp)
      | some cut =>
        obtain ⟨run', hit', after'⟩ := cut
        rw [rest'] at found
        simp only [Option.map_some, Option.some.injEq, Prod.mk.injEq] at found
        obtain ⟨rfl, rfl, rfl⟩ := found
        obtain ⟨whole, isStop, passed⟩ := ih rest'
        refine ⟨by rw [whole]; rfl, isStop, ?_⟩
        simpa [stop] using passed

theorem find_length {bytes run after : List UInt8} {hit : UInt8}
    (found : find stops bytes = some (run, hit, after)) :
    bytes.length = run.length + 1 + after.length := by
  obtain ⟨rfl, -, -⟩ := find_some found
  simp only [List.length_append, List.length_cons]
  omega

theorem find_shorter {bytes run after : List UInt8} {hit : UInt8}
    (found : find stops bytes = some (run, hit, after)) :
    run.length + after.length < bytes.length := by
  have length := find_length found
  omega

theorem bind_ok {ε α β : Type} {first : Except ε α} {next : α → Except ε β} {result : β} :
    (first >>= next) = .ok result ↔ ∃ value, first = .ok value ∧ next value = .ok result := by
  cases first with
  | error fault => simp [bind, Except.bind]
  | ok value => simp [bind, Except.bind]

/-! ### Dialects -/

/-- Which whitespace is removed from each cell value. -/
inductive Trim where
  | none
  | start
  | ending
  | both
deriving DecidableEq, Repr

def Trim.trimsStart : Trim → Bool
  | .start | .both => true
  | _ => false

def Trim.trimsEnd : Trim → Bool
  | .ending | .both => true
  | _ => false

/-- When a written field is enclosed in quote characters. -/
inductive QuoteStyle where
  | necessary
  | always
deriving DecidableEq, Repr

structure Dialect where
  lineTerminators : List Text
  commentPrefix : Option Text
  headerRowCount : Nat
  skipRows : Nat
  skipColumns : Nat
  skipBlankRows : Bool
  delimiter : UInt8
  quoteChar : Option UInt8
  doubleQuote : Bool
  escape : Option UInt8
  skipInitialSpace : Bool
  trim : Trim
  flexible : Bool
  quoteStyle : QuoteStyle
  recordTerminator : Text

def defaultLineTerminators : List Text := [['\r', '\n'], ['\n']]

namespace Dialect

def rfc4180 : Dialect where
  lineTerminators := defaultLineTerminators
  commentPrefix := none
  headerRowCount := 0
  skipRows := 0
  skipColumns := 0
  skipBlankRows := false
  delimiter := 0x2c
  quoteChar := some 0x22
  doubleQuote := true
  escape := none
  skipInitialSpace := false
  trim := .none
  flexible := false
  quoteStyle := .necessary
  recordTerminator := ['\n']

def distinctEscape (dialect : Dialect) : Option UInt8 :=
  match dialect.escape, dialect.quoteChar with
  | some escape, some quote => if escape = quote then none else some escape
  | escape, _ => escape

def doublesQuote (dialect : Dialect) : Bool :=
  match dialect.quoteChar, dialect.escape with
  | none, _ => false
  | some quote, some escape => if quote = escape then true else dialect.doubleQuote
  | some _, none => dialect.doubleQuote

def terminators (dialect : Dialect) : List (List UInt8) :=
  dialect.lineTerminators.map encode

end Dialect

/-! ### Faults and errors -/

structure CsvPosition where
  row : Nat
  line : Nat
  column : Nat
  byte : Nat
deriving DecidableEq, Repr

inductive CsvErrorKind where
  | sourceRowExhausted
  | columnLimit
  | notUtf8 (field validUpTo : Nat)
  | emptyLineTerminator
  | unterminatedQuote
  | quoteInUnquotedField
  | textAfterClosingQuote
  | unequalLengths (expected found : Nat)
  | emptyRecord
  | unquotableField (field : Nat)
  | invalidDialect (reason : String)
deriving DecidableEq, Repr

structure CsvError where
  kind : CsvErrorKind
  position : Option CsvPosition
deriving DecidableEq, Repr

def CsvError.new (kind : CsvErrorKind) : CsvError := ⟨kind, none⟩

/-- Why a dialect is refused. -/
inductive DialectFault where
  | emptyLineTerminator
  | invalid (reason : String)
deriving DecidableEq, Repr

def DialectFault.kind : DialectFault → CsvErrorKind
  | .emptyLineTerminator => .emptyLineTerminator
  | .invalid reason => .invalidDialect reason

namespace Dialect

def checkChar (dialect : Dialect) (ascii differs : String) :
    Option UInt8 → Except DialectFault Unit
  | none => .ok ()
  | some byte =>
    if 0x80 ≤ byte then .error (.invalid ascii)
    else if byte = dialect.delimiter then .error (.invalid differs)
    else .ok ()

def checkDelimiter (dialect : Dialect) : Except DialectFault Unit :=
  if 0x80 ≤ dialect.delimiter then .error (.invalid "the delimiter must be an ASCII byte")
  else .ok ()

def checkTerminators (dialect : Dialect) : Except DialectFault Unit :=
  if dialect.lineTerminators.any List.isEmpty then .error .emptyLineTerminator else .ok ()

/-- The first refusal the dialect's own fields earn, if any. -/
def check (dialect : Dialect) : Except DialectFault Unit := do
  dialect.checkDelimiter
  dialect.checkChar "the quote character must be an ASCII byte"
    "the quote character must differ from the delimiter" dialect.quoteChar
  dialect.checkChar "the escape character must be an ASCII byte"
    "the escape character must differ from the delimiter" dialect.escape
  dialect.checkTerminators

structure Checked (dialect : Dialect) : Prop where
  delimiter : dialect.delimiter < 0x80
  quote : ∀ quote, dialect.quoteChar = some quote → quote < 0x80 ∧ quote ≠ dialect.delimiter
  escape : ∀ escape, dialect.escape = some escape → escape < 0x80 ∧ escape ≠ dialect.delimiter
  terminators : ∀ terminator ∈ dialect.lineTerminators, terminator ≠ []

theorem checkChar_ok {dialect : Dialect} {ascii differs : String} {char : Option UInt8} :
    dialect.checkChar ascii differs char = .ok () ↔
      ∀ byte, char = some byte → byte < 0x80 ∧ byte ≠ dialect.delimiter := by
  cases char with
  | none => simp [checkChar]
  | some byte =>
    unfold checkChar
    by_cases high : 0x80 ≤ byte
    · simp [high, UInt8.not_lt.mpr high]
    · dsimp only
      rw [if_neg high]
      by_cases same : byte = dialect.delimiter
      · simp [same]
      · simp [same, UInt8.not_le.mp high]

theorem checkDelimiter_ok {dialect : Dialect} :
    dialect.checkDelimiter = .ok () ↔ dialect.delimiter < 0x80 := by
  unfold checkDelimiter
  by_cases high : 0x80 ≤ dialect.delimiter
  · simp [high, UInt8.not_lt.mpr high]
  · simp [high, UInt8.not_le.mp high]

theorem checkTerminators_ok {dialect : Dialect} :
    dialect.checkTerminators = .ok () ↔ ∀ terminator ∈ dialect.lineTerminators, terminator ≠ [] := by
  unfold checkTerminators
  by_cases empty : dialect.lineTerminators.any List.isEmpty = true
  · rw [if_pos empty]
    obtain ⟨terminator, mem, none⟩ := List.any_eq_true.mp empty
    simp only [reduceCtorEq, false_iff, not_forall]
    exact ⟨terminator, mem, not_not.mpr (List.isEmpty_iff.mp none)⟩
  · rw [if_neg empty]
    simp only [true_iff]
    intro terminator mem none
    exact empty (List.any_eq_true.mpr ⟨terminator, mem, List.isEmpty_iff.mpr none⟩)

theorem check_ok {dialect : Dialect} : dialect.check = .ok () ↔ dialect.Checked := by
  unfold check
  constructor
  · intro passed
    obtain ⟨_, delimiter, passed⟩ := bind_ok.mp passed
    obtain ⟨_, quote, passed⟩ := bind_ok.mp passed
    obtain ⟨_, escape, terminators⟩ := bind_ok.mp passed
    exact ⟨checkDelimiter_ok.mp delimiter, checkChar_ok.mp quote, checkChar_ok.mp escape,
      checkTerminators_ok.mp terminators⟩
  · intro checked
    refine bind_ok.mpr ⟨(), checkDelimiter_ok.mpr checked.delimiter, bind_ok.mpr ⟨(), ?_, ?_⟩⟩
    · exact checkChar_ok.mpr checked.quote
    · exact bind_ok.mpr ⟨(), checkChar_ok.mpr checked.escape,
        checkTerminators_ok.mpr checked.terminators⟩

end Dialect

end Purrdf.Csv
