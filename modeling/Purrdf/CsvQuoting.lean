import Purrdf.CsvDialect

/-!
# Writing CSV

A field is quoted when the dialect always quotes, or when one scan finds a byte that would be read
as structure. The scan then goes on from that byte and stops only at the quote and escape
characters, each of which is doubled or escaped.
-/

namespace Purrdf.Csv

open Utf8

/-- How many buffered bytes the writer holds before it writes them to its sink. -/
def writerBuffer : Nat := 64 * 1024

def maxQuotingBytes : Nat := 13

structure Quoter where
  delimiter : UInt8
  quote : Option UInt8
  doubles : Bool
  escape : Option UInt8
  always : Bool
  /-- The bytes that make a field quoted. -/
  quoting : StopSet
  /-- The bytes inside a quoted field that are written escaped. -/
  inner : StopSet
deriving Repr

namespace Quoter

def addTerminators (quoting : StopSet) : List (List UInt8) → Except DialectFault StopSet
  | [] => .ok quoting
  | [] :: terminators => addTerminators quoting terminators
  | (first :: _) :: terminators =>
    if quoting.length = maxQuotingBytes then
      .error (.invalid "a written dialect names at most eight line terminators")
    else addTerminators (quoting ++ [first]) terminators

def new (dialect : Dialect) : Except DialectFault Quoter := do
  dialect.check
  let always : Bool := dialect.quoteStyle = .always
  if always ∧ dialect.quoteChar = none then
    .error (.invalid "a dialect that always quotes needs a quote character")
  else
    let inner := dialect.quoteChar.toList ++ dialect.distinctEscape.toList
    let quoting ← addTerminators (dialect.delimiter :: 0x0d :: 0x0a :: inner) dialect.terminators
    .ok {
      delimiter := dialect.delimiter
      quote := dialect.quoteChar
      doubles := dialect.doublesQuote
      escape := dialect.distinctEscape
      always := always
      quoting := quoting
      inner := inner }

/-- What is written before an inner byte: the quote that doubles it, or the escape character. -/
def mark (quoter : Quoter) (quote byte : UInt8) : Option UInt8 :=
  if byte = quote ∧ quoter.doubles then some quote else quoter.escape

/-- The rest of a quoted field, whose next stop is not before `rest`; `run` is what is not written
yet before it. -/
def inside (quoter : Quoter) (quote : UInt8) (run rest : List UInt8) : Option (List UInt8) :=
  match _found : find quoter.inner rest with
  | none => some (run ++ rest)
  | some (passed, byte, after) => do
    let mark ← quoter.mark quote byte
    let more ← inside quoter quote [] after
    some (run ++ passed ++ mark :: byte :: more)
termination_by rest.length
decreasing_by
  have shorter := find_shorter _found
  omega

def field (quoter : Quoter) (value : List UInt8) (force : Bool) : Option (List UInt8) :=
  let firstSpecial := find quoter.quoting value
  if firstSpecial = none ∧ ¬quoter.always ∧ ¬force then some value
  else match quoter.quote with
    | none => none
    | some quote => do
      let rest ← match firstSpecial with
        | none => quoter.inside quote value []
        | some (run, byte, after) => quoter.inside quote run (byte :: after)
      some (quote :: rest ++ [quote])

/-- Whether the field at an index is quoted for beginning with the comment prefix. -/
def forced (commentPrefix : Option (List UInt8)) (count : Nat) (value : List UInt8) : Bool :=
  count = 0 ∧ commentPrefix.any (·.isPrefixOf value)

/-- Write the fields that follow `count` others, or the index of the one that cannot be written.
Also the field count, and whether the last field is the first and empty. -/
def writeFields (quoter : Quoter) (commentPrefix : Option (List UInt8)) :
    (count : Nat) → (onlyEmpty : Bool) → List Text → Except Nat (List UInt8 × Nat × Bool)
  | count, onlyEmpty, [] => .ok ([], count, onlyEmpty)
  | count, _, text :: texts =>
    let value := encode text
    match quoter.field value (forced commentPrefix count value) with
    | none => .error count
    | some written => do
      let (rest, more) ← writeFields quoter commentPrefix (count + 1) (count = 0 ∧ value = []) texts
      .ok ((if count > 0 then [quoter.delimiter] else []) ++ written ++ rest, more)

/-- Write every field of one record. One empty field would be an empty line. -/
def fields (quoter : Quoter) (commentPrefix : Option (List UInt8)) (record : List Text) :
    Except Nat (List UInt8 × Nat) := do
  let (out, count, onlyEmpty) ← quoter.writeFields commentPrefix 0 false record
  if count = 1 ∧ onlyEmpty ∧ ¬quoter.always then
    match quoter.quote with
    | none => .error 0
    | some quote => .ok (out ++ [quote, quote], count)
  else .ok (out, count)

end Quoter

structure Writer where
  sink : List UInt8
  buffer : List UInt8
  quoter : Except DialectFault Quoter
  commentPrefix : Option (List UInt8)
  terminator : List UInt8
  flexible : Bool
  expected : Option Nat

namespace Writer

def new (dialect : Dialect) : Writer where
  sink := []
  buffer := []
  quoter := Quoter.new dialect
  commentPrefix := dialect.commentPrefix.map encode
  terminator := encode dialect.recordTerminator
  flexible := dialect.flexible
  expected := none

def drain (writer : Writer) : Writer :=
  { writer with sink := writer.sink ++ writer.buffer, buffer := [] }

def writeRecord (writer : Writer) (record : List Text) : Except CsvError Writer :=
  match writer.quoter with
  | .error fault => .error (CsvError.new fault.kind)
  | .ok quoter =>
    match quoter.fields writer.commentPrefix record with
    | .error field => .error (CsvError.new (.unquotableField field))
    | .ok (out, count) =>
      let expected := writer.expected.getD count
      if count = 0 then .error (CsvError.new .emptyRecord)
      else if expected ≠ count ∧ ¬writer.flexible then
        .error (CsvError.new (.unequalLengths expected count))
      else
        let buffer := writer.buffer ++ out ++ writer.terminator
        let written := { writer with buffer := buffer, expected := some expected }
        .ok (if buffer.length ≥ writerBuffer then written.drain else written)

def intoInner (writer : Writer) : List UInt8 := writer.drain.sink

def writeRecords (writer : Writer) : List (List Text) → Except CsvError Writer
  | [] => .ok writer
  | record :: records => do
    let writer ← writer.writeRecord record
    writer.writeRecords records

end Writer

def Dialect.write (dialect : Dialect) (records : List (List Text)) : Except CsvError (List UInt8) :=
  ((Writer.new dialect).writeRecords records).map Writer.intoInner

end Purrdf.Csv

/-!
## What the CSV writer writes

The text of a table in terms of its cells. A quoted cell has a mark before each byte that could end
it; an unquoted cell has no byte that a dialect gives a meaning. The writer writes such a text, and
decides for each cell whether it is quoted.
-/

namespace Purrdf.Csv

open Utf8

/-! ### Quoted text -/

/-- How quoted text is written: every byte can be, and a mark is no plain byte. -/
structure Quoting where
  quote : UInt8
  doubles : Bool
  escape : Option UInt8
  distinct : escape ≠ some quote
  able : doubles = true ∨ escape.isSome

namespace Quoting

variable (quoting : Quoting)

def mark (byte : UInt8) : Option UInt8 :=
  if byte = quoting.quote then if quoting.doubles then some quoting.quote else quoting.escape
  else if quoting.escape = some byte then some byte else none

def inside (value : List UInt8) : List UInt8 :=
  value.flatMap fun byte => (quoting.mark byte).toList ++ [byte]

def enclosed (value : List UInt8) : List UInt8 :=
  quoting.quote :: quoting.inside value ++ [quoting.quote]

def stops : StopSet := quoting.quote :: quoting.escape.toList

theorem mem_stops {byte : UInt8} :
    byte ∈ quoting.stops ↔ byte = quoting.quote ∨ quoting.escape = some byte := by
  simp [stops]

theorem mark_plain {byte : UInt8} (plain : byte ∉ quoting.stops) : quoting.mark byte = none := by
  rw [mem_stops] at plain
  unfold mark
  rw [if_neg fun same => plain (Or.inl same), if_neg fun same => plain (Or.inr same)]

theorem mark_some {byte mark : UInt8} (marked : quoting.mark byte = some mark) :
    (quoting.doubles = true ∧ byte = quoting.quote ∧ mark = quoting.quote) ∨
      quoting.escape = some mark := by
  unfold Quoting.mark at marked
  split at marked
  · rename_i same
    split at marked
    · rename_i doubles
      exact Or.inl ⟨doubles, same, (Option.some.inj marked).symm⟩
    · exact Or.inr marked
  · split at marked
    · rename_i escaped
      exact Or.inr (marked ▸ escaped)
    · exact absurd marked (by simp)

theorem mark_stop {byte : UInt8} (stop : byte ∈ quoting.stops) :
    ∃ mark, quoting.mark byte = some mark := by
  unfold Quoting.mark
  by_cases same : byte = quoting.quote
  · rw [if_pos same]
    by_cases doubles : quoting.doubles = true
    · rw [if_pos doubles]
      exact ⟨_, rfl⟩
    · rw [if_neg doubles]
      exact Option.isSome_iff_exists.mp (quoting.able.resolve_left doubles)
  · rcases (mem_stops quoting).mp stop with quote | escape
    · exact absurd quote same
    · rw [if_neg same, if_pos escape]
      exact ⟨_, rfl⟩

@[simp] theorem inside_nil : quoting.inside [] = [] := rfl

theorem inside_cons (byte : UInt8) (value : List UInt8) :
    quoting.inside (byte :: value) =
      (quoting.mark byte).toList ++ byte :: quoting.inside value := by
  unfold inside
  rw [List.flatMap_cons, List.append_assoc]
  rfl

theorem inside_append (front back : List UInt8) :
    quoting.inside (front ++ back) = quoting.inside front ++ quoting.inside back :=
  List.flatMap_append

theorem inside_plain {value : List UInt8} (plain : ∀ byte ∈ value, byte ∉ quoting.stops) :
    quoting.inside value = value := by
  induction value with
  | nil => rfl
  | cons byte value ih =>
    rw [inside_cons, mark_plain quoting (plain byte List.mem_cons_self)]
    rw [ih fun other mem => plain other (List.mem_cons_of_mem byte mem)]
    rfl

theorem inside_isUtf8 (ascii : ∀ byte ∈ quoting.stops, byte < 0x80) (text : Text) :
    IsUtf8 (quoting.inside (encode text)) := by
  induction text with
  | nil => exact isUtf8_nil
  | cons char text ih =>
    rw [encode_cons, inside_append]
    refine IsUtf8.append ?_ ih
    rcases utf8EncodeChar_ascii_or char with ⟨byte, small, single⟩ | high
    · rw [single, inside_cons, inside_nil]
      refine IsUtf8.append ?_ (isUtf8_ascii small)
      cases marked : quoting.mark byte with
      | none => exact isUtf8_nil
      | some mark =>
        refine isUtf8_ascii (ascii mark ?_)
        rw [mem_stops]
        rcases quoting.mark_some marked with ⟨-, -, same⟩ | escaped
        · exact Or.inl same
        · exact Or.inr escaped
    · rw [inside_plain]
      · exact ⟨[char], (List.append_nil _).symm⟩
      · intro byte mem stop
        exact high byte mem (ascii byte stop)

theorem enclosed_isUtf8 (ascii : ∀ byte ∈ quoting.stops, byte < 0x80) (text : Text) :
    IsUtf8 (quoting.enclosed (encode text)) := by
  have quote := isUtf8_ascii (ascii quoting.quote ((mem_stops quoting).mpr (Or.inl rfl)))
  have inner := quoting.inside_isUtf8 ascii text
  exact IsUtf8.append (IsUtf8.append quote inner) quote

end Quoting

/-! ### The cells of a written table -/

structure Cell where
  quoted : Bool
  text : Text

/-- How a table is written: the delimiter, the quoting, and the end of a row. -/
structure Layout where
  delimiter : UInt8
  quoting : Quoting
  terminator : List UInt8

namespace Layout

variable (layout : Layout)

def cellText (cell : Cell) : List UInt8 :=
  if cell.quoted then layout.quoting.enclosed (encode cell.text) else encode cell.text

def moreText (cells : List Cell) : List UInt8 :=
  cells.flatMap fun cell => layout.delimiter :: layout.cellText cell

def rowText : List Cell → List UInt8
  | [] => []
  | cell :: cells => layout.cellText cell ++ layout.moreText cells

def tableText (rows : List (List Cell)) : List UInt8 :=
  rows.flatMap fun row => layout.rowText row ++ layout.terminator

theorem rowText_cons (cell : Cell) (cells : List Cell) :
    layout.rowText (cell :: cells) = layout.cellText cell ++ layout.moreText cells :=
  rfl

theorem moreText_cons (cell : Cell) (cells : List Cell) :
    layout.moreText (cell :: cells) =
      layout.delimiter :: (layout.cellText cell ++ layout.moreText cells) :=
  rfl

theorem tableText_cons (row : List Cell) (rows : List (List Cell)) :
    layout.tableText (row :: rows) =
      layout.rowText row ++ (layout.terminator ++ layout.tableText rows) := by
  unfold tableText
  rw [List.flatMap_cons, List.append_assoc]

end Layout

/-! ### The quoting law of a dialect -/

section

variable {dialect : Dialect}

def Dialect.Structural (dialect : Dialect) (byte : UInt8) : Prop :=
  byte = dialect.delimiter ∨ byte = 0x0d ∨ byte = 0x0a ∨ dialect.quoteChar = some byte ∨
    dialect.distinctEscape = some byte ∨
      ∃ terminator ∈ dialect.terminators, terminator.head? = some byte

theorem addTerminators_ok {terminators : List (List UInt8)} {before quoting : StopSet}
    (ok : Quoter.addTerminators before terminators = .ok quoting) (byte : UInt8) :
    byte ∈ quoting ↔ byte ∈ before ∨ ∃ terminator ∈ terminators, terminator.head? = some byte := by
  induction terminators generalizing before with
  | nil =>
    obtain rfl := Except.ok.inj ok
    simp
  | cons terminator terminators ih =>
    cases terminator with
    | nil =>
      rw [ih ok]
      simp
    | cons first rest =>
      unfold Quoter.addTerminators at ok
      split at ok
      · exact absurd ok (by simp)
      · rw [ih ok]
        simp only [List.mem_append, List.mem_singleton, List.exists_mem_cons_iff, List.head?_cons,
          Option.some.injEq, or_assoc]
        rw [eq_comm (a := first)]

structure Quoter.Of (quoter : Quoter) (dialect : Dialect) : Prop where
  delimiter : quoter.delimiter = dialect.delimiter
  quote : quoter.quote = dialect.quoteChar
  doubles : quoter.doubles = dialect.doublesQuote
  escape : quoter.escape = dialect.distinctEscape
  always : quoter.always = decide (dialect.quoteStyle = .always)
  quoting : ∀ byte, byte ∈ quoter.quoting ↔ dialect.Structural byte
  inner : quoter.inner = dialect.quoteChar.toList ++ dialect.distinctEscape.toList

theorem Quoter.new_ok {quoter : Quoter} (ok : Quoter.new dialect = .ok quoter) :
    dialect.Checked ∧ quoter.Of dialect := by
  unfold Quoter.new at ok
  obtain ⟨_, checked, ok⟩ := bind_ok.mp ok
  refine ⟨Dialect.check_ok.mp checked, ?_⟩
  dsimp only at ok
  split at ok
  · exact absurd ok (by simp)
  · obtain ⟨quoting, added, ok⟩ := bind_ok.mp ok
    obtain rfl := Except.ok.inj ok
    refine ⟨rfl, rfl, rfl, rfl, rfl, ?_, rfl⟩
    intro byte
    rw [addTerminators_ok added]
    simp [Dialect.Structural, or_assoc]

instance (dialect : Dialect) : DecidablePred dialect.Structural := fun byte =>
  inferInstanceAs (Decidable (byte = dialect.delimiter ∨ byte = 0x0d ∨ byte = 0x0a ∨
    dialect.quoteChar = some byte ∨ dialect.distinctEscape = some byte ∨
      ∃ terminator ∈ dialect.terminators, terminator.head? = some byte))

structure Dialect.Quotes (dialect : Dialect) (layout : Layout) : Prop where
  delimiter : layout.delimiter = dialect.delimiter
  quote : dialect.quoteChar = some layout.quoting.quote
  doubles : dialect.doublesQuote = layout.quoting.doubles
  escape : dialect.distinctEscape = layout.quoting.escape
  terminator : layout.terminator = encode dialect.recordTerminator

variable {layout : Layout} {quoter : Quoter}

theorem Quoter.Of.stops (law : quoter.Of dialect) (quotes : dialect.Quotes layout) :
    quoter.inner = layout.quoting.stops := by
  rw [law.inner, quotes.quote, quotes.escape]
  rfl

theorem Dialect.Quotes.structural (quotes : dialect.Quotes layout) {byte : UInt8}
    (stop : byte ∈ layout.quoting.stops) : dialect.Structural byte := by
  rcases (Quoting.mem_stops layout.quoting).mp stop with rfl | escape
  · exact Or.inr (Or.inr (Or.inr (Or.inl quotes.quote)))
  · exact Or.inr (Or.inr (Or.inr (Or.inr (Or.inl (quotes.escape.trans escape)))))

theorem Quoter.Of.mark (law : quoter.Of dialect) (quotes : dialect.Quotes layout) {byte : UInt8}
    (stop : byte ∈ layout.quoting.stops) :
    quoter.mark layout.quoting.quote byte = layout.quoting.mark byte := by
  unfold Quoter.mark Quoting.mark
  rw [law.doubles, law.escape, quotes.doubles, quotes.escape]
  by_cases same : byte = layout.quoting.quote
  · by_cases doubles : layout.quoting.doubles = true
    · rw [if_pos ⟨same, doubles⟩, if_pos same, if_pos doubles]
    · rw [if_neg fun both => doubles both.2, if_pos same, if_neg doubles]
  · rcases (Quoting.mem_stops layout.quoting).mp stop with quote | escape
    · exact absurd quote same
    · rw [if_neg fun both => same both.1, if_neg same, if_pos escape, escape]

theorem Quoter.inside_eq (law : quoter.Of dialect) (quotes : dialect.Quotes layout)
    (run rest : List UInt8) :
    quoter.inside layout.quoting.quote run rest = some (run ++ layout.quoting.inside rest) := by
  rw [Quoter.inside]
  split
  · rename_i none
    rw [law.stops quotes, find_none] at none
    rw [Quoting.inside_plain _ none]
  · rename_i passed byte after found
    have shorter := find_shorter found
    rw [law.stops quotes] at found
    obtain ⟨rfl, stop, plain⟩ := find_some found
    obtain ⟨mark, marked⟩ := layout.quoting.mark_stop stop
    rw [law.mark quotes stop, Quoting.inside_append, Quoting.inside_plain _ plain,
      Quoting.inside_cons, marked]
    simp only [Option.bind_eq_bind, Option.bind_some, Quoter.inside_eq law quotes [] after]
    simp
termination_by rest.length

def Dialect.quotes (dialect : Dialect) (forced : Bool) (text : Text) : Bool :=
  dialect.quoteStyle = .always ∨ forced ∨ ∃ byte ∈ encode text, dialect.Structural byte

theorem Quoter.field_eq (law : quoter.Of dialect) (quotes : dialect.Quotes layout) (text : Text)
    (force : Bool) :
    quoter.field (encode text) force =
      some (layout.cellText ⟨dialect.quotes force text, text⟩) := by
  unfold Quoter.field Layout.cellText
  have special : (find quoter.quoting (encode text) = none) ↔
      ¬∃ byte ∈ encode text, dialect.Structural byte := by
    rw [find_none]
    simp only [law.quoting, not_exists, not_and]
  by_cases plain : find quoter.quoting (encode text) = none ∧ ¬quoter.always ∧ ¬force
  · have unquoted : dialect.quotes force text = false := by
      obtain ⟨none, style, free⟩ := plain
      rw [law.always] at style
      have none := special.mp none
      simp only [Dialect.quotes, decide_eq_false_iff_not, not_or]
      exact ⟨by simpa using style, by simpa using free, none⟩
    dsimp only
    rw [if_pos plain, if_neg (by simp [unquoted])]
  · have quoted : dialect.quotes force text = true := by
      simp only [Dialect.quotes, decide_eq_true_eq]
      by_contra none
      simp only [not_or] at none
      obtain ⟨style, free, none⟩ := none
      refine plain ⟨special.mpr none, ?_, free⟩
      rw [law.always]
      simpa using style
    dsimp only
    rw [if_neg plain, law.quote, quotes.quote, if_pos quoted]
    dsimp only
    cases found : find quoter.quoting (encode text) with
    | none =>
      -- nothing in the field is marked
      have empty : layout.quoting.inside (encode text) = encode text := by
        apply Quoting.inside_plain
        intro byte mem stop
        exact special.mp found ⟨byte, mem, quotes.structural stop⟩
      dsimp only
      rw [Quoter.inside_eq law quotes, Quoting.inside_nil, List.append_nil, Quoting.enclosed, empty]
      rfl
    | some cut =>
      obtain ⟨run, byte, after⟩ := cut
      obtain ⟨whole, -, passed⟩ := find_some found
      have plain : ∀ byte ∈ run, byte ∉ layout.quoting.stops := by
        intro byte mem stop
        exact passed byte mem ((law.quoting byte).mpr (quotes.structural stop))
      dsimp only
      rw [Quoter.inside_eq law quotes, Quoting.enclosed, whole, Quoting.inside_append,
        Quoting.inside_plain _ plain]
      rfl

def Dialect.prefixBytes (dialect : Dialect) : Option (List UInt8) :=
  dialect.commentPrefix.map encode

def Dialect.laterCell (dialect : Dialect) (text : Text) : Cell :=
  ⟨dialect.quotes false text, text⟩

def Dialect.cells (dialect : Dialect) : List Text → List Cell
  | [] => []
  | [[]] => [⟨true, []⟩]
  | text :: texts =>
    ⟨dialect.quotes (Quoter.forced dialect.prefixBytes 0 (encode text)) text, text⟩ ::
      texts.map dialect.laterCell

theorem Dialect.cells_texts (dialect : Dialect) (record : List Text) :
    (dialect.cells record).map Cell.text = record := by
  unfold Dialect.cells
  split
  · rfl
  · rfl
  · simp [Dialect.laterCell, Function.comp_def]

theorem forced_succ (commentPrefix : Option (List UInt8)) (count : Nat) (value : List UInt8) :
    Quoter.forced commentPrefix (count + 1) value = false := by
  simp [Quoter.forced]

theorem Quoter.writeFields_more (law : quoter.Of dialect) (quotes : dialect.Quotes layout)
    (texts : List Text) (count : Nat) :
    quoter.writeFields dialect.prefixBytes (count + 1) false texts =
      .ok (layout.moreText (texts.map dialect.laterCell), count + 1 + texts.length, false) := by
  induction texts generalizing count with
  | nil => rfl
  | cons text texts ih =>
    have passed : decide (count + 1 = 0 ∧ encode text = []) = false := by simp
    unfold Quoter.writeFields
    dsimp only
    rw [forced_succ, Quoter.field_eq law quotes, passed, ih (count + 1)]
    simp only [bind, Except.bind]
    rw [if_pos (Nat.succ_pos count), List.map_cons, Layout.moreText_cons, law.delimiter,
      quotes.delimiter, List.length_cons]
    have total : count + 1 + 1 + texts.length = count + 1 + (texts.length + 1) := by omega
    rw [total]
    simp [Dialect.laterCell]

theorem encode_eq_nil {text : Text} : encode text = [] ↔ text = [] := by
  constructor
  · intro none
    exact encode_injective none
  · rintro rfl
    rfl

theorem not_forced_nil (prefixed : dialect.commentPrefix ≠ some []) :
    Quoter.forced dialect.prefixBytes 0 [] = false := by
  unfold Quoter.forced Dialect.prefixBytes
  cases comment : dialect.commentPrefix with
  | none => simp
  | some text =>
    have some : encode text ≠ [] := by
      intro none
      rw [encode_eq_nil.mp none] at comment
      exact prefixed comment
    simpa using some

theorem Quoter.fields_eq (law : quoter.Of dialect) (quotes : dialect.Quotes layout)
    (prefixed : dialect.commentPrefix ≠ some []) {record : List Text} (some : record ≠ []) :
    quoter.fields dialect.prefixBytes record =
      .ok (layout.rowText (dialect.cells record), record.length) := by
  unfold Quoter.fields
  cases record with
  | nil => exact absurd rfl some
  | cons text texts =>
    unfold Quoter.writeFields
    dsimp only
    rw [Quoter.field_eq law quotes]
    cases texts with
    | nil =>
      simp only [bind, Except.bind, Quoter.writeFields, Nat.lt_irrefl, if_false, List.nil_append,
        List.append_nil, Nat.zero_add, true_and, List.length_singleton, encode_eq_nil,
        decide_eq_true_eq]
      by_cases alone : text = [] ∧ ¬quoter.always = true
      · -- the empty field alone is written as two quotes
        obtain ⟨rfl, style⟩ := alone
        have plain : dialect.quotes (Quoter.forced dialect.prefixBytes 0 (encode [])) [] = false := by
          rw [law.always] at style
          rw [encode_nil, not_forced_nil prefixed]
          simpa [Dialect.quotes] using style
        rw [if_pos ⟨rfl, style⟩, law.quote, quotes.quote, plain]
        simp [Layout.rowText, Layout.cellText, Layout.moreText, Dialect.cells, Quoting.enclosed]
      · rw [if_neg alone]
        cases text with
        | nil =>
          have style : dialect.quotes (Quoter.forced dialect.prefixBytes 0 (encode [])) [] = true := by
            have always : quoter.always = true := by
              by_contra not
              exact alone ⟨rfl, not⟩
            rw [law.always] at always
            simp only [Dialect.quotes, decide_eq_true_eq]
            exact Or.inl (of_decide_eq_true always)
          rw [style]
          simp [Layout.rowText, Layout.moreText, Dialect.cells]
        | cons char text => simp [Layout.rowText, Layout.moreText, Dialect.cells]
    | cons next texts =>
      have rest := Quoter.writeFields_more law quotes (next :: texts) 0
      have same : quoter.writeFields dialect.prefixBytes 1
          (decide (0 = 0 ∧ encode text = [])) (next :: texts) =
            quoter.writeFields dialect.prefixBytes 1 false (next :: texts) := rfl
      have total : 0 + 1 + (next :: texts).length = (text :: next :: texts).length := by
        simp only [List.length_cons]
        omega
      rw [same, rest, total]
      simp [bind, Except.bind, Layout.rowText, Dialect.cells]

/-! ### A whole table -/

structure Writer.Wrote (writer : Writer) (dialect : Dialect) (quoter : Quoter)
    (out : List UInt8) : Prop where
  quoter : writer.quoter = .ok quoter
  commentPrefix : writer.commentPrefix = dialect.prefixBytes
  terminator : writer.terminator = encode dialect.recordTerminator
  flexible : writer.flexible = dialect.flexible
  out : writer.sink ++ writer.buffer = out

def Dialect.Fits (dialect : Dialect) (expected : Option Nat) (lengths : List Nat) : Prop :=
  dialect.flexible = true ∨
    ∃ length, (∀ other ∈ lengths, other = length) ∧ (expected = none ∨ expected = some length)

theorem Dialect.Fits.first {expected : Option Nat} {length : Nat} {lengths : List Nat}
    (fits : dialect.Fits expected (length :: lengths)) :
    (expected.getD length = length ∨ dialect.flexible = true) ∧
      dialect.Fits (some (expected.getD length)) lengths := by
  rcases fits with flexible | ⟨all, same, known⟩
  · exact ⟨Or.inr flexible, Or.inl flexible⟩
  · have here := same length List.mem_cons_self
    have getD : expected.getD length = length := by
      rcases known with rfl | rfl
      · rfl
      · exact here.symm
    refine ⟨Or.inl getD, Or.inr ⟨all, fun other mem => same other (List.mem_cons_of_mem _ mem), ?_⟩⟩
    rw [getD, here]
    exact Or.inr rfl

theorem Dialect.Fits.rest {expected : Option Nat} {length : Nat} {lengths : List Nat}
    (fits : dialect.Fits expected (length :: lengths)) : dialect.Fits expected lengths := by
  rcases fits with flexible | ⟨all, same, known⟩
  · exact Or.inl flexible
  · exact Or.inr ⟨all, fun other mem => same other (List.mem_cons_of_mem _ mem), known⟩

theorem Writer.Wrote.writeRecord {writer : Writer} {out : List UInt8} {record : List Text}
    {lengths : List Nat} (wrote : writer.Wrote dialect quoter out) (law : quoter.Of dialect)
    (quotes : dialect.Quotes layout) (prefixed : dialect.commentPrefix ≠ some [])
    (some : record ≠ []) (fits : dialect.Fits writer.expected (record.length :: lengths)) :
    ∃ next, writer.writeRecord record = .ok next ∧ next.Wrote dialect quoter
        (out ++ (layout.rowText (dialect.cells record) ++ layout.terminator)) ∧
      dialect.Fits next.expected lengths := by
  obtain ⟨here, rest⟩ := fits.first
  unfold Writer.writeRecord
  rw [wrote.quoter, wrote.commentPrefix]
  dsimp only
  rw [Quoter.fields_eq law quotes prefixed some]
  dsimp only
  have length : record.length ≠ 0 := fun zero => some (List.length_eq_zero_iff.mp zero)
  rw [if_neg length, if_neg]
  · refine ⟨_, rfl, ?_, ?_⟩
    · have text : writer.sink ++ (writer.buffer ++ layout.rowText (dialect.cells record) ++
          writer.terminator) =
            out ++ (layout.rowText (dialect.cells record) ++ layout.terminator) := by
        rw [← wrote.out, wrote.terminator, quotes.terminator]
        simp
      split
      · refine ⟨rfl, rfl, wrote.terminator, wrote.flexible, ?_⟩
        rw [← text]
        exact List.append_nil _
      · exact ⟨rfl, rfl, wrote.terminator, wrote.flexible, text⟩
    · split
      · exact rest
      · exact rest
  · rintro ⟨differs, rigid⟩
    rw [wrote.flexible] at rigid
    rcases here with same | flexible
    · exact differs same
    · exact rigid flexible

theorem Writer.Wrote.writeRecords {writer : Writer} {out : List UInt8} {records : List (List Text)}
    (wrote : writer.Wrote dialect quoter out) (law : quoter.Of dialect)
    (quotes : dialect.Quotes layout) (prefixed : dialect.commentPrefix ≠ some [])
    (some : ∀ record ∈ records, record ≠ [])
    (fits : dialect.Fits writer.expected (records.map List.length)) :
    ∃ last, writer.writeRecords records = .ok last ∧
      last.Wrote dialect quoter (out ++ layout.tableText (records.map dialect.cells)) := by
  induction records generalizing writer out with
  | nil =>
    refine ⟨writer, rfl, ?_⟩
    rw [List.map_nil, Layout.tableText, List.flatMap_nil, List.append_nil]
    exact wrote
  | cons record records ih =>
    obtain ⟨next, written, wrote, fits⟩ :=
      wrote.writeRecord law quotes prefixed (some record List.mem_cons_self) fits
    obtain ⟨last, rest, wrote⟩ :=
      ih wrote (fun other mem => some other (List.mem_cons_of_mem record mem)) fits
    refine ⟨last, bind_ok.mpr ⟨next, written, rest⟩, ?_⟩
    rw [List.map_cons, Layout.tableText_cons]
    simpa using wrote

theorem Dialect.write_eq (ok : Quoter.new dialect = .ok quoter) (quotes : dialect.Quotes layout)
    (prefixed : dialect.commentPrefix ≠ some []) {records : List (List Text)}
    (some : ∀ record ∈ records, record ≠ []) (fits : dialect.Fits none (records.map List.length)) :
    dialect.write records = .ok (layout.tableText (records.map dialect.cells)) := by
  have fresh : (Writer.new dialect).Wrote dialect quoter [] := ⟨ok, rfl, rfl, rfl, rfl⟩
  obtain ⟨last, written, wrote⟩ :=
    fresh.writeRecords (Quoter.new_ok ok).2 quotes prefixed some fits
  unfold Dialect.write
  rw [written]
  exact congrArg Except.ok wrote.out

theorem Dialect.write_admitted {record : List Text} {records : List (List Text)}
    {bytes : List UInt8} (written : dialect.write (record :: records) = .ok bytes) :
    ∃ quoter, Quoter.new dialect = .ok quoter := by
  unfold Dialect.write Writer.writeRecords at written
  cases law : Quoter.new dialect with
  | ok quoter => exact ⟨quoter, rfl⟩
  | error fault =>
    have refused : (Writer.new dialect).writeRecord record =
        .error (CsvError.new fault.kind) := by
      unfold Writer.writeRecord Writer.new
      rw [law]
    rw [refused] at written
    exact absurd written (by simp [bind, Except.bind, Except.map])

end

end Purrdf.Csv
