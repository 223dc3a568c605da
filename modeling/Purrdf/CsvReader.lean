import Purrdf.CsvDialect

/-!
# Reading CSV

Rows are split first, at a line terminator outside a quoted value, and each is parsed into cells
after that. `rest` is what is left of the input, or of the row, at the offset `pos`.
-/

namespace Purrdf.Csv

open Utf8

def isUnicodeWhiteSpace (char : Char) : Bool :=
  let value := char.val
  (0x09 ≤ value && value ≤ 0x0D) || value == 0x20 || value == 0x85 || value == 0xA0 ||
    value == 0x1680 || (0x2000 ≤ value && value ≤ 0x200A) || (0x2028 ≤ value && value ≤ 0x2029) ||
    value == 0x202F || value == 0x205F || value == 0x3000

def byteOrderMark : List UInt8 := [0xEF, 0xBB, 0xBF]

/-- Resolve a byte of the input for a source row. The byte is in the part that is UTF-8. -/
def CsvPosition.locate (input : List UInt8) (row byte : Nat) :
    Except CsvErrorKind CsvPosition :=
  let byte := min byte input.length
  let before := decode (input.take byte)
  let column := 1 + (before.reverse.takeWhile (· ≠ '\n')).length
  if column < 2 ^ 32 then .ok ⟨row, 1 + before.count '\n', column, byte⟩ else .error .columnLimit

/-- What reading one row produced. -/
inductive Event where
  | comment (text : Text)
  | header (record : List Text)
  | data (record : List Text)
deriving DecidableEq, Repr

/-- Where a cell parse stands. -/
inductive CellState where
  | start
  | unquoted
  | quoted
  | afterQuote
deriving DecidableEq, Repr

structure Cells where
  finished : List (List UInt8)
  current : List UInt8

namespace Cells

def push (cells : Cells) (bytes : List UInt8) : Cells :=
  { cells with current := cells.current ++ bytes }

def finish (cells : Cells) : Cells := ⟨cells.finished ++ [cells.current], []⟩

end Cells

structure Rows where
  input : List UInt8
  /-- The longest prefix of the input that is UTF-8. -/
  text : List UInt8
  pos : Nat
  delimiter : UInt8
  quote : Option UInt8
  doubles : Bool
  escape : Option UInt8
  terminators : List (List UInt8)
  commentPrefix : Option (List UInt8)
  trim : Trim
  skipColumns : Nat
  skipBlank : Bool
  flexible : Bool
  skipsLeft : Nat
  headersLeft : Nat
  rowStops : StopSet
  quotedStops : StopSet
  cellStops : StopSet
  lastRow : Nat
  expected : Option Nat
  proper : ∀ terminator ∈ terminators, terminator ≠ []

theorem Dialect.terminators_proper {dialect : Dialect} (ok : dialect.check = .ok ()) :
    ∀ terminator ∈ dialect.terminators, terminator ≠ [] := by
  intro terminator mem none
  obtain ⟨text, listed, same⟩ := List.mem_map.mp mem
  apply (check_ok.mp ok).terminators text listed
  exact encode_injective (same.trans none)

def Dialect.effectiveTrim (dialect : Dialect) : Trim :=
  match dialect.trim, dialect.skipInitialSpace with
  | .none, true => .start
  | .ending, true => .both
  | trim, _ => trim

namespace Rows

def new (dialect : Dialect) (input : List UInt8) : Except CsvError Rows :=
  match checked : dialect.check with
  | .error fault => .error (CsvError.new fault.kind)
  | .ok () =>
    let quoted := dialect.quoteChar.toList ++ dialect.distinctEscape.toList
    .ok {
      input := input
      text := encode (decode input)
      pos := if byteOrderMark.isPrefixOf input then byteOrderMark.length else 0
      delimiter := dialect.delimiter
      quote := dialect.quoteChar
      doubles := dialect.doublesQuote
      escape := dialect.distinctEscape
      terminators := dialect.terminators
      commentPrefix := dialect.commentPrefix.map encode
      trim := dialect.effectiveTrim
      skipColumns := dialect.skipColumns
      skipBlank := dialect.skipBlankRows
      flexible := dialect.flexible
      skipsLeft := dialect.skipRows
      headersLeft := dialect.headerRowCount
      rowStops := quoted ++ dialect.terminators.filterMap List.head?
      quotedStops := quoted
      cellStops := dialect.delimiter :: quoted
      lastRow := 0
      expected := none
      proper := dialect.terminators_proper checked }

/-- Whether skipped or header rows remain to be read. -/
def inPreamble (rows : Rows) : Bool := rows.skipsLeft > 0 || rows.headersLeft > 0

def error (rows : Rows) (kind : CsvErrorKind) (row byte : Nat) : CsvError :=
  match CsvPosition.locate rows.input row byte with
  | .ok position => ⟨kind, some position⟩
  | .error limit => CsvError.new limit

/-- Which cell the first byte that is not UTF-8 is in, and how many of its bytes precede it: the
row is split without refusing anything. -/
def invalidCell (rows : Rows) (field length : Nat) (quoted : Bool) : List UInt8 → Nat × Nat
  | [] => (field, length)
  | byte :: rest =>
    if some byte = rows.escape then invalidCell rows field length quoted rest
    else if some byte = rows.quote then
      if rows.doubles ∧ rest.head? = some byte ∧ (quoted ∨ length > 0) then
        invalidCell rows field (length + 1) quoted (rest.drop 1)
      else if quoted then invalidCell rows field length false rest
      else if length = 0 then invalidCell rows field length true rest
      else invalidCell rows field (length + 1) quoted rest
    else if byte = rows.delimiter ∧ ¬quoted then invalidCell rows (field + 1) 0 quoted rest
    else invalidCell rows field (length + 1) quoted rest
termination_by bytes => bytes.length
decreasing_by all_goals simp only [List.length_cons, List.length_drop]; omega

/-- The refusal of the first byte that is not UTF-8, in the row that starts at an offset. -/
def locateInvalid (rows : Rows) (start : Nat) : CsvErrorKind :=
  let (field, length) := rows.invalidCell 0 0 false (rows.text.drop start)
  .notUtf8 field length

/-! ### Reading a row -/

/-- The offset just past the closing quote of the value whose quote is at `open`, and what is left
there. -/
def skipQuotedValue (rows : Rows) (opened pos : Nat) (rest : List UInt8) :
    Except CsvError (Nat × List UInt8) :=
  match _found : find rows.quotedStops rest with
  | none =>
    if rows.text.length < rows.input.length then
      .error (rows.error (rows.locateInvalid rows.pos) (rows.lastRow + 1) rows.text.length)
    else .error (rows.error .unterminatedQuote (rows.lastRow + 1) opened)
  | some (run, byte, after) =>
    let hit := pos + run.length
    if some byte = rows.escape then
      rows.skipQuotedValue opened (hit + 1 + min 1 after.length) (after.drop 1)
    else if rows.doubles ∧ after.head? = some byte then
      rows.skipQuotedValue opened (hit + 2) (after.drop 1)
    else .ok (hit + 1, after)
termination_by rest.length
decreasing_by
  all_goals
    have shorter := find_shorter _found
    simp only [List.length_drop]
    omega

theorem skipQuotedValue_shorter {rows : Rows} {opened pos next : Nat} {rest left : List UInt8}
    (ok : rows.skipQuotedValue opened pos rest = .ok (next, left)) :
    pos ≤ next ∧ next + left.length = pos + rest.length := by
  rw [skipQuotedValue] at ok
  split at ok
  · split at ok <;> exact absurd ok (by simp)
  · rename_i run byte after found
    have length := find_length found
    dsimp only at ok
    split at ok
    · have ih := skipQuotedValue_shorter ok
      simp only [List.length_drop] at ih
      omega
    · split at ok
      · rename_i pair
        have ih := skipQuotedValue_shorter ok
        have some : 0 < after.length := by
          cases after with
          | nil => exact absurd pair.2 (by simp)
          | cons => exact Nat.succ_pos _
        simp only [List.length_drop] at ih
        omega
      · obtain ⟨rfl, rfl⟩ := Prod.mk.injEq .. ▸ Except.ok.inj ok
        omega
termination_by rest.length
decreasing_by
  · simp only [List.length_drop]
    omega
  · simp only [List.length_drop]
    omega

def rowEnd (rows : Rows) (pos : Nat) (rest : List UInt8) : Except CsvError (Nat × Nat) :=
  match _found : find rows.rowStops rest with
  | none => .ok (pos + rest.length, pos + rest.length)
  | some (run, byte, after) =>
    let hit := pos + run.length
    if some byte = rows.escape then
      rows.rowEnd (hit + 1 + min 1 after.length) (after.drop 1)
    else if some byte = rows.quote then
      if rows.doubles ∧ after.head? = some byte then rows.rowEnd (hit + 2) (after.drop 1)
      else match _closed : rows.skipQuotedValue hit (hit + 1) after with
        | .error error => .error error
        | .ok (next, left) => rows.rowEnd next left
    else match rows.terminators.find? (·.isPrefixOf (byte :: after)) with
      | some terminator => .ok (hit, hit + terminator.length)
      | none => rows.rowEnd (hit + 1) after
termination_by rest.length
decreasing_by
  · have shorter := find_shorter _found
    simp only [List.length_drop]
    omega
  · have shorter := find_shorter _found
    simp only [List.length_drop]
    omega
  · have shorter := find_shorter _found
    have closed := skipQuotedValue_shorter _closed
    omega
  · have shorter := find_shorter _found
    omega

theorem rowEnd_eq (rows : Rows) (pos : Nat) (rest : List UInt8) :
    rows.rowEnd pos rest =
      match find rows.rowStops rest with
      | none => .ok (pos + rest.length, pos + rest.length)
      | some (run, byte, after) =>
        let hit := pos + run.length
        if some byte = rows.escape then
          rows.rowEnd (hit + 1 + min 1 after.length) (after.drop 1)
        else if some byte = rows.quote then
          if rows.doubles ∧ after.head? = some byte then rows.rowEnd (hit + 2) (after.drop 1)
          else do
            let (next, left) ← rows.skipQuotedValue hit (hit + 1) after
            rows.rowEnd next left
        else match rows.terminators.find? (·.isPrefixOf (byte :: after)) with
          | some terminator => .ok (hit, hit + terminator.length)
          | none => rows.rowEnd (hit + 1) after := by
  rw [rowEnd]
  cases find rows.rowStops rest with
  | none => rfl
  | some cut =>
    dsimp only
    congr 3
    split
    · rename_i closed
      rw [closed]
      rfl
    · rename_i closed
      rw [closed]
      rfl

theorem rowEnd_advances {rows : Rows} {pos stop next : Nat} {rest : List UInt8}
    (ok : rows.rowEnd pos rest = .ok (stop, next)) :
    next ≤ pos + rest.length ∧ pos ≤ next ∧ (rest ≠ [] → pos < next) := by
  rw [rowEnd] at ok
  split at ok
  · obtain ⟨-, rfl⟩ := Prod.mk.injEq .. ▸ Except.ok.inj ok
    exact ⟨Nat.le_refl _, Nat.le_add_right _ _,
      fun some => Nat.lt_add_of_pos_right (List.length_pos_iff.mpr some)⟩
  · rename_i run byte after found
    have length := find_length found
    dsimp only at ok
    split at ok
    · have ih := rowEnd_advances ok
      simp only [List.length_drop] at ih
      omega
    · split at ok
      · split at ok
        · rename_i pair
          have ih := rowEnd_advances ok
          have some : 0 < after.length := by
            cases after with
            | nil => exact absurd pair.2 (by simp)
            | cons => exact Nat.succ_pos _
          simp only [List.length_drop] at ih
          omega
        · split at ok
          · exact absurd ok (by simp)
          · rename_i closed
            have past := skipQuotedValue_shorter closed
            have ih := rowEnd_advances ok
            omega
      · split at ok
        · rename_i terminator found
          obtain ⟨-, rfl⟩ := Prod.mk.injEq .. ▸ Except.ok.inj ok
          have some := List.length_pos_iff.mpr
            (rows.proper terminator (List.mem_of_find?_eq_some found))
          have whole := List.find?_some found
          have inside := (List.isPrefixOf_iff_prefix.mp whole).length_le
          simp only [List.length_cons] at inside
          omega
        · have ih := rowEnd_advances ok
          omega
termination_by rest.length
decreasing_by all_goals first | omega | (simp only [List.length_drop]; omega)

def takeRun (rows : Rows) (number pos : Nat) (state : CellState) (cells : Cells)
    (run : List UInt8) : Except CsvError (CellState × Cells) :=
  if run = [] then .ok (state, cells)
  else match state with
    | .afterQuote => .error (rows.error .textAfterClosingQuote number pos)
    | .start => .ok (.unquoted, cells.push run)
    | .unquoted | .quoted => .ok (state, cells.push run)

def stops (rows : Rows) : CellState → StopSet
  | .quoted => rows.quotedStops
  | _ => rows.cellStops

def parseCells (rows : Rows) (number pos : Nat) (state : CellState) (cells : Cells)
    (rest : List UInt8) : Except CsvError (CellState × Cells × Nat) :=
  match _found : find (rows.stops state) rest with
  | none => do
    let (state, cells) ← rows.takeRun number pos state cells rest
    .ok (state, cells, pos + rest.length)
  | some (run, byte, after) =>
    let hit := pos + run.length
    match rows.takeRun number pos state cells run with
    | .error error => .error error
    | .ok (state, cells) =>
      if some byte = rows.escape then
        if state = .afterQuote then .error (rows.error .textAfterClosingQuote number hit)
        else
          let state := if state = .start then .unquoted else state
          -- with nothing following, the escape character is kept
          match firstChar after with
          | some escaped =>
            parseCells rows number (hit + 1 + escaped.utf8Size) state
              (cells.push (String.utf8EncodeChar escaped)) (after.drop escaped.utf8Size)
          | none => parseCells rows number (hit + 1) state (cells.push [byte]) after
      else if some byte = rows.quote then
        let doubled := rows.doubles ∧ after.head? = some byte
        match state with
        | .start => parseCells rows number (hit + 1) .quoted cells after
        | .unquoted =>
          if doubled then
            parseCells rows number (hit + 2) .unquoted (cells.push [byte]) (after.drop 1)
          else .error (rows.error .quoteInUnquotedField number hit)
        | .quoted =>
          if doubled then
            parseCells rows number (hit + 2) .quoted (cells.push [byte]) (after.drop 1)
          else parseCells rows number (hit + 1) .afterQuote cells after
        | .afterQuote => .error (rows.error .textAfterClosingQuote number hit)
      else parseCells rows number (hit + 1) .start cells.finish after
termination_by rest.length
decreasing_by
  all_goals
    have shorter := find_shorter _found
    first | omega | (simp only [List.length_drop]; omega)

def parseRow (rows : Rows) (number pos : Nat) (content : List UInt8) :
    Except CsvError (List (List UInt8)) := do
  let (state, cells, stop) ← rows.parseCells number pos .start ⟨[], []⟩ content
  if state = .quoted then .error (rows.error .unterminatedQuote number stop)
  else .ok cells.finish.finished

/-! ### The table algorithm -/

def trimText (rows : Rows) (text : Text) : Text :=
  let text := if rows.trim.trimsStart then text.dropWhile isUnicodeWhiteSpace else text
  if rows.trim.trimsEnd then (text.reverse.dropWhile isUnicodeWhiteSpace).reverse else text

def isBlank (rows : Rows) (cells : List (List UInt8)) : Bool :=
  cells.all fun cell => (rows.trimText (decode cell)).isEmpty

def record (rows : Rows) (cells : List (List UInt8)) : List Text :=
  (cells.drop rows.skipColumns).map fun cell => rows.trimText (decode cell)

/-- How much of some content is the comment prefix, when it begins with it. -/
def commentLength (rows : Rows) (content : List UInt8) : Option Nat :=
  (rows.commentPrefix.filter (·.isPrefixOf content)).map List.length

/-- The row after `pos`, with its number: its event, or none when it is dropped. -/
def rowEvent (rows : Rows) (number stop next : Nat) :
    Except CsvError (Option Event × Rows) :=
  let content := (rows.input.drop rows.pos).take (stop - rows.pos)
  let comment := rows.commentLength content
  let read := { rows with pos := next, lastRow := number }
  if next > rows.text.length then
    let kind := if comment.isSome ∨ rows.skipsLeft > 0 then
      .notUtf8 0 (rows.text.length - rows.pos) else rows.locateInvalid rows.pos
    .error (rows.error kind number rows.text.length)
  else if rows.skipsLeft > 0 then
    let text := content.drop (comment.getD 0)
    let event := if comment.isSome ∨ text ≠ [] then some (.comment (decode text)) else none
    .ok (event, { read with skipsLeft := rows.skipsLeft - 1 })
  else match comment with
    | some length => .ok (some (.comment (decode (content.drop length))), read)
    | none =>
      match rows.parseRow number rows.pos content with
      | .error error => .error error
      | .ok cells =>
        let found := cells.length
        let expected := rows.expected.getD found
        if rows.skipBlank ∧ rows.isBlank cells then .ok (none, read)
        else if expected ≠ found ∧ ¬rows.flexible then
          .error (rows.error (.unequalLengths expected found) number rows.pos)
        else if rows.headersLeft > 0 then
          .ok (some (.header (rows.record cells)),
            { read with expected := some expected, headersLeft := rows.headersLeft - 1 })
        else .ok (some (.data (rows.record cells)), { read with expected := some expected })

theorem rowEvent_pos {rows after : Rows} {number stop next : Nat} {event : Option Event}
    (ok : rows.rowEvent number stop next = .ok (event, after)) :
    after.pos = next ∧ after.input = rows.input := by
  unfold rowEvent at ok
  dsimp only at ok
  repeat' split at ok
  all_goals cases ok
  all_goals exact ⟨rfl, rfl⟩

def remaining (rows : Rows) : Nat := rows.input.length - rows.pos

/-- The next row's event and source row number, or `none` at the end. -/
def nextEvent (rows : Rows) : Except CsvError (Option (Nat × Event × Rows)) :=
  if rows.pos ≥ rows.input.length then .ok none
  else
    let number := rows.lastRow + 1
    if number ≥ 2 ^ 64 then .error (CsvError.new .sourceRowExhausted)
    else match _split : rows.rowEnd rows.pos (rows.input.drop rows.pos) with
      | .error error => .error error
      | .ok (stop, next) =>
        match _read : rows.rowEvent number stop next with
        | .error error => .error error
        | .ok (some event, after) => .ok (some (number, event, after))
        | .ok (none, after) => after.nextEvent
termination_by rows.remaining
decreasing_by
  obtain ⟨pos, input⟩ := rowEvent_pos _read
  obtain ⟨-, -, further⟩ := rowEnd_advances _split
  have further := further (by
    intro none
    have length := congrArg List.length none
    simp only [List.length_drop, List.length_nil] at length
    omega)
  unfold remaining
  rw [pos, input]
  omega

theorem nextEvent_eq (rows : Rows) :
    rows.nextEvent =
      if rows.pos ≥ rows.input.length then .ok none
      else
        let number := rows.lastRow + 1
        if number ≥ 2 ^ 64 then .error (CsvError.new .sourceRowExhausted)
        else match rows.rowEnd rows.pos (rows.input.drop rows.pos) with
          | .error error => .error error
          | .ok (stop, next) =>
            match rows.rowEvent number stop next with
            | .error error => .error error
            | .ok (some event, after) => .ok (some (number, event, after))
            | .ok (none, after) => after.nextEvent := by
  rw [nextEvent]
  dsimp only
  congr 2
  split
  · rename_i split
    rw [split]
  · rename_i split
    rw [split]
    dsimp only
    split
    · rename_i read
      rw [read]
    · rename_i read
      rw [read]
    · rename_i read
      rw [read]

theorem nextEvent_shorter {rows after : Rows} {number : Nat} {event : Event}
    (ok : rows.nextEvent = .ok (some (number, event, after))) :
    after.remaining < rows.remaining := by
  rw [nextEvent] at ok
  split at ok
  · exact absurd ok (by simp)
  · rename_i inside
    dsimp only at ok
    split at ok
    · exact absurd ok (by simp)
    · split at ok
      · exact absurd ok (by simp)
      · rename_i stop next split
        have further := (rowEnd_advances split).2.2 (by
          intro none
          have length := congrArg List.length none
          simp only [List.length_drop, List.length_nil] at length
          omega)
        split at ok
        · exact absurd ok (by simp)
        · rename_i read
          obtain ⟨pos, input⟩ := rowEvent_pos read
          simp only [Except.ok.injEq, Option.some.injEq, Prod.mk.injEq] at ok
          obtain ⟨-, -, rfl⟩ := ok
          unfold remaining
          rw [pos, input]
          omega
        · rename_i middle read
          obtain ⟨pos, input⟩ := rowEvent_pos read
          have shorter : middle.remaining < rows.remaining := by
            unfold remaining
            rw [pos, input]
            omega
          exact Nat.lt_trans (nextEvent_shorter ok) shorter
termination_by rows.remaining

end Rows

/-! ### The streaming reader -/

structure Reader where
  rows : Except CsvError Rows
  header : Option (List Text)
  done : Bool

namespace Reader

def new (dialect : Dialect) (bytes : List UInt8) : Reader :=
  ⟨Rows.new dialect bytes, none, false⟩

def readPreamble (header : Option (List Text)) (rows : Rows) :
    Except CsvError (Option (List Text) × Rows) :=
  if rows.inPreamble then
    match _read : rows.nextEvent with
    | .error error => .error error
    | .ok none => .ok (header, rows)
    | .ok (some (_, .header record, after)) => readPreamble (some (header.getD record)) after
    | .ok (some (_, _, after)) => readPreamble header after
  else .ok (header, rows)
termination_by rows.remaining
decreasing_by all_goals exact Rows.nextEvent_shorter _read

def nextData (rows : Rows) : Except CsvError (Option (List Text × Rows)) :=
  match _read : rows.nextEvent with
  | .error error => .error error
  | .ok none => .ok none
  | .ok (some (_, .data record, after)) => .ok (some (record, after))
  | .ok (some (_, _, after)) => nextData after
termination_by rows.remaining
decreasing_by all_goals exact Rows.nextEvent_shorter _read

theorem nextData_eq (rows : Rows) :
    nextData rows =
      match rows.nextEvent with
      | .error error => .error error
      | .ok none => .ok none
      | .ok (some (_, .data record, after)) => .ok (some (record, after))
      | .ok (some (_, _, after)) => nextData after := by
  rw [nextData]
  split <;> simp_all

def nextRecord (reader : Reader) : Option (Except CsvError (List Text) × Reader) :=
  if reader.done then none
  else
    let read := do
      let rows ← reader.rows
      let (header, rows) ← readPreamble reader.header rows
      let next ← nextData rows
      .ok (header, next)
    match read with
    | .error error => some (.error error, { reader with rows := .error error, done := true })
    | .ok (_, none) => none
    | .ok (header, some (record, rows)) =>
      some (.ok record, { reader with rows := .ok rows, header := header })

theorem readPreamble_remaining {header kept : Option (List Text)} {rows after : Rows}
    (ok : readPreamble header rows = .ok (kept, after)) : after.remaining ≤ rows.remaining := by
  rw [readPreamble] at ok
  split at ok
  · split at ok
    · cases ok
    · cases ok
      exact Nat.le_refl _
    · rename_i read
      have shorter := Rows.nextEvent_shorter read
      exact Nat.le_trans (readPreamble_remaining ok) (Nat.le_of_lt shorter)
    · rename_i read
      have shorter := Rows.nextEvent_shorter read
      exact Nat.le_trans (readPreamble_remaining ok) (Nat.le_of_lt shorter)
  · cases ok
    exact Nat.le_refl _
termination_by rows.remaining

theorem nextData_shorter {rows after : Rows} {record : List Text}
    (ok : nextData rows = .ok (some (record, after))) : after.remaining < rows.remaining := by
  rw [nextData] at ok
  split at ok
  · cases ok
  · cases ok
  · rename_i read
    cases ok
    exact Rows.nextEvent_shorter read
  · rename_i read
    have shorter := Rows.nextEvent_shorter read
    exact Nat.lt_trans (nextData_shorter ok) shorter
termination_by rows.remaining

def left (reader : Reader) : Nat :=
  if reader.done then 0
  else match reader.rows with
    | .error _ => 1
    | .ok rows => 1 + rows.remaining

theorem nextRecord_left {reader after : Reader} {item : Except CsvError (List Text)}
    (next : reader.nextRecord = some (item, after)) : after.left < reader.left := by
  unfold nextRecord at next
  split at next
  · cases next
  · rename_i running
    unfold left
    rw [if_neg running]
    dsimp only at next
    split at next
    · cases next
      cases reader.rows with
      | error => exact Nat.one_pos
      | ok rows => exact Nat.lt_add_right _ Nat.one_pos
    · cases next
    · rename_i read
      cases next
      obtain ⟨rows, opened, read⟩ := bind_ok.mp read
      obtain ⟨⟨header, rest⟩, preamble, read⟩ := bind_ok.mp read
      obtain ⟨next, data, read⟩ := bind_ok.mp read
      cases read
      have front := readPreamble_remaining preamble
      have shorter := nextData_shorter data
      rw [opened]
      dsimp only at shorter ⊢
      rw [if_neg running]
      omega

def records (reader : Reader) : List (Except CsvError (List Text)) :=
  match _next : reader.nextRecord with
  | none => []
  | some (item, after) => item :: after.records
termination_by reader.left
decreasing_by exact nextRecord_left _next

theorem records_eq (reader : Reader) :
    reader.records =
      match reader.nextRecord with
      | none => []
      | some (item, after) => item :: after.records := by
  rw [records]
  split
  · rename_i next
    rw [next]
  · rename_i next
    rw [next]

end Reader

end Purrdf.Csv
