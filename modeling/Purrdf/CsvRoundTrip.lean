import Purrdf.CsvRows

/-!
# Reading back what was written

The records of a written table, read row by row: rows that begin with the comment prefix are
dropped, all others come back. The writer quotes what would be read as a comment; what it does not
quote is a byte order mark.
-/

namespace Purrdf.Csv

open Utf8

def Dialect.comments (dialect : Dialect) (content : List UInt8) : Bool :=
  dialect.prefixBytes.any (·.isPrefixOf content)

def Dialect.Plain (dialect : Dialect) (cell : Cell) : Prop :=
  cell.quoted = false → ∀ byte ∈ encode cell.text, ¬dialect.Structural byte

def Dialect.Ends (dialect : Dialect) (layout : Layout) :
    List (List Cell) → Prop
  | [] => True
  | _ :: table =>
    dialect.terminators.find? (·.isPrefixOf (layout.terminator ++ layout.tableText table)) =
      some layout.terminator ∧ dialect.Ends layout table

/-- An engine that is about to read `rest`: it drops nothing but comments. -/
structure Rows.At (rows : Rows) (dialect : Dialect) (layout : Layout) (rest : List UInt8) :
    Prop where
  quotes : dialect.Quotes layout
  reads : rows.Reads layout
  commentPrefix : rows.commentPrefix = dialect.prefixBytes
  terminators : rows.terminators = dialect.terminators
  trim : rows.trim = .none
  skipColumns : rows.skipColumns = 0
  skipBlank : rows.skipBlank = false
  flexible : rows.flexible = dialect.flexible
  skipsLeft : rows.skipsLeft = 0
  headersLeft : rows.headersLeft = 0
  text : rows.text = rows.input
  inside : rows.pos ≤ rows.input.length
  rest : rows.input.drop rows.pos = rest

def Rows.past (rows : Rows) (next : Nat) (expected : Option Nat) : Rows :=
  { rows with pos := next, lastRow := rows.lastRow + 1, expected := expected }

namespace Rows.At

variable {rows : Rows} {dialect : Dialect} {layout : Layout} {rest : List UInt8}

section

variable (here : rows.At dialect layout rest)

include here

theorem past {next : Nat} (inside : next ≤ rows.input.length) (expected : Option Nat) :
    (rows.past next expected).At dialect layout (rows.input.drop next) := by
  have reads := here.reads
  exact ⟨here.quotes, ⟨reads.delimiter, reads.quote, reads.doubles, reads.escape, reads.quotedStops,
    reads.cellStops, reads.rowStops, reads.plain, reads.ascii, reads.apart⟩, here.commentPrefix,
    here.terminators, here.trim, here.skipColumns, here.skipBlank, here.flexible, here.skipsLeft,
    here.headersLeft, here.text, inside, rfl⟩

theorem remaining : rows.input.length = rows.pos + rest.length := by
  have inside := here.inside
  rw [← here.rest, List.length_drop]
  omega

theorem not_inPreamble : rows.inPreamble = false := by
  unfold Rows.inPreamble
  rw [here.skipsLeft, here.headersLeft]
  rfl

theorem record_eq (row : List Cell) :
    rows.record (row.map fun cell => encode cell.text) = row.map Cell.text := by
  unfold Rows.record
  rw [here.skipColumns, List.drop_zero, List.map_map]
  apply List.map_congr_left
  intro cell mem
  simp [Rows.trimText, here.trim, Trim.trimsStart, Trim.trimsEnd, decode_encode]

theorem nextData_full (some : rest ≠ []) (full : 2 ^ 64 ≤ rows.lastRow + 1) :
    Reader.nextData rows = .error (CsvError.new .sourceRowExhausted) := by
  have length := here.remaining
  have left := List.length_pos_iff.mpr some
  have refused : rows.nextEvent = .error (CsvError.new .sourceRowExhausted) := by
    rw [Rows.nextEvent_eq, if_neg (by omega)]
    exact if_pos full
  rw [Reader.nextData_eq, refused]

theorem commentLength_isSome (content : List UInt8) :
    (rows.commentLength content).isSome = dialect.comments content := by
  unfold Rows.commentLength Dialect.comments
  rw [here.commentPrefix]
  cases dialect.prefixBytes with
  | none => rfl
  | some comment => cases begins : comment.isPrefixOf content <;> simp [Option.filter, begins]

theorem plain_cell {cell : Cell} (plain : dialect.Plain cell) : rows.Plain cell := by
  intro unquoted byte mem
  have free := plain unquoted byte mem
  constructor
  · rw [here.reads.rowStops, List.mem_append]
    rintro (stop | first)
    · exact free (here.quotes.structural stop)
    · obtain ⟨terminator, listed, head⟩ := List.mem_filterMap.mp first
      rw [here.terminators] at listed
      exact free (Or.inr (Or.inr (Or.inr (Or.inr (Or.inr ⟨terminator, listed, head⟩)))))
  · rw [here.reads.cellStops, List.mem_cons]
    rintro (same | stop)
    · exact free (Or.inl (same.trans here.quotes.delimiter))
    · exact free (here.quotes.structural stop)

end

theorem nextData_nil (here : rows.At dialect layout []) : Reader.nextData rows = .ok none := by
  have length := here.remaining
  have ended : rows.nextEvent = .ok none := by
    rw [Rows.nextEvent_eq]
    exact if_pos (by rw [length]; exact Nat.le_refl _)
  rw [Reader.nextData_eq, ended]

section

variable {row : List Cell} {terminator after : List UInt8}

theorem noSkips (here : rows.At dialect layout rest) : ¬rows.skipsLeft > 0 := by
  rw [here.skipsLeft]
  exact Nat.lt_irrefl 0

variable (here : rows.At dialect layout (layout.rowText row ++ (terminator ++ after)))

include here

theorem rowEnd_here (plain : ∀ cell ∈ row, dialect.Plain cell)
    (first : rows.terminators.find? (·.isPrefixOf (terminator ++ after)) = some terminator) :
    rows.rowEnd rows.pos (rows.input.drop rows.pos) =
      .ok (rows.pos + (layout.rowText row).length,
        rows.pos + (layout.rowText row).length + terminator.length) := by
  rw [here.rest]
  exact here.reads.rowEnd_row rows.pos (fun cell mem => here.plain_cell (plain cell mem)) first

theorem drop_past :
    rows.input.drop (rows.pos + (layout.rowText row).length + terminator.length) = after := by
  rw [Nat.add_assoc, ← List.drop_drop, here.rest, ← List.drop_drop, List.drop_left, List.drop_left]

theorem past_inside :
    rows.pos + (layout.rowText row).length + terminator.length ≤ rows.input.length := by
  have length := here.remaining
  simp only [List.length_append] at length
  omega

theorem valid :
    ¬rows.pos + (layout.rowText row).length + terminator.length > rows.text.length := by
  rw [here.text]
  exact Nat.not_lt.mpr here.past_inside

theorem content :
    (rows.input.drop rows.pos).take (rows.pos + (layout.rowText row).length - rows.pos) =
      layout.rowText row := by
  rw [here.rest, Nat.add_sub_cancel_left, List.take_left]

theorem nextEvent_row (plain : ∀ cell ∈ row, dialect.Plain cell)
    (first : rows.terminators.find? (·.isPrefixOf (terminator ++ after)) = some terminator)
    (left : rows.lastRow + 1 < 2 ^ 64) {event : Event} {next : Rows}
    (read : rows.rowEvent (rows.lastRow + 1) (rows.pos + (layout.rowText row).length) (rows.pos + (layout.rowText row).length + terminator.length) = .ok (some event, next)) :
    rows.nextEvent = .ok (some (rows.lastRow + 1, event, next)) := by
  have inside := here.past_inside
  have terminated : 0 < terminator.length :=
    List.length_pos_iff.mpr (rows.proper terminator (List.mem_of_find?_eq_some first))
  rw [Rows.nextEvent_eq, if_neg (by omega)]
  dsimp only
  rw [if_neg (Nat.not_le.mpr left), here.rowEnd_here plain first]
  dsimp only
  rw [read]

theorem nextData_comment (plain : ∀ cell ∈ row, dialect.Plain cell)
    (first : rows.terminators.find? (·.isPrefixOf (terminator ++ after)) = some terminator)
    (left : rows.lastRow + 1 < 2 ^ 64) (comments : dialect.comments (layout.rowText row) = true) :
    ∃ next, Reader.nextData rows = Reader.nextData next ∧ next.At dialect layout after ∧
      next.lastRow = rows.lastRow + 1 ∧ next.expected = rows.expected := by
  rw [← here.commentLength_isSome] at comments
  obtain ⟨length, comment⟩ := Option.isSome_iff_exists.mp comments
  have inside := here.past_inside
  have event : rows.rowEvent (rows.lastRow + 1) (rows.pos + (layout.rowText row).length)
      (rows.pos + (layout.rowText row).length + terminator.length) =
        .ok (some (.comment (decode ((layout.rowText row).drop length))),
          rows.past (rows.pos + (layout.rowText row).length + terminator.length)
            rows.expected) := by
    unfold Rows.rowEvent
    rw [here.content]
    dsimp only
    rw [comment, if_neg here.valid, if_neg here.noSkips]
    rfl
  have read := here.nextEvent_row plain first left event
  refine ⟨rows.past _ rows.expected, ?_, here.drop_past ▸ here.past inside rows.expected, rfl, rfl⟩
  rw [Reader.nextData_eq, read]

theorem nextData_data (full : row ≠ []) (plain : ∀ cell ∈ row, dialect.Plain cell)
    (first : rows.terminators.find? (·.isPrefixOf (terminator ++ after)) = some terminator)
    (left : rows.lastRow + 1 < 2 ^ 64) (data : dialect.comments (layout.rowText row) = false)
    {lengths : List Nat} (fits : dialect.Fits rows.expected (row.length :: lengths)) :
    ∃ next, Reader.nextData rows = .ok (some (row.map Cell.text, next)) ∧
      next.At dialect layout after ∧ next.lastRow = rows.lastRow + 1 ∧
        dialect.Fits next.expected lengths := by
  rw [← here.commentLength_isSome] at data
  have none : rows.commentLength (layout.rowText row) = none := Option.isSome_eq_false_iff.mp data |>
    Option.isNone_iff_eq_none.mp
  obtain ⟨same, rest⟩ := fits.first
  have inside := here.past_inside
  have event : rows.rowEvent (rows.lastRow + 1) (rows.pos + (layout.rowText row).length)
      (rows.pos + (layout.rowText row).length + terminator.length) =
        .ok (some (.data (row.map Cell.text)),
          rows.past (rows.pos + (layout.rowText row).length + terminator.length)
            (some (rows.expected.getD row.length))) := by
    have kept : ¬(rows.skipBlank = true ∧
        rows.isBlank (row.map fun cell => encode cell.text) = true) := by
      rw [here.skipBlank]
      simp
    have equal : ¬(rows.expected.getD row.length ≠ row.length ∧ ¬rows.flexible = true) := by
      rintro ⟨differs, rigid⟩
      rw [here.flexible] at rigid
      rcases same with same | flexible
      · exact differs same
      · exact rigid flexible
    have noHeaders : ¬rows.headersLeft > 0 := by
      rw [here.headersLeft]
      exact Nat.lt_irrefl 0
    unfold Rows.rowEvent
    rw [here.content]
    dsimp only
    rw [none, if_neg here.valid, if_neg here.noSkips]
    dsimp only
    rw [here.reads.parseRow_row _ _ full fun cell mem => here.plain_cell (plain cell mem)]
    dsimp only
    rw [List.length_map, if_neg kept, if_neg equal, if_neg noHeaders, here.record_eq]
    rfl
  have read := here.nextEvent_row plain first left event
  refine ⟨_, ?_, here.drop_past ▸ here.past inside _, rfl, rest⟩
  rw [Reader.nextData_eq, read]

end

def yields (rows : Rows) : List (Except CsvError (List Text)) :=
  Reader.records ⟨.ok rows, none, false⟩

theorem yields_eq (here : rows.At dialect layout rest) :
    yields rows =
      match Reader.nextData rows with
      | .error error => [.error error]
      | .ok none => []
      | .ok (some (record, next)) => .ok record :: yields next := by
  have opened : Reader.readPreamble none rows = .ok (none, rows) := by
    rw [Reader.readPreamble, if_neg (by simp [here.not_inPreamble])]
  unfold yields
  rw [Reader.records_eq, Reader.nextRecord]
  simp only [bind, Except.bind, opened]
  cases Reader.nextData rows with
  | error error =>
    simp only [Bool.false_eq_true, if_false]
    rw [Reader.records_eq]
    rfl
  | ok read =>
    cases read with
    | none => rfl
    | some next => rfl

/-- The records of a table, but those that are read as comments; a table of more rows than there
are source row numbers is not read to its end. -/
theorem yields_table {table : List (List Cell)}
    (here : rows.At dialect layout (layout.tableText table))
    (full : ∀ row ∈ table, row ≠ []) (plain : ∀ row ∈ table, ∀ cell ∈ row, dialect.Plain cell)
    (ends : dialect.Ends layout table) (fits : dialect.Fits rows.expected (table.map List.length))
    (low : rows.lastRow < 2 ^ 64) :
    (rows.lastRow + table.length < 2 ^ 64 → yields rows =
      (table.filter fun row => !dialect.comments (layout.rowText row)).map
        fun row => .ok (row.map Cell.text)) ∧
    (2 ^ 64 ≤ rows.lastRow + table.length → ∃ error, .error error ∈ yields rows) := by
  induction table generalizing rows with
  | nil =>
    refine ⟨fun _ => ?_, fun excess => absurd excess (Nat.not_le.mpr low)⟩
    rw [here.yields_eq, here.nextData_nil]
    rfl
  | cons row table ih =>
    rw [Layout.tableText_cons] at here
    rw [List.length_cons]
    obtain ⟨first, ends⟩ := ends
    rw [← here.terminators] at first
    obtain ⟨rowFull, fullRest⟩ := List.forall_mem_cons.mp full
    obtain ⟨rowPlain, plainRest⟩ := List.forall_mem_cons.mp plain
    by_cases last : rows.lastRow + 1 < 2 ^ 64
    · cases comments : dialect.comments (layout.rowText row) with
      | true =>
        obtain ⟨next, same, there, number, expected⟩ :=
          here.nextData_comment rowPlain first last comments
        obtain ⟨read, refused⟩ := ih there fullRest plainRest ends (expected ▸ fits.rest) (by omega)
        rw [here.yields_eq, same, ← there.yields_eq,
          List.filter_cons_of_neg (by simp [comments])]
        exact ⟨fun left => read (by omega), fun excess => refused (by omega)⟩
      | false =>
        obtain ⟨next, data, there, number, fits⟩ :=
          here.nextData_data rowFull rowPlain first last comments fits
        obtain ⟨read, refused⟩ := ih there fullRest plainRest ends fits (by omega)
        rw [here.yields_eq, data, List.filter_cons_of_pos (by simp [comments])]
        refine ⟨fun left => congrArg _ (read (by omega)), fun excess => ?_⟩
        obtain ⟨error, mem⟩ := refused (by omega)
        exact ⟨error, List.mem_cons_of_mem _ mem⟩
    · have some : layout.rowText row ++ (layout.terminator ++ layout.tableText table) ≠ [] := by
        intro none
        have terminator := (List.append_eq_nil_iff.mp (List.append_eq_nil_iff.mp none).2).1
        exact rows.proper _ (List.mem_of_find?_eq_some first) terminator
      refine ⟨fun left => by omega, fun _ => ⟨CsvError.new .sourceRowExhausted, ?_⟩⟩
      rw [here.yields_eq, here.nextData_full some (Nat.not_lt.mp last)]
      exact List.mem_singleton.mpr rfl

end Rows.At

end Purrdf.Csv
