import Purrdf.CsvRoundTrip

/-!
# Writing and reading are inverse

For a dialect that can quote every field and leaves nothing out, the reader gives back the records
that were written, unless the first field begins with a byte order mark and is not quoted: the
reader takes the mark for that of the file.
-/

namespace Purrdf.Csv

open Utf8

/-- A dialect that can quote every field, leaves nothing out, and has no two meanings for one
byte. -/
structure Dialect.Invertible (dialect : Dialect) (quote : UInt8) : Prop where
  quoteChar : dialect.quoteChar = some quote
  able : dialect.doublesQuote = true ∨ dialect.distinctEscape.isSome
  trim : dialect.trim = .none
  skipInitialSpace : dialect.skipInitialSpace = false
  skipRows : dialect.skipRows = 0
  skipColumns : dialect.skipColumns = 0
  headerRowCount : dialect.headerRowCount = 0
  skipBlankRows : dialect.skipBlankRows = false
  delimiter : dialect.delimiter ≠ quote ∧ dialect.distinctEscape ≠ some dialect.delimiter
  terminators : ∀ terminator ∈ dialect.terminators, ∀ first, terminator.head? = some first →
    first ≠ dialect.delimiter ∧ first ≠ quote ∧ dialect.distinctEscape ≠ some first
  /-- The comment prefix is not empty and has no byte that is structure. -/
  comment : ∀ comment, dialect.prefixBytes = some comment → comment ≠ [] ∧
    ∀ byte ∈ comment, byte ≠ dialect.delimiter ∧ byte ≠ quote ∧
      dialect.distinctEscape ≠ some byte ∧
        ∀ terminator ∈ dialect.terminators, terminator.head? ≠ some byte
  /-- The record terminator is the first line terminator that matches before any records. -/
  ends : ∀ records bytes, dialect.write records = .ok bytes →
    dialect.terminators.find? (·.isPrefixOf (encode dialect.recordTerminator ++ bytes)) =
      some (encode dialect.recordTerminator)

theorem Dialect.distinctEscape_ne {dialect : Dialect} {quote : UInt8}
    (quoteChar : dialect.quoteChar = some quote) : dialect.distinctEscape ≠ some quote := by
  unfold Dialect.distinctEscape
  rw [quoteChar]
  cases dialect.escape with
  | none => simp
  | some escape =>
    dsimp only
    split
    · simp
    · rename_i differs
      intro same
      exact differs (Option.some.inj same)

namespace Dialect.Invertible

variable {dialect : Dialect} {quote : UInt8}

def layout (invertible : dialect.Invertible quote) : Layout where
  delimiter := dialect.delimiter
  quoting :=
    { quote := quote
      doubles := dialect.doublesQuote
      escape := dialect.distinctEscape
      distinct := distinctEscape_ne invertible.quoteChar
      able := invertible.able }
  terminator := encode dialect.recordTerminator

theorem quotes (invertible : dialect.Invertible quote) : dialect.Quotes invertible.layout :=
  ⟨rfl, invertible.quoteChar, rfl, rfl, rfl⟩

theorem prefixed (invertible : dialect.Invertible quote) : dialect.commentPrefix ≠ some [] := by
  intro empty
  apply (invertible.comment [] _).1 rfl
  unfold Dialect.prefixBytes
  rw [empty]
  rfl

theorem ascii (invertible : dialect.Invertible quote) (checked : dialect.Checked) :
    ∀ byte ∈ invertible.layout.quoting.stops, byte < 0x80 := by
  intro byte stop
  rcases (Quoting.mem_stops _).mp stop with rfl | escape
  · exact (checked.quote _ invertible.quoteChar).1
  · have listed : dialect.escape = some byte := by
      change dialect.distinctEscape = some byte at escape
      unfold Dialect.distinctEscape at escape
      rw [invertible.quoteChar] at escape
      cases given : dialect.escape with
      | none =>
        rw [given] at escape
        exact absurd escape (by simp)
      | some other =>
        rw [given] at escape
        dsimp only at escape
        split at escape
        · exact absurd escape (by simp)
        · exact escape
    exact (checked.escape byte listed).1

theorem opened (invertible : dialect.Invertible quote) (checked : dialect.Checked)
    (chars : List Char) :
    ∃ rows, Rows.new dialect (encode chars) = .ok rows ∧
      rows.At dialect invertible.layout ((encode chars).drop rows.pos) ∧
        rows.pos = (if byteOrderMark.isPrefixOf (encode chars) then 3 else 0) ∧
          rows.lastRow = 0 ∧ rows.expected = none := by
  have ok := Dialect.check_ok.mpr checked
  unfold Rows.new
  split
  · rename_i refused
    rw [ok] at refused
    exact absurd refused (by simp)
  · refine ⟨_, rfl, ?_, rfl, rfl, rfl⟩
    have stops : dialect.quoteChar.toList ++ dialect.distinctEscape.toList =
        invertible.layout.quoting.stops := by
      rw [invertible.quoteChar]
      rfl
    have plain : dialect.delimiter ∉ invertible.layout.quoting.stops := by
      rw [Quoting.mem_stops]
      exact not_or.mpr invertible.delimiter
    have apart : ∀ byte ∈ dialect.terminators.filterMap List.head?,
        byte ∉ invertible.layout.quoting.stops ∧ byte ≠ dialect.delimiter := by
      intro byte mem
      obtain ⟨terminator, listed, first⟩ := List.mem_filterMap.mp mem
      obtain ⟨delimiter, quote, escape⟩ := invertible.terminators terminator listed byte first
      rw [Quoting.mem_stops]
      exact ⟨not_or.mpr ⟨quote, escape⟩, delimiter⟩
    have trim : dialect.effectiveTrim = .none := by
      unfold Dialect.effectiveTrim
      rw [invertible.trim, invertible.skipInitialSpace]
    have inside : (if byteOrderMark.isPrefixOf (encode chars) = true then byteOrderMark.length
        else 0) ≤ (encode chars).length := by
      split
      · rename_i marked
        exact (List.isPrefixOf_iff_prefix.mp marked).length_le
      · exact Nat.zero_le _
    exact ⟨invertible.quotes, ⟨rfl, invertible.quoteChar, rfl, rfl, stops, congrArg _ stops,
      congrArg (· ++ _) stops, plain, invertible.ascii checked, apart⟩, rfl, rfl, trim,
      invertible.skipColumns, invertible.skipBlankRows, rfl, invertible.skipRows,
      invertible.headerRowCount, congrArg encode (decode_encode chars), inside, rfl⟩

end Dialect.Invertible

/-! ### The cells of a record -/

section

variable {dialect : Dialect}

theorem Dialect.cells_cons (dialect : Dialect) (text : Text) (texts : List Text) :
    dialect.cells (text :: texts) = [⟨true, []⟩] ∧ text = [] ∧ texts = [] ∨
      (text ≠ [] ∨ texts ≠ []) ∧ dialect.cells (text :: texts) =
        ⟨dialect.quotes (Quoter.forced dialect.prefixBytes 0 (encode text)) text, text⟩ ::
          texts.map dialect.laterCell := by
  cases texts with
  | nil =>
    cases text with
    | nil => exact Or.inl ⟨rfl, rfl, rfl⟩
    | cons char text => exact Or.inr ⟨Or.inl (by simp), rfl⟩
  | cons other texts =>
    refine Or.inr ⟨Or.inr (by simp), ?_⟩
    cases text <;> rfl

theorem Dialect.quotes_plain {forced : Bool} {text : Text}
    (unquoted : dialect.quotes forced text = false) :
    forced = false ∧ ∀ byte ∈ encode text, ¬dialect.Structural byte := by
  unfold Dialect.quotes at unquoted
  have none := of_decide_eq_false unquoted
  rw [not_or, not_or] at none
  obtain ⟨-, free, plain⟩ := none
  exact ⟨by simpa using free, fun byte mem structural => plain ⟨byte, mem, structural⟩⟩

theorem Dialect.laterCell_plain (text : Text) : dialect.Plain (dialect.laterCell text) :=
  fun unquoted => (Dialect.quotes_plain unquoted).2

theorem Dialect.cells_plain (record : List Text) :
    ∀ cell ∈ dialect.cells record, dialect.Plain cell := by
  cases record with
  | nil => simp [Dialect.cells]
  | cons text texts =>
    have later : ∀ cell ∈ texts.map dialect.laterCell, dialect.Plain cell := by
      intro cell mem
      obtain ⟨other, -, rfl⟩ := List.mem_map.mp mem
      exact Dialect.laterCell_plain other
    rcases dialect.cells_cons text texts with ⟨alone, -, -⟩ | ⟨-, cells⟩
    · rw [alone]
      intro cell mem unquoted
      obtain rfl := List.mem_singleton.mp mem
      exact absurd unquoted (by simp)
    · rw [cells]
      intro cell mem
      rcases List.mem_cons.mp mem with rfl | mem
      · exact fun unquoted => (Dialect.quotes_plain unquoted).2
      · exact later cell mem

theorem Dialect.cells_length (record : List Text) :
    (dialect.cells record).length = record.length := by
  rw [← List.length_map (f := Cell.text), dialect.cells_texts]

theorem Dialect.cells_ne_nil {record : List Text} (full : record ≠ []) :
    dialect.cells record ≠ [] := by
  intro none
  have length := dialect.cells_length record
  rw [none] at length
  exact full (List.length_eq_zero_iff.mp length.symm)

end

namespace Dialect.Invertible

variable {dialect : Dialect} {quote : UInt8} (invertible : dialect.Invertible quote)

include invertible

/-- A row that begins with an unquoted field and then has others is a comment when that field
begins with the prefix. -/
theorem comments_row (text : Text) (texts : List Text) :
    dialect.comments (invertible.layout.rowText (⟨false, text⟩ :: texts.map dialect.laterCell)) =
      dialect.comments (encode text) := by
  unfold Dialect.comments
  cases given : dialect.prefixBytes with
  | none => rfl
  | some comment =>
    obtain ⟨-, free⟩ := invertible.comment comment given
    simp only [Option.any_some]
    rw [Bool.eq_iff_iff, List.isPrefixOf_iff_prefix, List.isPrefixOf_iff_prefix]
    constructor
    · rintro ⟨tail, begins⟩
      change comment ++ tail = encode text ++ invertible.layout.moreText
        (texts.map dialect.laterCell) at begins
      rcases List.append_eq_append_iff.mp begins with ⟨rest, whole, -⟩ | ⟨rest, whole, others⟩
      · exact ⟨rest, whole.symm⟩
      · cases rest with
        | nil =>
          rw [List.append_nil] at whole
          exact ⟨[], by rw [whole, List.append_nil]⟩
        | cons byte rest =>
          -- the prefix would have a delimiter
          cases texts with
          | nil => exact absurd others (by simp [Layout.moreText])
          | cons other texts =>
            have delimiter : dialect.delimiter = byte := (List.cons.inj others).1
            have mem : byte ∈ comment := by
              rw [whole]
              exact List.mem_append_right _ List.mem_cons_self
            exact absurd delimiter.symm (free byte mem).1
    · rintro ⟨tail, begins⟩
      refine ⟨tail ++ invertible.layout.moreText (texts.map dialect.laterCell), ?_⟩
      change _ = encode text ++ _
      rw [← begins, List.append_assoc]

theorem comments_quoted (text : Text) (cells : List Cell) :
    dialect.comments (invertible.layout.rowText (⟨true, text⟩ :: cells)) = false := by
  unfold Dialect.comments
  cases given : dialect.prefixBytes with
  | none => rfl
  | some comment =>
    obtain ⟨some, free⟩ := invertible.comment comment given
    cases comment with
    | nil => exact absurd rfl some
    | cons first comment =>
      have other : first ≠ quote := (free first List.mem_cons_self).2.1
      have begins : ¬first :: comment <+: invertible.layout.rowText (⟨true, text⟩ :: cells) := by
        rintro ⟨tail, begins⟩
        exact other (List.cons.inj begins).1
      exact Bool.eq_false_iff.mpr fun yes => begins (List.isPrefixOf_iff_prefix.mp yes)

theorem comments_cells {record : List Text} (full : record ≠ []) :
    dialect.comments (invertible.layout.rowText (dialect.cells record)) = false := by
  cases record with
  | nil => exact absurd rfl full
  | cons text texts =>
    rcases dialect.cells_cons text texts with ⟨alone, -, -⟩ | ⟨-, cells⟩
    · rw [alone]
      exact invertible.comments_quoted [] []
    · rw [cells]
      cases quoted : dialect.quotes (Quoter.forced dialect.prefixBytes 0 (encode text)) text with
      | true => exact invertible.comments_quoted text _
      | false =>
        have free := (Dialect.quotes_plain quoted).1
        rw [invertible.comments_row]
        simpa [Quoter.forced, Dialect.comments] using free

theorem cellText_isUtf8 (checked : dialect.Checked) (cell : Cell) :
    IsUtf8 (invertible.layout.cellText cell) := by
  unfold Layout.cellText
  split
  · exact Quoting.enclosed_isUtf8 _ (invertible.ascii checked) cell.text
  · exact isUtf8_encode cell.text

theorem moreText_isUtf8 (checked : dialect.Checked) (cells : List Cell) :
    IsUtf8 (invertible.layout.moreText cells) := by
  induction cells with
  | nil => exact isUtf8_nil
  | cons cell cells ih =>
    have delimiter : IsUtf8 [dialect.delimiter] := isUtf8_ascii checked.delimiter
    exact delimiter.append ((invertible.cellText_isUtf8 checked cell).append ih)

theorem tableText_isUtf8 (checked : dialect.Checked) (table : List (List Cell)) :
    IsUtf8 (invertible.layout.tableText table) := by
  induction table with
  | nil => exact isUtf8_nil
  | cons row table ih =>
    have terminator : IsUtf8 invertible.layout.terminator := isUtf8_encode _
    rw [Layout.tableText_cons]
    refine IsUtf8.append ?_ (terminator.append ih)
    cases row with
    | nil => exact isUtf8_nil
    | cons cell cells =>
      exact (invertible.cellText_isUtf8 checked cell).append (invertible.moreText_isUtf8 checked cells)

theorem ends_cells {quoter : Quoter} (ok : Quoter.new dialect = .ok quoter)
    {records : List (List Text)} (full : ∀ record ∈ records, record ≠ [])
    (fits : dialect.Fits none (records.map List.length)) :
    dialect.Ends invertible.layout (records.map dialect.cells) := by
  induction records with
  | nil => trivial
  | cons record records ih =>
    have fullRest : ∀ other ∈ records, other ≠ [] :=
      fun other mem => full other (List.mem_cons_of_mem record mem)
    have written := Dialect.write_eq ok invertible.quotes invertible.prefixed fullRest fits.rest
    exact ⟨invertible.ends records _ written, ih fullRest fits.rest⟩

end Dialect.Invertible

/-- The first field begins with a byte order mark, and is not quoted. -/
def Dialect.Marked (dialect : Dialect) (records : List (List Text)) : Prop :=
  ∃ text texts later, records = (('\uFEFF' :: text) :: texts) :: later ∧
    dialect.quotes (Quoter.forced dialect.prefixBytes 0 (encode ('\uFEFF' :: text)))
      ('\uFEFF' :: text) = false

theorem byteOrderMark_eq : byteOrderMark = String.utf8EncodeChar '\uFEFF' := by decide

namespace Dialect.Invertible

variable {dialect : Dialect} {quote : UInt8} (invertible : dialect.Invertible quote)

include invertible

theorem quote_ascii (checked : dialect.Checked) : quote < 0x80 :=
  (checked.quote quote invertible.quoteChar).1

variable {records : List (List Text)}

theorem unmarked (checked : dialect.Checked) (full : ∀ record ∈ records, record ≠ [])
    (plain : ¬dialect.Marked records) :
    byteOrderMark.isPrefixOf (invertible.layout.tableText (records.map dialect.cells)) = false := by
  rw [Bool.eq_false_iff]
  intro begins
  obtain ⟨tail, begins⟩ := List.isPrefixOf_iff_prefix.mp begins
  have high : ¬(0xEF : UInt8) < 0x80 := by decide
  have notQuote : (0xEF : UInt8) ≠ quote :=
    fun same => high (same ▸ invertible.quote_ascii checked)
  cases records with
  | nil => exact absurd begins (by simp [Layout.tableText, byteOrderMark])
  | cons record later =>
    cases record with
    | nil => exact absurd rfl (full [] List.mem_cons_self)
    | cons text texts =>
      rw [List.map_cons, Layout.tableText_cons] at begins
      rcases dialect.cells_cons text texts with ⟨alone, -, -⟩ | ⟨some, cells⟩
      · rw [alone] at begins
        exact notQuote (List.cons.inj begins).1
      · rw [cells] at begins
        cases quoted : dialect.quotes (Quoter.forced dialect.prefixBytes 0 (encode text)) text with
        | true =>
          rw [quoted] at begins
          exact notQuote (List.cons.inj begins).1
        | false =>
          rw [quoted] at begins
          cases text with
          | nil =>
            cases texts with
            | nil => exact absurd some (by simp)
            | cons other texts =>
              have same : (0xEF : UInt8) = dialect.delimiter := (List.cons.inj begins).1
              exact high (same ▸ checked.delimiter)
          | cons char text =>
            have front : invertible.layout.cellText ⟨false, char :: text⟩ =
                String.utf8EncodeChar char ++ encode text := rfl
            rw [Layout.rowText_cons, front, byteOrderMark_eq, List.append_assoc,
              List.append_assoc] at begins
            obtain rfl := first_unique begins
            exact plain ⟨text, texts, later, rfl, quoted⟩

theorem records_table (checked : dialect.Checked) {chars : List Char} {table : List (List Cell)}
    (after : ∀ pos, pos = (if byteOrderMark.isPrefixOf (encode chars) then 3 else 0) →
      (encode chars).drop pos = invertible.layout.tableText table)
    (full : ∀ row ∈ table, row ≠ []) (plain : ∀ row ∈ table, ∀ cell ∈ row, dialect.Plain cell)
    (ends : dialect.Ends invertible.layout table)
    (fits : dialect.Fits none (table.map List.length)) :
    (table.length < 2 ^ 64 → (Reader.new dialect (encode chars)).records =
      (table.filter fun row => !dialect.comments (invertible.layout.rowText row)).map
        fun row => .ok (row.map Cell.text)) ∧
      (2 ^ 64 ≤ table.length →
        ∃ error, .error error ∈ (Reader.new dialect (encode chars)).records) := by
  obtain ⟨rows, opened, here, pos, lastRow, expected⟩ := invertible.opened checked chars
  rw [after rows.pos pos] at here
  have reader : (Reader.new dialect (encode chars)).records = Rows.At.yields rows := by
    unfold Reader.new Rows.At.yields
    rw [opened]
  rw [← expected] at fits
  have read := here.yields_table full plain ends fits (by rw [lastRow]; decide)
  rw [lastRow, Nat.zero_add] at read
  rw [reader]
  exact read

omit invertible in
theorem cells_rows (full : ∀ record ∈ records, record ≠ []) :
    (∀ row ∈ records.map dialect.cells, row ≠ []) ∧
      (∀ row ∈ records.map dialect.cells, ∀ cell ∈ row, dialect.Plain cell) ∧
        (records.map dialect.cells).map List.length = records.map List.length := by
  refine ⟨?_, ?_, ?_⟩
  · intro row mem
    obtain ⟨record, listed, rfl⟩ := List.mem_map.mp mem
    exact Dialect.cells_ne_nil (full record listed)
  · intro row mem
    obtain ⟨record, -, rfl⟩ := List.mem_map.mp mem
    exact Dialect.cells_plain record
  · rw [List.map_map]
    exact List.map_congr_left fun record _ => Dialect.cells_length record

theorem reads_back {quoter : Quoter} (ok : Quoter.new dialect = .ok quoter)
    (full : ∀ record ∈ records, record ≠ []) (fits : dialect.Fits none (records.map List.length))
    (plain : ¬dialect.Marked records) :
    ∃ bytes, dialect.write records = .ok bytes ∧
      (records.length < 2 ^ 64 → (Reader.new dialect bytes).records = records.map .ok) ∧
        (2 ^ 64 ≤ records.length → ∃ error, .error error ∈ (Reader.new dialect bytes).records) := by
  have checked := (Quoter.new_ok ok).1
  obtain ⟨rows, cells, lengths⟩ := cells_rows full
  obtain ⟨chars, text⟩ := invertible.tableText_isUtf8 checked (records.map dialect.cells)
  have unmarked := invertible.unmarked checked full plain
  have written := Dialect.write_eq ok invertible.quotes invertible.prefixed full fits
  have ends := invertible.ends_cells ok full fits
  rw [← lengths] at fits
  have after : ∀ pos, pos = (if byteOrderMark.isPrefixOf (encode chars) then 3 else 0) →
      (encode chars).drop pos = invertible.layout.tableText (records.map dialect.cells) := by
    intro pos start
    rw [← text, unmarked] at start
    rw [start, ← text]
    rfl
  have read := invertible.records_table checked after rows cells ends fits
  rw [List.length_map] at read
  refine ⟨_, written, ?_, ?_⟩
  · intro few
    rw [text, read.1 few, List.filter_eq_self.mpr, List.map_map]
    · exact List.map_congr_left fun record _ => congrArg Except.ok (dialect.cells_texts record)
    · intro row mem
      obtain ⟨record, listed, rfl⟩ := List.mem_map.mp mem
      rw [invertible.comments_cells (full record listed)]
      rfl
  · intro many
    rw [text]
    exact read.2 many

theorem misreads {quoter : Quoter} (ok : Quoter.new dialect = .ok quoter)
    (full : ∀ record ∈ records, record ≠ []) (fits : dialect.Fits none (records.map List.length))
    (marked : dialect.Marked records) :
    ∃ bytes, dialect.write records = .ok bytes ∧
      (Reader.new dialect bytes).records ≠ records.map .ok := by
  have checked := (Quoter.new_ok ok).1
  have written := Dialect.write_eq ok invertible.quotes invertible.prefixed full fits
  obtain ⟨text, texts, later, rfl, quoted⟩ := marked
  have cells : dialect.cells (('\uFEFF' :: text) :: texts) =
      ⟨false, '\uFEFF' :: text⟩ :: texts.map dialect.laterCell := by
    rcases dialect.cells_cons ('\uFEFF' :: text) texts with ⟨-, none, -⟩ | ⟨-, cells⟩
    · exact absurd none (by simp)
    · rw [cells, quoted]
  -- what the reader sees after the mark
  have seen : ∃ table, table = (⟨false, text⟩ :: texts.map dialect.laterCell) ::
      later.map dialect.cells := ⟨_, rfl⟩
  obtain ⟨table, seen⟩ := seen
  have whole : invertible.layout.tableText
      (((('\uFEFF' :: text) :: texts) :: later).map dialect.cells) =
        byteOrderMark ++ invertible.layout.tableText table := by
    have front : invertible.layout.cellText ⟨false, '\uFEFF' :: text⟩ =
        byteOrderMark ++ invertible.layout.cellText ⟨false, text⟩ := by
      rw [byteOrderMark_eq]
      rfl
    rw [seen, List.map_cons, cells, Layout.tableText_cons, Layout.tableText_cons,
      Layout.rowText_cons, Layout.rowText_cons, front]
    simp only [List.append_assoc]
  obtain ⟨rows, plain, lengths⟩ := cells_rows full
  have rowsSeen : ∀ row ∈ table, row ≠ [] := by
    intro row mem
    rw [seen] at mem
    rcases List.mem_cons.mp mem with rfl | mem
    · exact List.cons_ne_nil _ _
    · exact rows row (List.mem_cons_of_mem _ mem)
  have plainSeen : ∀ row ∈ table, ∀ cell ∈ row, dialect.Plain cell := by
    intro row mem
    rw [seen] at mem
    rcases List.mem_cons.mp mem with rfl | mem
    · intro cell mem
      rcases List.mem_cons.mp mem with rfl | mem
      · intro _ byte inside
        exact (Dialect.quotes_plain quoted).2 byte (List.mem_append_right _ inside)
      · obtain ⟨other, -, rfl⟩ := List.mem_map.mp mem
        exact Dialect.laterCell_plain other
    · exact plain row (List.mem_cons_of_mem _ mem)
  have ends : dialect.Ends invertible.layout table := by
    rw [seen]
    exact invertible.ends_cells ok full fits
  have fitsSeen : dialect.Fits none (table.map List.length) := by
    have same : table.map List.length =
        ((('\uFEFF' :: text) :: texts) :: later).map List.length := by
      rw [← lengths, seen, List.map_cons, List.map_cons, List.map_cons, cells]
      rfl
    rwa [same]
  obtain ⟨chars, utf8⟩ := invertible.tableText_isUtf8 checked
    (((('\uFEFF' :: text) :: texts) :: later).map dialect.cells)
  have after : ∀ pos, pos = (if byteOrderMark.isPrefixOf (encode chars) then 3 else 0) →
      (encode chars).drop pos = invertible.layout.tableText table := by
    intro pos start
    have begins : byteOrderMark.isPrefixOf (encode chars) = true := by
      rw [← utf8, whole]
      exact List.isPrefixOf_iff_prefix.mpr (List.prefix_append _ _)
    rw [begins, if_pos rfl] at start
    rw [start, ← utf8, whole]
    rfl
  have read := invertible.records_table checked after rowsSeen plainSeen ends fitsSeen
  refine ⟨_, written, ?_⟩
  rw [utf8]
  intro same
  rw [same] at read
  by_cases few : table.length < 2 ^ 64
  · have read := read.1 few
    rw [seen] at read
    cases comments : dialect.comments (invertible.layout.rowText
        (⟨false, text⟩ :: texts.map dialect.laterCell)) with
    | true =>
      -- the first record is dropped
      rw [List.filter_cons_of_neg (by simp [comments])] at read
      have length := congrArg List.length read
      have kept := List.length_filter_le
        (fun row => !dialect.comments (invertible.layout.rowText row)) (later.map dialect.cells)
      simp only [List.length_map, List.length_cons] at length kept
      omega
    | false =>
      -- the first field lacks the mark
      rw [List.filter_cons_of_pos (by simp [comments])] at read
      have first := Except.ok.inj (List.cons.inj read).1
      have shorter := congrArg List.length (List.cons.inj first).1
      simp only [List.length_cons] at shorter
      omega
  · obtain ⟨error, mem⟩ := read.2 (Nat.not_lt.mp few)
    obtain ⟨record, -, absurd_⟩ := List.mem_map.mp mem
    exact absurd absurd_ (by simp)

end Dialect.Invertible

/-! ### The writer's limit -/

/-- The writer admits a dialect that is not refused and names few line terminators. -/
def Dialect.Admitted (dialect : Dialect) : Prop :=
  dialect.Checked ∧
    4 + dialect.distinctEscape.toList.length + dialect.lineTerminators.length ≤ maxQuotingBytes

theorem addTerminators_iff {terminators : List (List UInt8)} {before : StopSet}
    (proper : ∀ terminator ∈ terminators, terminator ≠ [])
    (fits : before.length ≤ maxQuotingBytes) :
    (∃ quoting, Quoter.addTerminators before terminators = .ok quoting) ↔
      before.length + terminators.length ≤ maxQuotingBytes := by
  induction terminators generalizing before with
  | nil => simpa [Quoter.addTerminators] using fits
  | cons terminator terminators ih =>
    have rest : ∀ other ∈ terminators, other ≠ [] :=
      fun other mem => proper other (List.mem_cons_of_mem terminator mem)
    cases terminator with
    | nil => exact absurd rfl (proper [] List.mem_cons_self)
    | cons first more =>
      unfold Quoter.addTerminators
      by_cases full : before.length = maxQuotingBytes
      · rw [if_pos full]
        simp only [reduceCtorEq, exists_false, List.length_cons, false_iff]
        omega
      · have length : (before ++ [first]).length = before.length + 1 := by simp
        rw [if_neg full, ih rest (by omega), length, List.length_cons]
        omega

theorem Quoter.new_iff {dialect : Dialect} {quote : UInt8}
    (quoteChar : dialect.quoteChar = some quote) :
    (∃ quoter, Quoter.new dialect = .ok quoter) ↔ dialect.Admitted := by
  have quoted : ¬(decide (dialect.quoteStyle = .always) = true ∧ dialect.quoteChar = none) := by
    rw [quoteChar]
    simp
  have front : (dialect.delimiter :: 0x0d :: 0x0a :: (dialect.quoteChar.toList ++
      dialect.distinctEscape.toList)).length = 4 + dialect.distinctEscape.toList.length := by
    rw [quoteChar]
    simp only [List.length_cons, List.length_append, Option.toList_some, List.length_nil]
    omega
  have few : dialect.distinctEscape.toList.length ≤ 1 := by
    cases dialect.distinctEscape <;> simp
  unfold Quoter.new Dialect.Admitted
  constructor
  · rintro ⟨quoter, ok⟩
    obtain ⟨_, checked, ok⟩ := bind_ok.mp ok
    dsimp only at ok
    rw [if_neg quoted] at ok
    obtain ⟨quoting, added, -⟩ := bind_ok.mp ok
    have all := (addTerminators_iff (dialect.terminators_proper checked)
      (by rw [front]; unfold maxQuotingBytes; omega)).mp ⟨quoting, added⟩
    rw [front, Dialect.terminators, List.length_map] at all
    exact ⟨Dialect.check_ok.mp checked, all⟩
  · rintro ⟨checked, all⟩
    have ok := Dialect.check_ok.mpr checked
    have fits : (dialect.delimiter :: 0x0d :: 0x0a :: (dialect.quoteChar.toList ++
        dialect.distinctEscape.toList)).length + dialect.terminators.length ≤ maxQuotingBytes := by
      rw [front, Dialect.terminators, List.length_map]
      exact all
    obtain ⟨quoting, added⟩ := (addTerminators_iff (dialect.terminators_proper ok)
      (by rw [front]; unfold maxQuotingBytes; omega)).mpr fits
    simp only [ok, bind, Except.bind]
    rw [if_neg quoted, added]
    exact ⟨_, rfl⟩

theorem records_refused {dialect : Dialect} (refused : ¬dialect.Checked) (bytes : List UInt8) :
    (Reader.new dialect bytes).records ≠ [] := by
  have opened : ∃ error, Rows.new dialect bytes = .error error := by
    unfold Rows.new
    split
    · exact ⟨_, rfl⟩
    · rename_i ok
      exact absurd (Dialect.check_ok.mp ok) refused
  obtain ⟨error, opened⟩ := opened
  unfold Reader.new
  rw [opened, Reader.records_eq]
  exact List.cons_ne_nil _ _

theorem Dialect.Invertible.records_nil {dialect : Dialect} {quote : UInt8}
    (invertible : dialect.Invertible quote) (checked : dialect.Checked) :
    (Reader.new dialect []).records = [] := by
  have after : ∀ pos, pos = (if byteOrderMark.isPrefixOf (encode []) then 3 else 0) →
      (encode []).drop pos = invertible.layout.tableText [] := by
    intro pos _
    exact List.drop_nil
  have fits : dialect.Fits none (([] : List (List Cell)).map List.length) :=
    Or.inr ⟨0, by simp, Or.inl rfl⟩
  exact (invertible.records_table checked after (by simp) (by simp) trivial fits).1 (by decide)

/-- Records are written and read back by exactly the dialects the writer admits, unless there are
too many for source row numbers or they are marked. -/
theorem Dialect.Invertible.reads_written_iff {dialect : Dialect} {quote : UInt8}
    (invertible : dialect.Invertible quote) {records : List (List Text)}
    (full : ∀ record ∈ records, record ≠ [])
    (equal : dialect.flexible = true ∨ ∃ length, ∀ record ∈ records, record.length = length) :
    (∃ bytes, dialect.write records = .ok bytes ∧
      (Reader.new dialect bytes).records = records.map .ok) ↔
        dialect.Checked ∧ (records = [] ∨ dialect.Admitted) ∧ records.length < 2 ^ 64 ∧
          ¬dialect.Marked records := by
  have fits : dialect.Fits none (records.map List.length) := by
    rcases equal with flexible | ⟨length, same⟩
    · exact Or.inl flexible
    · refine Or.inr ⟨length, ?_, Or.inl rfl⟩
      intro other mem
      obtain ⟨record, listed, rfl⟩ := List.mem_map.mp mem
      exact same record listed
  cases records with
  | nil =>
    have written : dialect.write [] = .ok [] := rfl
    constructor
    · rintro ⟨bytes, same, read⟩
      obtain rfl := Except.ok.inj (written.symm.trans same)
      refine ⟨?_, Or.inl rfl, by decide, ?_⟩
      · by_contra refused
        exact records_refused refused [] read
      · rintro ⟨text, texts, later, none, -⟩
        exact absurd none (by simp)
    · rintro ⟨checked, -⟩
      exact ⟨[], written, invertible.records_nil checked⟩
  | cons record records =>
    rw [← Quoter.new_iff invertible.quoteChar]
    constructor
    · rintro ⟨bytes, written, read⟩
      obtain ⟨quoter, ok⟩ := Dialect.write_admitted written
      refine ⟨(Quoter.new_ok ok).1, Or.inr ⟨quoter, ok⟩, ?_, ?_⟩
      · by_contra many
        by_cases marked : dialect.Marked (record :: records)
        · obtain ⟨other, same, differs⟩ := invertible.misreads ok full fits marked
          obtain rfl := Except.ok.inj (written.symm.trans same)
          exact differs read
        · obtain ⟨other, same, -, fails⟩ := invertible.reads_back ok full fits marked
          obtain rfl := Except.ok.inj (written.symm.trans same)
          obtain ⟨error, mem⟩ := fails (Nat.not_lt.mp many)
          rw [read] at mem
          obtain ⟨_, -, wrong⟩ := List.mem_map.mp mem
          exact absurd wrong (by simp)
      · intro marked
        obtain ⟨other, same, differs⟩ := invertible.misreads ok full fits marked
        obtain rfl := Except.ok.inj (written.symm.trans same)
        exact differs read
    · rintro ⟨-, admitted, few, plain⟩
      obtain ⟨quoter, ok⟩ := admitted.resolve_left (List.cons_ne_nil _ _)
      obtain ⟨bytes, written, read, -⟩ := invertible.reads_back ok full fits plain
      exact ⟨bytes, written, read few⟩

/-! ### RFC 4180 -/

/-- The preset for RFC 4180, under either quote style. -/
def rfc4180 (style : QuoteStyle) : Dialect := { Dialect.rfc4180 with quoteStyle := style }

theorem rfc4180_invertible (style : QuoteStyle) : (rfc4180 style).Invertible 0x22 := by
  refine ⟨rfl, Or.inl rfl, rfl, rfl, rfl, rfl, rfl, rfl, ?_, ?_, ?_, ?_⟩
  · exact ⟨by cases style <;> decide, by cases style <;> decide⟩
  · intro terminator mem first head
    have listed : terminator = [0x0d, 0x0a] ∨ terminator = [0x0a] := by
      have all : (rfc4180 style).terminators = [[0x0d, 0x0a], [0x0a]] := by
        cases style <;> decide
      simpa [all] using mem
    have known : first = 0x0d ∨ first = 0x0a := by
      rcases listed with rfl | rfl
      · exact Or.inl (Option.some.inj head).symm
      · exact Or.inr (Option.some.inj head).symm
    rcases known with rfl | rfl <;> cases style <;> decide
  · intro comment none
    exact absurd none (by simp [Dialect.prefixBytes, rfc4180, Dialect.rfc4180])
  · intro records bytes _
    rfl

theorem rfc4180_admitted (style : QuoteStyle) : (rfc4180 style).Admitted := by
  refine ⟨Dialect.check_ok.mp ?_, ?_⟩ <;> cases style <;> decide

def markField : List (List Text) := [[['\uFEFF']]]

theorem markField_fits : Dialect.rfc4180.Fits none (markField.map List.length) :=
  Or.inr ⟨1, by simp [markField], Or.inl rfl⟩

theorem markField_marked : Dialect.rfc4180.Marked markField :=
  ⟨[], [], [], rfl, by decide⟩

/-- Writing and reading are not inverse for it. -/
theorem rfc4180_misreads :
    Dialect.rfc4180.Invertible 0x22 ∧
      ¬∃ bytes, Dialect.rfc4180.write markField = .ok bytes ∧
        (Reader.new Dialect.rfc4180 bytes).records = markField.map .ok := by
  have invertible := rfc4180_invertible .necessary
  refine ⟨invertible, ?_⟩
  rintro ⟨bytes, written, read⟩
  obtain ⟨quoter, ok⟩ := (Quoter.new_iff invertible.quoteChar).mpr (rfc4180_admitted .necessary)
  obtain ⟨other, same, differs⟩ := invertible.misreads ok (by decide) markField_fits markField_marked
  obtain rfl := Except.ok.inj (written.symm.trans same)
  exact differs read

/-- A field of a comma comes back. -/
theorem rfc4180_reads_comma :
    ∃ bytes, Dialect.rfc4180.write [[[',']]] = .ok bytes ∧
      (Reader.new Dialect.rfc4180 bytes).records = [.ok [[',']]] :=
  ((rfc4180_invertible .necessary).reads_written_iff (by decide) (Or.inr ⟨1, by decide⟩)).mpr
    ⟨(rfc4180_admitted .necessary).1, Or.inr (rfc4180_admitted .necessary), by decide,
      by rintro ⟨text, texts, later, same, -⟩; simp at same⟩

end Purrdf.Csv
