import Purrdf.CsvQuoting
import Purrdf.CsvReader

/-!
# Reading the rows of a written table

The splitter and the parser read one byte of a cell after the other. Both pass over quoted text,
which the splitter may read as doubled quotes outside a quoted value, and the parser gives the text
back.
-/

namespace Purrdf.Csv

open Utf8

/-- An engine that reads tables of a layout: what its dialect asks of each cell, and what it leaves
out. -/
structure Rows.Reads (rows : Rows) (layout : Layout) : Prop where
  delimiter : rows.delimiter = layout.delimiter
  quote : rows.quote = some layout.quoting.quote
  doubles : rows.doubles = layout.quoting.doubles
  escape : rows.escape = layout.quoting.escape
  quotedStops : rows.quotedStops = layout.quoting.stops
  cellStops : rows.cellStops = layout.delimiter :: layout.quoting.stops
  rowStops : rows.rowStops = layout.quoting.stops ++ rows.terminators.filterMap List.head?
  plain : layout.delimiter ∉ layout.quoting.stops
  ascii : ∀ byte ∈ layout.quoting.stops, byte < 0x80
  apart : ∀ byte ∈ rows.terminators.filterMap List.head?,
    byte ∉ layout.quoting.stops ∧ byte ≠ layout.delimiter

namespace Rows

variable {rows : Rows}

theorem rowEnd_pass {byte : UInt8} (pass : byte ∉ rows.rowStops) (pos : Nat) (rest : List UInt8) :
    rows.rowEnd pos (byte :: rest) = rows.rowEnd (pos + 1) rest := by
  have length : pos + (rest.length + 1) = pos + 1 + rest.length := by omega
  rw [rowEnd_eq, rowEnd_eq, find_pass pass]
  cases find rows.rowStops rest with
  | none => simp only [Option.map_none, List.length_cons, length]
  | some cut =>
    obtain ⟨run, hit, after⟩ := cut
    have shift : pos + (run.length + 1) = pos + 1 + run.length := by omega
    simp only [Option.map_some, List.length_cons, shift]

theorem rowEnd_plain {value : List UInt8} (pass : ∀ byte ∈ value, byte ∉ rows.rowStops) (pos : Nat)
    (rest : List UInt8) :
    rows.rowEnd pos (value ++ rest) = rows.rowEnd (pos + value.length) rest := by
  induction value generalizing pos with
  | nil => rfl
  | cons byte value ih =>
    have length : pos + 1 + value.length = pos + (byte :: value).length := by
      rw [List.length_cons]
      omega
    rw [List.cons_append, rowEnd_pass (pass byte List.mem_cons_self),
      ih fun other mem => pass other (List.mem_cons_of_mem byte mem), length]

@[simp] theorem push_nil (cells : Cells) : cells.push [] = cells := by
  unfold Cells.push
  rw [List.append_nil]

theorem push_push (cells : Cells) (front back : List UInt8) :
    (cells.push front).push back = cells.push (front ++ back) := by
  unfold Cells.push
  rw [List.append_assoc]

def opened : CellState → CellState
  | .start => .unquoted
  | state => state

theorem takeRun_cons {number pos : Nat} {state : CellState} (open_ : state ≠ .afterQuote)
    (cells : Cells) (byte : UInt8) (run : List UInt8) :
    rows.takeRun number pos state cells (byte :: run) =
      rows.takeRun number (pos + 1) (opened state) (cells.push [byte]) run := by
  unfold takeRun
  rw [if_neg (List.cons_ne_nil byte run)]
  by_cases none : run = []
  · subst none
    cases state <;> first | rfl | exact absurd rfl open_
  · rw [if_neg none, push_push]
    cases state <;> first | rfl | exact absurd rfl open_

theorem stops_opened (state : CellState) : rows.stops (opened state) = rows.stops state := by
  cases state <;> rfl

theorem parse_pass {number pos : Nat} {state : CellState} (open_ : state ≠ .afterQuote)
    (cells : Cells) {byte : UInt8} (pass : byte ∉ rows.stops state) (rest : List UInt8) :
    rows.parseCells number pos state cells (byte :: rest) =
      rows.parseCells number (pos + 1) (opened state) (cells.push [byte]) rest := by
  rw [parseCells, parseCells, find_pass pass, stops_opened]
  cases find (rows.stops state) rest with
  | none =>
    have length : pos + (rest.length + 1) = pos + 1 + rest.length := by omega
    simp only [Option.map_none, takeRun_cons open_, List.length_cons, length]
  | some cut =>
    obtain ⟨run, hit, after⟩ := cut
    have shift : pos + (run.length + 1) = pos + 1 + run.length := by omega
    simp only [Option.map_some, takeRun_cons open_, List.length_cons, shift]

theorem takeRun_nil (number pos : Nat) (state : CellState) (cells : Cells) :
    rows.takeRun number pos state cells [] = .ok (state, cells) := if_pos rfl

/-- An unquoted cell has no byte that the splitter or the parser stops at. -/
def Plain (rows : Rows) (cell : Cell) : Prop :=
  cell.quoted = false → ∀ byte ∈ encode cell.text, byte ∉ rows.rowStops ∧ byte ∉ rows.cellStops

end Rows

namespace Rows.Reads

variable {rows : Rows} {layout : Layout} (reads : rows.Reads layout)

include reads

/-! ### Splitting rows -/

theorem skip_pass {byte : UInt8} (pass : byte ∉ layout.quoting.stops) (opened pos : Nat)
    (rest : List UInt8) :
    rows.skipQuotedValue opened pos (byte :: rest) =
      rows.skipQuotedValue opened (pos + 1) rest := by
  rw [skipQuotedValue, skipQuotedValue, reads.quotedStops, find_pass pass]
  cases find layout.quoting.stops rest with
  | none => rfl
  | some cut =>
    obtain ⟨run, hit, after⟩ := cut
    have shift : pos + (run.length + 1) = pos + 1 + run.length := by omega
    simp only [Option.map_some, List.length_cons, shift]

theorem skip_marked {mark byte : UInt8} (marked : layout.quoting.mark byte = some mark)
    (opened pos : Nat) (rest : List UInt8) :
    rows.skipQuotedValue opened pos (mark :: byte :: rest) =
      rows.skipQuotedValue opened (pos + 2) rest := by
  rw [skipQuotedValue, reads.quotedStops, reads.escape, reads.doubles]
  rcases layout.quoting.mark_some marked with ⟨doubles, rfl, rfl⟩ | escape
  · rw [find_hit ((Quoting.mem_stops layout.quoting).mpr (Or.inl rfl))]
    dsimp only
    rw [if_neg fun same => layout.quoting.distinct same.symm, if_pos ⟨doubles, rfl⟩]
    rfl
  · rw [find_hit ((Quoting.mem_stops layout.quoting).mpr (Or.inr escape))]
    dsimp only
    have shift : pos + 0 + 1 + min 1 (rest.length + 1) = pos + 2 := by omega
    rw [if_pos escape.symm, List.length_nil, List.length_cons, shift]
    rfl

variable {rest : List UInt8}

theorem skip_close (opened pos : Nat) (ends : rest.head? ≠ some layout.quoting.quote) :
    rows.skipQuotedValue opened pos (layout.quoting.quote :: rest) = .ok (pos + 1, rest) := by
  have stop : layout.quoting.quote ∈ layout.quoting.stops :=
    (Quoting.mem_stops layout.quoting).mpr (Or.inl rfl)
  rw [skipQuotedValue, reads.quotedStops, reads.escape, reads.doubles, find_hit stop]
  dsimp only
  rw [if_neg fun same => layout.quoting.distinct same.symm, if_neg fun both => ends both.2]
  rfl

theorem skip_inside (opened pos : Nat) (value : List UInt8)
    (ends : rest.head? ≠ some layout.quoting.quote) :
    rows.skipQuotedValue opened pos (layout.quoting.inside value ++ layout.quoting.quote :: rest) =
      .ok (pos + (layout.quoting.inside value).length + 1, rest) := by
  induction value generalizing pos with
  | nil => exact reads.skip_close opened pos ends
  | cons byte value ih =>
    rw [Quoting.inside_cons]
    cases marked : layout.quoting.mark byte with
    | none =>
      have pass : byte ∉ layout.quoting.stops := by
        intro stop
        obtain ⟨mark, some⟩ := layout.quoting.mark_stop stop
        rw [some] at marked
        exact absurd marked (by simp)
      have length : pos + 1 + (layout.quoting.inside value).length + 1 =
          pos + (byte :: layout.quoting.inside value).length + 1 := by
        rw [List.length_cons]
        omega
      simp only [Option.toList_none, List.nil_append, List.cons_append]
      rw [reads.skip_pass pass, ih, length]
    | some mark =>
      have length : pos + 2 + (layout.quoting.inside value).length + 1 =
          pos + (mark :: byte :: layout.quoting.inside value).length + 1 := by
        rw [List.length_cons, List.length_cons]
        omega
      simp only [Option.toList_some, List.cons_append, List.nil_append]
      rw [reads.skip_marked marked, ih, length]

theorem quote_stops : layout.quoting.quote ∈ rows.rowStops := by
  rw [reads.rowStops]
  exact List.mem_append_left _ ((Quoting.mem_stops layout.quoting).mpr (Or.inl rfl))

theorem rowEnd_pair (doubles : layout.quoting.doubles = true) (pos : Nat) (rest : List UInt8) :
    rows.rowEnd pos (layout.quoting.quote :: layout.quoting.quote :: rest) =
      rows.rowEnd (pos + 2) rest := by
  rw [rowEnd_eq, find_hit reads.quote_stops, reads.escape, reads.quote, reads.doubles]
  dsimp only
  rw [if_neg fun same => layout.quoting.distinct same.symm, if_pos rfl, if_pos ⟨doubles, rfl⟩]
  rfl

theorem rowEnd_open {rest left : List UInt8} {pos next : Nat}
    (opens : ¬(layout.quoting.doubles = true ∧ rest.head? = some layout.quoting.quote))
    (closed : rows.skipQuotedValue pos (pos + 1) rest = .ok (next, left)) :
    rows.rowEnd pos (layout.quoting.quote :: rest) = rows.rowEnd next left := by
  rw [rowEnd_eq, find_hit reads.quote_stops, reads.escape, reads.quote, reads.doubles]
  dsimp only
  rw [if_neg fun same => layout.quoting.distinct same.symm, if_pos rfl, if_neg opens]
  rw [List.length_nil, Nat.add_zero, closed]
  rfl

theorem rowEnd_enclosed (pos : Nat) (value : List UInt8)
    (ends : rest.head? ≠ some layout.quoting.quote) :
    rows.rowEnd pos (layout.quoting.enclosed value ++ rest) =
      rows.rowEnd (pos + (layout.quoting.enclosed value).length) rest := by
  unfold Quoting.enclosed
  induction value generalizing pos with
  | nil =>
    rw [Quoting.inside_nil]
    by_cases doubles : layout.quoting.doubles = true
    · exact reads.rowEnd_pair doubles pos rest
    · exact reads.rowEnd_open (fun both => doubles both.1) (reads.skip_close pos (pos + 1) ends)
  | cons byte value ih =>
    by_cases pair : layout.quoting.doubles = true ∧ byte = layout.quoting.quote
    · -- the first two of three quotes are read as a pair, and the third opens the rest
      obtain ⟨doubles, rfl⟩ := pair
      have marked : layout.quoting.mark layout.quoting.quote = some layout.quoting.quote := by
        unfold Quoting.mark
        rw [if_pos rfl, if_pos doubles]
      have length : pos + 2 + (layout.quoting.quote :: layout.quoting.inside value ++
          [layout.quoting.quote]).length = pos + (layout.quoting.quote ::
            (layout.quoting.quote :: layout.quoting.quote :: layout.quoting.inside value) ++
              [layout.quoting.quote]).length := by
        simp only [List.length_append, List.length_cons]
        omega
      rw [Quoting.inside_cons, marked, Option.toList_some, List.singleton_append, ← length, ← ih]
      exact reads.rowEnd_pair doubles pos _
    · have opens : ¬(layout.quoting.doubles = true ∧ (layout.quoting.inside (byte :: value) ++
          layout.quoting.quote :: rest).head? = some layout.quoting.quote) := by
        rintro ⟨doubles, first⟩
        rw [Quoting.inside_cons] at first
        cases marked : layout.quoting.mark byte with
        | none =>
          rw [marked] at first
          exact pair ⟨doubles, by simpa using first⟩
        | some mark =>
          rw [marked] at first
          have same : mark = layout.quoting.quote := by simpa using first
          rcases layout.quoting.mark_some marked with ⟨-, quote, -⟩ | escape
          · exact pair ⟨doubles, quote⟩
          · exact layout.quoting.distinct (same ▸ escape)
      have closed := reads.skip_inside pos (pos + 1) (byte :: value) ends
      have whole : layout.quoting.quote :: layout.quoting.inside (byte :: value) ++
          [layout.quoting.quote] ++ rest = layout.quoting.quote ::
            (layout.quoting.inside (byte :: value) ++ layout.quoting.quote :: rest) := by
        simp
      have length : pos + 1 + (layout.quoting.inside (byte :: value)).length + 1 =
          pos + (layout.quoting.quote :: layout.quoting.inside (byte :: value) ++
            [layout.quoting.quote]).length := by
        simp only [List.length_append, List.length_cons, List.length_nil]
        omega
      rw [whole, reads.rowEnd_open opens closed, length]

theorem rowEnd_cell (pos : Nat) {cell : Cell} (plain : rows.Plain cell)
    (ends : rest.head? ≠ some layout.quoting.quote) :
    rows.rowEnd pos (layout.cellText cell ++ rest) =
      rows.rowEnd (pos + (layout.cellText cell).length) rest := by
  unfold Layout.cellText
  cases quoted : cell.quoted with
  | true =>
    rw [if_pos rfl]
    exact reads.rowEnd_enclosed pos (encode cell.text) ends
  | false =>
    rw [if_neg (by simp)]
    exact rowEnd_plain (fun byte mem => (plain quoted byte mem).1) pos rest

theorem delimiter_passes : layout.delimiter ∉ rows.rowStops := by
  rw [reads.rowStops, List.mem_append]
  rintro (stop | first)
  · exact reads.plain stop
  · exact (reads.apart _ first).2 rfl

theorem delimiter_ne_quote : layout.delimiter ≠ layout.quoting.quote := by
  intro same
  exact reads.plain ((Quoting.mem_stops layout.quoting).mpr (Or.inl same))

theorem moreText_head (cells : List Cell) (ends : rest.head? ≠ some layout.quoting.quote) :
    (layout.moreText cells ++ rest).head? ≠ some layout.quoting.quote := by
  cases cells with
  | nil => exact ends
  | cons cell cells =>
    rw [Layout.moreText_cons]
    intro first
    exact reads.delimiter_ne_quote (Option.some.inj first)

theorem moreText_ends (cells : List Cell) :
    (layout.moreText cells).head? ≠ some layout.quoting.quote := by
  have ends : (layout.moreText cells ++ []).head? ≠ some layout.quoting.quote :=
    reads.moreText_head cells (by simp)
  rwa [List.append_nil] at ends

theorem rowEnd_more (pos : Nat) {cells : List Cell} (plain : ∀ cell ∈ cells, rows.Plain cell)
    (ends : rest.head? ≠ some layout.quoting.quote) :
    rows.rowEnd pos (layout.moreText cells ++ rest) =
      rows.rowEnd (pos + (layout.moreText cells).length) rest := by
  induction cells generalizing pos with
  | nil => rfl
  | cons cell cells ih =>
    have length : pos + 1 + (layout.cellText cell).length + (layout.moreText cells).length =
        pos + (layout.delimiter :: (layout.cellText cell ++ layout.moreText cells)).length := by
      simp only [List.length_append, List.length_cons]
      omega
    rw [Layout.moreText_cons, List.cons_append, List.append_assoc,
      rowEnd_pass reads.delimiter_passes,
      reads.rowEnd_cell (pos + 1) (plain cell List.mem_cons_self) (reads.moreText_head cells ends),
      ih _ fun other mem => plain other (List.mem_cons_of_mem cell mem), length]

theorem terminator_head {terminator : List UInt8} (listed : terminator ∈ rows.terminators) :
    ∃ first more, terminator = first :: more ∧ first ∈ rows.rowStops ∧
      first ∉ layout.quoting.stops := by
  cases shape : terminator with
  | nil => exact absurd shape (rows.proper terminator listed)
  | cons first more =>
    have mem : first ∈ rows.terminators.filterMap List.head? :=
      List.mem_filterMap.mpr ⟨terminator, listed, by rw [shape]; rfl⟩
    refine ⟨first, more, rfl, ?_, (reads.apart first mem).1⟩
    rw [reads.rowStops]
    exact List.mem_append_right _ mem

theorem rowEnd_terminator (pos : Nat) {terminator rest : List UInt8}
    (first : rows.terminators.find? (·.isPrefixOf (terminator ++ rest)) = some terminator) :
    rows.rowEnd pos (terminator ++ rest) = .ok (pos, pos + terminator.length) := by
  obtain ⟨byte, more, rfl, stop, unmarked⟩ :=
    reads.terminator_head (List.mem_of_find?_eq_some first)
  rw [Quoting.mem_stops, not_or] at unmarked
  rw [List.cons_append] at first ⊢
  rw [rowEnd_eq, find_hit stop, reads.escape, reads.quote]
  dsimp only
  rw [if_neg fun same => unmarked.2 same.symm, if_neg fun same => unmarked.1 (Option.some.inj same),
    first]
  rfl

theorem rowEnd_row (pos : Nat) {row : List Cell} (plain : ∀ cell ∈ row, rows.Plain cell)
    {terminator rest : List UInt8}
    (first : rows.terminators.find? (·.isPrefixOf (terminator ++ rest)) = some terminator) :
    rows.rowEnd pos (layout.rowText row ++ (terminator ++ rest)) =
      .ok (pos + (layout.rowText row).length,
        pos + (layout.rowText row).length + terminator.length) := by
  have ends : (terminator ++ rest).head? ≠ some layout.quoting.quote := by
    obtain ⟨byte, more, rfl, stop, unmarked⟩ :=
      reads.terminator_head (List.mem_of_find?_eq_some first)
    intro same
    exact unmarked ((Quoting.mem_stops layout.quoting).mpr (Or.inl (Option.some.inj same)))
  cases row with
  | nil => exact reads.rowEnd_terminator pos first
  | cons cell cells =>
    unfold Layout.rowText
    rw [List.append_assoc, reads.rowEnd_cell pos (plain cell List.mem_cons_self)
      (reads.moreText_head cells ends), reads.rowEnd_more _
        (fun other mem => plain other (List.mem_cons_of_mem cell mem)) ends,
      reads.rowEnd_terminator _ first, List.length_append, Nat.add_assoc]

/-! ### Parsing rows -/

omit reads in
theorem marked_stop {mark byte : UInt8} (marked : layout.quoting.mark byte = some mark) :
    byte ∈ layout.quoting.stops := by
  by_contra plain
  rw [layout.quoting.mark_plain plain] at marked
  exact absurd marked (by simp)

theorem parse_marked {mark byte : UInt8} (marked : layout.quoting.mark byte = some mark)
    (number pos : Nat) (cells : Cells) (rest : List UInt8) :
    rows.parseCells number pos .quoted cells (mark :: byte :: rest) =
      rows.parseCells number (pos + 2) .quoted (cells.push [byte]) rest := by
  have stops : rows.stops .quoted = layout.quoting.stops := reads.quotedStops
  rw [parseCells, stops]
  rcases layout.quoting.mark_some marked with ⟨doubles, rfl, rfl⟩ | escape
  · rw [find_hit ((Quoting.mem_stops layout.quoting).mpr (Or.inl rfl))]
    dsimp only
    rw [takeRun_nil, reads.escape, reads.quote, reads.doubles]
    dsimp only
    rw [if_neg fun same => layout.quoting.distinct same.symm, if_pos rfl, if_pos ⟨doubles, rfl⟩]
    rfl
  · have ascii := reads.ascii byte (marked_stop marked)
    have size : (asciiChar byte).utf8Size = 1 := by
      rw [← String.length_utf8EncodeChar, encode_asciiChar ascii]
      rfl
    rw [find_hit ((Quoting.mem_stops layout.quoting).mpr (Or.inr escape))]
    dsimp only
    rw [takeRun_nil, reads.escape]
    dsimp only
    rw [if_pos escape.symm, firstChar_ascii ascii]
    dsimp only
    rw [size, encode_asciiChar ascii]
    rfl

theorem parse_close (number pos : Nat) (cells : Cells)
    (ends : rest.head? ≠ some layout.quoting.quote) :
    rows.parseCells number pos .quoted cells (layout.quoting.quote :: rest) =
      rows.parseCells number (pos + 1) .afterQuote cells rest := by
  have stops : rows.stops .quoted = layout.quoting.stops := reads.quotedStops
  rw [parseCells, stops, find_hit ((Quoting.mem_stops layout.quoting).mpr (Or.inl rfl))]
  dsimp only
  rw [takeRun_nil, reads.escape, reads.quote, reads.doubles]
  dsimp only
  rw [if_neg fun same => layout.quoting.distinct same.symm, if_pos rfl,
    if_neg fun both => ends both.2]
  rfl

theorem parse_inside (number pos : Nat) (cells : Cells) (value : List UInt8)
    (ends : rest.head? ≠ some layout.quoting.quote) :
    rows.parseCells number pos .quoted cells
        (layout.quoting.inside value ++ layout.quoting.quote :: rest) =
      rows.parseCells number (pos + (layout.quoting.inside value).length + 1) .afterQuote
        (cells.push value) rest := by
  induction value generalizing pos cells with
  | nil =>
    rw [push_nil]
    exact reads.parse_close number pos cells ends
  | cons byte value ih =>
    rw [Quoting.inside_cons]
    cases marked : layout.quoting.mark byte with
    | none =>
      have pass : byte ∉ rows.stops .quoted := by
        intro stop
        have stop : byte ∈ layout.quoting.stops := reads.quotedStops ▸ stop
        obtain ⟨mark, some⟩ := layout.quoting.mark_stop stop
        rw [some] at marked
        exact absurd marked (by simp)
      have length : pos + 1 + (layout.quoting.inside value).length + 1 =
          pos + (byte :: layout.quoting.inside value).length + 1 := by
        rw [List.length_cons]
        omega
      simp only [Option.toList_none, List.nil_append, List.cons_append]
      rw [parse_pass (by simp) cells pass, show opened .quoted = .quoted from rfl, ih, push_push,
        length]
      rfl
    | some mark =>
      have length : pos + 2 + (layout.quoting.inside value).length + 1 =
          pos + (mark :: byte :: layout.quoting.inside value).length + 1 := by
        rw [List.length_cons, List.length_cons]
        omega
      simp only [Option.toList_some, List.cons_append, List.nil_append]
      rw [reads.parse_marked marked, ih, push_push, length]
      rfl

theorem parse_enclosed (number pos : Nat) (cells : Cells) (value : List UInt8)
    (ends : rest.head? ≠ some layout.quoting.quote) :
    rows.parseCells number pos .start cells (layout.quoting.enclosed value ++ rest) =
      rows.parseCells number (pos + (layout.quoting.enclosed value).length) .afterQuote
        (cells.push value) rest := by
  have stops : rows.stops .start = layout.delimiter :: layout.quoting.stops := reads.cellStops
  have stop : layout.quoting.quote ∈ layout.delimiter :: layout.quoting.stops :=
    List.mem_cons_of_mem _ ((Quoting.mem_stops layout.quoting).mpr (Or.inl rfl))
  have whole : layout.quoting.enclosed value ++ rest =
      layout.quoting.quote :: (layout.quoting.inside value ++ layout.quoting.quote :: rest) := by
    unfold Quoting.enclosed
    simp
  have length : pos + 0 + 1 + (layout.quoting.inside value).length + 1 =
      pos + (layout.quoting.enclosed value).length := by
    unfold Quoting.enclosed
    simp only [List.length_append, List.length_cons, List.length_nil]
    omega
  rw [whole, parseCells, stops, find_hit stop]
  dsimp only
  rw [takeRun_nil, reads.escape, reads.quote]
  dsimp only
  rw [if_neg fun same => layout.quoting.distinct same.symm, if_pos rfl, List.length_nil,
    reads.parse_inside number _ cells value ends, length]

omit reads in
theorem parse_plain (number pos : Nat) {state : CellState} (open_ : state = .start ∨ state = .unquoted)
    (cells : Cells) {value : List UInt8} (pass : ∀ byte ∈ value, byte ∉ rows.cellStops)
    (rest : List UInt8) :
    ∃ after, (after = .start ∨ after = .unquoted) ∧
      rows.parseCells number pos state cells (value ++ rest) =
        rows.parseCells number (pos + value.length) after (cells.push value) rest := by
  induction value generalizing pos state cells with
  | nil =>
    refine ⟨state, open_, ?_⟩
    rw [push_nil]
    rfl
  | cons byte value ih =>
    have stops : rows.stops state = rows.cellStops := by
      rcases open_ with rfl | rfl <;> rfl
    have here : byte ∉ rows.stops state := by
      rw [stops]
      exact pass byte List.mem_cons_self
    have opens : opened state = .unquoted := by
      rcases open_ with rfl | rfl <;> rfl
    have state : state ≠ .afterQuote := by
      rcases open_ with rfl | rfl <;> simp
    obtain ⟨after, free, same⟩ := ih (pos + 1) (Or.inr rfl) (cells.push [byte])
      fun other mem => pass other (List.mem_cons_of_mem byte mem)
    refine ⟨after, free, ?_⟩
    have length : pos + 1 + value.length = pos + (byte :: value).length := by
      rw [List.length_cons]
      omega
    rw [List.cons_append, parse_pass state cells here, opens, same, push_push, length]
    rfl

theorem parse_cell (number pos : Nat) (cells : Cells) {cell : Cell} (plain : rows.Plain cell)
    (ends : rest.head? ≠ some layout.quoting.quote) :
    ∃ after next, after ≠ .quoted ∧
      rows.parseCells number pos .start cells (layout.cellText cell ++ rest) =
        rows.parseCells number next after (cells.push (encode cell.text)) rest := by
  unfold Layout.cellText
  cases quoted : cell.quoted with
  | true =>
    rw [if_pos rfl, reads.parse_enclosed number pos cells (encode cell.text) ends]
    exact ⟨.afterQuote, _, by simp, rfl⟩
  | false =>
    rw [if_neg (by simp)]
    obtain ⟨after, free, same⟩ := parse_plain number pos (Or.inl rfl) cells
      (fun byte mem => (plain quoted byte mem).2) rest
    refine ⟨after, _, ?_, same⟩
    rcases free with rfl | rfl <;> simp

theorem parse_delimiter (number pos : Nat) {state : CellState} (outside : state ≠ .quoted)
    (cells : Cells) (rest : List UInt8) :
    rows.parseCells number pos state cells (layout.delimiter :: rest) =
      rows.parseCells number (pos + 1) .start cells.finish rest := by
  have stops : rows.stops state = layout.delimiter :: layout.quoting.stops := by
    rw [← reads.cellStops]
    cases state <;> first | rfl | exact absurd rfl outside
  have plain := reads.plain
  rw [Quoting.mem_stops, not_or] at plain
  rw [parseCells, stops, find_hit List.mem_cons_self]
  dsimp only
  rw [takeRun_nil, reads.escape, reads.quote]
  dsimp only
  rw [if_neg fun same => plain.2 same.symm, if_neg fun same => plain.1 (Option.some.inj same)]
  rfl

omit reads in
theorem parse_nil (number pos : Nat) (state : CellState) (cells : Cells) :
    rows.parseCells number pos state cells [] = .ok (state, cells, pos) := by
  rw [parseCells]
  rfl

theorem parse_more (number pos : Nat) {state : CellState} (outside : state ≠ .quoted)
    (before : Cells) {cells : List Cell} (plain : ∀ cell ∈ cells, rows.Plain cell) :
    ∃ last parsed stop, last ≠ .quoted ∧
      rows.parseCells number pos state before (layout.moreText cells) = .ok (last, parsed, stop) ∧
        parsed.finish.finished =
          before.finish.finished ++ cells.map fun cell => encode cell.text := by
  induction cells generalizing pos state before with
  | nil =>
    refine ⟨state, before, pos, outside, parse_nil number pos state before, ?_⟩
    rw [List.map_nil, List.append_nil]
  | cons cell cells ih =>
    have ends := reads.moreText_ends cells
    obtain ⟨after, next, free, here⟩ := reads.parse_cell number (pos + 1) before.finish
      (plain cell List.mem_cons_self) ends
    obtain ⟨last, parsed, stop, done, there, all⟩ := ih next free
      (before.finish.push (encode cell.text)) fun other mem => plain other (List.mem_cons_of_mem cell mem)
    refine ⟨last, parsed, stop, done, ?_, ?_⟩
    · rw [Layout.moreText_cons, reads.parse_delimiter number pos outside, here, there]
    · rw [all]
      simp [Cells.push, Cells.finish]

theorem parseRow_row (number pos : Nat) {row : List Cell} (full : row ≠ [])
    (plain : ∀ cell ∈ row, rows.Plain cell) :
    rows.parseRow number pos (layout.rowText row) =
      .ok (row.map fun cell => encode cell.text) := by
  cases row with
  | nil => exact absurd rfl full
  | cons cell cells =>
    have ends := reads.moreText_ends cells
    obtain ⟨after, next, free, here⟩ := reads.parse_cell number pos ⟨[], []⟩
      (plain cell List.mem_cons_self) ends
    obtain ⟨last, parsed, stop, outside, there, all⟩ := reads.parse_more number next free _
      fun other mem => plain other (List.mem_cons_of_mem cell mem)
    unfold parseRow Layout.rowText
    rw [here, there]
    simp only [bind, Except.bind]
    rw [if_neg outside, all]
    simp [Cells.push, Cells.finish]

end Rows.Reads

end Purrdf.Csv
