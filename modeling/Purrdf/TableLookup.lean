import Purrdf.TableFilling

/-!
# Looking up a decode table

A built table decodes the symbol whose code starts the stream bits, or an unassigned code when
there is none, from as many bits as it consumes. A two-literal entry stands for its two
literals one after the other.
-/

namespace Purrdf.Deflate

open CanonicalCode

/-! ### The table without pairs -/

section
variable {lengths : List Nat} {primary : Nat} {width : Nat → Nat} {kind : Kind}
  {entries : List Entry}

variable {bits : Nat}

theorem Filled.find_direct (widths : Widths lengths primary width)
    (filled : Filled kind lengths primary width lengths.length entries)
    (narrow : width (bits % 2 ^ primary) = 0) :
    (∀ symbol, Matches lengths symbol bits →
      entries[bits % 2 ^ primary]?
        = some (kind.symbolEntry symbol (lengthOf lengths symbol))) ∧
    ((∀ symbol, ¬Matches lengths symbol bits) →
      entries[bits % 2 ^ primary]? = some ⟨primary, .invalid, 0, 0⟩) := by
  have inside : bits % 2 ^ primary < 2 ^ primary := Nat.mod_lt _ (Nat.two_pow_pos _)
  constructor
  · intro symbol found
    have short : lengthOf lengths symbol ≤ primary := by
      by_contra long
      have reached := ((matches_long bits (Nat.not_le.mp long)).mp found).1
      exact widths.wide (Nat.not_le.mp long) (reached ▸ narrow)
    apply filled.owned symbol (inside_of_used found.used)
    exact Or.inl ⟨found.used, short, inside, ((matches_short short).mpr found).starts⟩
  · intro none
    rw [filled.free]
    · exact (emptyEntries_laid primary width).plain _ inside (Or.inr narrow)
    · rintro symbol - (⟨used, short, -, starts⟩ | ⟨long, past, bound, place, -⟩)
      · exact none symbol ((matches_short short).mp ⟨used, starts⟩)
      · have low := primary_le_offsetOf primary width (word lengths symbol % 2 ^ primary)
        omega

structure Reaches (kind : Kind) (lengths : List Nat) (primary : Nat) (width : Nat → Nat)
    (bits : Nat) (entry : Entry) : Prop where
  matched : ∀ symbol, Matches lengths symbol bits →
    entry = kind.symbolEntry symbol (lengthOf lengths symbol)
  unmatched : (∀ symbol, ¬Matches lengths symbol bits) →
    entry = ⟨primary + width (bits % 2 ^ primary), .invalid, 0, 0⟩

theorem Reaches.cases {entry : Entry} (reaches : Reaches kind lengths primary width bits entry) :
    (∃ symbol, Matches lengths symbol bits ∧
      entry = kind.symbolEntry symbol (lengthOf lengths symbol)) ∨
    ((∀ symbol, ¬Matches lengths symbol bits) ∧
      entry = ⟨primary + width (bits % 2 ^ primary), .invalid, 0, 0⟩) := by
  by_cases some_symbol : ∃ symbol, Matches lengths symbol bits
  · obtain ⟨symbol, found⟩ := some_symbol
    exact Or.inl ⟨symbol, found, reaches.matched symbol found⟩
  · have none := not_exists.mp some_symbol
    exact Or.inr ⟨none, reaches.unmatched none⟩

theorem Reaches.tag {entry : Entry} (reaches : Reaches kind lengths primary width bits entry) :
    entry.tag ≠ .link ∧ entry.tag ≠ .pair := by
  rcases reaches.cases with ⟨symbol, -, rfl⟩ | ⟨-, rfl⟩
  · obtain ⟨link, pair, -⟩ := symbolEntry_tag kind symbol (lengthOf lengths symbol)
    exact ⟨link, pair⟩
  · simp

theorem Reaches.unique {left right : Entry}
    (here : Reaches kind lengths primary width bits left)
    (there : Reaches kind lengths primary width bits right) : left = right := by
  rcases here.cases with ⟨symbol, found, rfl⟩ | ⟨none, rfl⟩
  · exact (there.matched symbol found).symm
  · exact (there.unmatched none).symm

section

variable (fits : Fits lengths 15) (widths : Widths lengths primary width)

include fits widths

theorem Filled.link (filled : Filled kind lengths primary width lengths.length entries)
    {index : Nat} (inside : index < 2 ^ primary) (wide : width index ≠ 0) :
    entries[index]?
      = some ⟨primary, .link, width index, offsetOf primary width index⟩ := by
  rw [filled.free]
  · exact (emptyEntries_laid primary width).linked _ inside wide
  · intro symbol _
    exact widths.link_free fits inside wide symbol

theorem Filled.find_linked (filled : Filled kind lengths primary width lengths.length entries)
    (wide : width (bits % 2 ^ primary) ≠ 0) :
    (∀ symbol, Matches lengths symbol bits →
      entries[offsetOf primary width (bits % 2 ^ primary)
          + bits / 2 ^ primary % 2 ^ width (bits % 2 ^ primary)]?
        = some (kind.symbolEntry symbol (lengthOf lengths symbol))
      ∧ primary < lengthOf lengths symbol) ∧
    ((∀ symbol, ¬Matches lengths symbol bits) →
      entries[offsetOf primary width (bits % 2 ^ primary)
          + bits / 2 ^ primary % 2 ^ width (bits % 2 ^ primary)]?
        = some ⟨primary + width (bits % 2 ^ primary), .invalid, 0, 0⟩) := by
  have inside : bits % 2 ^ primary < 2 ^ primary := Nat.mod_lt _ (Nat.two_pow_pos _)
  have below : bits / 2 ^ primary % 2 ^ width (bits % 2 ^ primary)
      < 2 ^ width (bits % 2 ^ primary) := Nat.mod_lt _ (Nat.two_pow_pos _)
  -- the bits past the primary ones decide a code as long as the subtable is wide enough for it
  have cut : ∀ symbol, primary < lengthOf lengths symbol →
      word lengths symbol % 2 ^ primary = bits % 2 ^ primary →
      bits / 2 ^ primary % 2 ^ width (bits % 2 ^ primary)
          % 2 ^ (lengthOf lengths symbol - primary)
        = bits / 2 ^ primary % 2 ^ (lengthOf lengths symbol - primary) := by
    intro symbol long reached
    have covers := widths.covers symbol long
    rw [reached] at covers
    exact Nat.mod_mod_of_dvd _ (Nat.pow_dvd_pow 2 covers)
  constructor
  · intro symbol found
    have long : primary < lengthOf lengths symbol := by
      by_contra short
      have low := (matches_short (Nat.not_lt.mp short)).mpr found
      exact widths.link_free fits inside wide symbol
        (Or.inl ⟨found.used, Nat.not_lt.mp short, inside, low.starts⟩)
    obtain ⟨low, high⟩ := (matches_long bits long).mp found
    refine ⟨?_, long⟩
    apply filled.owned symbol (inside_of_used found.used)
    rw [low] at below ⊢
    refine Or.inr ⟨long, _, below, rfl, ?_⟩
    rw [← low, cut symbol long low.symm]
    exact high
  · intro none
    rw [filled.free]
    · exact (emptyEntries_laid primary width).subtable _ inside wide _ below
    · rintro symbol - (⟨-, -, impossible, -⟩ | ⟨long, past, bound, place, starts⟩)
      · have low := primary_le_offsetOf primary width (bits % 2 ^ primary)
        omega
      · obtain ⟨same, equal⟩ := subtables_disjoint wide (widths.wide long) below bound place
        apply none symbol
        rw [matches_long bits long]
        refine ⟨same, ?_⟩
        rw [← cut symbol long same.symm, equal]
        exact starts

theorem Filled.find (filled : Filled kind lengths primary width lengths.length entries)
    (bits : Nat) :
    ∃ entry, DecodeTable.find ⟨entries, primary⟩ bits = some entry ∧
      Reaches kind lengths primary width bits entry := by
  have inside : bits % 2 ^ primary < 2 ^ primary := Nat.mod_lt _ (Nat.two_pow_pos _)
  rw [DecodeTable.find]
  by_cases wide : width (bits % 2 ^ primary) = 0
  · obtain ⟨matched, unmatched⟩ := filled.find_direct widths wide
    by_cases some_symbol : ∃ symbol, Matches lengths symbol bits
    · obtain ⟨symbol, found⟩ := some_symbol
      refine ⟨kind.symbolEntry symbol (lengthOf lengths symbol), ?_, ?_, ?_⟩
      · rw [matched symbol found, Option.bind_eq_bind, Option.bind_some,
          if_neg (symbolEntry_tag kind symbol _).1]
      · intro other also
        rw [Matches.unique fits found also]
      · intro none
        exact absurd found (none symbol)
    · have none := not_exists.mp some_symbol
      refine ⟨⟨primary, .invalid, 0, 0⟩, ?_, ?_, ?_⟩
      · rw [unmatched none, Option.bind_eq_bind, Option.bind_some, if_neg (by simp)]
      · intro symbol found
        exact absurd found (none symbol)
      · intro _
        rw [wide, Nat.add_zero]
  · obtain ⟨matched, unmatched⟩ := filled.find_linked fits widths wide
    rw [filled.link fits widths inside wide, Option.bind_eq_bind, Option.bind_some, if_pos rfl]
    by_cases some_symbol : ∃ symbol, Matches lengths symbol bits
    · obtain ⟨symbol, found⟩ := some_symbol
      refine ⟨kind.symbolEntry symbol (lengthOf lengths symbol), (matched symbol found).1, ?_, ?_⟩
      · intro other also
        rw [Matches.unique fits found also]
      · intro none
        exact absurd found (none symbol)
    · have none := not_exists.mp some_symbol
      refine ⟨⟨primary + width (bits % 2 ^ primary), .invalid, 0, 0⟩, unmatched none, ?_, ?_⟩
      · intro symbol found
        exact absurd found (none symbol)
      · intro _
        rfl

theorem Reaches.determined {bits other : Nat} {entry : Entry}
    (reaches : Reaches kind lengths primary width bits entry)
    (same : bits % 2 ^ entry.bits = other % 2 ^ entry.bits) :
    Reaches kind lengths primary width other entry := by
  rcases reaches.cases with ⟨symbol, found, rfl⟩ | ⟨none, rfl⟩
  · rw [symbolEntry_bits] at same
    have also := found.congr same
    constructor
    · intro another too
      rw [Matches.unique fits also too]
    · intro unmatched
      exact absurd also (unmatched symbol)
  · have lower : ∀ len ≤ primary + width (bits % 2 ^ primary),
        other % 2 ^ len = bits % 2 ^ len := by
      intro len bound
      have divides := Nat.pow_dvd_pow 2 bound
      rw [← Nat.mod_mod_of_dvd other divides, ← same, Nat.mod_mod_of_dvd bits divides]
    have index := lower primary (Nat.le_add_right _ _)
    have none_there : ∀ symbol, ¬Matches lengths symbol other := by
      intro symbol found
      apply none symbol
      apply found.congr
      apply lower
      by_cases short : lengthOf lengths symbol ≤ primary
      · exact short.trans (Nat.le_add_right _ _)
      · have long := Nat.not_le.mp short
        have covers := widths.covers symbol long
        rw [← ((matches_long other long).mp found).1, index] at covers
        omega
    constructor
    · intro symbol found
      exact absurd found (none_there symbol)
    · intro _
      rw [index]

theorem Reaches.bounds (positive : 0 < primary) (bound : primary ≤ 15) {entry : Entry}
    (reaches : Reaches kind lengths primary width bits entry) :
    0 < entry.bits ∧ entry.bits ≤ 15 := by
  rcases reaches.cases with ⟨symbol, found, rfl⟩ | ⟨none, rfl⟩
  · rw [symbolEntry_bits]
    exact ⟨found.used, lengthOf_le fits symbol⟩
  · refine ⟨Nat.add_pos_left positive _, ?_⟩
    by_cases wide : width (bits % 2 ^ primary) = 0
    · simpa [wide] using bound
    · obtain ⟨symbol, long, -, exactly⟩ := widths.reached _ wide
      have short := lengthOf_le fits symbol
      change primary + width (bits % 2 ^ primary) ≤ 15
      omega

theorem Filled.past_link (filled : Filled kind lengths primary width lengths.length entries)
    {link entry : Entry} (here : entries[bits % 2 ^ primary]? = some link) (tag : link.tag = .link)
    (reaches : Reaches kind lengths primary width bits entry) :
    link.bits = primary ∧ primary < entry.bits := by
  have inside : bits % 2 ^ primary < 2 ^ primary := Nat.mod_lt _ (Nat.two_pow_pos _)
  by_cases narrow : width (bits % 2 ^ primary) = 0
  · obtain ⟨matched, unmatched⟩ := filled.find_direct widths narrow
    rcases reaches.cases with ⟨symbol, found, -⟩ | ⟨none, -⟩
    · have same := Option.some.inj (here.symm.trans (matched symbol found))
      exact absurd (same ▸ tag) (symbolEntry_tag kind symbol _).1
    · have same := Option.some.inj (here.symm.trans (unmatched none))
      exact absurd (same ▸ tag) (by simp)
  · have same := Option.some.inj (here.symm.trans (filled.link fits widths inside narrow))
    rw [same]
    refine ⟨rfl, ?_⟩
    rcases reaches.cases with ⟨symbol, found, rfl⟩ | ⟨none, rfl⟩
    · rw [symbolEntry_bits]
      exact ((filled.find_linked fits widths narrow).1 symbol found).2
    · change primary < primary + width (bits % 2 ^ primary)
      omega

end

end

/-! ### The table with pairs -/

structure DecodeTable.Decodes (table : DecodeTable) (kind : Kind) (lengths : List Nat)
    (width : Nat → Nat) : Prop where
  fits : Fits lengths 15
  widths : Widths lengths table.primaryBits width
  found : ∀ bits, ∃ entry, table.find bits = some entry ∧ entry.tag ≠ .link ∧ entry.bits ≤ 15
  reaches : ∀ bits, Reaches kind lengths table.primaryBits width bits (table.decode bits)
  link : ∀ bits entry, table.entries[bits % 2 ^ table.primaryBits]? = some entry →
    entry.tag = .link →
      entry.bits = table.primaryBits ∧ table.primaryBits < (table.decode bits).bits
  pair : ∀ bits entry, table.find bits = some entry → entry.tag = .pair →
    table.decode bits = ⟨entry.aux, .literal, 0, entry.value % 256⟩ ∧
    table.decode (bits / 2 ^ entry.aux)
      = ⟨entry.bits - entry.aux, .literal, 0, entry.value / 256⟩ ∧
    entry.aux < entry.bits ∧ kind = .literalLength

theorem decode_of_find {table : DecodeTable} {bits : Nat} {entry : Entry}
    (found : table.find bits = some entry) : table.decode bits = entry.alone := by
  rw [DecodeTable.decode, found]

theorem alone_of_tag {entry : Entry} (single : entry.tag ≠ .pair) : entry.alone = entry := by
  rw [Entry.alone, if_neg single]

theorem mergePairAt_get (primary : Nat) (scratch entries : List Entry) (index pos : Nat) :
    (mergePairAt primary scratch entries index)[pos]?
      = if pos = index then entries[pos]?.map ((pairAt primary scratch index).getD ·)
        else entries[pos]? := by
  rw [mergePairAt]
  by_cases here : pos = index
  · rw [if_pos here, here]
    cases pairAt primary scratch index with
    | none => cases entries[index]? <;> rfl
    | some pair =>
      change (entries.set index pair)[index]? = _
      rw [List.getElem?_set_self']
      rfl
  · rw [if_neg here]
    cases pairAt primary scratch index with
    | none => rfl
    | some pair => exact List.getElem?_set_ne (Ne.symm here)

theorem mergeLiteralPairs_get (primary : Nat) (entries : List Entry) (pos : Nat) :
    (mergeLiteralPairs primary entries)[pos]?
      = if pos < 2 ^ primary then
          entries[pos]?.map ((pairAt primary (entries.take (2 ^ primary)) pos).getD ·)
        else entries[pos]? := by
  have every : ∀ done, ((List.range done).foldl
      (mergePairAt primary (entries.take (2 ^ primary))) entries)[pos]?
      = if pos < done then
          entries[pos]?.map ((pairAt primary (entries.take (2 ^ primary)) pos).getD ·)
        else entries[pos]? := by
    intro done
    induction done with
    | zero => rfl
    | succ done ih =>
      rw [List.range_succ, List.foldl_append, List.foldl_cons, List.foldl_nil, mergePairAt_get, ih]
      by_cases here : pos = done
      · rw [if_pos here, if_neg (by omega), if_pos (by omega), here]
      · rw [if_neg here]
        by_cases earlier : pos < done
        · rw [if_pos earlier, if_pos (by omega)]
        · rw [if_neg earlier, if_neg (by omega)]
  exact every _

section
variable {lengths : List Nat} {primary : Nat} {width : Nat → Nat} {kind : Kind}
  {entries : List Entry}

theorem pairAt_some {scratch : List Entry} {index : Nat} {pair : Entry}
    (paired : pairAt primary scratch index = some pair) :
    ∃ first second, scratch[index]? = some first ∧ first.tag = .literal ∧
      scratch[index / 2 ^ first.bits]? = some second ∧ second.tag = .literal ∧
      first.bits + second.bits ≤ primary ∧
      pair = ⟨first.bits + second.bits, .pair, first.bits,
        first.value ||| second.value <<< 8⟩ := by
  rw [pairAt] at paired
  obtain ⟨first, here, rest⟩ := Option.bind_eq_some_iff.mp paired
  split at rest
  · rename_i literal
    obtain ⟨second, there, rest⟩ := Option.bind_eq_some_iff.mp rest
    split at rest
    · rename_i both
      exact ⟨first, second, here, literal, there, both.1, both.2, (Option.some.inj rest).symm⟩
    · exact absurd rest (by simp)
  · exact absurd rest (by simp)

theorem Reaches.literal {bits : Nat} {entry : Entry}
    (reaches : Reaches .literalLength lengths primary width bits entry)
    (literal : entry.tag = .literal) :
    entry = ⟨entry.bits, .literal, 0, entry.value⟩ ∧ entry.value < 256 := by
  rcases reaches.cases with ⟨symbol, -, rfl⟩ | ⟨-, rfl⟩
  · have small := literal_of_literalLength literal
    rw [symbolEntry_literal _ literal]
    exact ⟨rfl, small⟩
  · exact absurd literal (by simp)

section

variable (fits : Fits lengths 15) (widths : Widths lengths primary width)

include fits widths

theorem Filled.decodes (filled : Filled kind lengths primary width lengths.length entries)
    (positive : 0 < primary) (bound : primary ≤ 15) :
    DecodeTable.Decodes ⟨entries, primary⟩ kind lengths width := by
  have decoded : ∀ bits entry, DecodeTable.find ⟨entries, primary⟩ bits = some entry →
      Reaches kind lengths primary width bits entry →
        DecodeTable.decode ⟨entries, primary⟩ bits = entry := by
    intro bits entry found reaches
    rw [decode_of_find found, alone_of_tag reaches.tag.2]
  constructor
  · exact fits
  · exact widths
  · intro bits
    obtain ⟨entry, found, reaches⟩ := filled.find fits widths bits
    exact ⟨entry, found, reaches.tag.1, (reaches.bounds fits widths positive bound).2⟩
  · intro bits
    obtain ⟨entry, found, reaches⟩ := filled.find fits widths bits
    rw [decoded bits entry found reaches]
    exact reaches
  · intro bits link here tag
    obtain ⟨entry, found, reaches⟩ := filled.find fits widths bits
    rw [decoded bits entry found reaches]
    exact filled.past_link fits widths here tag reaches
  · intro bits entry found tag
    obtain ⟨other, also, reaches⟩ := filled.find fits widths bits
    rw [Option.some.inj (found.symm.trans also)] at tag
    exact absurd tag reaches.tag.2

theorem Filled.find_primary (filled : Filled kind lengths primary width lengths.length entries)
    {bits : Nat} {entry : Entry} (here : entries[bits % 2 ^ primary]? = some entry)
    (direct : entry.tag ≠ .link) : Reaches kind lengths primary width bits entry := by
  obtain ⟨other, found, reaches⟩ := filled.find fits widths bits
  rw [DecodeTable.find, here, Option.bind_eq_bind, Option.bind_some, if_neg direct] at found
  rw [Option.some.inj found]
  exact reaches

theorem Filled.paired (filled : Filled .literalLength lengths primary width lengths.length entries)
    {bits : Nat} {pair : Entry} (positive : 0 < primary) (bound : primary ≤ 15)
    (paired : pairAt primary (entries.take (2 ^ primary)) (bits % 2 ^ primary) = some pair) :
    pair.tag = .pair ∧ pair.aux < pair.bits ∧ pair.bits ≤ primary ∧
    Reaches .literalLength lengths primary width bits
      ⟨pair.aux, .literal, 0, pair.value % 256⟩ ∧
    Reaches .literalLength lengths primary width (bits / 2 ^ pair.aux)
      ⟨pair.bits - pair.aux, .literal, 0, pair.value / 256⟩ := by
  have inside : bits % 2 ^ primary < 2 ^ primary := Nat.mod_lt _ (Nat.two_pow_pos _)
  obtain ⟨first, second, here, literal, there, also, short, rfl⟩ := pairAt_some paired
  have below : bits % 2 ^ primary / 2 ^ first.bits < 2 ^ primary :=
    (Nat.div_le_self _ _).trans_lt inside
  rw [List.getElem?_take_of_lt inside] at here
  rw [List.getElem?_take_of_lt below] at there
  have reachFirst := filled.find_primary fits widths here (by simp [literal])
  have boundsFirst := reachFirst.bounds fits widths positive bound
  have order : first.bits ≤ primary := by omega
  -- the index left after the first literal carries the second, zeros above it
  have second_index : bits % 2 ^ primary / 2 ^ first.bits
      = bits / 2 ^ first.bits % 2 ^ (primary - first.bits) := by
    rw [← Nat.add_sub_cancel' order, pow_add, Nat.mod_mul_right_div_self, Nat.add_sub_cancel' order]
  have low : bits / 2 ^ first.bits % 2 ^ (primary - first.bits) % 2 ^ primary
      = bits / 2 ^ first.bits % 2 ^ (primary - first.bits) := by
    rw [← second_index]
    exact Nat.mod_eq_of_lt below
  have there' : entries[bits / 2 ^ first.bits % 2 ^ (primary - first.bits) % 2 ^ primary]?
      = some second := by
    rw [low, ← second_index]
    exact there
  have reachSecond := filled.find_primary fits widths there' (by simp [also])
  have moved : Reaches .literalLength lengths primary width (bits / 2 ^ first.bits) second := by
    apply reachSecond.determined fits widths
    exact Nat.mod_mod_of_dvd _ (Nat.pow_dvd_pow 2 (by omega))
  obtain ⟨shapeFirst, byteFirst⟩ := reachFirst.literal literal
  obtain ⟨shapeSecond, byteSecond⟩ := moved.literal also
  have boundsSecond := moved.bounds fits widths positive bound
  have value : first.value ||| second.value <<< 8 = first.value + 256 * second.value := by
    rw [Nat.or_comm, ← Nat.shiftLeft_add_eq_or_of_lt byteFirst, Nat.shiftLeft_eq]
    omega
  have lowByte : (first.value ||| second.value <<< 8) % 256 = first.value := by
    rw [value]
    omega
  have highByte : (first.value ||| second.value <<< 8) / 256 = second.value := by
    rw [value]
    omega
  refine ⟨rfl, ?_, short, ?_, ?_⟩
  · change first.bits < first.bits + second.bits
    omega
  · rw [lowByte, ← shapeFirst]
    exact reachFirst
  · rw [highByte, Nat.add_sub_cancel_left, ← shapeSecond]
    exact moved

theorem Filled.link_value (filled : Filled kind lengths primary width lengths.length entries)
    {bits : Nat} {link : Entry} (here : entries[bits % 2 ^ primary]? = some link)
    (tag : link.tag = .link) :
    2 ^ primary ≤ link.value := by
  have inside : bits % 2 ^ primary < 2 ^ primary := Nat.mod_lt _ (Nat.two_pow_pos _)
  by_cases narrow : width (bits % 2 ^ primary) = 0
  · obtain ⟨entry, found, reaches⟩ := filled.find fits widths bits
    obtain ⟨matched, unmatched⟩ := filled.find_direct widths narrow
    rcases reaches.cases with ⟨symbol, found, -⟩ | ⟨none, -⟩
    · rw [Option.some.inj (here.symm.trans (matched symbol found))] at tag
      exact absurd tag (symbolEntry_tag kind symbol _).1
    · rw [Option.some.inj (here.symm.trans (unmatched none))] at tag
      exact absurd tag (by simp)
  · rw [Option.some.inj (here.symm.trans (filled.link fits widths inside narrow))]
    exact primary_le_offsetOf _ _ _

theorem Filled.find_merged
    (filled : Filled .literalLength lengths primary width lengths.length entries) (bits : Nat) :
    (∀ pair, pairAt primary (entries.take (2 ^ primary)) (bits % 2 ^ primary) = some pair →
      pair.tag = .pair →
        DecodeTable.find ⟨mergeLiteralPairs primary entries, primary⟩ bits = some pair) ∧
    (pairAt primary (entries.take (2 ^ primary)) (bits % 2 ^ primary) = none →
      DecodeTable.find ⟨mergeLiteralPairs primary entries, primary⟩ bits
        = DecodeTable.find ⟨entries, primary⟩ bits) := by
  have inside : bits % 2 ^ primary < 2 ^ primary := Nat.mod_lt _ (Nat.two_pow_pos _)
  have present : bits % 2 ^ primary < entries.length := by
    rw [filled.length]
    exact inside.trans_le (primary_le_offsetOf _ _ _)
  have here := List.getElem?_eq_getElem present
  constructor
  · intro pair paired tag
    rw [DecodeTable.find, mergeLiteralPairs_get, if_pos inside, here, paired, Option.map_some,
      Option.bind_eq_bind, Option.bind_some, if_neg (by simp [tag])]
    rfl
  · intro single
    rw [DecodeTable.find, DecodeTable.find, mergeLiteralPairs_get, if_pos inside, here, single,
      Option.map_some, Option.bind_eq_bind, Option.bind_some, Option.bind_some, Option.getD_none]
    split
    · rename_i tag
      have past := filled.link_value fits widths here tag
      rw [mergeLiteralPairs_get, if_neg (by omega)]
    · rfl

theorem Filled.decodes_merged
    (filled : Filled .literalLength lengths primary width lengths.length entries)
    (positive : 0 < primary) (bound : primary ≤ 15) :
    DecodeTable.Decodes ⟨mergeLiteralPairs primary entries, primary⟩ .literalLength lengths
      width := by
  have plain := filled.decodes fits widths positive bound
  have alone : ∀ pair : Entry, pair.tag = .pair →
      pair.alone = ⟨pair.aux, .literal, 0, pair.value % 256⟩ := by
    intro pair tag
    rw [Entry.alone, if_pos tag]
    congr 1
    exact Nat.and_two_pow_sub_one_eq_mod pair.value 8
  -- a paired index decodes its first literal, any other what it decoded before
  have decoded : ∀ bits, Reaches .literalLength lengths primary width bits
      (DecodeTable.decode ⟨mergeLiteralPairs primary entries, primary⟩ bits) := by
    intro bits
    obtain ⟨paired, single⟩ := filled.find_merged fits widths bits
    cases merged : pairAt primary (entries.take (2 ^ primary)) (bits % 2 ^ primary) with
    | none =>
      have same := single merged
      have reaches := plain.reaches bits
      rw [DecodeTable.decode] at reaches
      rw [DecodeTable.decode, same]
      exact reaches
    | some pair =>
      obtain ⟨tag, -, -, reaches, -⟩ := filled.paired fits widths positive bound merged
      rw [decode_of_find (paired pair merged tag), alone pair tag]
      exact reaches
  constructor
  · exact fits
  · exact widths
  · intro bits
    obtain ⟨paired, single⟩ := filled.find_merged fits widths bits
    cases merged : pairAt primary (entries.take (2 ^ primary)) (bits % 2 ^ primary) with
    | none =>
      rw [single merged]
      exact plain.found bits
    | some pair =>
      obtain ⟨tag, -, short, -⟩ := filled.paired fits widths positive bound merged
      refine ⟨pair, paired pair merged tag, ?_, short.trans bound⟩
      rw [tag]
      simp
  · exact decoded
  · intro bits link here tag
    have inside : bits % 2 ^ primary < 2 ^ primary := Nat.mod_lt _ (Nat.two_pow_pos _)
    have merged : pairAt primary (entries.take (2 ^ primary)) (bits % 2 ^ primary) = none := by
      cases merged : pairAt primary (entries.take (2 ^ primary)) (bits % 2 ^ primary) with
      | none => rfl
      | some pair =>
        obtain ⟨tagPair, -⟩ := filled.paired fits widths positive bound merged
        obtain ⟨first, -, first_here, -⟩ := pairAt_some merged
        rw [List.getElem?_take_of_lt inside] at first_here
        rw [mergeLiteralPairs_get, if_pos inside, first_here, merged] at here
        have same : pair = link := Option.some.inj here
        rw [← same, tagPair] at tag
        exact absurd tag (by simp)
    obtain ⟨-, single⟩ := filled.find_merged fits widths bits
    rw [mergeLiteralPairs_get, if_pos inside, merged] at here
    have plain_here : entries[bits % 2 ^ primary]? = some link := by
      simpa using here
    have past := plain.link bits link plain_here tag
    rw [DecodeTable.decode] at past
    rw [DecodeTable.decode, single merged]
    exact past
  · intro bits entry found tag
    obtain ⟨paired, single⟩ := filled.find_merged fits widths bits
    cases merged : pairAt primary (entries.take (2 ^ primary)) (bits % 2 ^ primary) with
    | none =>
      rw [single merged] at found
      obtain ⟨other, also, reaches⟩ := filled.find fits widths bits
      rw [Option.some.inj (found.symm.trans also)] at tag
      exact absurd tag reaches.tag.2
    | some pair =>
      obtain ⟨tagPair, order, -, first, second⟩ := filled.paired fits widths positive bound merged
      have same := Option.some.inj (found.symm.trans (paired pair merged tagPair))
      subst same
      refine ⟨?_, ?_, order, rfl⟩
      · rw [decode_of_find found, alone entry tag]
      · exact (decoded _).unique second

end

end

theorem fits_of_checks {lengths : List Nat}
    (short : ¬(lengths.any fun len => decide (15 < len)) = true)
    (spent : ¬(!spend 1 ((List.range' 1 15).map (count lengths))) = true) : Fits lengths 15 := by
  apply fits_of_spend
  · intro len member
    by_contra long
    exact short (List.any_eq_true.mpr ⟨len, member, by simpa using long⟩)
  · simpa using spent

theorem placeSymbols_filled {lengths : List Nat} (fits : Fits lengths 15) (kind : Kind)
    (primary : Nat) :
    ∃ entries width, placeSymbols kind primary 0
        (lengths.zip (reversedCodes lengths (first (count lengths))))
        (emptyEntries primary (subLens primary
          (lengths.zip (reversedCodes lengths (first (count lengths)))) fun _ => 0)) = some entries
      ∧ Widths lengths primary width
      ∧ Filled kind lengths primary width lengths.length entries := by
  have widths := widths_of_subLens lengths primary
  obtain ⟨entries, placed, filled⟩ := placeSymbols_spec fits widths kind lengths.length 0 _
    (Nat.zero_add _) (emptyEntries_filled kind)
  exact ⟨entries, _, placed, widths, filled⟩

theorem build_decodes {table built : DecodeTable} {lengths : List Nat} {kind : Kind} {pairs : Bool}
    (positive : 0 < table.primaryBits) (bound : table.primaryBits ≤ 15)
    (bytes : pairs = true → kind = .literalLength)
    (ok : table.build lengths kind pairs = .ok built) :
    built.primaryBits = table.primaryBits ∧ ∃ width, built.Decodes kind lengths width := by
  rw [DecodeTable.build] at ok
  split at ok
  · exact absurd ok (by simp)
  rename_i short
  split at ok
  · exact absurd ok (by simp)
  rename_i spent
  split at ok
  · exact absurd ok (by simp)
  have fits := fits_of_checks short spent
  obtain ⟨entries, width, placed, widths, filled⟩ :=
    placeSymbols_filled fits kind table.primaryBits
  dsimp only at ok
  rw [placed] at ok
  have same := Except.ok.inj ok
  subst same
  refine ⟨rfl, width, ?_⟩
  cases pairs with
  | false => exact filled.decodes fits widths positive bound
  | true =>
    obtain rfl := bytes rfl
    exact filled.decodes_merged fits widths positive bound

theorem short_of_bounded {lengths : List Nat} (bounded : ∀ len ∈ lengths, len ≤ 15) :
    ¬(lengths.any fun len => decide (15 < len)) = true := by
  intro long
  obtain ⟨len, member, past⟩ := List.any_eq_true.mp long
  have small := bounded len member
  have large : 15 < len := by simpa using past
  omega

theorem build_total (table : DecodeTable) {lengths : List Nat} (kind : Kind) (pairs : Bool)
    (bounded : ∀ len ∈ lengths, len ≤ 15) (size : lengths.length ≤ 288) :
    table.build lengths kind pairs ≠ .error .panicked := by
  rw [DecodeTable.build, if_neg (short_of_bounded bounded)]
  split
  · simp
  · rename_i spent
    rw [if_neg (by omega)]
    obtain ⟨entries, width, placed, -⟩ :=
      placeSymbols_filled (fits_of_spend bounded (by simpa using spent)) kind table.primaryBits
    dsimp only
    rw [placed]
    simp

theorem spend_refuses {counts : Nat → Nat} (len : Nat) {total : Nat}
    (spent : spend (left counts len) ((List.range' (len + 1) total).map counts) = false) :
    ∃ past ≤ total, left counts (len + past) < 0 := by
  induction total generalizing len with
  | zero => cases spent
  | succ total ih =>
    rw [List.range'_succ, List.map_cons, spend] at spent
    have step : 2 * left counts len - (counts (len + 1) : Nat) = left counts (len + 1) := rfl
    rw [step] at spent
    split at spent
    · rename_i short
      exact ⟨1, by omega, short⟩
    · obtain ⟨past, bound, short⟩ := ih (len + 1) spent
      refine ⟨past + 1, by omega, ?_⟩
      rwa [Nat.add_comm past, ← Nat.add_assoc]

/-- A table is built exactly when the lengths do not spend more than the code space. Then every
code word decodes to its symbol, whatever bits follow it, and bits that no code word starts are
invalid. -/
theorem build_exact {table : DecodeTable} {lengths : List Nat} {kind : Kind} {pairs : Bool}
    (positive : 0 < table.primaryBits) (bound : table.primaryBits ≤ 15)
    (bytes : pairs = true → kind = .literalLength) (bounded : ∀ len ∈ lengths, len ≤ 15)
    (size : lengths.length ≤ 288) :
    (table.build lengths kind pairs = .error (.refused (.oversubscribedCode kind.alphabet)) ∧
      ∃ len ≤ 15, left (count lengths) len < 0) ∨
    (∀ len ≤ 15, 0 ≤ left (count lengths) len) ∧
      ∃ built, table.build lengths kind pairs = .ok built ∧
        (∀ symbol rest, 0 < lengthOf lengths symbol →
          built.decode (word lengths symbol + 2 ^ lengthOf lengths symbol * rest) =
            kind.symbolEntry symbol (lengthOf lengths symbol)) ∧
        ∀ bits, (∀ symbol, 0 < lengthOf lengths symbol →
          bits % 2 ^ lengthOf lengths symbol ≠ word lengths symbol) →
            (built.decode bits).tag = .invalid := by
  have short := short_of_bounded bounded
  by_cases spent : spend 1 ((List.range' 1 15).map (count lengths)) = true
  · have fits := fits_of_spend bounded spent
    refine Or.inr ⟨fits.left_nonneg, ?_⟩
    cases made : table.build lengths kind pairs with
    | error fault =>
      obtain ⟨entries, width, placed, -⟩ := placeSymbols_filled fits kind table.primaryBits
      rw [DecodeTable.build, if_neg short, if_neg (by simp [spent]), if_neg (by omega)] at made
      dsimp only at made
      rw [placed] at made
      cases made
    | ok built =>
      obtain ⟨-, width, decodes⟩ := build_decodes positive bound bytes made
      refine ⟨built, rfl, ?_, ?_⟩
      · intro symbol rest used
        refine (decodes.reaches _).matched symbol ⟨used, ?_⟩
        rw [Nat.add_mul_mod_self_left, Nat.mod_eq_of_lt (word_lt fits symbol)]
      · intro bits none
        rw [(decodes.reaches bits).unmatched fun symbol found =>
          none symbol found.used found.starts]
  · obtain ⟨len, inside, negative⟩ := spend_refuses 0 (eq_false_of_ne_true spent)
    refine Or.inl ⟨?_, len, inside, by rwa [Nat.zero_add] at negative⟩
    rw [DecodeTable.build, if_neg short, if_pos (by simpa using spent)]

theorem build_exact_three :
    ∃ built, (DecodeTable.new 7).build [1, 2, 2] .codeLength false = .ok built ∧
      ∀ rest, built.decode (word [1, 2, 2] 1 + 2 ^ lengthOf [1, 2, 2] 1 * rest) =
        Kind.codeLength.symbolEntry 1 2 := by
  rcases build_exact (show 0 < (DecodeTable.new 7).primaryBits by decide) (by decide)
      (show false = true → Kind.codeLength = .literalLength by decide)
      (show ∀ len ∈ [1, 2, 2], len ≤ 15 by decide) (by decide) with
    ⟨-, len, inside, negative⟩ | ⟨-, built, made, words, -⟩
  · have enough : ∀ len ≤ 15, 0 ≤ left (count [1, 2, 2]) len := by decide
    exact absurd (enough len inside) (Int.not_le.mpr negative)
  · exact ⟨built, made, fun rest => words 1 rest (by decide)⟩

end Purrdf.Deflate
