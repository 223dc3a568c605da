import Purrdf.DecodeTable

/-!
# Filling a decode table

Every position of a decode table belongs to at most one symbol, and after the filling holds
that symbol's entry, or what the empty table had there.
-/

namespace Purrdf.Deflate

open CanonicalCode

/-! ### The empty table -/

def offsetOf (primary : Nat) (width : Nat → Nat) : Nat → Nat
  | 0 => 2 ^ primary
  | index + 1 =>
    offsetOf primary width index + if width index = 0 then 0 else 2 ^ width index

theorem offsetOf_mono (primary : Nat) (width : Nat → Nat) {low high : Nat} (order : low ≤ high) :
    offsetOf primary width low ≤ offsetOf primary width high := by
  induction high, order using Nat.le_induction with
  | base => exact le_rfl
  | succ high order ih =>
    rw [offsetOf]
    exact ih.trans (Nat.le_add_right _ _)

theorem primary_le_offsetOf (primary : Nat) (width : Nat → Nat) (index : Nat) :
    2 ^ primary ≤ offsetOf primary width index :=
  offsetOf_mono primary width (Nat.zero_le index)

theorem offsetOf_past (primary : Nat) {width : Nat → Nat} {low high : Nat} (order : low < high)
    (wide : width low ≠ 0) :
    offsetOf primary width low + 2 ^ width low ≤ offsetOf primary width high := by
  have step : offsetOf primary width (low + 1)
      = offsetOf primary width low + 2 ^ width low := by
    rw [offsetOf, if_neg wide]
  rw [← step]
  exact offsetOf_mono primary width order

structure Laid (primary : Nat) (width : Nat → Nat) (laid : Nat) (entries : List Entry) : Prop where
  length : entries.length = offsetOf primary width laid
  plain : ∀ index < 2 ^ primary, laid ≤ index ∨ width index = 0 →
    entries[index]? = some ⟨primary, .invalid, 0, 0⟩
  linked : ∀ index < laid, width index ≠ 0 →
    entries[index]? = some ⟨primary, .link, width index, offsetOf primary width index⟩
  subtable : ∀ index < laid, width index ≠ 0 → ∀ past < 2 ^ width index,
    entries[offsetOf primary width index + past]?
      = some ⟨primary + width index, .invalid, 0, 0⟩

theorem Laid.append {primary laid : Nat} {width : Nat → Nat} {entries : List Entry}
    (so_far : Laid primary width laid entries) (inside : laid < 2 ^ primary) :
    Laid primary width (laid + 1) (appendSubtable primary width entries laid) := by
  have low := primary_le_offsetOf primary width laid
  have length := so_far.length
  rw [appendSubtable]
  split
  · rename_i narrow
    constructor
    · rw [offsetOf, if_pos narrow, Nat.add_zero]
      exact length
    · intro index bound here
      apply so_far.plain index bound
      rcases here with later | none
      · exact Or.inl (by omega)
      · exact Or.inr none
    · intro index earlier wide
      apply so_far.linked index _ wide
      have other : index ≠ laid := fun same => wide (same ▸ narrow)
      omega
    · intro index earlier wide
      apply so_far.subtable index _ wide
      have other : index ≠ laid := fun same => wide (same ▸ narrow)
      omega
  · rename_i wide
    have kept : ∀ pos < entries.length, pos ≠ laid → (entries.set laid
        ⟨primary, .link, width laid, entries.length⟩ ++ List.replicate (2 ^ width laid)
        (⟨primary + width laid, .invalid, 0, 0⟩ : Entry))[pos]? = entries[pos]? := by
      intro pos bound other
      rw [List.getElem?_append_left (by simpa using bound), List.getElem?_set_ne (Ne.symm other)]
    constructor
    · rw [List.length_append, List.length_set, List.length_replicate, offsetOf, if_neg wide,
        length]
    · intro index bound here
      have later : index ≠ laid ∧ (laid ≤ index ∨ width index = 0) := by
        rcases here with later | none
        · exact ⟨by omega, Or.inl (by omega)⟩
        · exact ⟨fun same => wide (same ▸ none), Or.inr none⟩
      rw [kept index (by omega) later.1]
      exact so_far.plain index bound later.2
    · intro index earlier wideHere
      by_cases same : index = laid
      · rw [same, List.getElem?_append_left (by rw [List.length_set]; omega),
          List.getElem?_set_self (by omega), length]
      · rw [kept index (by omega) same]
        exact so_far.linked index (by omega) wideHere
    · intro index earlier wideHere past bound
      by_cases same : index = laid
      · subst same
        rw [List.getElem?_append_right (by rw [List.length_set, length]; omega), List.length_set,
          length, Nat.add_sub_cancel_left, List.getElem?_replicate, if_pos bound]
      · have order : index < laid := by omega
        have ends := offsetOf_past primary order wideHere
        have start := primary_le_offsetOf primary width index
        rw [kept _ (by omega) (by omega)]
        exact so_far.subtable index order wideHere past bound

theorem emptyEntries_laid (primary : Nat) (width : Nat → Nat) :
    Laid primary width (2 ^ primary) (emptyEntries primary width) := by
  have every : ∀ laid ≤ 2 ^ primary, Laid primary width laid
      ((List.range laid).foldl (appendSubtable primary width)
        (List.replicate (2 ^ primary) ⟨primary, .invalid, 0, 0⟩)) := by
    intro laid bound
    induction laid with
    | zero =>
      constructor
      · rw [List.range_zero, List.foldl_nil, List.length_replicate, offsetOf]
      · intro index inside _
        rw [List.range_zero, List.foldl_nil, List.getElem?_replicate, if_pos inside]
      · intro index earlier
        omega
      · intro index earlier
        omega
    | succ laid ih =>
      rw [List.range_succ, List.foldl_append, List.foldl_cons, List.foldl_nil]
      exact (ih (by omega)).append bound
  exact every _ le_rfl

/-! ### Which position belongs to which symbol -/

/-- A symbol's code starts the bits that reach a position. -/
def Owns (lengths : List Nat) (primary : Nat) (width : Nat → Nat) (symbol pos : Nat) : Prop :=
  (0 < lengthOf lengths symbol ∧ lengthOf lengths symbol ≤ primary ∧ pos < 2 ^ primary ∧
    pos % 2 ^ lengthOf lengths symbol = word lengths symbol) ∨
  (primary < lengthOf lengths symbol ∧
    ∃ past < 2 ^ width (word lengths symbol % 2 ^ primary),
      pos = offsetOf primary width (word lengths symbol % 2 ^ primary) + past ∧
      past % 2 ^ (lengthOf lengths symbol - primary) = word lengths symbol / 2 ^ primary)

section
variable {lengths : List Nat} {primary : Nat} {width : Nat → Nat}

theorem matches_long (bits : Nat) {symbol : Nat} (long : primary < lengthOf lengths symbol) :
    Matches lengths symbol bits ↔ bits % 2 ^ primary = word lengths symbol % 2 ^ primary ∧
      bits / 2 ^ primary % 2 ^ (lengthOf lengths symbol - primary)
        = word lengths symbol / 2 ^ primary := by
  have split : bits % 2 ^ lengthOf lengths symbol = bits % 2 ^ primary
      + 2 ^ primary * (bits / 2 ^ primary % 2 ^ (lengthOf lengths symbol - primary)) := by
    rw [← Nat.mod_mul, ← pow_add, Nat.add_sub_cancel' long.le]
  have whole := Nat.mod_add_div (word lengths symbol) (2 ^ primary)
  have positive := Nat.two_pow_pos primary
  constructor
  · intro found
    have same := found.starts
    rw [split] at same
    constructor
    · rw [← same, Nat.add_mul_mod_self_left, Nat.mod_mod]
    · rw [← same, Nat.add_mul_div_left _ _ positive, Nat.div_eq_of_lt (Nat.mod_lt _ positive),
        Nat.zero_add]
  · intro parts
    constructor
    · omega
    · rw [split, parts.1, parts.2]
      exact whole

theorem matches_short {symbol bits : Nat} (short : lengthOf lengths symbol ≤ primary) :
    Matches lengths symbol (bits % 2 ^ primary) ↔ Matches lengths symbol bits := by
  have same : bits % 2 ^ primary % 2 ^ lengthOf lengths symbol
      = bits % 2 ^ lengthOf lengths symbol := Nat.mod_mod_of_dvd _ (Nat.pow_dvd_pow 2 short)
  constructor
  · intro found
    exact found.congr same
  · intro found
    exact found.congr same.symm

theorem subtables_disjoint {low high pastLow pastHigh : Nat} (wideLow : width low ≠ 0)
    (wideHigh : width high ≠ 0) (boundLow : pastLow < 2 ^ width low)
    (boundHigh : pastHigh < 2 ^ width high)
    (same : offsetOf primary width low + pastLow = offsetOf primary width high + pastHigh) :
    low = high ∧ pastLow = pastHigh := by
  rcases Nat.lt_trichotomy low high with order | equal | order
  · have past := offsetOf_past primary order wideLow
    omega
  · subst equal
    exact ⟨rfl, by omega⟩
  · have past := offsetOf_past primary order wideHigh
    omega

theorem Widths.wide (widths : Widths lengths primary width) {symbol : Nat}
    (long : primary < lengthOf lengths symbol) :
    width (word lengths symbol % 2 ^ primary) ≠ 0 := by
  have covers := widths.covers symbol long
  omega

theorem Owns.unique (fits : Fits lengths 15) (widths : Widths lengths primary width)
    {a b pos : Nat} (left : Owns lengths primary width a pos)
    (right : Owns lengths primary width b pos) : a = b := by
  rcases left with ⟨usedA, shortA, insideA, startsA⟩ | ⟨longA, pastA, boundA, placeA, startsA⟩
  · rcases right with ⟨usedB, -, -, startsB⟩ | ⟨longB, pastB, boundB, placeB, -⟩
    · exact Matches.unique fits ⟨usedA, startsA⟩ ⟨usedB, startsB⟩
    · have low := primary_le_offsetOf primary width (word lengths b % 2 ^ primary)
      omega
  · rcases right with ⟨-, -, insideB, -⟩ | ⟨longB, pastB, boundB, placeB, startsB⟩
    · have low := primary_le_offsetOf primary width (word lengths a % 2 ^ primary)
      omega
    · obtain ⟨index, past⟩ := subtables_disjoint (widths.wide longA) (widths.wide longB) boundA
        boundB (placeA.symm.trans placeB)
      -- the primary bits followed by the bits past them start both codes
      let bits := word lengths a % 2 ^ primary + 2 ^ primary * pastA
      have positive := Nat.two_pow_pos primary
      have low : bits % 2 ^ primary = word lengths a % 2 ^ primary := by
        rw [Nat.add_mul_mod_self_left, Nat.mod_mod]
      have high : bits / 2 ^ primary = pastA := by
        rw [Nat.add_mul_div_left _ _ positive, Nat.div_eq_of_lt (Nat.mod_lt _ positive),
          Nat.zero_add]
      have startA := (matches_long bits longA).mpr ⟨low, by rw [high]; exact startsA⟩
      have startB := (matches_long bits longB).mpr
        ⟨low.trans index, by rw [high, past]; exact startsB⟩
      exact Matches.unique fits startA startB

theorem Widths.link_free (fits : Fits lengths 15) (widths : Widths lengths primary width)
    {index : Nat} (inside : index < 2 ^ primary) (wide : width index ≠ 0) (symbol : Nat) :
    ¬Owns lengths primary width symbol index := by
  rintro (⟨used, short, -, starts⟩ | ⟨long, past, bound, place, -⟩)
  · obtain ⟨other, long, reached, -⟩ := widths.reached index wide
    have matched : Matches lengths symbol (word lengths other % 2 ^ primary) := by
      rw [reached]
      exact ⟨used, starts⟩
    have both := (matches_short short).mp matched
    have own : Matches lengths other (word lengths other) :=
      ⟨by omega, Nat.mod_eq_of_lt (word_lt fits other)⟩
    have same := Matches.unique fits both own
    subst same
    omega
  · have low := primary_le_offsetOf primary width (word lengths symbol % 2 ^ primary)
    omega

/-! ### The filling -/

def Strided (step offset bound index pos : Nat) : Prop :=
  offset + index ≤ pos ∧ pos < offset + bound ∧ (pos - offset) % step = index % step

theorem Strided.cases {step offset bound index pos : Nat} (positive : 0 < step)
    (inside : index < bound) :
    Strided step offset bound index pos ↔
      pos = offset + index ∨ Strided step offset bound (index + step) pos := by
  constructor
  · rintro ⟨low, high, same⟩
    by_cases first : pos = offset + index
    · exact Or.inl first
    · have divides : step ∣ pos - offset - index :=
        Nat.dvd_of_mod_eq_zero (Nat.sub_mod_eq_zero_of_mod_eq same)
      have far := Nat.le_of_dvd (by omega) divides
      exact Or.inr ⟨by omega, high, by rw [Nat.add_mod_right]; exact same⟩
  · rintro (first | ⟨low, high, same⟩)
    · refine ⟨by omega, by omega, ?_⟩
      rw [first, Nat.add_sub_cancel_left]
    · exact ⟨by omega, high, by rwa [Nat.add_mod_right] at same⟩

theorem stride_spec (entry : Entry) {step : Nat} (offset bound fuel index : Nat)
    {entries : List Entry} (positive : 0 < step) (enough : bound ≤ index + fuel)
    (room : offset + bound ≤ entries.length) :
    ∃ out, stride entry step offset bound fuel index entries = some out ∧
      out.length = entries.length ∧
      (∀ pos, Strided step offset bound index pos → out[pos]? = some entry) ∧
      (∀ pos, ¬Strided step offset bound index pos → out[pos]? = entries[pos]?) := by
  induction fuel generalizing index entries with
  | zero =>
    refine ⟨entries, rfl, rfl, ?_, fun pos _ => rfl⟩
    rintro pos ⟨low, high, -⟩
    omega
  | succ fuel ih =>
    rw [stride]
    split
    · rename_i inside
      rw [if_pos (by omega)]
      obtain ⟨out, result, length, written, kept⟩ := ih (index + step) (by omega)
        (List.length_set.symm ▸ room : offset + bound
          ≤ (entries.set (offset + index) entry).length)
      rw [List.length_set] at length
      refine ⟨out, result, length, ?_, ?_⟩
      · intro pos hit
        by_cases later : Strided step offset bound (index + step) pos
        · exact written pos later
        · have here := ((Strided.cases positive inside).mp hit).resolve_right later
          rw [kept pos later, here, List.getElem?_set_self (by omega)]
      · intro pos miss
        have other : ¬(pos = offset + index ∨ Strided step offset bound (index + step) pos) :=
          fun hit => miss ((Strided.cases positive inside).mpr hit)
        rw [kept pos fun later => other (Or.inr later),
          List.getElem?_set_ne fun same => other (Or.inl same.symm)]
    · rename_i outside
      refine ⟨entries, rfl, rfl, ?_, fun pos _ => rfl⟩
      rintro pos ⟨low, high, -⟩
      omega

structure Filled (kind : Kind) (lengths : List Nat) (primary : Nat) (width : Nat → Nat)
    (entered : Nat) (entries : List Entry) : Prop where
  length : entries.length = offsetOf primary width (2 ^ primary)
  owned : ∀ symbol < entered, ∀ pos, Owns lengths primary width symbol pos →
    entries[pos]? = some (kind.symbolEntry symbol (lengthOf lengths symbol))
  free : ∀ pos, (∀ symbol < entered, ¬Owns lengths primary width symbol pos) →
    entries[pos]? = (emptyEntries primary width)[pos]?

theorem offsetOf_room {index : Nat} (inside : index < 2 ^ primary) (wide : width index ≠ 0) :
    offsetOf primary width index + 2 ^ width index ≤ offsetOf primary width (2 ^ primary) :=
  offsetOf_past primary inside wide

/-- Entering one symbol writes its positions and nothing else. -/
theorem placeSymbol_spec (fits : Fits lengths 15) (widths : Widths lengths primary width)
    (kind : Kind) {symbol : Nat} {entries : List Entry}
    (filled : Filled kind lengths primary width symbol entries)
    (used : 0 < lengthOf lengths symbol) :
    ∃ out, placeSymbol kind primary symbol (lengthOf lengths symbol) (word lengths symbol) entries
        = some out ∧ out.length = entries.length ∧
      (∀ pos, Owns lengths primary width symbol pos →
        out[pos]? = some (kind.symbolEntry symbol (lengthOf lengths symbol))) ∧
      (∀ pos, ¬Owns lengths primary width symbol pos → out[pos]? = entries[pos]?) := by
  have bound := word_lt fits symbol
  rw [placeSymbol, if_neg (by omega)]
  by_cases short : lengthOf lengths symbol ≤ primary
  · rw [if_pos short]
    have room : 0 + 2 ^ primary ≤ entries.length := by
      rw [filled.length, Nat.zero_add]
      exact primary_le_offsetOf _ _ _
    have hits : ∀ pos, Strided (2 ^ lengthOf lengths symbol) 0 (2 ^ primary)
        (word lengths symbol) pos ↔ Owns lengths primary width symbol pos := by
      intro pos
      rw [Strided, Nat.mod_eq_of_lt bound, Nat.zero_add, Nat.zero_add, Nat.sub_zero, Owns]
      constructor
      · rintro ⟨-, inside, starts⟩
        exact Or.inl ⟨used, short, inside, starts⟩
      · rintro (⟨-, -, inside, starts⟩ | ⟨long, -⟩)
        · refine ⟨?_, inside, starts⟩
          rw [← starts]
          exact Nat.mod_le _ _
        · omega
    obtain ⟨out, result, length, written, kept⟩ := stride_spec
      (kind.symbolEntry symbol (lengthOf lengths symbol)) 0 (2 ^ primary) (2 ^ primary)
      (word lengths symbol) (Nat.two_pow_pos (lengthOf lengths symbol)) (by omega) room
    exact ⟨out, result, length, fun pos owns => written pos ((hits pos).mpr owns),
      fun pos other => kept pos fun hit => other ((hits pos).mp hit)⟩
  · rw [if_neg short]
    have long := Nat.not_le.mp short
    have inside : word lengths symbol % 2 ^ primary < 2 ^ primary :=
      Nat.mod_lt _ (Nat.two_pow_pos _)
    have wide := widths.wide long
    have empty := emptyEntries_laid primary width
    -- no earlier symbol has overwritten the link
    have link := (filled.free _ fun other _ => widths.link_free fits inside wide other).trans
      (empty.linked _ inside wide)
    rw [link, Option.bind_eq_bind, Option.bind_some]
    have room := offsetOf_room inside wide
    rw [← filled.length] at room
    have high : word lengths symbol / 2 ^ primary
        < 2 ^ (lengthOf lengths symbol - primary) := by
      apply Nat.div_lt_of_lt_mul
      rwa [← pow_add, Nat.add_sub_cancel' long.le]
    have covers : 2 ^ (lengthOf lengths symbol - primary)
        ≤ 2 ^ width (word lengths symbol % 2 ^ primary) :=
      Nat.pow_le_pow_right (by omega) (widths.covers symbol long)
    have hits : ∀ pos, Strided (2 ^ (lengthOf lengths symbol - primary))
        (offsetOf primary width (word lengths symbol % 2 ^ primary))
        (2 ^ width (word lengths symbol % 2 ^ primary)) (word lengths symbol / 2 ^ primary) pos
          ↔ Owns lengths primary width symbol pos := by
      intro pos
      rw [Strided, Nat.mod_eq_of_lt high, Owns]
      constructor
      · rintro ⟨low, ends, starts⟩
        exact Or.inr ⟨long, pos - offsetOf primary width (word lengths symbol % 2 ^ primary),
          by omega, by omega, starts⟩
      · rintro (⟨-, impossible, -⟩ | ⟨-, past, within, place, starts⟩)
        · omega
        · subst place
          rw [Nat.add_sub_cancel_left]
          refine ⟨?_, by omega, starts⟩
          have least := Nat.mod_le past (2 ^ (lengthOf lengths symbol - primary))
          omega
    obtain ⟨out, result, length, written, kept⟩ := stride_spec
      (kind.symbolEntry symbol (lengthOf lengths symbol))
      (offsetOf primary width (word lengths symbol % 2 ^ primary))
      (2 ^ width (word lengths symbol % 2 ^ primary))
      (2 ^ width (word lengths symbol % 2 ^ primary)) (word lengths symbol / 2 ^ primary)
      (Nat.two_pow_pos (lengthOf lengths symbol - primary)) (Nat.le_add_left _ _) room
    exact ⟨out, result, length, fun pos owns => written pos ((hits pos).mpr owns),
      fun pos other => kept pos fun hit => other ((hits pos).mp hit)⟩

theorem not_owns_unused {symbol : Nat} (unused : ¬0 < lengthOf lengths symbol) (pos : Nat) :
    ¬Owns lengths primary width symbol pos := by
  rintro (⟨used, -⟩ | ⟨long, -⟩)
  · exact unused used
  · omega

theorem Filled.place (fits : Fits lengths 15) (widths : Widths lengths primary width) {kind : Kind}
    {symbol : Nat} {entries out : List Entry}
    (filled : Filled kind lengths primary width symbol entries)
    (length : out.length = entries.length)
    (written : ∀ pos, Owns lengths primary width symbol pos →
      out[pos]? = some (kind.symbolEntry symbol (lengthOf lengths symbol)))
    (kept : ∀ pos, ¬Owns lengths primary width symbol pos → out[pos]? = entries[pos]?) :
    Filled kind lengths primary width (symbol + 1) out := by
  constructor
  · exact length.trans filled.length
  · intro earlier order pos owns
    rcases Nat.lt_or_eq_of_le (Nat.le_of_lt_succ order) with before | same
    · have other : ¬Owns lengths primary width symbol pos := by
        intro also
        have equal := Owns.unique fits widths owns also
        omega
      rw [kept pos other]
      exact filled.owned earlier before pos owns
    · subst same
      exact written pos owns
  · intro pos none
    rw [kept pos (none symbol (by omega))]
    exact filled.free pos fun earlier order => none earlier (by omega)

theorem placeSymbols_spec (fits : Fits lengths 15) (widths : Widths lengths primary width)
    (kind : Kind) (remaining symbol : Nat) (entries : List Entry)
    (total : symbol + remaining = lengths.length)
    (filled : Filled kind lengths primary width symbol entries) :
    ∃ out, placeSymbols kind primary symbol
        ((lengths.zip (reversedCodes lengths (first (count lengths)))).drop symbol) entries = some out
      ∧ Filled kind lengths primary width lengths.length out := by
  induction remaining generalizing symbol entries with
  | zero =>
    have finished : symbol = lengths.length := by omega
    rw [List.drop_eq_nil_of_le (by simp [finished])]
    exact ⟨entries, rfl, finished ▸ filled⟩
  | succ remaining ih =>
    have inside : symbol < (lengths.zip (reversedCodes lengths (first (count lengths)))).length := by
      simp only [List.length_zip, reversedCodes_length, Nat.min_self]
      omega
    rw [List.drop_eq_getElem_cons inside]
    have found := List.getElem?_eq_getElem inside
    obtain ⟨⟨len, rev⟩, here⟩ : ∃ pair,
        (lengths.zip (reversedCodes lengths (first (count lengths))))[symbol] = pair := ⟨_, rfl⟩
    rw [here] at found ⊢
    have length : lengthOf lengths symbol = len := by
      rw [lengthOf, List.getD_eq_getElem?_getD, (List.getElem?_zip_eq_some.mp found).1]
      rfl
    rw [placeSymbols]
    by_cases used : 0 < lengthOf lengths symbol
    · obtain ⟨-, rfl⟩ := Prod.mk.inj (Option.some.inj (found.symm.trans (coded_get used)))
      obtain ⟨out, result, same, written, kept⟩ := placeSymbol_spec fits widths kind filled used
      rw [← length, result, Option.bind_eq_bind, Option.bind_some]
      exact ih (symbol + 1) out (by omega) (filled.place fits widths same written kept)
    · have unused : len = 0 := by omega
      rw [placeSymbol, if_pos unused, Option.bind_eq_bind, Option.bind_some]
      apply ih (symbol + 1) entries (by omega)
      apply filled.place fits widths rfl
      · intro pos owns
        exact absurd owns (not_owns_unused used pos)
      · intro pos _
        rfl

theorem emptyEntries_filled (kind : Kind) :
    Filled kind lengths primary width 0 (emptyEntries primary width) := by
  constructor
  · exact (emptyEntries_laid primary width).length
  · intro symbol order
    omega
  · intro pos _
    rfl

end

end Purrdf.Deflate
