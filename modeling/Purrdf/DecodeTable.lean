import Mathlib.Data.List.Basic
import Mathlib.Tactic.IntervalCases
import Purrdf.CanonicalCode

/-!
# The DEFLATE alphabets

The symbols of the three prefix codes, what each becomes in a decode table, and the refusals
of the decoder.
-/

namespace Purrdf.Deflate

def windowSize : Nat := 32768

def minMatch : Nat := 3

def maxMatch : Nat := 258

def endOfBlock : Nat := 256

/-- Literal/length symbols that may occur in data. -/
def litlenSymbols : Nat := 286

def distSymbols : Nat := 30

def maxCodeLen : Nat := 15

def maxClCodeLen : Nat := 7

def codeLengthOrder : List Nat :=
  [16, 17, 18, 0, 8, 7, 9, 6, 10, 5, 11, 4, 12, 3, 13, 2, 14, 1, 15]

def lengthExtra (index : Nat) : Nat :=
  if index < 8 ∨ index = 28 then 0 else (index - 4) / 4

def distanceExtra (index : Nat) : Nat :=
  if index < 4 then 0 else (index - 2) / 2

/-- Each base is the previous base plus the previous code's range. -/
def baseAt (start : Nat) (extra : Nat → Nat) : Nat → Nat
  | 0 => start
  | index + 1 => baseAt start extra index + 2 ^ extra index

/-- Base length of a length symbol, by `symbol - 257`. The last is 258 alone. -/
def lengthBase (index : Nat) : Nat :=
  if index = 28 then 258 else baseAt 3 lengthExtra index

def distBase (index : Nat) : Nat :=
  baseAt 1 distanceExtra index

def fixedLitlenLengths : List Nat :=
  (List.range 288).map fun symbol =>
    if symbol ≤ 143 then 8 else if symbol ≤ 255 then 9 else if symbol ≤ 279 then 7 else 8

def fixedDistLengths : List Nat :=
  List.replicate 32 5

/-- Which Huffman alphabet a code-construction error is about. -/
inductive Alphabet where
  | codeLength
  | literalLength
  | distance
deriving DecidableEq, Repr

/-- A refused DEFLATE stream. -/
inductive Error where
  | invalidBlockType
  | storedLengthMismatch (len nlen : Nat)
  | tooManyLengthCodes (count : Nat)
  | repeatWithoutPrevious
  | codeLengthsOverrun
  | oversubscribedCode (alphabet : Alphabet)
  | missingEndOfBlock
  | invalidCode (alphabet : Alphabet)
  | invalidLengthSymbol (symbol : Nat)
  | invalidDistanceSymbol (symbol : Nat)
  | distanceTooFar (distance available : Nat)
  | truncated
  | limitExceeded (limit : Nat)
  | trailingData
deriving DecidableEq, Repr

/-- How an operation ends without a result. -/
inductive Fault where
  | refused (error : Error)
  | panicked
deriving DecidableEq, Repr

/-- What a decode-table entry says about the bits that reached it. -/
inductive Tag where
  | literal
  | pair
  | length
  | endOfBlock
  | link
  | invalid
  | badSymbol
  | distance
deriving DecidableEq, Repr

/-- A decode-table entry: the bits it consumes, its tag, an extra-bit count (of a length or a
distance), subtable index width (of a link) or first literal's code length (of a pair), and
its value. -/
structure Entry where
  bits : Nat
  tag : Tag
  aux : Nat
  value : Nat
deriving DecidableEq, Repr

/-- What a symbol of the alphabet means once decoded. -/
inductive Kind where
  | codeLength
  | literalLength
  | distance
deriving DecidableEq, Repr

def Kind.alphabet : Kind → Alphabet
  | .codeLength => .codeLength
  | .literalLength => .literalLength
  | .distance => .distance

def Kind.symbolEntry (kind : Kind) (symbol bits : Nat) : Entry :=
  match kind with
  | .codeLength => ⟨bits, .literal, 0, symbol⟩
  | .literalLength =>
    if symbol ≤ 255 then ⟨bits, .literal, 0, symbol⟩
    else if symbol = 256 then ⟨bits, .endOfBlock, 0, 0⟩
    else if symbol ≤ 285 then
      ⟨bits, .length, lengthExtra (symbol - 257), lengthBase (symbol - 257)⟩
    else ⟨bits, .badSymbol, 0, symbol⟩
  | .distance =>
    if symbol ≤ 29 then ⟨bits, .distance, distanceExtra symbol, distBase symbol⟩
    else ⟨bits, .badSymbol, 0, symbol⟩

@[simp] theorem symbolEntry_bits (kind : Kind) (symbol bits : Nat) :
    (kind.symbolEntry symbol bits).bits = bits := by
  cases kind <;> simp only [Kind.symbolEntry] <;> repeat' split
  all_goals rfl

theorem symbolEntry_tag (kind : Kind) (symbol bits : Nat) :
    (kind.symbolEntry symbol bits).tag ≠ .link ∧ (kind.symbolEntry symbol bits).tag ≠ .pair
      ∧ (kind.symbolEntry symbol bits).tag ≠ .invalid := by
  cases kind <;> simp only [Kind.symbolEntry] <;> repeat' split
  all_goals simp

theorem symbolEntry_literal (kind : Kind) {symbol bits : Nat}
    (literal : (kind.symbolEntry symbol bits).tag = .literal) :
    kind.symbolEntry symbol bits = ⟨bits, .literal, 0, symbol⟩ := by
  revert literal
  cases kind <;> simp only [Kind.symbolEntry] <;> repeat' split
  all_goals simp

theorem literal_of_literalLength {symbol bits : Nat}
    (literal : (Kind.symbolEntry .literalLength symbol bits).tag = .literal) : symbol < 256 := by
  revert literal
  simp only [Kind.symbolEntry]
  repeat' split
  all_goals simp
  omega

theorem length_bounds {symbol bits : Nat}
    (length : (Kind.symbolEntry .literalLength symbol bits).tag = .length) :
    (Kind.symbolEntry .literalLength symbol bits).aux ≤ 5
      ∧ (Kind.symbolEntry .literalLength symbol bits).value
          + 2 ^ (Kind.symbolEntry .literalLength symbol bits).aux ≤ maxMatch + 1 := by
  have range : 256 < symbol ∧ symbol ≤ 285 := by
    revert length
    simp only [Kind.symbolEntry]
    repeat' split
    all_goals simp
    omega
  obtain ⟨low, high⟩ := range
  have every : ∀ index < 29, lengthExtra index ≤ 5
      ∧ lengthBase index + 2 ^ lengthExtra index ≤ maxMatch + 1 := by decide
  have large : ¬symbol ≤ 255 := by omega
  have past : symbol ≠ 256 := by omega
  simp only [Kind.symbolEntry, large, past, high, if_true, if_false]
  exact every (symbol - 257) (by omega)

theorem distance_bounds {symbol bits : Nat}
    (distance : (Kind.symbolEntry .distance symbol bits).tag = .distance) :
    (Kind.symbolEntry .distance symbol bits).aux ≤ 13
      ∧ 1 ≤ (Kind.symbolEntry .distance symbol bits).value
      ∧ (Kind.symbolEntry .distance symbol bits).value
          + 2 ^ (Kind.symbolEntry .distance symbol bits).aux ≤ windowSize + 1 := by
  have small : symbol ≤ 29 := by
    by_contra large
    simp [Kind.symbolEntry, large] at distance
  have every : ∀ index < 30, distanceExtra index ≤ 13 ∧ 1 ≤ distBase index
      ∧ distBase index + 2 ^ distanceExtra index ≤ windowSize + 1 := by decide
  simp only [Kind.symbolEntry, small, if_true]
  exact every symbol (by omega)

end Purrdf.Deflate

/-!
## Decode tables

The two-level decode table of a prefix code: a primary table indexed by the next stream bits,
and subtables for longer codes, all in one list of entries.
-/

namespace Purrdf.Deflate

open CanonicalCode

structure DecodeTable where
  entries : List Entry
  primaryBits : Nat
deriving DecidableEq, Repr

def DecodeTable.new (primaryBits : Nat) : DecodeTable :=
  { entries := [], primaryBits }

/-- Whether the code space is never overspent, length by length. -/
def spend (left : Int) : List Nat → Bool
  | [] => true
  | spent :: counts => if 2 * left - spent < 0 then false else spend (2 * left - spent) counts

def reversedCodes : List Nat → (Nat → Nat) → List Nat
  | [], _ => []
  | len :: lengths, next =>
    if len = 0 then 0 :: reversedCodes lengths next
    else reverseBits (next len) len
      :: reversedCodes lengths (Function.update next len (next len + 1))

def widen (primary len rev : Nat) (subLen : Nat → Nat) : Nat → Nat :=
  if primary < len then
    Function.update subLen (rev % 2 ^ primary) (max (subLen (rev % 2 ^ primary)) (len - primary))
  else subLen

/-- Longest code under each primary index, past the primary bits. -/
def subLens (primary : Nat) : List (Nat × Nat) → (Nat → Nat) → Nat → Nat
  | [], subLen => subLen
  | (len, rev) :: rest, subLen => subLens primary rest (widen primary len rev subLen)

def appendSubtable (primary : Nat) (width : Nat → Nat) (entries : List Entry) (index : Nat) :
    List Entry :=
  if width index = 0 then entries
  else
    entries.set index ⟨primary, .link, width index, entries.length⟩
      ++ List.replicate (2 ^ width index) ⟨primary + width index, .invalid, 0, 0⟩

def emptyEntries (primary : Nat) (width : Nat → Nat) : List Entry :=
  (List.range (2 ^ primary)).foldl (appendSubtable primary width)
    (List.replicate (2 ^ primary) ⟨primary, .invalid, 0, 0⟩)

def stride (entry : Entry) (step offset bound : Nat) : Nat → Nat → List Entry → Option (List Entry)
  | 0, _, entries => some entries
  | fuel + 1, index, entries =>
    if index < bound then
      if offset + index < entries.length then
        stride entry step offset bound fuel (index + step) (entries.set (offset + index) entry)
      else none
    else some entries

def placeSymbol (kind : Kind) (primary symbol len rev : Nat) (entries : List Entry) :
    Option (List Entry) :=
  if len = 0 then some entries
  else
    let entry := kind.symbolEntry symbol len
    if len ≤ primary then stride entry (2 ^ len) 0 (2 ^ primary) (2 ^ primary) rev entries
    else do
      let link ← entries[rev % 2 ^ primary]?
      stride entry (2 ^ (len - primary)) link.value (2 ^ link.aux) (2 ^ link.aux)
        (rev / 2 ^ primary) entries

def placeSymbols (kind : Kind) (primary : Nat) :
    Nat → List (Nat × Nat) → List Entry → Option (List Entry)
  | _, [], entries => some entries
  | symbol, (len, rev) :: rest, entries => do
      let entries ← placeSymbol kind primary symbol len rev entries
      placeSymbols kind primary (symbol + 1) rest entries

/-- The two-literal entry of a primary literal whose remaining index bits hold a whole second
literal code. -/
def pairAt (primary : Nat) (scratch : List Entry) (index : Nat) : Option Entry := do
  let first ← scratch[index]?
  if first.tag = .literal then
    let second ← scratch[index / 2 ^ first.bits]?
    if second.tag = .literal ∧ first.bits + second.bits ≤ primary then
      some ⟨first.bits + second.bits, .pair, first.bits, first.value ||| second.value <<< 8⟩
    else none
  else none

def mergePairAt (primary : Nat) (scratch entries : List Entry) (index : Nat) : List Entry :=
  match pairAt primary scratch index with
  | none => entries
  | some pair => entries.set index pair

def mergeLiteralPairs (primary : Nat) (entries : List Entry) : List Entry :=
  (List.range (2 ^ primary)).foldl (mergePairAt primary (entries.take (2 ^ primary))) entries

/-- The table of a code. Lengths past fifteen leave the counters, and more than 288 symbols
the alphabet bound. -/
def DecodeTable.build (table : DecodeTable) (lengths : List Nat) (kind : Kind) (pairs : Bool) :
    Except Fault DecodeTable :=
  let primary := table.primaryBits
  if lengths.any fun len => decide (15 < len) then .error .panicked
  else if !spend 1 ((List.range' 1 15).map (count lengths)) then
    .error (.refused (.oversubscribedCode kind.alphabet))
  else if 288 < lengths.length then .error .panicked
  else
    let coded := lengths.zip (reversedCodes lengths (first (count lengths)))
    let width := subLens primary coded fun _ => 0
    match placeSymbols kind primary 0 coded (emptyEntries primary width) with
    | none => .error .panicked
    | some entries =>
      .ok { table with entries := if pairs then mergeLiteralPairs primary entries else entries }

/-- The entry some stream bits reach, through a link when there is one. -/
def DecodeTable.find (table : DecodeTable) (bits : Nat) : Option Entry := do
  let entry ← table.entries[bits % 2 ^ table.primaryBits]?
  if entry.tag = .link then
    table.entries[entry.value + bits / 2 ^ table.primaryBits % 2 ^ entry.aux]?
  else some entry

def Entry.alone (entry : Entry) : Entry :=
  if entry.tag = .pair then ⟨entry.aux, .literal, 0, entry.value &&& 0xFF⟩ else entry

def DecodeTable.decode (table : DecodeTable) (bits : Nat) : Entry :=
  match table.find bits with
  | none => ⟨0, .invalid, 0, 0⟩
  | some entry => entry.alone

/-! ### The codes and the widths -/

theorem spend_left {counts : Nat → Nat} (len : Nat) {total : Nat}
    (spent : spend (left counts len) ((List.range' (len + 1) total).map counts) = true) :
    ∀ past ≤ total, 0 < past → 0 ≤ left counts (len + past) := by
  induction total generalizing len with
  | zero => intro past bound positive; omega
  | succ total ih =>
    rw [List.range'_succ, List.map_cons, spend] at spent
    have step : 2 * left counts len - (counts (len + 1) : Nat) = left counts (len + 1) := rfl
    rw [step] at spent
    split at spent
    · exact absurd spent (by simp)
    · rename_i enough
      intro past bound positive
      rcases Nat.eq_or_lt_of_le positive with only | more
      · rw [← only]
        exact Int.not_lt.mp enough
      · have rest := ih (len + 1) spent (past - 1) (by omega) (by omega)
        have place : len + 1 + (past - 1) = len + past := by omega
        rwa [place] at rest

theorem fits_of_spend {lengths : List Nat} (bounded : ∀ len ∈ lengths, len ≤ 15)
    (spent : spend 1 ((List.range' 1 15).map (count lengths)) = true) : Fits lengths 15 := by
  constructor
  · exact bounded
  · omega
  · intro len bound
    rcases Nat.eq_zero_or_pos len with zero | positive
    · rw [zero, left]
      omega
    · have room := spend_left 0 spent len bound positive
      rwa [Nat.zero_add] at room

@[simp] theorem reversedCodes_length (lengths : List Nat) (next : Nat → Nat) :
    (reversedCodes lengths next).length = lengths.length := by
  induction lengths generalizing next with
  | nil => rfl
  | cons len lengths ih =>
    rw [reversedCodes]
    split <;> simp [ih]

theorem reversedCodes_get (lengths : List Nat) (next : Nat → Nat) {symbol : Nat}
    (inside : symbol < lengths.length) (used : 0 < lengths[symbol]) :
    (reversedCodes lengths next)[symbol]?
      = some (reverseBits (next lengths[symbol] + (lengths.take symbol).count lengths[symbol])
          lengths[symbol]) := by
  induction lengths generalizing next symbol with
  | nil => exact absurd inside (by simp)
  | cons len lengths ih =>
    cases symbol with
    | zero =>
      have nonzero : len ≠ 0 := Nat.pos_iff_ne_zero.mp used
      simp [reversedCodes, nonzero]
    | succ symbol =>
      have within : symbol < lengths.length := by simpa using inside
      have usedHere : 0 < lengths[symbol] := by simpa using used
      rw [reversedCodes]
      simp only [List.getElem_cons_succ, List.take_succ_cons]
      split
      · rename_i unused
        have other : len ≠ lengths[symbol] := by omega
        rw [List.getElem?_cons_succ, ih next within usedHere, List.count_cons_of_ne other]
      · rw [List.getElem?_cons_succ, ih _ within usedHere]
        by_cases same : lengths[symbol] = len
        · rw [same, Function.update_self, List.count_cons_self]
          congr 2
          omega
        · rw [Function.update_of_ne same, List.count_cons_of_ne (Ne.symm same)]

theorem coded_get {lengths : List Nat} {symbol : Nat} (used : 0 < lengthOf lengths symbol) :
    (lengths.zip (reversedCodes lengths (first (count lengths))))[symbol]?
      = some (lengthOf lengths symbol, word lengths symbol) := by
  have inside := inside_of_used used
  have here := lengthOf_eq inside
  have codes := reversedCodes_get lengths (first (count lengths)) inside (here ▸ used)
  rw [List.getElem?_zip_eq_some]
  constructor
  · rw [here]
    exact List.getElem?_eq_getElem inside
  · rw [codes, word, code, here]

/-- The subtable under each primary index is as wide as its longest code. -/
structure Widths (lengths : List Nat) (primary : Nat) (width : Nat → Nat) : Prop where
  covers : ∀ symbol, primary < lengthOf lengths symbol →
    lengthOf lengths symbol - primary ≤ width (word lengths symbol % 2 ^ primary)
  reached : ∀ index, width index ≠ 0 → ∃ symbol, primary < lengthOf lengths symbol ∧
    word lengths symbol % 2 ^ primary = index ∧
    width index = lengthOf lengths symbol - primary

theorem widen_le (primary len rev : Nat) (subLen : Nat → Nat) (index : Nat) :
    subLen index ≤ widen primary len rev subLen index := by
  rw [widen]
  split
  · by_cases same : index = rev % 2 ^ primary
    · rw [same, Function.update_self]
      exact le_max_left _ _
    · rw [Function.update_of_ne same]
  · exact le_rfl

theorem le_widen {primary len : Nat} (long : primary < len) (rev : Nat) (subLen : Nat → Nat) :
    len - primary ≤ widen primary len rev subLen (rev % 2 ^ primary) := by
  rw [widen, if_pos long, Function.update_self]
  exact le_max_right _ _

theorem widen_changed {primary len rev index : Nat} {subLen : Nat → Nat}
    (changed : widen primary len rev subLen index ≠ subLen index) :
    primary < len ∧ rev % 2 ^ primary = index
      ∧ widen primary len rev subLen index = len - primary := by
  rw [widen] at changed ⊢
  split at changed
  · rename_i long
    by_cases same : index = rev % 2 ^ primary
    · rw [same, Function.update_self] at changed
      rw [if_pos long, same, Function.update_self]
      refine ⟨long, rfl, ?_⟩
      rcases max_choice (subLen (rev % 2 ^ primary)) (len - primary) with old | new
      · exact absurd old changed
      · exact new
    · rw [Function.update_of_ne same] at changed
      exact absurd rfl changed
  · exact absurd rfl changed

/-- What the width pass keeps: widths only grow, cover what it has seen and come from it. -/
theorem subLens_spec (primary : Nat) (coded : List (Nat × Nat)) (subLen : Nat → Nat) :
    (∀ index, subLen index ≤ subLens primary coded subLen index) ∧
    (∀ len rev, (len, rev) ∈ coded → primary < len →
      len - primary ≤ subLens primary coded subLen (rev % 2 ^ primary)) ∧
    (∀ index, subLens primary coded subLen index ≠ subLen index →
      ∃ len rev, (len, rev) ∈ coded ∧ primary < len ∧ rev % 2 ^ primary = index ∧
        subLens primary coded subLen index = len - primary) := by
  induction coded generalizing subLen with
  | nil =>
    refine ⟨fun index => le_rfl, ?_, ?_⟩
    · intro len rev member
      exact absurd member (by simp)
    · intro index changed
      exact absurd rfl changed
  | cons pair coded ih =>
    obtain ⟨len, rev⟩ := pair
    obtain ⟨grows, covers, reached⟩ := ih (widen primary len rev subLen)
    rw [subLens]
    refine ⟨fun index => (widen_le primary len rev subLen index).trans (grows index), ?_, ?_⟩
    · intro other code member long
      rcases List.mem_cons.mp member with here | later
      · obtain ⟨rfl, rfl⟩ := Prod.mk.inj here
        exact (le_widen long code subLen).trans (grows _)
      · exact covers other code later long
    · intro index changed
      by_cases moved : subLens primary coded (widen primary len rev subLen) index
          = widen primary len rev subLen index
      · rw [moved] at changed ⊢
        obtain ⟨long, place, exactly⟩ := widen_changed changed
        exact ⟨len, rev, List.mem_cons_self, long, place, exactly⟩
      · obtain ⟨other, code, member, long, place, exactly⟩ := reached index moved
        exact ⟨other, code, List.mem_cons_of_mem _ member, long, place, exactly⟩

theorem widths_of_subLens (lengths : List Nat) (primary : Nat) :
    Widths lengths primary (subLens primary
      (lengths.zip (reversedCodes lengths (first (count lengths)))) fun _ => 0) := by
  obtain ⟨grows, covers, reached⟩ := subLens_spec primary
    (lengths.zip (reversedCodes lengths (first (count lengths)))) fun _ => 0
  constructor
  · intro symbol long
    exact covers _ _ (List.mem_of_getElem? (coded_get (by omega))) long
  · intro index wide
    obtain ⟨len, rev, member, long, place, exactly⟩ := reached index wide
    obtain ⟨symbol, found⟩ := List.mem_iff_getElem?.mp member
    have inside := List.getElem?_zip_eq_some.mp found
    have length : lengthOf lengths symbol = len := by
      rw [lengthOf, List.getD_eq_getElem?_getD, inside.1]
      rfl
    have used : 0 < lengthOf lengths symbol := by omega
    have same := found.symm.trans (coded_get used)
    obtain ⟨-, rfl⟩ := Prod.mk.inj (Option.some.inj same)
    exact ⟨symbol, by omega, place, by omega⟩

end Purrdf.Deflate
