import Purrdf.CborDeterministic

/-!
# Reading scalars back

A value that owns no value is read back from its encoding, whatever is open
around it and whatever follows it.
-/

namespace Purrdf.Cbor

open Value
open ByteCursor (Took took_advance)
open Slice (byte_iff take_iff)
open CborHead (ARRAY MAP TAG SIMPLE argumentWidth shiftIn)

/-- What memory and the data model let a value hold: lengths that fit a machine
word, simple values that are no boolean, null or reserved one; and no float that
is written as a signaling binary32 NaN. -/
def Representable : Value → Prop
  | .bytes data => data.length < 2 ^ 64
  | .text chars => (Utf8.encode chars).length < 2 ^ 64
  | .float bits => ¬ WrittenSignaling bits
  | .simple number => number < 20 ∨ number = 23 ∨ 32 ≤ number
  | .array items => items.length < 2 ^ 64
  | .map entries => entries.length < 2 ^ 64
  | _ => True

variable {source : Slice} {limits : Limits} {deterministic : Bool} {stack : List Open}

/-! ### Reading a scalar -/

theorem readItem_head {initial : UInt8} {tail after : List UInt8} {length : Option UInt64}
    (hrest : source.rest = initial :: (tail ++ after)) (hbreak : initial ≠ 0xff)
    (hargument : ∀ middle next, Took middle tail next → 
      argument middle initial source.pos deterministic = .ok (length, next)) :
    ∃ next, Took source (initial :: tail) next ∧ next.rest = after ∧
      readItem limits deterministic stack source =
        readBody limits deterministic stack next initial length source.pos := by
  have hfirst : source.rest = [initial] ++ (tail ++ after) := hrest
  obtain ⟨htook, hmiddle⟩ := took_advance hfirst
  obtain ⟨htail, hafter⟩ := took_advance hmiddle
  have hread : source.byte = .ok (initial, source.advance [initial].length) := byte_iff.mpr htook
  refine ⟨_, htook.trans htail, hafter, ?_⟩
  unfold readItem
  rw [hread]
  dsimp only
  rw [if_neg hbreak, hargument _ _ htail]

theorem encode_cons {major : UInt8} (hmajor : major < 8) (value : UInt64) :
    ∃ (initial : UInt8) (tail : List UInt8), CborHead.encode major value = initial :: tail ∧
      initial >>> 5 = major := by
  rcases shortest_cases value with h24 | ⟨info, width, hwidth, hshortest, hfit⟩
  · refine ⟨_, _, encode_short major h24, CborHead.initial_major hmajor ?_⟩
    have hnat : value.toNat < 24 := UInt64.lt_iff_toNat_lt.mp h24
    rw [UInt8.lt_iff_toNat_lt, UInt64.toNat_toUInt8]
    exact Nat.lt_of_le_of_lt (Nat.mod_le _ _) (Nat.lt_trans hnat (by decide))
  · refine ⟨_, _, encode_wide hwidth hshortest hfit major, CborHead.initial_major hmajor ?_⟩
    rcases argumentWidth_cases hwidth with h | h | h | h <;> rw [h.1] <;> decide

variable {after : List UInt8}

theorem readItem_encode (limits : Limits) (deterministic : Bool) (stack : List Open)
    {major : UInt8} {value : UInt64} (hmajor : major < 7)
    (hrest : source.rest = CborHead.encode major value ++ after) :
    ∃ (initial : UInt8) (next : Slice), initial >>> 5 = major ∧ Took source (CborHead.encode major value) next ∧
      next.rest = after ∧
      readItem limits deterministic stack source =
        readBody limits deterministic stack next initial (some value) source.pos := by
  have hlt : major < 8 := UInt8.lt_trans hmajor (by decide)
  obtain ⟨initial, tail, hencode, hback⟩ := encode_cons hlt value
  have hbreak : initial ≠ 0xff := by
    intro hbreak
    rw [← hback, hbreak] at hmajor
    exact absurd hmajor (by decide)
  rw [hencode] at hrest ⊢
  obtain ⟨next, htook, hafter, hread⟩ := readItem_head hrest hbreak
    fun middle next htail => (argument_encode hlt hencode htail).2
  exact ⟨initial, next, hback, htook, hafter, hread⟩

theorem readBody_string {major : UInt8} {initial : UInt8} {bytes after : List UInt8}
    {value : Value} (hmajor : initial >>> 5 = major) (hstring : major = 2 ∨ major = 3)
    (hlength : bytes.length < 2 ^ 64) (hrest : source.rest = bytes ++ after) (start : Nat)
    (hvalue : ∀ next, stringBytes source major (some (UInt64.ofNat bytes.length)) deterministic
      start = .ok (bytes, next) →
      stringValue source major (some (UInt64.ofNat bytes.length)) deterministic start =
        .ok (value, next)) :
    ∃ next, Took source bytes next ∧ next.rest = after ∧
      readBody limits deterministic stack source initial (some (UInt64.ofNat bytes.length)) start =
        .ok (.item value start stack next) := by
  obtain ⟨htook, hafter⟩ := took_advance hrest
  have hbytes : stringBytes source major (some (UInt64.ofNat bytes.length)) deterministic start =
      .ok (bytes, source.advance bytes.length) :=
    take_iff.mpr ⟨htook, (UInt64.toNat_ofNat_of_lt' hlength).symm⟩
  refine ⟨_, htook, hafter, ?_⟩
  have hne : major ≠ 0 ∧ major ≠ 1 := by rcases hstring with rfl | rfl <;> decide
  unfold readBody
  rw [hmajor]
  simp only [if_neg hne.1, if_neg hne.2, if_pos hstring, hvalue _ hbytes]

theorem readItem_string {major : UInt8} {bytes after : List UInt8} {value : Value}
    (hstring : major = 2 ∨ major = 3) (hlength : bytes.length < 2 ^ 64)
    (hvalue : ∀ source next start length,
      stringBytes source major length deterministic start = .ok (bytes, next) →
      stringValue source major length deterministic start = .ok (value, next))
    (hrest : source.rest =
      (CborHead.encode major (UInt64.ofNat bytes.length) ++ bytes) ++ after) :
    ∃ next, Took source (CborHead.encode major (UInt64.ofNat bytes.length) ++ bytes) next ∧
      next.rest = after ∧
      readItem limits deterministic stack source = .ok (.item value source.pos stack next) := by
  rw [List.append_assoc] at hrest
  have hlt : major < 7 := by rcases hstring with rfl | rfl <;> decide
  obtain ⟨initial, middle, hmajor, hhead, hmiddle, hread⟩ := readItem_encode limits deterministic stack hlt hrest
  obtain ⟨next, hbody, hafter, hitem⟩ := readBody_string hmajor hstring hlength hmiddle source.pos
    fun next hbytes => hvalue _ _ _ _ hbytes
  exact ⟨next, hhead.trans hbody, hafter, hread.trans hitem⟩

theorem readItem_seven {initial : UInt8} {tail after : List UInt8} {argument' : UInt64}
    {value : Value} (hmajor : initial >>> 5 = 7) (hbreak : initial ≠ 0xff)
    (hargument : ∀ middle next, Took middle tail next →
      argument middle initial source.pos deterministic = .ok (some argument', next))
    (hvalue : simpleOrFloat initial argument' source.pos deterministic = .ok value)
    (hrest : source.rest = (initial :: tail) ++ after) :
    ∃ next, Took source (initial :: tail) next ∧ next.rest = after ∧
      readItem limits deterministic stack source = .ok (.item value source.pos stack next) := by
  obtain ⟨next, htook, hafter, hread⟩ := readItem_head hrest hbreak hargument
  refine ⟨next, htook, hafter, hread.trans ?_⟩
  unfold readBody
  simp only [hmajor, hvalue]
  rfl

theorem readItem_constant {initial : UInt8} {value : Value} (hshort : initial &&& 31 ≤ 23)
    (hmajor : initial >>> 5 = 7)
    (hvalue : simpleOrFloat initial (initial &&& 31).toUInt64 source.pos deterministic = .ok value)
    (hrest : source.rest = [initial] ++ after) :
    ∃ next, Took source [initial] next ∧ next.rest = after ∧
      readItem limits deterministic stack source = .ok (.item value source.pos stack next) := by
  have hbreak : initial ≠ 0xff := by
    intro hbreak
    rw [hbreak] at hshort
    exact absurd hshort (by decide)
  refine readItem_seven hmajor hbreak (fun middle next htook => ?_) hvalue hrest
  unfold argument
  rw [htook.next_eq]
  simp only [if_pos hshort]
  rfl

theorem readItem_float {info : UInt8} {width : Nat} {argument' float : UInt64}
    (hwidth : argumentWidth info = some width) (hinfo : info ≠ 24)
    (hfit : argument'.toNat < 256 ^ width) (hvalue : (floatOf info argument').1 = float)
    (hwritten : floatItem float = ((7 : UInt8) <<< 5 ||| info) :: beBytes width argument'.toNat)
    (hrest : source.rest = floatItem float ++ after) :
    ∃ next, Took source (floatItem float) next ∧ next.rest = after ∧
      readItem limits deterministic stack source =
        .ok (.item (.float float) source.pos stack next) := by
  have hlt : info < 32 := by
    rcases argumentWidth_cases hwidth with h | h | h | h <;> rw [h.1] <;> decide
  have hmajor : ((7 : UInt8) <<< 5 ||| info) >>> 5 = 7 := CborHead.initial_major (by decide) hlt
  have hlow : ((7 : UInt8) <<< 5 ||| info) &&& 31 = info := CborHead.initial_info (by decide) hlt
  have hbreak : ((7 : UInt8) <<< 5 ||| info) ≠ 0xff := by
    rcases argumentWidth_cases hwidth with h | h | h | h <;> rw [h.1] <;> decide
  have hargument : ∀ middle next, Took middle (beBytes width argument'.toNat) next →
      argument middle ((7 : UInt8) <<< 5 ||| info) source.pos deterministic =
        .ok (some argument', next) := by
    intro middle next htook
    exact argument_wide (by rwa [hlow]) hfit (.inl hmajor) htook
  have hlong : info ≠ 20 ∧ info ≠ 21 ∧ info ≠ 22 ∧ ¬ info ≤ 23 := by
    rcases argumentWidth_cases hwidth with h | h | h | h <;> rw [h.1] <;> decide
  have hlength : (floatOf info argument').2 = (floatItem float).length := by
    rw [hwritten, List.length_cons, beBytes_length]
    rcases argumentWidth_cases hwidth with ⟨rfl, rfl⟩ | ⟨rfl, rfl⟩ | ⟨rfl, rfl⟩ | ⟨rfl, rfl⟩
    · exact absurd rfl hinfo
    · rfl
    · rfl
    · rfl
  have hread : simpleOrFloat ((7 : UInt8) <<< 5 ||| info) argument' source.pos deterministic =
      .ok (.float float) := by
    unfold simpleOrFloat
    simp only [hlow, if_neg hlong.1, if_neg hlong.2.1, if_neg hlong.2.2.1, if_neg hlong.2.2.2,
      if_neg hinfo, hvalue, hlength]
    simp
  rw [hwritten] at hrest ⊢
  exact readItem_seven hmajor hbreak hargument hread hrest

theorem readItem_simple {number : UInt8} (hnumber : number < 20 ∨ number = 23 ∨ 32 ≤ number)
    (hrest : source.rest = CborHead.encode SIMPLE number.toUInt64 ++ after) :
    ∃ next, Took source (CborHead.encode SIMPLE number.toUInt64) next ∧ next.rest = after ∧
      readItem limits deterministic stack source =
        .ok (.item (.simple number) source.pos stack next) := by
  have hback : number.toUInt64.toUInt8 = number := UInt8.toUInt8_toUInt64 number
  have hnat : number.toUInt64.toNat = number.toNat := UInt8.toNat_toUInt64 number
  by_cases hshort : number ≤ 23
  · have hlt : number < 32 := UInt8.lt_of_le_of_lt hshort (by decide)
    have hmajor : (SIMPLE <<< 5 ||| number) >>> 5 = 7 := CborHead.initial_major (by decide) hlt
    have hlow : (SIMPLE <<< 5 ||| number) &&& 31 = number :=
      CborHead.initial_info (by decide) hlt
    have hne : number ≠ 20 ∧ number ≠ 21 ∧ number ≠ 22 := by
      refine ⟨?_, ?_, ?_⟩ <;> intro hsame <;> rw [hsame] at hnumber <;>
        exact absurd hnumber (by decide)
    have hsmall : number.toUInt64 < 24 := by
      rw [UInt64.lt_iff_toNat_lt, hnat]
      exact Nat.lt_succ_of_le (UInt8.le_iff_toNat_le.mp hshort)
    have hread : simpleOrFloat (SIMPLE <<< 5 ||| number)
        ((SIMPLE <<< 5 ||| number) &&& 31).toUInt64 source.pos deterministic =
        .ok (.simple number) := by
      unfold simpleOrFloat
      simp only [hlow, if_neg hne.1, if_neg hne.2.1, if_neg hne.2.2, if_pos hshort]
    rw [encode_short _ hsmall, hback] at hrest ⊢
    exact readItem_constant (by rwa [hlow]) hmajor hread hrest
  · have hlarge : 32 ≤ number := by
      rcases hnumber with h | h | h
      · exact absurd (UInt8.le_of_lt (UInt8.lt_trans h (by decide))) hshort
      · rw [h] at hshort
        exact absurd (by decide) hshort
      · exact h
    have hlargeNat : 32 ≤ number.toNat := UInt8.le_iff_toNat_le.mp hlarge
    have hwidth : argumentWidth 24 = some 1 := rfl
    have hfit : number.toUInt64.toNat < 256 ^ 1 := by
      rw [hnat]
      exact number.toNat_lt
    have hshortest : shortest 1 number.toUInt64 = true := by
      simp only [shortest, decide_eq_true_eq, UInt64.le_iff_toNat_le, hnat]
      exact Nat.le_trans (by decide) hlargeNat
    have hargument : ∀ middle next, Took middle (beBytes 1 number.toUInt64.toNat) next →
        argument middle (SIMPLE <<< 5 ||| 24) source.pos deterministic =
          .ok (some number.toUInt64, next) :=
      fun middle next htook => argument_wide rfl hfit (.inl (by decide)) htook
    have hread : simpleOrFloat (SIMPLE <<< 5 ||| 24) number.toUInt64 source.pos deterministic =
        .ok (.simple number) := by
      have hvalid : ¬ number.toUInt64 < 32 := by
        rw [UInt64.lt_iff_toNat_lt, hnat]
        exact Nat.not_lt.mpr hlargeNat
      have hlow : (SIMPLE <<< 5 ||| 24) &&& 31 = 24 := by decide
      have hne : (24 : UInt8) ≠ 20 ∧ (24 : UInt8) ≠ 21 ∧ (24 : UInt8) ≠ 22 ∧ ¬ (24 : UInt8) ≤ 23 := by
        decide
      unfold simpleOrFloat
      simp only [hlow, if_neg hne.1, if_neg hne.2.1, if_neg hne.2.2.1, if_neg hne.2.2.2, if_true,
        if_neg hvalid, hback]
    rw [encode_wide hwidth hshortest hfit] at hrest ⊢
    exact readItem_seven (by decide) (by decide) hargument hread hrest

theorem readItem_floatItem {bits : UInt64} (hrep : ¬ WrittenSignaling bits)
    (hrest : source.rest = floatItem bits ++ after) :
    ∃ next, Took source (floatItem bits) next ∧ next.rest = after ∧
      readItem limits deterministic stack source =
        .ok (.item (.float bits) source.pos stack next) := by
  cases hhalf : f16Bits bits with
  | some half =>
    have hwidth : argumentWidth 25 = some 2 := rfl
    have hnat : half.toUInt64.toNat = half.toNat := UInt16.toNat_toUInt64 half
    have hfit : half.toUInt64.toNat < 256 ^ 2 := by
      rw [hnat]
      exact half.toNat_lt
    have hvalue : (floatOf 25 half.toUInt64).1 = bits := by
      rw [floatOf, if_pos rfl, UInt16.toUInt16_toUInt64]
      exact (f16Bits_iff _ _).mp hhalf
    refine readItem_float hwidth (by decide) hfit hvalue ?_ hrest
    rw [floatItem, hhalf, hnat]
    rfl
  | none =>
    cases hsingle : f32Bits bits with
    | some single =>
      have hquiet : ¬ SignalingSingle single :=
        fun hsignaling => hrep ⟨hhalf, single, hsingle, hsignaling⟩
      have hwidth : argumentWidth 26 = some 4 := rfl
      have hnat : single.toUInt64.toNat = single.toNat := UInt32.toNat_toUInt64 single
      have hfit : single.toUInt64.toNat < 256 ^ 4 := by
        rw [hnat]
        exact single.toNat_lt
      have hvalue : (floatOf 26 single.toUInt64).1 = bits := by
        rw [floatOf, if_neg (by decide), if_pos rfl, UInt32.toUInt32_toUInt64]
        exact (f32Bits_iff _ hquiet).mp hsingle
      refine readItem_float hwidth (by decide) hfit hvalue ?_ hrest
      rw [floatItem, hhalf, hsingle, hnat]
      rfl
    | none =>
      have hwidth : argumentWidth 27 = some 8 := rfl
      refine readItem_float hwidth (by decide) bits.toNat_lt rfl ?_ hrest
      rw [floatItem, hhalf, hsingle]
      rfl

theorem readItem_scalar {value : Value} {bytes after : List UInt8}
    (hscalar : writeScalar value = some bytes) (hrep : Representable value)
    (hrest : source.rest = bytes ++ after) :
    ∃ next, Took source bytes next ∧ next.rest = after ∧
      readItem limits deterministic stack source = .ok (.item value source.pos stack next) := by
  cases value with
  | tag | array | map => cases hscalar
  | integer integer =>
    cases hscalar
    rcases integer.head_cases with ⟨argument', hhead, rfl⟩ | ⟨argument', hhead, rfl⟩
    · rw [hhead] at hrest ⊢
      have hlt : (0 : UInt8) < 7 := by decide
      obtain ⟨initial, next, hmajor, htook, hafter, hread⟩ := readItem_encode limits deterministic stack hlt hrest
      refine ⟨next, htook, hafter, hread.trans ?_⟩
      simp [readBody, hmajor]
    · rw [hhead] at hrest ⊢
      have hlt : (1 : UInt8) < 7 := by decide
      obtain ⟨initial, next, hmajor, htook, hafter, hread⟩ := readItem_encode limits deterministic stack hlt hrest
      refine ⟨next, htook, hafter, hread.trans ?_⟩
      simp [readBody, hmajor]
  | bytes data =>
    cases hscalar
    refine readItem_string (.inl rfl) hrep ?_ hrest
    intro source next start length hbytes
    rw [stringValue, hbytes]
    rfl
  | text chars =>
    cases hscalar
    refine readItem_string (.inr rfl) hrep ?_ hrest
    intro source next start length hbytes
    rw [stringValue, hbytes]
    simp only [fromUtf8_encode]
    rfl
  | bool value =>
    cases value with
    | false =>
      cases hscalar
      exact readItem_constant (by decide) (by decide) rfl hrest
    | true =>
      cases hscalar
      exact readItem_constant (by decide) (by decide) rfl hrest
  | null =>
    cases hscalar
    exact readItem_constant (by decide) (by decide) rfl hrest
  | simple number =>
    cases hscalar
    exact readItem_simple hrep hrest
  | float bits =>
    cases hscalar
    exact readItem_floatItem hrep hrest

end Purrdf.Cbor
