import Mathlib.Data.List.Chain
import Purrdf.CborReading

/-!
# What the deterministic decoder accepts

The bytes the deterministic decoder has read are, turn after turn, the
encodings of the open containers so far: each container's head for all its items,
and the items that are complete. An accepted input is therefore the encoding of
its value, and the keys of each of its maps ascend.
-/

namespace Purrdf.Cbor

open Value ByteCursor Slice
open CborHead (ARRAY MAP TAG SIMPLE argumentWidth shiftIn)

/-! ### Scalars -/

/-- The next item is a binary32 NaN whose quiet bit is clear. -/
def SignalingItem (source : Slice) : Prop :=
  ∃ single, SignalingSingle single ∧ 0xfa :: beBytes 4 single.toNat <+: source.rest

variable {value : Value} {stack : List Open} {limits : Limits} {start : Nat}

theorem ordered_scalar {bytes : List UInt8} (h : writeScalar value = some bytes) :
    value.Ordered := by
  refine .scalar h ?_
  cases value with
  | map => cases h
  | _ => exact trivial

theorem initial_eq {initial info major : UInt8} (hmajor : initial >>> 5 = major)
    (hinfo : initial &&& 31 = info) : initial = major <<< 5 ||| info := by
  rw [← hmajor, ← hinfo, initial_join]

theorem toNat_toUInt16 {value : UInt64} (h : value.toNat < 2 ^ 16) :
    value.toUInt16.toNat = value.toNat := by
  rw [UInt64.toNat_toUInt16, Nat.mod_eq_of_lt h]

theorem toNat_toUInt32 {value : UInt64} (h : value.toNat < 2 ^ 32) :
    value.toUInt32.toNat = value.toNat := by
  rw [UInt64.toNat_toUInt32, Nat.mod_eq_of_lt h]

theorem floatItem_floatOf {info : UInt8} {width : Nat} {tail : List UInt8}
    (hwidth : argumentWidth info = some width) (hlong : info ≠ 24) (hlength : tail.length = width)
    (hsignaling : ∀ single, info = 26 → tail = beBytes 4 single.toNat → ¬ SignalingSingle single)
    (hform : (floatOf info (tail.foldl shiftIn 0)).2 =
      (floatItem (floatOf info (tail.foldl shiftIn 0)).1).length) :
    floatItem (floatOf info (tail.foldl shiftIn 0)).1 = ((7 : UInt8) <<< 5 ||| info) :: tail := by
  have hbound : tail.length ≤ 8 := by
    have := argumentWidth_cases hwidth
    omega
  obtain ⟨hfit, hback⟩ := beBytes_foldl hbound
  rw [hlength] at hfit hback
  generalize tail.foldl shiftIn 0 = value at *
  rcases argumentWidth_cases hwidth with ⟨rfl, rfl⟩ | ⟨rfl, rfl⟩ | ⟨rfl, rfl⟩ | ⟨rfl, rfl⟩
  · exact absurd rfl hlong
  · have hhalf : f16Bits (f16ToF64 value.toUInt16) = some value.toUInt16 :=
      (f16Bits_iff _ _).mpr rfl
    simp only [floatOf, if_true, floatItem, hhalf, toNat_toUInt16 hfit, hback]
    rfl
  · have hquiet := hsignaling value.toUInt32 rfl (by rw [toNat_toUInt32 hfit, hback])
    have hsingle : f32Bits (f32ToF64 value.toUInt32) = some value.toUInt32 :=
      (f32Bits_iff _ hquiet).mpr rfl
    have hnone : f16Bits (f32ToF64 value.toUInt32) = none := by
      cases hhalf : f16Bits (f32ToF64 value.toUInt32) with
      | none => rfl
      | some half => simp [floatOf, floatItem, hhalf] at hform
    have hne : (26 : UInt8) ≠ 25 := by decide
    simp only [floatOf, if_neg hne, if_true, floatItem, hnone, hsingle, toNat_toUInt32 hfit, hback]
    rfl
  · have hhalf : f16Bits value = none := by
      cases hhalf : f16Bits value with
      | none => rfl
      | some half => simp [floatOf, floatItem, hhalf] at hform
    have hsingle : f32Bits value = none := by
      cases hsingle : f32Bits value with
      | none => rfl
      | some single => simp [floatOf, floatItem, hhalf, hsingle] at hform
    have hne : (27 : UInt8) ≠ 25 ∧ (27 : UInt8) ≠ 26 := by decide
    simp only [floatOf, if_neg hne.1, if_neg hne.2, floatItem, hhalf, hsingle, hback]
    rfl

theorem simpleOrFloat_sound {initial : UInt8} {tail : List UInt8} {argument : UInt64}
    (hmajor : initial >>> 5 = 7) (hspells : Spells initial tail (some argument))
    (hsignaling : ∀ single, initial = 0xfa → tail = beBytes 4 single.toNat →
      ¬ SignalingSingle single) (h : simpleOrFloat initial argument start true = .ok value) :
    writeScalar value = some (initial :: tail) := by
  have hinitial := initial_eq hmajor rfl
  generalize hinfo : initial &&& 31 = info at hinitial
  cases hspells with
  | short hshort =>
    rw [hinfo] at hshort h
    have hlt : info.toUInt64 < 24 := by
      rw [UInt64.lt_iff_toNat_lt, UInt8.toNat_toUInt64]
      exact Nat.lt_succ_of_le (UInt8.le_iff_toNat_le.mp hshort)
    unfold simpleOrFloat at h
    dsimp only at h
    rw [hinfo] at h
    split at h
    · next h20 => cases h; rw [hinitial, h20]; rfl
    split at h
    · next h21 => cases h; rw [hinitial, h21]; rfl
    split at h
    · next h22 => cases h; rw [hinitial, h22]; rfl
    cases h
    rw [writeScalar, encode_short _ hlt, UInt8.toUInt8_toUInt64, hinitial]
    rfl
  | wide hwidth hlength =>
    rw [hinfo] at hwidth
    have hlong : ¬ info ≤ 23 ∧ info ≠ 20 ∧ info ≠ 21 ∧ info ≠ 22 := by
      rcases argumentWidth_cases hwidth with h | h | h | h <;> rw [h.1] <;> decide
    unfold simpleOrFloat at h
    dsimp only at h
    rw [hinfo, if_neg hlong.2.1, if_neg hlong.2.2.1, if_neg hlong.2.2.2, if_neg hlong.1] at h
    split at h
    · next h24 =>
        subst h24
        cases hwidth
        split at h
        · cases h
        · next hlarge =>
            cases h
            have hbound : tail.length ≤ 8 := by omega
            obtain ⟨hfit, hback⟩ := beBytes_foldl hbound
            rw [hlength] at hfit hback
            generalize tail.foldl shiftIn 0 = value at *
            have hnarrow : value.toUInt8.toUInt64 = value := by
              apply UInt64.toNat_inj.mp
              rw [UInt8.toNat_toUInt64, UInt64.toNat_toUInt8]
              exact Nat.mod_eq_of_lt hfit
            have hshortest : shortest 1 value = true := by
              simp only [shortest, decide_eq_true_eq, UInt64.le_iff_toNat_le]
              simp only [UInt64.lt_iff_toNat_lt] at hlarge
              exact Nat.le_of_not_lt fun hlow => hlarge (Nat.lt_trans hlow (by decide))
            have hwidth : argumentWidth 24 = some 1 := rfl
            rw [writeScalar, hnarrow, encode_wide hwidth hshortest hfit, hback, hinitial]
            rfl
    · next h24 =>
        split at h
        · cases h
        · next hform =>
            cases h
            have hquiet : ∀ single, info = 26 → tail = beBytes 4 single.toNat →
                ¬ SignalingSingle single := by
              intro single h26 htail
              refine hsignaling single ?_ htail
              rw [hinitial, h26]
              rfl
            have hlen : (floatOf info (tail.foldl shiftIn 0)).2 =
                (floatItem (floatOf info (tail.foldl shiftIn 0)).1).length := by
              simpa using hform
            rw [writeScalar, floatItem_floatOf hwidth h24 hlength hquiet hlen, hinitial]

/-! ### The bytes of the open containers -/

def Open.written : Open → List UInt8
  | .array _ remaining items =>
    CborHead.encode ARRAY (UInt64.ofNat (items.length + (remaining.getD 0).toNat)) ++
      items.flatMap encoding
  | .map _ remaining entries key _ =>
    CborHead.encode MAP (UInt64.ofNat (entries.length + (remaining.getD 0).toNat)) ++
      (entries.flatMap entryEncoding ++ (key.map encoding).getD [])
  | .tag _ number => CborHead.encode TAG number

def stackBytes : List Open → List UInt8
  | [] => []
  | frame :: stack => stackBytes stack ++ frame.written

/-- The encodings of the keys of an open map, the one whose value is missing last. -/
def keysRead (entries : List (Value × Value)) (key : Option Value) : List (List UInt8) :=
  entries.map (fun entry => entry.1.encoding) ++ (key.map encoding).toList

def SpanOf (consumed : List UInt8) (span : Nat × Nat) (bytes : List UInt8) : Prop :=
  span.2 ≤ consumed.length ∧ (consumed.take span.2).drop span.1 = bytes

/-- An open container begins where the ones below it end, knows how many items it
lacks, and its keys ascend up to the last one. -/
inductive Frame (consumed : List UInt8) (start : Nat) : Open → Prop
  | array {remaining items} (hremaining : remaining ≠ 0)
      (hordered : ∀ item ∈ items, item.Ordered) :
      Frame consumed start (.array start (some remaining) items)
  | map {remaining entries key lastKey} (hremaining : remaining ≠ 0)
      (hordered : ∀ entry ∈ entries, entry.1.Ordered ∧ entry.2.Ordered)
      (hkey : ∀ item ∈ key, item.Ordered)
      (hkeys : (keysRead entries key).IsChain (· < ·))
      (hlast : ∀ bytes ∈ (keysRead entries key).getLast?,
        ∃ span, lastKey = some span ∧ SpanOf consumed span bytes) :
      Frame consumed start (.map start (some remaining) entries key lastKey)
  | tag {number} : Frame consumed start (.tag start number)

inductive Stack (consumed : List UInt8) : List Open → Prop
  | nil : Stack consumed []
  | cons {frame stack} (hframe : Frame consumed (stackBytes stack).length frame)
      (hstack : Stack consumed stack) : Stack consumed (frame :: stack)

theorem SpanOf.append {consumed bytes : List UInt8} {span : Nat × Nat}
    (h : SpanOf consumed span bytes) (more : List UInt8) : SpanOf (consumed ++ more) span bytes := by
  refine ⟨?_, ?_⟩
  · rw [List.length_append]
    exact Nat.le_add_right_of_le h.1
  · rw [List.take_append_of_le_length h.1]
    exact h.2

theorem Frame.append {consumed : List UInt8} {frame : Open} (h : Frame consumed start frame)
    (more : List UInt8) :
    Frame (consumed ++ more) start frame := by
  cases h with
  | array hremaining hordered => exact .array hremaining hordered
  | map hremaining hordered hkey hkeys hlast =>
    refine .map hremaining hordered hkey hkeys fun bytes hbytes => ?_
    obtain ⟨span, hspan, hof⟩ := hlast bytes hbytes
    exact ⟨span, hspan, hof.append more⟩
  | tag => exact .tag

theorem Stack.append {consumed : List UInt8} (h : Stack consumed stack) (more : List UInt8) :
    Stack (consumed ++ more) stack := by
  induction h with
  | nil => exact .nil
  | cons hframe _ ih => exact .cons (hframe.append more) ih

/-- What holds between two turns of the deterministic decoder. -/
structure Sound (source : Slice) (stack : List Open) : Prop where
  inside : source.pos ≤ source.bytes.length
  consumed : source.consumed = stackBytes stack
  stack : Stack source.consumed stack

theorem count_down {remaining : UInt64} (h : remaining ≠ 0) (count : Nat) :
    count + 1 + (remaining - 1).toNat = count + remaining.toNat := by
  have hpos : 1 ≤ remaining.toNat := by
    refine Nat.one_le_iff_ne_zero.mpr fun hzero => h ?_
    exact UInt64.toNat_inj.mp hzero
  have hle : (1 : UInt64) ≤ remaining := UInt64.le_iff_toNat_le.mpr hpos
  rw [UInt64.toNat_sub_of_le _ _ hle]
  simp only [UInt64.reduceToNat]
  omega

theorem count_last {remaining : UInt64} (h : remaining - 1 = 0) : remaining = 1 := by
  have : remaining = remaining - 1 + 1 := (UInt64.sub_add_cancel remaining 1).symm
  rw [this, h]
  rfl

variable {source : Slice}

theorem span_last {before bytes : List UInt8} (hinside : source.pos ≤ source.bytes.length)
    (hconsumed : source.consumed = before ++ bytes) :
    SpanOf source.consumed (before.length, source.pos) bytes := by
  have hlength : source.consumed.length = source.pos := List.length_take_of_le hinside
  refine ⟨hlength.ge, ?_⟩
  dsimp only
  rw [← hlength, List.take_length, hconsumed, List.drop_left]

theorem attachTo_sound {stack stack' : List Open} {item : Value} {done : Option Value}
    (hinside : source.pos ≤ source.bytes.length) (hstack : Stack source.consumed stack)
    (hconsumed : source.consumed = stackBytes stack ++ item.encoding) (hordered : item.Ordered)
    (hstart : start = (stackBytes stack).length)
    (h : attachTo source true stack item start = .ok (done, stack')) :
    (∀ value ∈ done, source.consumed = value.encoding ∧ value.Ordered) ∧
      (done = none → Sound source stack') := by
  induction hstack generalizing item start with
  | nil =>
    cases h
    refine ⟨?_, by intro hdone; cases hdone⟩
    rintro value ⟨⟩
    exact ⟨hconsumed, hordered⟩
  | @cons frame stack hframe hstack ih =>
    cases hframe with
    | tag =>
      rw [attachTo] at h
      refine ih ?_ (.tag trivial hordered) rfl h
      rw [hconsumed, stackBytes, encoding_tag, List.append_assoc]
      rfl
    | @array remaining items hremaining hitems =>
      have hall : ∀ item' ∈ items ++ [item], item'.Ordered := by
        intro item' hitem'
        rcases List.mem_append.mp hitem' with hold | hnew
        · exact hitems item' hold
        · rw [List.mem_singleton.mp hnew]
          exact hordered
      rw [attachTo] at h
      split at h
      · next hlast =>
          have hone := count_last (Option.some.inj hlast)
          subst hone
          refine ih ?_ (.array trivial hall) rfl h
          rw [hconsumed, stackBytes, encoding_array, Open.written]
          simp
      · next hmore =>
          cases h
          refine ⟨(by intro value hvalue; cases hvalue), fun _ => ⟨hinside, ?_, ?_⟩⟩
          · rw [hconsumed, stackBytes, stackBytes, Open.written, Open.written]
            simp [count_down hremaining]
          · exact .cons (.array (fun hzero => hmore (congrArg some hzero)) hall) hstack
    | @map remaining entries key lastKey hremaining hentries hkey hkeys hlast =>
      cases key with
      | some pending =>
        have hall : ∀ entry ∈ entries ++ [(pending, item)],
            entry.1.Ordered ∧ entry.2.Ordered := by
          intro entry hentry
          rcases List.mem_append.mp hentry with hold | hnew
          · exact hentries entry hold
          · rw [List.mem_singleton.mp hnew]
            exact ⟨hkey pending rfl, hordered⟩
        have hread : keysRead (entries ++ [(pending, item)]) none =
            keysRead entries (some pending) := by simp [keysRead]
        rw [attachTo] at h
        split at h
        · next hend =>
            have hone := count_last (Option.some.inj hend)
            subst hone
            refine ih ?_ (.map ?_ (fun entry hentry => (hall entry hentry).1)
              fun entry hentry => (hall entry hentry).2) rfl h
            · rw [hconsumed, stackBytes, encoding_map, Open.written]
              simp [entryEncoding]
            · rw [← hread] at hkeys
              simpa [keysRead, KeysAscending] using hkeys
        · next hmore =>
            cases h
            refine ⟨(by intro value hvalue; cases hvalue), fun _ => ⟨hinside, ?_, ?_⟩⟩
            · rw [hconsumed, stackBytes, stackBytes, Open.written, Open.written]
              simp [count_down hremaining, entryEncoding]
            · refine .cons (.map (fun hzero => hmore (congrArg some hzero)) hall
                (by intro key hkey; cases hkey) ?_ ?_) hstack
              · rwa [hread]
              · rwa [hread]
      | none =>
        rw [attachTo, if_pos rfl] at h
        split at h
        · cases h
        · next hascends =>
            cases h
            have hspan := span_last hinside hconsumed
            have hread : keysRead entries (some item) =
                keysRead entries none ++ [item.encoding] := by simp [keysRead]
            refine ⟨(by intro value hvalue; cases hvalue), fun _ => ⟨hinside, ?_, ?_⟩⟩
            · rw [hconsumed, stackBytes, stackBytes, Open.written, Open.written]
              simp
            · refine .cons (.map hremaining hentries ?_ ?_ ?_) hstack
              · rintro key ⟨⟩
                exact hordered
              · rw [hread, List.isChain_append]
                refine ⟨hkeys, List.isChain_singleton _, ?_⟩
                intro last hlastmem new hnew
                cases hnew
                obtain ⟨span, rfl, hof⟩ := hlast last hlastmem
                have hnot : ¬ source.span (start, source.pos) ≤ source.span span :=
                  fun hle => hascends ⟨span, rfl, hle⟩
                rw [hstart, Slice.span, Slice.span, hspan.2, hof.2] at hnot
                exact Std.not_le.mp hnot
              · intro bytes hbytes
                rw [hread, List.getLast?_concat] at hbytes
                cases hbytes
                refine ⟨_, rfl, ?_⟩
                rw [hstart]
                exact hspan

/-! ### Reading an item -/

/-- What a head and what belongs to it add to the bytes of the open containers. -/
inductive Reads (stack : List Open) (start : Nat) : Progress → Prop
  | item {value : Value} {after : Slice}
      (hconsumed : after.consumed = stackBytes stack ++ value.encoding)
      (hordered : value.Ordered) : Reads stack start (.item value start stack after)
  | opened {frame : Open} {after : Slice}
      (hconsumed : after.consumed = stackBytes stack ++ frame.written)
      (hframe : ∀ consumed, Frame consumed start frame) :
      Reads stack start (.opened (frame :: stack) after)

theorem reads_scalar {bytes : List UInt8} {after : Slice}
    (hscalar : writeScalar value = some bytes)
    (hconsumed : after.consumed = stackBytes stack ++ bytes) :
    Reads stack start (.item value start stack after) := by
  refine .item ?_ (ordered_scalar hscalar)
  rw [encoding_scalar hscalar, hconsumed]

theorem stringValue_sound {major : UInt8} {length : UInt64} {after : Slice}
    (hmajor : major = 2 ∨ major = 3)
    (h : stringValue source major (some length) true start = .ok (value, after)) :
    ∃ bytes, Took source bytes after ∧
      writeScalar value = some (CborHead.encode major length ++ bytes) := by
  unfold stringValue stringBytes at h
  split at h
  · cases h
  · next bytes middle htake =>
      obtain ⟨htook, hlength⟩ := take_iff.mp htake
      have hlength' : UInt64.ofNat bytes.length = length := by
        rw [hlength, UInt64.ofNat_toNat]
      split at h
      · next hbytes =>
          cases h
          refine ⟨bytes, htook, ?_⟩
          rw [hbytes, writeScalar, CborHead.writeBytes, hlength']
      · next hbytes =>
          have htext : major = CborHead.TEXT := hmajor.resolve_left hbytes
          split at h
          · next text hutf8 =>
              cases h
              refine ⟨bytes, htook, ?_⟩
              rw [htext, writeScalar, encode_of_fromUtf8 hutf8, CborHead.writeText, hlength']
          · cases h

theorem major_eq_map {major : UInt8} (hlt : major < 8) (h0 : major ≠ 0) (h1 : major ≠ 1)
    (hstring : ¬ (major = 2 ∨ major = 3)) (h7 : major ≠ 7) (h6 : major ≠ 6) (h4 : major ≠ 4) :
    major = MAP := by
  have h : ∀ value : Fin 8, UInt8.ofNat value.val = 0 ∨ UInt8.ofNat value.val = 1 ∨
      UInt8.ofNat value.val = 2 ∨ UInt8.ofNat value.val = 3 ∨ UInt8.ofNat value.val = 4 ∨
      UInt8.ofNat value.val = 5 ∨ UInt8.ofNat value.val = 6 ∨ UInt8.ofNat value.val = 7 := by
    decide
  have hvalue := h ⟨major.toNat, UInt8.lt_iff_toNat_lt.mp hlt⟩
  simp only [UInt8.ofNat_toNat] at hvalue
  unfold CborHead.MAP
  grind

theorem major_lt (initial : UInt8) : initial >>> 5 < 8 := by
  have hlt : initial.toNat < 2 ^ 8 := initial.toNat_lt
  rw [UInt8.lt_iff_toNat_lt, UInt8.toNat_shiftRight]
  simp only [UInt8.reduceToNat, Nat.reduceMod, Nat.shiftRight_eq_div_pow]
  omega

theorem readBody_sound {initial : UInt8} {tail : List UInt8} {length : Option UInt64}
    {progress : Progress} (hconsumed : source.consumed = stackBytes stack ++ initial :: tail)
    (hspells : Spells initial tail length)
    (hshortest : initial >>> 5 ≠ 7 → length = none ∨ ∃ value, length = some value ∧
      initial :: tail = CborHead.encode (initial >>> 5) value)
    (hsignaling : ∀ single, initial = 0xfa → tail = beBytes 4 single.toNat →
      ¬ SignalingSingle single)
    (h : readBody limits true stack source initial length start = .ok progress) :
    Reads stack start progress := by
  have hlt := major_lt initial
  unfold readBody at h
  dsimp only at h
  generalize hmajor : initial >>> 5 = major at *
  by_cases h7 : major = 7
  · subst h7
    rw [if_neg (by decide), if_neg (by decide), if_neg (by decide), if_pos rfl] at h
    split at h
    · split at h
      · next value hvalue =>
          cases h
          exact reads_scalar (simpleOrFloat_sound hmajor hspells hsignaling hvalue) hconsumed
      · cases h
    · cases h
  have hform := hshortest h7
  have hhead : ∀ value, length = some value → initial :: tail = CborHead.encode major value := by
    intro value hvalue
    rcases hform with hnone | ⟨other, hother, hencode⟩
    · rw [hnone] at hvalue
      cases hvalue
    · rw [hother] at hvalue
      rwa [← Option.some.inj hvalue]
  split at h
  · next h0 =>
      split at h
      · next value =>
          cases h
          apply reads_scalar _ hconsumed
          rw [hhead value rfl, h0, writeScalar, Integer.head_unsigned]
      · cases h
  split at h
  · next h1 =>
      split at h
      · next value =>
          cases h
          apply reads_scalar _ hconsumed
          rw [hhead value rfl, h1, writeScalar, Integer.head_negative]
      · cases h
  split at h
  · next hstring =>
      split at h
      · next value after hread =>
          cases h
          cases length with
          | none =>
            simp [stringValue, stringBytes] at hread
          | some length =>
            obtain ⟨bytes, htook, hscalar⟩ := stringValue_sound hstring hread
            apply reads_scalar hscalar
            rw [htook.consumed, hconsumed, hhead length rfl, List.append_assoc]
      · cases h
  split at h
  · cases h
  split at h
  · next h6 =>
      split at h
      · next number =>
          cases h
          refine .opened ?_ fun consumed => .tag
          rw [hconsumed, hhead number rfl, h6]
          rfl
      · cases h
  cases length with
  | none => simp at h
  | some length =>
    rw [if_neg (by simp)] at h
    have hencode := hhead length rfl
    split at h
    · next h4 =>
        split at h
        · next hzero =>
            cases h
            cases hzero
            refine .item ?_ (.array trivial (by simp))
            rw [hconsumed, hencode, h4]
            simp
            rfl
        · next hne =>
            cases h
            refine .opened ?_ fun consumed =>
              .array (fun hzero => hne (congrArg some hzero)) (by simp)
            rw [hconsumed, hencode, h4]
            simp [Open.written]
            rfl
    · next h4 =>
        have h5 : major = MAP := by
          apply major_eq_map hlt <;> assumption
        split at h
        · next hzero =>
            cases h
            cases hzero
            refine .item ?_ (.map .nil (by simp) (by simp))
            rw [hconsumed, hencode, h5]
            simp
        · next hne =>
            cases h
            refine .opened ?_ fun consumed =>
              .map (fun hzero => hne (congrArg some hzero)) (by simp) (by simp) .nil
                (by simp [keysRead])
            rw [hconsumed, hencode, h5]
            simp [Open.written]

theorem readItem_sound {progress : Progress} (hsound : Sound source stack)
    (hquiet : ¬ SignalingItem source) (h : readItem limits true stack source = .ok progress) :
    Reads stack (stackBytes stack).length progress := by
  have hstart : source.pos = (stackBytes stack).length := by
    rw [← hsound.consumed]
    exact (List.length_take_of_le hsound.inside).symm
  unfold readItem at h
  dsimp only at h
  split at h
  · cases h
  · next initial middle hbyte =>
      have hfirst := byte_iff.mp hbyte
      split at h
      · -- no open container is indefinite
        unfold closeIndefinite at h
        cases hsound.stack with
        | nil => cases h
        | cons hframe _ => cases hframe <;> cases h
      split at h
      · cases h
      · next length after hargument =>
          obtain ⟨tail, htail, hspells, hshortest⟩ := argument_ok hargument
          rw [hstart] at h
          have hboth : Took source (initial :: tail) after := hfirst.trans htail
          refine readBody_sound ?_ hspells (hshortest rfl) ?_ h
          · rw [hboth.consumed, hsound.consumed]
          · intro single hinitial htail' hsingle
            refine hquiet ⟨single, hsingle, after.rest, ?_⟩
            rw [← hinitial, ← htail', hboth.rest_eq]

theorem turn_sound {stack stack' : List Open} {done : Option Value} {after : Slice}
    (hsound : Sound source stack) (hquiet : ¬ SignalingItem source)
    (h : turn limits true stack source = .ok (done, stack', after)) :
    (∀ value ∈ done, after.consumed = value.encoding ∧ value.Ordered) ∧
      (done = none → Sound after stack') := by
  have hinside : ∀ byte taken after, Took source (byte :: taken) after →
      after.pos ≤ after.bytes.length := by
    intro byte taken after htook
    have hlength := htook.length_rest
    rw [htook.pos_eq, htook.bytes_eq]
    simp only [ByteCursor.rest, List.length_drop, List.length_cons] at hlength ⊢
    have := hsound.inside
    omega
  unfold turn at h
  split at h
  · cases h
  · next opened middle hread =>
      cases h
      obtain ⟨byte, taken, htook⟩ := readItem_took hread
      cases readItem_sound hsound hquiet hread with
      | opened hconsumed hframe =>
        refine ⟨(by intro value hvalue; cases hvalue), fun _ =>
          ⟨hinside _ _ _ htook, hconsumed, .cons (hframe _) ?_⟩⟩
        have hstack := hsound.stack.append (byte :: taken)
        rwa [← htook.consumed] at hstack
  · next value start below middle hread =>
      obtain ⟨byte, taken, htook⟩ := readItem_took hread
      split at h
      · cases h
      · next found attached hattach =>
          cases h
          cases readItem_sound hsound hquiet hread with
          | item hconsumed hordered =>
            have hstack := hsound.stack.append (byte :: taken)
            rw [← htook.consumed] at hstack
            exact attachTo_sound (hinside _ _ _ htook) hstack hconsumed hordered rfl hattach

/-- The states the deterministic decoder comes to on an input. -/
inductive Reaches (limits : Limits) (bytes : List UInt8) : List Open → Slice → Prop
  | start : Reaches limits bytes [] ⟨bytes, 0⟩
  | turn {stack stack' source after} (h : Reaches limits bytes stack source)
      (hturn : turn limits true stack source = .ok (none, stack', after)) :
      Reaches limits bytes stack' after

/-- No item the deterministic decoder comes to is a signaling binary32 NaN. -/
def NoSignalingItem (limits : Limits) (bytes : List UInt8) : Prop :=
  ∀ stack source, Reaches limits bytes stack source → ¬ SignalingItem source

theorem decodeLoop_sound {bytes : List UInt8} (hquiet : NoSignalingItem limits bytes) {left : Nat}
    {after : Slice} (hreaches : Reaches limits bytes stack source) (hbytes : source.bytes = bytes)
    (hsound : Sound source stack)
    (h : decodeLoop limits true left stack source = .ok (value, after)) :
    after.bytes = bytes ∧ after.consumed = value.encoding ∧ value.Ordered := by
  induction left generalizing stack source with
  | zero => cases h
  | succ left ih =>
    rw [decodeLoop] at h
    split at h
    · cases h
    · next found below middle hturn =>
        cases h
        obtain ⟨byte, taken, htook⟩ := turn_took hturn
        have hdone := (turn_sound hsound (hquiet _ _ hreaches) hturn).1 value rfl
        exact ⟨htook.bytes_eq.trans hbytes, hdone⟩
    · next below middle hturn =>
        obtain ⟨byte, taken, htook⟩ := turn_took hturn
        have hmore := (turn_sound hsound (hquiet _ _ hreaches) hturn).2 rfl
        exact ih (.turn hreaches hturn) (htook.bytes_eq.trans hbytes) hmore h

theorem decodeDeterministic_sound {bytes : List UInt8} (hquiet : NoSignalingItem limits bytes)
    (h : decodeDeterministic bytes limits = .ok value) :
    value.encoding = bytes ∧ value.Ordered := by
  unfold decodeDeterministic at h
  split at h
  · cases h
  · next found after hitem =>
      split at h
      · next hend =>
          cases h
          have hsound : Sound ⟨bytes, 0⟩ [] := ⟨Nat.zero_le _, rfl, .nil⟩
          obtain ⟨hbytes, hconsumed, hordered⟩ :=
            decodeLoop_sound hquiet .start rfl hsound hitem
          refine ⟨?_, hordered⟩
          rw [← hconsumed, ByteCursor.consumed, hbytes, hend, List.take_length]
      · cases h

end Purrdf.Cbor
