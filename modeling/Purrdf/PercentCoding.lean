import Purrdf.PercentReading

/-!
# Normal forms

The normal form of a text has every triplet of an unreserved octet decoded and the digits of
every other in uppercase. One pass over a text with stray `%` signs can leave a triplet behind.
-/

namespace Purrdf.Percent

open Utf8

def written (octet : UInt8) : List UInt8 :=
  if isUnreserved octet then Utf8.encode [asciiChar octet] else triplet octet

theorem written_unreserved {octet : UInt8} (hunreserved : isUnreserved octet) :
    written octet = [octet] := by
  simp [written, hunreserved, Utf8.encode, encode_asciiChar (unreserved_ascii octet hunreserved).1]

theorem written_reserved {octet : UInt8} (hreserved : ¬isUnreserved octet) :
    written octet = triplet octet := by
  simp [written, hreserved]

theorem written_isUtf8 (octet : UInt8) : IsUtf8 (written octet) := by
  by_cases hunreserved : isUnreserved octet
  · rw [written_unreserved hunreserved]
    exact isUtf8_ascii (unreserved_ascii octet hunreserved).1
  · rw [written_reserved hunreserved]
    exact isUtf8_of_ascii (triplet_ascii octet)

def normal (bytes : List UInt8) : List UInt8 :=
  rewrite written bytes

@[simp] theorem normal_nil : normal [] = [] :=
  rewrite_nil written

theorem normal_plain {byte : UInt8} (hbyte : byte ≠ percent) (rest : List UInt8) :
    normal (byte :: rest) = byte :: normal rest :=
  rewrite_plain written hbyte rest

theorem normal_stray {rest : List UInt8} (hstray : tripletAt (percent :: rest) 0 = none) :
    normal (percent :: rest) = percent :: normal rest :=
  rewrite_stray written hstray

theorem normal_triplet {high low octet : UInt8} (hoctet : octetOf high low = some octet)
    (after : List UInt8) :
    normal (percent :: high :: low :: after) = written octet ++ normal after :=
  rewrite_triplet written hoctet after

theorem written_length_le (octet : UInt8) : (written octet).length ≤ 3 := by
  by_cases hunreserved : isUnreserved octet
  · simp [written_unreserved hunreserved]
  · simp [written_reserved hunreserved, triplet]

theorem normal_length_le (bytes : List UInt8) : (normal bytes).length ≤ bytes.length := by
  induction bytes using reading with
  | nil => simp
  | plain byte rest hbyte ih => simpa [normal_plain hbyte] using ih
  | stray rest hstray ih => simpa [normal_stray hstray] using ih
  | triplet high low octet after hoctet ih =>
    have hwritten := written_length_le octet
    rw [normal_triplet hoctet, List.length_append]
    simp only [List.length_cons]
    omega

/-! ### Texts in normal form -/

/-- The triplet a `%` opens, if any, is of a byte that is not unreserved, in uppercase digits. -/
def NormalAt (rest : List UInt8) : Prop :=
  ∀ octet, tripletAt (percent :: rest) 0 = some octet →
    ¬isUnreserved octet ∧ (percent :: rest).take 3 = triplet octet

def Normal (bytes : List UInt8) : Prop :=
  AtPercents NormalAt bytes

theorem normal_written_append (octet : UInt8) (after : List UInt8) :
    Normal (written octet ++ after) ↔ Normal after := by
  by_cases hunreserved : isUnreserved octet
  · rw [written_unreserved hunreserved]
    exact atPercents_plain (unreserved_ascii octet hunreserved).2
  · rw [written_reserved hunreserved]
    refine (atPercents_triplet (octetOf_digits octet)).trans (and_iff_right ?_)
    intro other hother
    rw [tripletAt_cons, octetOf_digits, Option.some.injEq] at hother
    subst hother
    exact ⟨hunreserved, rfl⟩

theorem normal_eq_iff (bytes : List UInt8) : normal bytes = bytes ↔ Normal bytes := by
  induction bytes using reading with
  | nil => exact ⟨fun _ => atPercents_nil, fun _ => normal_nil⟩
  | plain byte rest hbyte ih =>
    rw [Normal, atPercents_plain hbyte, ← Normal, ← ih, normal_plain hbyte, List.cons.injEq]
    exact and_iff_right rfl
  | stray rest hstray ih =>
    rw [Normal, atPercents_percent, ← Normal, ← ih, normal_stray hstray, List.cons.injEq]
    simp [NormalAt, hstray]
  | triplet high low octet after hoctet ih =>
    have hsplit : percent :: high :: low :: after = [percent, high, low] ++ after := rfl
    rw [Normal, atPercents_triplet hoctet, ← Normal, ← ih, normal_triplet hoctet]
    constructor
    · intro hsame
      -- both parts are no longer than what they were written for
      have hshort := written_length_le octet
      have hshorter := normal_length_le after
      have hlength := congrArg List.length hsame
      simp only [List.length_append, List.length_cons] at hlength
      rw [hsplit] at hsame
      obtain ⟨hwritten, hafter⟩ := List.append_inj hsame (by simp; omega)
      refine ⟨fun other hother => ?_, hafter⟩
      rw [tripletAt_cons, hoctet, Option.some.injEq] at hother
      subst hother
      have hreserved : ¬isUnreserved octet := by
        intro hunreserved
        simp [written_unreserved hunreserved] at hwritten
      rw [written_reserved hreserved] at hwritten
      exact ⟨hreserved, hwritten.symm⟩
    · rintro ⟨hhere, hafter⟩
      obtain ⟨hreserved, hwritten⟩ := hhere octet hoctet
      rw [hafter, written_reserved hreserved, ← hwritten]
      rfl

/-- No stray `%` of a text opens a triplet of its normal form but one in normal form. -/
def SettledAt (rest : List UInt8) : Prop :=
  tripletAt (percent :: rest) 0 = none → NormalAt (normal rest)

theorem normal_normal_iff (bytes : List UInt8) :
    Normal (normal bytes) ↔ AtPercents SettledAt bytes := by
  induction bytes using reading with
  | nil => simp [normal, Normal, atPercents_nil]
  | plain byte rest hbyte ih =>
    rw [normal_plain hbyte, Normal, atPercents_plain hbyte, atPercents_plain hbyte]
    exact ih
  | stray rest hstray ih =>
    rw [normal_stray hstray, Normal, atPercents_percent, atPercents_percent, ← Normal, ih]
    simp [SettledAt, hstray]
  | triplet high low octet after hoctet ih =>
    rw [normal_triplet hoctet, normal_written_append, ih, atPercents_triplet hoctet]
    simp [SettledAt, hoctet]

/-! ### What the normal form keeps -/

theorem Paired.written_append {after : List UInt8} (hpaired : Paired after) (octet : UInt8) :
    Paired (written octet ++ after) := by
  by_cases hunreserved : isUnreserved octet
  · rw [written_unreserved hunreserved]
    exact (paired_plain (unreserved_ascii octet hunreserved).2).mpr hpaired
  · rw [written_reserved hunreserved]
    exact (paired_triplet (octetOf_digits octet)).mpr hpaired

theorem octets_written_append (octet : UInt8) (after : List UInt8) :
    rewrite (fun octet => [octet]) (written octet ++ after) =
      octet :: rewrite (fun octet => [octet]) after := by
  by_cases hunreserved : isUnreserved octet
  · rw [written_unreserved hunreserved]
    exact rewrite_plain _ (unreserved_ascii octet hunreserved).2 after
  · rw [written_reserved hunreserved]
    exact rewrite_triplet _ (octetOf_digits octet) after

theorem paired_normal {bytes : List UInt8} (hpaired : Paired bytes) : Paired (normal bytes) := by
  induction bytes using reading with
  | nil => simpa using hpaired
  | plain byte rest hbyte ih =>
    rw [normal_plain hbyte, paired_plain hbyte]
    exact ih ((paired_plain hbyte).mp hpaired)
  | stray rest hstray ih => exact absurd hpaired (not_paired_stray hstray)
  | triplet high low octet after hoctet ih =>
    rw [normal_triplet hoctet]
    exact (ih ((paired_triplet hoctet).mp hpaired)).written_append octet

theorem octets_normal {bytes : List UInt8} (hpaired : Paired bytes) :
    rewrite (fun octet => [octet]) (normal bytes) = rewrite (fun octet => [octet]) bytes := by
  induction bytes using reading with
  | nil => simp
  | plain byte rest hbyte ih =>
    simp [normal_plain hbyte, hbyte, ih ((paired_plain hbyte).mp hpaired)]
  | stray rest hstray ih => exact absurd hpaired (not_paired_stray hstray)
  | triplet high low octet after hoctet ih =>
    simp [normal_triplet hoctet, octets_written_append, hoctet,
      ih ((paired_triplet hoctet).mp hpaired)]

theorem Paired.settled {bytes : List UInt8} (hpaired : Paired bytes) :
    AtPercents SettledAt bytes := by
  intro rest hrest hstray
  have hopens := hpaired rest hrest
  simp [hstray] at hopens

/-- Two spellings of one text: a triplet may have digits of either case, and a triplet of an
unreserved byte may stand for the byte. -/
inductive Spelling : List UInt8 → List UInt8 → Prop where
  | nil : Spelling [] []
  | plain {byte : UInt8} {s t : List UInt8} : byte ≠ percent → Spelling s t →
      Spelling (byte :: s) (byte :: t)
  | digits {high low high' low' octet : UInt8} {s t : List UInt8} :
      octetOf high low = some octet → octetOf high' low' = some octet → Spelling s t →
      Spelling (percent :: high :: low :: s) (percent :: high' :: low' :: t)
  | decoded {high low octet : UInt8} {s t : List UInt8} :
      octetOf high low = some octet → isUnreserved octet → Spelling s t →
      Spelling (percent :: high :: low :: s) (octet :: t)
  | encoded {high low octet : UInt8} {s t : List UInt8} :
      octetOf high low = some octet → isUnreserved octet → Spelling s t →
      Spelling (octet :: s) (percent :: high :: low :: t)

theorem Spelling.normal_eq {s t : List UInt8} (hspelling : Spelling s t) :
    normal s = normal t := by
  induction hspelling with
  | nil => rfl
  | plain hbyte _ ih => rw [normal_plain hbyte, normal_plain hbyte, ih]
  | digits hleft hright _ ih => rw [normal_triplet hleft, normal_triplet hright, ih]
  | decoded hoctet hunreserved _ ih =>
    rw [normal_triplet hoctet, written_unreserved hunreserved,
      normal_plain (unreserved_ascii _ hunreserved).2, ih]
    rfl
  | encoded hoctet hunreserved _ ih =>
    rw [normal_triplet hoctet, written_unreserved hunreserved,
      normal_plain (unreserved_ascii _ hunreserved).2, ih]
    rfl

end Purrdf.Percent

/-!
## The coders compute what texts are read as

Every slice is cut where a scalar value begins, and a byte is decoded before its place is written.
-/

namespace Purrdf.Percent

open Utf8

/-! ### Boundaries -/

theorem boundary_zero (bytes : List UInt8) : isCharBoundary bytes 0 := by
  cases bytes <;> simp [isCharBoundary]

theorem boundary_length (bytes : List UInt8) : isCharBoundary bytes bytes.length := by
  simp [isCharBoundary]

theorem boundary_before (before after : List UInt8) {byte : UInt8} (hascii : byte < 0x80) :
    isCharBoundary (before ++ byte :: after) before.length := by
  simp [isCharBoundary, hascii]

theorem ascii_begins : ∀ byte : UInt8, byte < 0x80 → byte.IsUTF8FirstByte := by
  decide +kernel

theorem begins_range : ∀ byte : UInt8, byte.IsUTF8FirstByte → byte < 0x80 ∨ 0xC0 ≤ byte := by
  decide +kernel

theorem boundary_after {before after : List UInt8} {byte : UInt8} (hascii : byte < 0x80)
    (hvalid : IsUtf8 ((before ++ [byte]) ++ after)) :
    isCharBoundary ((before ++ [byte]) ++ after) (before ++ [byte]).length := by
  cases after with
  | nil =>
    rw [List.append_nil]
    exact boundary_length _
  | cons next rest =>
    have hwhole : IsUtf8 (before ++ byte :: (next :: rest)) := by simpa using hvalid
    have hhere : IsUtf8 ([byte] ++ (next :: rest)) := (hwhole.cut (ascii_begins byte hascii)).2
    have hnext := begins_range next (hhere.rest (isUtf8_ascii hascii)).starts
    unfold isCharBoundary
    simp [hnext]

theorem slice_middle {before run after : List UInt8}
    (hstart : isCharBoundary (before ++ run ++ after) before.length)
    (hstop : isCharBoundary (before ++ run ++ after) (before ++ run).length) :
    slice (before ++ run ++ after) before.length (before ++ run).length = some run := by
  unfold slice
  rw [if_pos ⟨by simp, hstart, hstop⟩, List.take_left, List.drop_left]

/-! ### Encoding -/

theorem first_some {set : EncodeSet} {bytes : List UInt8} {position : Nat}
    (hfirst : set.first bytes = some position) :
    ∃ run byte after, bytes = run ++ byte :: after ∧ run.length = position ∧
      (∀ kept ∈ run, set kept) ∧ set byte = false := by
  unfold EncodeSet.first at hfirst
  rw [List.findIdx?_eq_some_iff_getElem] at hfirst
  obtain ⟨hinside, hbyte, hbefore⟩ := hfirst
  refine ⟨bytes.take position, bytes[position], bytes.drop (position + 1), ?_,
    by simp; omega, fun kept hkept => ?_, by simpa using hbyte⟩
  · rw [List.getElem_cons_drop, List.take_append_drop]
  · obtain ⟨index, hindex, rfl⟩ := List.getElem_of_mem hkept
    rw [List.length_take] at hindex
    have hkeeps := hbefore index (by omega)
    simpa using hkeeps

theorem encoded_kept {set : EncodeSet} {run : List UInt8} (hrun : ∀ kept ∈ run, set kept)
    (rest : List UInt8) : encoded set (run ++ rest) = run ++ encoded set rest := by
  induction run with
  | nil => rfl
  | cons byte run ih =>
    have hbyte := hrun byte List.mem_cons_self
    have hrest := ih fun kept hkept => hrun kept (List.mem_cons_of_mem byte hkept)
    unfold encoded at hrest ⊢
    rw [List.cons_append, List.flatMap_cons, if_pos hbyte, hrest]
    rfl

theorem first_none {set : EncodeSet} {bytes : List UInt8} (hfirst : set.first bytes = none) :
    ∀ kept ∈ bytes, set kept := by
  unfold EncodeSet.first at hfirst
  simpa using hfirst

theorem slice_kept {before run after : List UInt8} (hvalid : IsUtf8 (before ++ run ++ after))
    (hascii : ∀ byte ∈ run, byte < 0x80) (hplace : run = [] → after = []) :
    slice (before ++ run ++ after) before.length (before ++ run).length = some run := by
  by_cases hempty : run = []
  · subst hempty
    rw [hplace rfl]
    apply slice_middle <;> simp [boundary_length]
  · apply slice_middle
    · obtain ⟨byte, tail, rfl⟩ := List.exists_cons_of_ne_nil hempty
      rw [List.append_assoc]
      exact boundary_before before (tail ++ after) (hascii byte List.mem_cons_self)
    · obtain ⟨front, byte, rfl⟩ := (List.eq_nil_or_concat' run).resolve_left hempty
      have hlast := hascii byte (by simp)
      rw [← List.append_assoc] at hvalid ⊢
      exact boundary_after hlast hvalid

theorem pushEncodedFrom_eq {set : EncodeSet} (hset : ∀ byte, set byte → byte < 0x80)
    (turns : Nat) {before rest : List UInt8} (hvalid : IsUtf8 (before ++ rest)) {offset : Nat}
    (hfirst : set.first rest = some offset) (hturns : rest.length ≤ turns) (out : List UInt8) :
    pushEncodedFrom (before ++ rest) set turns before.length (before.length + offset) out =
      some (out ++ encoded set rest) := by
  induction turns generalizing before rest offset out with
  | zero =>
    obtain ⟨run, byte, after, rfl, _⟩ := first_some hfirst
    simp at hturns
  | succ turns ih =>
    obtain ⟨run, byte, after, rfl, rfl, hrun, hbyte⟩ := first_some hfirst
    have hascii : ∀ kept ∈ run, kept < 0x80 := fun kept hkept => hset kept (hrun kept hkept)
    have hrunSlice : runBetween (before ++ (run ++ byte :: after)) before.length
        (before.length + run.length) = some run := by
      unfold runBetween
      by_cases hempty : run = []
      · simp [hempty]
      · have hmiddle : slice (before ++ run ++ byte :: after) before.length
            (before ++ run).length = some run :=
          slice_kept (by simpa using hvalid) hascii fun hnone => absurd hnone hempty
        have hsome := List.length_pos_of_ne_nil hempty
        rw [if_pos (by omega), ← List.append_assoc, ← List.length_append, hmiddle]
    have hhere : (before ++ (run ++ byte :: after))[before.length + run.length]? = some byte := by
      simp
    have hwhole : before ++ (run ++ byte :: after) = (before ++ run ++ [byte]) ++ after := by
      simp
    have hlength : before.length + run.length + 1 = (before ++ run ++ [byte]).length := by
      simp
      omega
    have hencoded : encoded set (run ++ byte :: after) =
        run ++ triplet byte ++ encoded set after := by
      rw [encoded_kept hrun, List.append_assoc]
      simp [encoded, hbyte]
    unfold pushEncodedFrom
    rw [hrunSlice, hhere, hlength, hwhole, List.drop_left, hencoded]
    simp only [Option.bind_eq_bind, Option.bind_some]
    rw [hwhole] at hvalid
    cases hnext : set.first after with
    | none =>
      have hkept := first_none hnext
      have hrest : slice (before ++ run ++ [byte] ++ after ++ []) (before ++ run ++ [byte]).length
          (before ++ run ++ [byte] ++ after).length = some after :=
        slice_kept (by simpa using hvalid) (fun kept hmem => hset kept (hkept kept hmem))
          fun _ => rfl
      rw [List.append_nil] at hrest
      have hafter : encoded set after = after := by
        simpa [encoded] using encoded_kept hkept []
      rw [hrest]
      simp [hafter]
    | some offset =>
      have hshorter : after.length ≤ turns := by
        simp at hturns
        omega
      simp only
      rw [ih hvalid hnext hshorter]
      simp

/-- The encoder never cuts a scalar value, and writes each byte the set encodes as a triplet. -/
theorem encode_eq {set : EncodeSet} (hset : ∀ byte, set byte → byte < 0x80) {text : List UInt8}
    (hvalid : IsUtf8 text) : encode text set = some (encoded set text) := by
  unfold encode
  cases hfirst : set.first text with
  | none =>
    have hsame : encoded set text = text := by
      simpa [encoded] using encoded_kept (first_none hfirst) []
    simp [hsame]
  | some first =>
    have hwhole : IsUtf8 ([] ++ text) := hvalid
    have hpushed := pushEncodedFrom_eq hset text.length hwhole hfirst (Nat.le_refl _) []
    simpa using hpushed

/-! ### Decoding -/

theorem fromUtf8_valid {bytes : List UInt8} (hvalid : IsUtf8 bytes) :
    fromUtf8 bytes = .ok bytes := by
  obtain ⟨chars, rfl⟩ := hvalid
  simp [fromUtf8, decode_encode]

theorem fromUtf8_ok {bytes text : List UInt8} (hok : fromUtf8 bytes = .ok text) :
    text = bytes := by
  unfold fromUtf8 at hok
  split at hok
  · exact (Except.ok.inj hok).symm
  · exact absurd hok (by simp)

theorem take_set_succ {buffer : List UInt8} {position : Nat} (hinside : position < buffer.length)
    (octet : UInt8) : (buffer.set position octet).take (position + 1) =
      buffer.take position ++ [octet] := by
  rw [List.take_succ_eq_append_getElem (by simpa using hinside), List.take_set_of_le (Nat.le_refl _)]
  simp

theorem decodeBytes_scan (plusIsSpace : Bool) (turns : Nat) {buffer : List UInt8}
    {position done : Nat} (hdone : done ≤ position) (hposition : position ≤ buffer.length)
    (hturns : buffer.length < position + turns) :
    ∃ result, decodeBytes plusIsSpace turns buffer position done = some result ∧
      result.map (fun decoded => decoded.1.take decoded.2) =
        (scan plusIsSpace position (buffer.drop position)).map (buffer.take done ++ ·) := by
  induction turns generalizing buffer position done with
  | zero => omega
  | succ turns ih =>
    have hstep : ∀ octet next, position < next → next ≤ buffer.length →
        scan plusIsSpace position (buffer.drop position) =
          (scan plusIsSpace next (buffer.drop next)).map (octet :: ·) →
        ∃ result, (if done < buffer.length then
            decodeBytes plusIsSpace turns (buffer.set done octet) next (done + 1) else none) =
              some result ∧
          result.map (fun decoded => decoded.1.take decoded.2) =
            (scan plusIsSpace position (buffer.drop position)).map (buffer.take done ++ ·) := by
      intro octet next hnext hinside hscan
      have hplace : done < buffer.length := by omega
      obtain ⟨result, hresult, hdecoded⟩ := @ih (buffer.set done octet) next (done + 1)
        (by omega) (by simpa using hinside) (by simp; omega)
      refine ⟨result, by rw [if_pos hplace, hresult], ?_⟩
      rw [hdecoded, hscan, take_set_succ hplace, List.drop_set_of_lt (by omega)]
      cases scan plusIsSpace next (buffer.drop next) <;> simp [Except.map]
    unfold decodeBytes
    cases hhere : buffer[position]? with
    | none =>
      refine ⟨_, rfl, ?_⟩
      have hover := List.getElem?_eq_none_iff.mp hhere
      simp [List.drop_eq_nil_of_le hover, Except.map]
    | some byte =>
      obtain ⟨hinside, hbyte⟩ := List.getElem?_eq_some_iff.mp hhere
      have hdrop : buffer.drop position = byte :: buffer.drop (position + 1) := by
        rw [List.drop_eq_getElem_cons hinside, hbyte]
      simp only [decodeByte]
      by_cases hpercent : byte = percent
      · subst hpercent
        rw [if_pos rfl, tripletAt_drop, hdrop]
        cases htriplet : tripletAt (percent :: buffer.drop (position + 1)) 0 with
        | none =>
          refine ⟨_, rfl, ?_⟩
          rw [scan_stray plusIsSpace position htriplet]
          rfl
        | some octet =>
          obtain ⟨high, low, after, hrest, hoctet⟩ := tripletAt_some htriplet
          have hafter : buffer.drop (position + 3) = after := by
            have htail := congrArg (List.drop 2) hrest
            rw [List.drop_drop] at htail
            exact htail
          have hlength := congrArg List.length hrest
          simp only [List.length_drop, List.length_cons] at hlength
          rw [← hdrop]
          refine hstep octet (position + 3) (by omega) (by omega) ?_
          rw [hdrop, hrest, scan_triplet plusIsSpace position hoctet, hafter]
      · rw [if_neg hpercent]
        by_cases hplus : plusIsSpace ∧ byte = 0x2B
        · rw [if_pos hplus]
          refine hstep 0x20 (position + 1) (by omega) (by omega) ?_
          rw [hdrop, scan_plain plusIsSpace position hpercent, if_pos hplus]
        · rw [if_neg hplus]
          refine hstep byte (position + 1) (by omega) (by omega) ?_
          rw [hdrop, scan_plain plusIsSpace position hpercent, if_neg hplus]

theorem decodeBytes_whole (plusIsSpace : Bool) (text : List UInt8) :
    ∃ result, decodeBytes plusIsSpace (text.length + 1) text 0 0 = some result ∧
      result.map (fun decoded => decoded.1.take decoded.2) = scan plusIsSpace 0 text := by
  obtain ⟨result, hresult, hscan⟩ := @decodeBytes_scan plusIsSpace (text.length + 1) text
    0 0 (Nat.le_refl 0) (Nat.zero_le _) (by omega)
  refine ⟨result, hresult, ?_⟩
  simp only [List.drop_zero, List.take_zero, List.nil_append] at hscan
  rw [hscan]
  cases scan plusIsSpace 0 text <;> rfl

theorem decodeWith_eq (plusIsSpace : Bool) {text : List UInt8} (hvalid : IsUtf8 text) :
    decodeWith plusIsSpace text = some ((scan plusIsSpace 0 text).bind fromUtf8) := by
  unfold decodeWith
  split
  · obtain ⟨result, hresult, hscan⟩ := decodeBytes_whole plusIsSpace text
    rw [hresult, ← hscan]
    cases result <;> rfl
  · rename_i hnone
    rw [scan_plain_text plusIsSpace 0]
    · simp [Except.bind, fromUtf8_valid hvalid]
    · intro byte hbyte
      simp only [List.any_eq_true, not_exists, not_and] at hnone
      have hother := hnone byte hbyte
      simpa [not_or] using hother

theorem decode_eq {text : List UInt8} (hvalid : IsUtf8 text) :
    decode text = some ((scan false 0 text).bind fromUtf8) :=
  decodeWith_eq false hvalid

theorem decodeInPlace_eq (text : List UInt8) :
    ∃ result, decodeInPlace text = some result ∧
      result.map (fun decoded => decoded.1.take decoded.2) =
        (scan false 0 text).bind fromUtf8 := by
  obtain ⟨result, hresult, hscan⟩ := decodeBytes_whole false text
  unfold decodeInPlace
  rw [hresult, ← hscan]
  refine ⟨_, rfl, ?_⟩
  cases result with
  | error error => rfl
  | ok decoded =>
    simp only [Except.bind, Except.map]
    cases hread : fromUtf8 (decoded.1.take decoded.2) with
    | error error => rfl
    | ok text => simp [fromUtf8_ok hread]

/-! ### Normalization -/

theorem append_shift (before run rest : List UInt8) (byte : UInt8) :
    before ++ run ++ byte :: rest = before ++ (run ++ [byte]) ++ rest := by
  simp

theorem length_shift (before run : List UInt8) (byte : UInt8) :
    (before ++ run).length + 1 = (before ++ (run ++ [byte])).length := by
  simp [Nat.add_assoc]

theorem getElem?_middle (before after : List UInt8) (byte : UInt8) :
    (before ++ byte :: after)[before.length]? = some byte := by
  simp

theorem normalizeFrom_skip {bytes : List UInt8} {position : Nat} {byte : UInt8}
    (hhere : bytes[position]? = some byte)
    (hnone : (if byte = percent then tripletAt bytes position else none) = none)
    (turns copied : Nat) (out : List UInt8) :
    normalizeFrom bytes (turns + 1) position copied out =
      normalizeFrom bytes turns (position + 1) copied out := by
  rw [normalizeFrom, hhere]
  simp only [hnone]

/-- Each slice of normalization ends before a `%` and begins there or after a digit. -/
theorem normalizeFrom_eq {before run rest : List UInt8} (hvalid : IsUtf8 (before ++ run ++ rest))
    (hcopied : isCharBoundary (before ++ run ++ rest) before.length) {turns : Nat}
    (hturns : rest.length ≤ turns) (out : List UInt8) :
    normalizeFrom (before ++ run ++ rest) (turns + 1) (before ++ run).length before.length out =
      some (out ++ run ++ normal rest) := by
  induction rest using reading generalizing before run turns out with
  | nil =>
    have hend : isCharBoundary (before ++ run ++ []) (before ++ run).length := by
      rw [List.append_nil]
      exact boundary_length _
    have hrun := slice_middle hcopied hend
    rw [List.append_nil] at hrun ⊢
    unfold normalizeFrom
    rw [List.getElem?_eq_none (Nat.le_refl _)]
    simp only [hrun, Option.bind_eq_bind, Option.bind_some, normal_nil, List.append_nil]
  | plain byte rest hbyte ih =>
    obtain ⟨turns, rfl⟩ := Nat.exists_eq_succ_of_ne_zero (Nat.ne_of_gt (Nat.lt_of_lt_of_le
      (Nat.succ_pos rest.length) hturns))
    rw [normalizeFrom_skip (getElem?_middle _ _ byte) (if_neg hbyte), length_shift before run byte,
      append_shift]
    rw [append_shift] at hvalid hcopied
    rw [ih hvalid hcopied (Nat.le_of_succ_le_succ hturns) out, normal_plain hbyte]
    simp
  | stray rest hstray ih =>
    obtain ⟨turns, rfl⟩ := Nat.exists_eq_succ_of_ne_zero (Nat.ne_of_gt (Nat.lt_of_lt_of_le
      (Nat.succ_pos rest.length) hturns))
    have hnone : tripletAt (before ++ run ++ percent :: rest) (before ++ run).length = none := by
      rw [tripletAt_drop, List.drop_left, hstray]
    rw [normalizeFrom_skip (getElem?_middle _ _ percent) (by rw [if_pos rfl, hnone]),
      length_shift before run percent, append_shift]
    rw [append_shift] at hvalid hcopied
    rw [ih hvalid hcopied (Nat.le_of_succ_le_succ hturns) out, normal_stray hstray]
    simp
  | triplet high low octet after hoctet ih =>
    simp only [List.length_cons] at hturns
    obtain ⟨turns, rfl⟩ := Nat.exists_eq_succ_of_ne_zero (by omega : turns ≠ 0)
    have hrun := slice_middle hcopied
      (boundary_before (before ++ run) (high :: low :: after) (by decide))
    have hsome : tripletAt (before ++ run ++ percent :: high :: low :: after)
        (before ++ run).length = some octet := by
      rw [tripletAt_drop, List.drop_left, tripletAt_cons, hoctet]
    have hover : before ++ run ++ percent :: high :: low :: after =
        (before ++ run ++ [percent, high]) ++ [low] ++ after := by
      simp
    have hplace : (before ++ run).length + 3 =
        ((before ++ run ++ [percent, high]) ++ [low]).length := by
      simp [Nat.add_assoc]
    have hwritten : (if isUnreserved octet then Utf8.encode [asciiChar octet]
        else triplet octet) = written octet := rfl
    rw [normalizeFrom, getElem?_middle]
    simp only [if_true, hsome, hrun, Option.bind_eq_bind, Option.bind_some, hwritten]
    rw [hover] at hvalid ⊢
    rw [hplace]
    have hrest := @ih ((before ++ run ++ [percent, high]) ++ [low]) []
    simp only [List.append_nil] at hrest
    rw [hrest hvalid (boundary_after (octetOf_ascii hoctet).2.1 hvalid) (by omega),
      normal_triplet hoctet]
    simp

theorem normal_append {run : List UInt8} (hrun : ∀ byte ∈ run, byte ≠ percent)
    (rest : List UInt8) : normal (run ++ rest) = run ++ normal rest := by
  induction run with
  | nil => rfl
  | cons byte run ih =>
    rw [List.cons_append, normal_plain (hrun byte List.mem_cons_self),
      ih fun other hother => hrun other (List.mem_cons_of_mem byte hother)]
    rfl

theorem findIdx?_percent (text : List UInt8) :
    text.findIdx? (· == percent) = EncodeSet.first (· != percent) text := by
  unfold EncodeSet.first
  congr 1
  funext byte
  simp [bne]

theorem normalize_eq {text : List UInt8} (hvalid : IsUtf8 text) :
    normalize text = some (normal text) := by
  unfold normalize
  rw [findIdx?_percent]
  cases hfirst : EncodeSet.first (· != percent) text with
  | none =>
    have hplain : ∀ byte ∈ text, byte ≠ percent := by simpa using first_none hfirst
    have hsame := normal_append hplain []
    rw [normal_nil, List.append_nil] at hsame
    simp only [hsame]
  | some first =>
    obtain ⟨run, byte, after, rfl, rfl, hrun, hbyte⟩ := first_some hfirst
    have hplain : ∀ byte ∈ run, byte ≠ percent := by simpa using hrun
    have hopen : byte = percent := by simpa using hbyte
    subst hopen
    have hstart := boundary_before run after (by decide : percent < 0x80)
    have hslice := @slice_middle [] run (percent :: after) (boundary_zero _) hstart
    have hfrom := @normalizeFrom_eq run [] (percent :: after) (by rwa [List.append_nil])
      (by rwa [List.append_nil]) (run ++ percent :: after).length
      (by rw [List.length_append]; exact Nat.le_add_left _ _) run
    simp only [List.append_nil] at hfrom
    simp only [List.nil_append, List.length_nil] at hslice
    simp only [hslice, Option.bind_eq_bind, Option.bind_some, hfrom, normal_append hplain]

/-! ### The laws of the coders -/

/-- A stray `%` opens no triplet of the normal form but one in normal form. -/
def Settled (text : List UInt8) : Prop :=
  AtPercents (fun rest => tripletAt (percent :: rest) 0 = none →
    ∀ out, normalize rest = some out → NormalAt out) text

theorem isUtf8_after_percent {text rest : List UInt8} (hvalid : IsUtf8 text)
    (hrest : percent :: rest <:+ text) : IsUtf8 rest := by
  obtain ⟨before, rfl⟩ := hrest
  have hhere : IsUtf8 ([percent] ++ rest) := (hvalid.cut (by decide)).2
  exact hhere.rest (isUtf8_ascii (by decide))

theorem settled_iff {text : List UInt8} (hvalid : IsUtf8 text) :
    Settled text ↔ AtPercents SettledAt text := by
  refine forall₂_congr fun rest hrest => ?_
  simp [SettledAt, normalize_eq (isUtf8_after_percent hvalid hrest)]

theorem predefined_ascii : ∀ set ∈ predefined, ∀ byte, set byte → byte < 0x80 := by
  have hall : (predefined.all fun set => decide (∀ byte, set byte → byte < 0x80)) = true := by
    decide +kernel
  intro set hset
  exact of_decide_eq_true (List.all_eq_true.mp hall set hset)

/-- The encoder and the decoders are inverse; the decoder that works in place agrees with the one
that copies; normalization is idempotent on exactly the settled texts, a text each of whose `%`
opens a triplet among them; and it keeps what such a text stands for, as it forgets how it is
spelled. -/
theorem coding_laws :
    (∀ text, IsUtf8 text → ∀ set ∈ predefined, ∃ out, encode text set = some out ∧ IsUtf8 out ∧
      (set percent = false → decode out = some (.ok text))) ∧
    (∀ text, IsUtf8 text → ∃ result, decodeInPlace text = some result ∧
      decode text = some (result.map fun decoded => decoded.1.take decoded.2)) ∧
    (∀ text, IsUtf8 text → ∃ out again, normalize text = some out ∧ normalize out = some again ∧
      IsUtf8 out ∧ (again = out ↔ Settled text) ∧ (Paired text → Settled text)) ∧
    (∀ text, IsUtf8 text → Paired text → ∃ out, normalize text = some out ∧
      decode out = decode text) ∧
    ∀ text other, IsUtf8 text → IsUtf8 other → Spelling text other →
      normalize text = normalize other := by
  refine ⟨fun text hvalid set hset => ?_, fun text hvalid => ?_, fun text hvalid => ?_,
    fun text hvalid hpaired => ?_, fun text other hvalid hother hspelling => ?_⟩
  · have hascii := predefined_ascii set hset
    have hout := encoded_isUtf8 hascii text
    refine ⟨_, encode_eq hascii hvalid, hout, fun hpercent => ?_⟩
    rw [decode_eq hout, scan_encoded hpercent]
    exact congrArg some (fromUtf8_valid hvalid)
  · obtain ⟨result, hresult, hdecoded⟩ := decodeInPlace_eq text
    exact ⟨result, hresult, by rw [decode_eq hvalid, hdecoded]⟩
  · have hout := rewrite_isUtf8 written written_isUtf8 hvalid
    refine ⟨_, _, normalize_eq hvalid, normalize_eq hout, hout, ?_, fun hpaired => ?_⟩
    · rw [normal_eq_iff, settled_iff hvalid, ← normal_normal_iff]
    · exact (settled_iff hvalid).mpr hpaired.settled
  · have hout := rewrite_isUtf8 written written_isUtf8 hvalid
    refine ⟨_, normalize_eq hvalid, ?_⟩
    rw [decode_eq hvalid, scan_paired 0 hpaired]
    have hnormal := scan_paired 0 (paired_normal hpaired)
    rw [octets_normal hpaired] at hnormal
    rw [← hnormal]
    exact decode_eq hout
  · rw [normalize_eq hvalid, normalize_eq hother, hspelling.normal_eq]

/-- `%%34%31` becomes `%41`, which becomes `A`. -/
theorem normalize_twice_differs :
    IsUtf8 [0x25, 0x25, 0x33, 0x34, 0x25, 0x33, 0x31] ∧
      normalize [0x25, 0x25, 0x33, 0x34, 0x25, 0x33, 0x31] = some [0x25, 0x34, 0x31] ∧
      normalize [0x25, 0x34, 0x31] = some [0x41] := by
  refine ⟨isUtf8_of_ascii (by decide +kernel), by decide +kernel, by decide +kernel⟩

end Purrdf.Percent
