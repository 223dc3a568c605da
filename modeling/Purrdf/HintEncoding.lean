import Mathlib.Algebra.GroupWithZero.Nat
import Mathlib.Data.List.Sort

/-!
# Hint strings

The hint vector of a signature, as a byte string: the places of the ones, row after row, zeros up
to a fixed length, and for each row the count of the ones in all rows up to it. An index outside
its slice is a failure of the whole computation, apart from the errors that are returned.
-/

namespace Purrdf.MlDsa

abbrev Poly := Vector Int 256

inductive Error
  | invalidPublicKey
  | invalidSecretKey
  | invalidSignature
  | contextTooLong
  | samplingExhausted
  | nonceExhausted
deriving DecidableEq

def k : Nat := 6

def omega : Nat := 55

def zeros : Poly :=
  Vector.replicate 256 0

def slice (bytes : List UInt8) (start stop : Nat) : Option (List UInt8) :=
  if start ≤ stop ∧ stop ≤ bytes.length then some ((bytes.drop start).take (stop - start)) else none

def store (bytes : List UInt8) (index : Nat) (byte : UInt8) : Option (List UInt8) :=
  if index < bytes.length then some (bytes.set index byte) else none

/-! ### Decoding -/

def descends (positions : List UInt8) : Bool :=
  (positions.zip positions.tail).any fun pair => pair.2 ≤ pair.1

def mark : Poly → List UInt8 → Option Poly
  | poly, [] => some poly
  | poly, position :: positions =>
    if h : position.toNat < 256 then mark (poly.set position.toNat 1 h) positions else none

def decodeRows (bytes : List UInt8) :
    Nat → List Poly → List UInt8 → Option (Except Error (List Poly × Nat))
  | index, poly :: polys, last :: ends =>
    if last.toNat < index ∨ omega < last.toNat then some (.error .invalidSignature)
    else (slice bytes index last.toNat).bind fun positions =>
      if descends positions then some (.error .invalidSignature)
      else (mark poly positions).bind fun poly =>
        (decodeRows bytes last.toNat polys ends).map fun rest =>
          rest.map fun decoded => (poly :: decoded.1, decoded.2)
  | index, polys, _ => some (.ok (polys, index))

/-- Nothing but zeros stands behind the last position. -/
def checkPadding (bytes : List UInt8) (decoded : List Poly × Nat) :
    Option (Except Error (List Poly)) :=
  (slice bytes decoded.2 omega).map fun padding =>
    if padding.any (· != 0) then .error .invalidSignature else .ok decoded.1

def hintsDecode (bytes : List UInt8) : Option (Except Error (List Poly)) :=
  (slice bytes omega bytes.length).bind fun ends =>
    (decodeRows bytes 0 (List.replicate k zeros) ends).bind fun decoded =>
      match decoded with
      | .error error => some (.error error)
      | .ok decoded => checkPadding bytes decoded

def encodeRow : Nat → List Int → List UInt8 → Nat → Option (List UInt8 × Nat)
  | _, [], bytes, index => some (bytes, index)
  | position, hint :: poly, bytes, index =>
    if hint ≠ 0 then
      (store bytes index (UInt8.ofNat position)).bind fun bytes =>
        encodeRow (position + 1) poly bytes (index + 1)
    else encodeRow (position + 1) poly bytes index

def encodeRows : Nat → List Poly → List UInt8 → Nat → Option (List UInt8)
  | _, [], bytes, _ => some bytes
  | row, poly :: hints, bytes, index =>
    (encodeRow 0 poly.toList bytes index).bind fun written =>
      (store written.1 (omega + row) (UInt8.ofNat written.2)).bind fun bytes =>
        encodeRows (row + 1) hints bytes written.2

def hintsEncode (hints : List Poly) (bytes : List UInt8) : Option (List UInt8) :=
  encodeRows 0 hints (bytes.map fun _ => 0) 0

def ones (hints : List Poly) : Nat :=
  (hints.map fun poly => poly.toList.count 1).sum

structure HintVector (hints : List Poly) : Prop where
  rows : hints.length = k
  binary : ∀ poly ∈ hints, ∀ coefficient ∈ poly.toList, coefficient = 0 ∨ coefficient = 1
  light : ones hints ≤ omega

/-! ### Positions -/

def positionsFrom : Nat → List Int → List UInt8
  | _, [] => []
  | position, hint :: poly =>
    if hint ≠ 0 then UInt8.ofNat position :: positionsFrom (position + 1) poly
    else positionsFrom (position + 1) poly

def positions (poly : Poly) : List UInt8 :=
  positionsFrom 0 poly.toList

def polyOf (positions : List UInt8) : Poly :=
  Vector.ofFn fun place => if UInt8.ofNat place.val ∈ positions then 1 else 0

theorem mem_positionsFrom {start : Nat} {poly : List Int} (hfits : start + poly.length ≤ 256)
    (byte : UInt8) : byte ∈ positionsFrom start poly ↔
      ∃ place hint, poly[place]? = some hint ∧ hint ≠ 0 ∧ byte = UInt8.ofNat (start + place) := by
  induction poly generalizing start with
  | nil => simp [positionsFrom]
  | cons hint poly ih =>
    have hrest : start + 1 + poly.length ≤ 256 := by
      rw [List.length_cons] at hfits
      omega
    have htail : byte ∈ positionsFrom (start + 1) poly ↔
        ∃ place other, (hint :: poly)[place + 1]? = some other ∧ other ≠ 0 ∧
          byte = UInt8.ofNat (start + (place + 1)) := by
      rw [ih hrest]
      simp only [List.getElem?_cons_succ, Nat.add_assoc, Nat.add_comm 1]
    have hsplit : (∃ place other, (hint :: poly)[place]? = some other ∧ other ≠ 0 ∧
        byte = UInt8.ofNat (start + place)) ↔ (hint ≠ 0 ∧ byte = UInt8.ofNat start) ∨
          byte ∈ positionsFrom (start + 1) poly := by
      rw [htail]
      constructor
      · rintro ⟨place, other, hplace, hother⟩
        cases place with
        | zero =>
          obtain rfl : hint = other := by simpa using hplace
          exact Or.inl hother
        | succ place => exact Or.inr ⟨place, other, hplace, hother⟩
      · rintro (hhint | ⟨place, other, hplace⟩)
        · exact ⟨0, hint, rfl, hhint⟩
        · exact ⟨place + 1, other, hplace⟩
    rw [hsplit, positionsFrom]
    by_cases hhint : hint ≠ 0
    · simp [hhint]
    · simp [hhint]

theorem positionsFrom_ascend {start : Nat} {poly : List Int} (hfits : start + poly.length ≤ 256) :
    (positionsFrom start poly).Pairwise (· < ·) := by
  induction poly generalizing start with
  | nil => exact List.Pairwise.nil
  | cons hint poly ih =>
    have hrest : start + 1 + poly.length ≤ 256 := by
      rw [List.length_cons] at hfits
      omega
    rw [positionsFrom]
    split
    · refine List.pairwise_cons.mpr ⟨?_, ih hrest⟩
      intro byte hbyte
      obtain ⟨place, other, hplace, -, rfl⟩ := (mem_positionsFrom hrest byte).mp hbyte
      have hinside := (List.getElem?_eq_some_iff.mp hplace).1
      rw [UInt8.lt_iff_toNat_lt, UInt8.toNat_ofNat_of_lt' (show start < 2 ^ 8 by omega),
        UInt8.toNat_ofNat_of_lt' (show start + 1 + place < 2 ^ 8 by omega)]
      omega
    · exact ih hrest

theorem length_positionsFrom {start : Nat} {poly : List Int}
    (hbinary : ∀ coefficient ∈ poly, coefficient = 0 ∨ coefficient = 1) :
    (positionsFrom start poly).length = poly.count 1 := by
  induction poly generalizing start with
  | nil => rfl
  | cons hint poly ih =>
    have hrest := @ih (start + 1) fun coefficient hc => hbinary coefficient (by simp [hc])
    rcases hbinary hint (by simp) with rfl | rfl
    · simp [positionsFrom, hrest]
    · simp [positionsFrom, hrest]

theorem positions_ascend (poly : Poly) : (positions poly).Pairwise (· < ·) :=
  positionsFrom_ascend (by simp)

theorem toNat_place {place : Nat} (hplace : place < 256) : (UInt8.ofNat place).toNat = place :=
  UInt8.toNat_ofNat_of_lt' hplace

theorem mem_positions (poly : Poly) {place : Nat} (hplace : place < 256) :
    UInt8.ofNat place ∈ positions poly ↔ poly[place] ≠ 0 := by
  unfold positions
  rw [mem_positionsFrom (by simp)]
  constructor
  · rintro ⟨other, hint, hother, hhint, hsame⟩
    obtain ⟨hinside, rfl⟩ := List.getElem?_eq_some_iff.mp hother
    have hlow : other < 256 := by simpa using hinside
    have hbytes := congrArg UInt8.toNat hsame
    rw [Nat.zero_add, toNat_place hplace, toNat_place hlow] at hbytes
    simpa [hbytes] using hhint
  · intro hhint
    exact ⟨place, poly[place], by simp [hplace], hhint, by rw [Nat.zero_add]⟩

theorem positions_polyOf {places : List UInt8} (hascend : places.Pairwise (· < ·)) :
    positions (polyOf places) = places := by
  apply List.Pairwise.eq_of_mem_iff (positions_ascend _) hascend
  intro byte
  have hmem := mem_positions (polyOf places) byte.toNat_lt
  simpa [polyOf] using hmem

theorem polyOf_positions {poly : Poly}
    (hbinary : ∀ coefficient ∈ poly.toList, coefficient = 0 ∨ coefficient = 1) :
    polyOf (positions poly) = poly := by
  ext place hplace
  have hmem := mem_positions poly hplace
  simp only [polyOf, Vector.getElem_ofFn, hmem]
  rcases hbinary poly[place] (by simp) with hzero | hone
  · simp [hzero]
  · simp [hone]

theorem polyOf_binary (places : List UInt8) :
    ∀ coefficient ∈ (polyOf places).toList, coefficient = 0 ∨ coefficient = 1 := by
  intro coefficient hcoefficient
  obtain ⟨place, hplace, rfl⟩ := List.getElem_of_mem hcoefficient
  simp only [polyOf, Vector.getElem_toList, Vector.getElem_ofFn]
  split <;> simp

/-! ### The layout -/

def endsFrom : Nat → List (List UInt8) → List UInt8
  | _, [] => []
  | index, places :: rows =>
    UInt8.ofNat (index + places.length) :: endsFrom (index + places.length) rows

def layout (rows : List (List UInt8)) : List UInt8 :=
  rows.flatten ++ List.replicate (omega - rows.flatten.length) 0 ++ endsFrom 0 rows

@[simp] theorem length_endsFrom (index : Nat) (rows : List (List UInt8)) :
    (endsFrom index rows).length = rows.length := by
  induction rows generalizing index with
  | nil => rfl
  | cons places rows ih => simp [endsFrom, ih]

theorem descends_eq_false (places : List UInt8) :
    descends places = false ↔ places.Pairwise (· < ·) := by
  rw [← List.isChain_iff_pairwise]
  induction places with
  | nil => simp [descends]
  | cons place places ih =>
    cases places with
    | nil => simp [descends]
    | cons next places =>
      rw [List.isChain_cons_cons, ← ih]
      simp [descends]

theorem mark_eq (poly : Poly) (places : List UInt8) : mark poly places =
    some (Vector.ofFn fun place =>
      if UInt8.ofNat place.val ∈ places then 1 else poly[place.val]) := by
  induction places generalizing poly with
  | nil =>
    simp only [mark, List.not_mem_nil, if_false, Option.some.injEq]
    ext place hplace
    simp
  | cons first places ih =>
    rw [mark, dif_pos first.toNat_lt, ih, Option.some.injEq]
    ext place hplace
    simp only [Vector.getElem_ofFn, List.mem_cons, Vector.getElem_set]
    have hbyte : UInt8.ofNat place = first ↔ first.toNat = place := by
      rw [← UInt8.toNat_inj, toNat_place hplace]
      exact eq_comm
    by_cases hmem : UInt8.ofNat place ∈ places
    · simp [hmem]
    · simp [hmem, hbyte]

theorem mark_zeros (places : List UInt8) : mark zeros places = some (polyOf places) := by
  rw [mark_eq, polyOf]
  simp [zeros]

/-! ### Reading a layout -/

theorem slice_append (used places rest : List UInt8) :
    slice (used ++ places ++ rest) used.length (used.length + places.length) = some places := by
  unfold slice
  rw [if_pos (by simp), List.append_assoc, List.drop_left, Nat.add_sub_cancel_left, List.take_left]

theorem slice_split {bytes : List UInt8} {start stop : Nat} (horder : start ≤ stop)
    (hinside : stop ≤ bytes.length) : ∃ used places rest, bytes = used ++ places ++ rest ∧
      used.length = start ∧ start + places.length = stop ∧ slice bytes start stop = some places := by
  refine ⟨bytes.take start, (bytes.drop start).take (stop - start),
    (bytes.drop start).drop (stop - start), ?_, ?_, ?_, if_pos ⟨horder, hinside⟩⟩
  · rw [List.append_assoc, List.take_append_drop, List.take_append_drop]
  · simp
    omega
  · simp
    omega

theorem decodeRows_layout {rows : List (List UInt8)}
    (hascend : ∀ places ∈ rows, places.Pairwise (· < ·)) (used rest : List UInt8)
    (hfits : used.length + rows.flatten.length ≤ omega) :
    decodeRows (used ++ rows.flatten ++ rest) used.length (List.replicate rows.length zeros)
      (endsFrom used.length rows) =
        some (.ok (rows.map polyOf, used.length + rows.flatten.length)) := by
  induction rows generalizing used with
  | nil => rfl
  | cons places rows ih =>
    have hrest := ih (fun other hother => hascend other (by simp [hother])) (used ++ places)
    simp only [List.flatten_cons, List.length_append] at hfits hrest ⊢
    have hlast : (UInt8.ofNat (used.length + places.length)).toNat = used.length + places.length :=
      toNat_place (by unfold omega at hfits; omega)
    have hplaces := slice_append used places (rows.flatten ++ rest)
    have hsame : used ++ (places ++ rows.flatten) ++ rest =
        used ++ places ++ (rows.flatten ++ rest) := by
      simp [List.append_assoc]
    rw [List.length_cons, List.replicate_succ, endsFrom, decodeRows, hlast, if_neg (by omega),
      hsame, hplaces, Option.bind_some, (descends_eq_false places).mpr (hascend places (by simp)),
      if_neg (by simp), mark_zeros, Option.bind_some, ← List.append_assoc,
      hrest (by omega)]
    simp [Except.map, Nat.add_assoc]

structure Accepted (bytes : List UInt8) (index : Nat) (ends : List UInt8)
    (decoded : List Poly × Nat) (rows : List (List UInt8)) (used rest : List UInt8) : Prop where
  count : rows.length = ends.length
  ascend : ∀ places ∈ rows, places.Pairwise (· < ·)
  hints : decoded.1 = rows.map polyOf
  last : decoded.2 = index + rows.flatten.length
  fits : decoded.2 ≤ omega
  ends : ends = endsFrom index rows
  behind : used.length = index
  bytes : bytes = used ++ rows.flatten ++ rest

theorem decodeRows_spec {bytes : List UInt8} (hlong : omega ≤ bytes.length) {index : Nat}
    (hindex : index ≤ omega) (ends : List UInt8) :
    ∃ decoded, decodeRows bytes index (List.replicate ends.length zeros) ends = some decoded ∧
      ∀ result, decoded = .ok result →
        ∃ rows used rest, Accepted bytes index ends result rows used rest := by
  induction ends generalizing index with
  | nil =>
    refine ⟨_, rfl, ?_⟩
    rintro result hresult
    obtain rfl := Except.ok.inj hresult
    refine ⟨[], bytes.take index, bytes.drop index, rfl, by simp, rfl, rfl, hindex, rfl, ?_, ?_⟩
    · simp
      omega
    · simp
  | cons last ends ih =>
    rw [List.length_cons, List.replicate_succ, decodeRows]
    by_cases hrange : last.toNat < index ∨ omega < last.toNat
    · rw [if_pos hrange]
      exact ⟨_, rfl, fun result hresult => by cases hresult⟩
    · rw [if_neg hrange]
      obtain ⟨used, places, rest, hbytes, hused, hplaces, hslice⟩ :=
        @slice_split bytes index last.toNat (by omega) (by omega)
      rw [hslice, Option.bind_some]
      by_cases hdescends : descends places = true
      · rw [if_pos hdescends]
        exact ⟨_, rfl, fun result hresult => by cases hresult⟩
      · rw [if_neg hdescends, mark_zeros, Option.bind_some]
        have hascends := (descends_eq_false places).mp (Bool.not_eq_true _ ▸ hdescends)
        obtain ⟨decoded, hdecoded, haccepted⟩ := @ih last.toNat (by omega)
        rw [hdecoded]
        refine ⟨_, rfl, ?_⟩
        intro result hresult
        cases decoded with
        | error error => cases hresult
        | ok inner =>
          obtain rfl := Except.ok.inj hresult
          obtain ⟨rows, before, behind, haccepted⟩ := haccepted inner rfl
          have hbefore : before = used ++ places ∧ rows.flatten ++ behind = rest := by
            have hsame := haccepted.bytes.symm.trans hbytes
            rw [List.append_assoc] at hsame
            exact List.append_inj hsame (by rw [haccepted.behind, List.length_append]; omega)
          refine ⟨places :: rows, used, behind, ?_, ?_, ?_, ?_, haccepted.fits, ?_, hused, ?_⟩
          · simp [haccepted.count]
          · rintro other hother
            rcases List.mem_cons.mp hother with rfl | hmore
            · exact hascends
            · exact haccepted.ascend other hmore
          · simp [haccepted.hints]
          · simp [haccepted.last]
            omega
          · rw [endsFrom, hplaces, haccepted.ends]
            simp
          · rw [haccepted.bytes, hbefore.1, List.flatten_cons]
            simp [List.append_assoc]

theorem layout_length {rows : List (List UInt8)} (hcount : rows.length = k)
    (hfits : rows.flatten.length ≤ omega) : (layout rows).length = omega + k := by
  simp only [layout, List.length_append, List.length_replicate, length_endsFrom, hcount]
  omega

theorem hintsDecode_layout {rows : List (List UInt8)} (hcount : rows.length = k)
    (hascend : ∀ places ∈ rows, places.Pairwise (· < ·)) (hfits : rows.flatten.length ≤ omega) :
    hintsDecode (layout rows) = some (.ok (rows.map polyOf)) := by
  have hfront : (rows.flatten ++ List.replicate (omega - rows.flatten.length) 0).length =
      omega := by
    simp only [List.length_append, List.length_replicate]
    omega
  have hends : slice (layout rows) omega (layout rows).length = some (endsFrom 0 rows) := by
    have hslice := slice_append (rows.flatten ++ List.replicate (omega - rows.flatten.length) 0)
      (endsFrom 0 rows) []
    rw [hfront, List.append_nil, length_endsFrom, hcount] at hslice
    rw [layout_length hcount hfits]
    exact hslice
  have hrows := decodeRows_layout hascend []
    (List.replicate (omega - rows.flatten.length) 0 ++ endsFrom 0 rows) (by simpa using hfits)
  have hpadding := slice_append rows.flatten
    (List.replicate (omega - rows.flatten.length) 0) (endsFrom 0 rows)
  rw [List.length_replicate, Nat.add_sub_cancel' hfits] at hpadding
  simp only [List.nil_append, List.length_nil, Nat.zero_add, ← List.append_assoc] at hrows
  rw [hcount] at hrows
  unfold hintsDecode
  rw [hends, Option.bind_some, layout, hrows, Option.bind_some]
  simp only [checkPadding, hpadding, Option.map_some]
  rw [if_neg (by simp)]

theorem hintsDecode_spec {bytes : List UInt8} (hlength : bytes.length = omega + k) :
    ∃ decoded, hintsDecode bytes = some decoded ∧ ∀ hints, decoded = .ok hints →
      ∃ rows : List (List UInt8), rows.length = k ∧
        (∀ places ∈ rows, places.Pairwise (· < ·)) ∧ rows.flatten.length ≤ omega ∧
        hints = rows.map polyOf ∧ bytes = layout rows := by
  obtain ⟨front, ends, none, hbytes, hfront, hends, hslice⟩ :=
    @slice_split bytes omega bytes.length (by omega) (Nat.le_refl _)
  have hcount : ends.length = k := by omega
  have hnone : none = [] := by
    have htotal := congrArg List.length hbytes
    simp only [List.length_append] at htotal
    exact List.length_eq_zero_iff.mp (by omega)
  obtain ⟨decoded, hdecoded, haccepted⟩ :=
    @decodeRows_spec bytes (by omega) 0 (Nat.zero_le _) ends
  rw [hcount] at hdecoded
  unfold hintsDecode
  rw [hslice, Option.bind_some, hdecoded, Option.bind_some]
  cases decoded with
  | error error => exact ⟨_, rfl, fun hints hhints => by cases hhints⟩
  | ok result =>
    obtain ⟨rows, used, rest, haccepted⟩ := haccepted result rfl
    obtain rfl := List.length_eq_zero_iff.mp haccepted.behind
    have hlast : result.2 = rows.flatten.length := by
      rw [haccepted.last, Nat.zero_add]
    obtain ⟨before, padding, behind, hsplit, hbefore, hpadding, hpadded⟩ :=
      @slice_split bytes result.2 omega haccepted.fits (by omega)
    have hparts : before = rows.flatten ∧ padding ++ behind = rest := by
      have hsame := hsplit.symm.trans haccepted.bytes
      rw [List.append_assoc, List.nil_append] at hsame
      exact List.append_inj hsame (hbefore.trans hlast)
    have hbehind : behind = ends := by
      have hsame := hsplit.symm.trans hbytes
      rw [hnone, List.append_nil] at hsame
      refine (List.append_inj hsame ?_).2
      rw [List.length_append, hfront]
      omega
    simp only [checkPadding, hpadded, Option.map_some]
    refine ⟨_, rfl, ?_⟩
    intro hints hhints
    split at hhints
    · cases hhints
    · rename_i hzeros
      obtain rfl := Except.ok.inj hhints
      have hpad : padding = List.replicate (omega - rows.flatten.length) 0 := by
        refine List.eq_replicate_iff.mpr ⟨by omega, ?_⟩
        intro byte hbyte
        simpa using fun hne => hzeros (List.any_eq_true.mpr ⟨byte, hbyte, hne⟩)
      refine ⟨rows, haccepted.count.trans hcount, haccepted.ascend, hlast ▸ haccepted.fits,
        haccepted.hints, ?_⟩
      rw [hsplit, layout, hparts.1, hpad, hbehind, haccepted.ends]

theorem store_append (used : List UInt8) (old byte : UInt8) (rest : List UInt8) :
    store (used ++ old :: rest) used.length byte = some (used ++ byte :: rest) := by
  simp [store]

theorem encodeRow_eq (start : Nat) (poly : List Int) (used old rest : List UInt8)
    (hcount : old.length = (positionsFrom start poly).length) :
    encodeRow start poly (used ++ old ++ rest) used.length =
      some (used ++ positionsFrom start poly ++ rest, used.length + old.length) := by
  induction poly generalizing start used old with
  | nil =>
    obtain rfl := List.length_eq_zero_iff.mp hcount
    simp [encodeRow, positionsFrom]
  | cons hint poly ih =>
    rw [encodeRow, positionsFrom]
    rw [positionsFrom] at hcount
    by_cases hhint : hint ≠ 0
    · rw [if_pos hhint] at hcount ⊢
      obtain ⟨first, old, rfl⟩ := List.exists_cons_of_length_eq_add_one hcount
      have hnext := ih (start + 1) (used ++ [UInt8.ofNat start]) old (by simpa using hcount)
      rw [if_pos hhint, List.append_assoc, List.cons_append, store_append, Option.bind_some]
      simp only [List.append_assoc, List.length_append, List.length_cons, List.length_nil,
        Nat.zero_add, List.cons_append, List.nil_append] at hnext ⊢
      rw [hnext]
      simp [Nat.add_assoc, Nat.add_comm 1]
    · rw [if_neg hhint] at hcount ⊢
      rw [if_neg hhint]
      exact ih (start + 1) used old hcount

theorem encodeRows_eq (hints : List Poly) (used written : List UInt8)
    (hfits : used.length + (hints.map positions).flatten.length ≤ omega) :
    encodeRows written.length hints (used ++ List.replicate (omega - used.length) 0 ++
      (written ++ List.replicate hints.length 0)) used.length =
        some (used ++ (hints.map positions).flatten ++
          List.replicate (omega - (used.length + (hints.map positions).flatten.length)) 0 ++
          (written ++ endsFrom used.length (hints.map positions))) := by
  induction hints generalizing used written with
  | nil => simp [encodeRows, endsFrom]
  | cons poly hints ih =>
    simp only [List.map_cons, List.flatten_cons, List.length_append] at hfits
    generalize hplaces : positions poly = places at hfits
    have hfree : List.replicate (omega - used.length) (0 : UInt8) =
        List.replicate places.length 0 ++
          List.replicate (omega - (used.length + places.length)) 0 := by
      rw [List.replicate_append_replicate]
      congr 1
      omega
    have hrow := encodeRow_eq 0 poly.toList used (List.replicate places.length 0)
      (List.replicate (omega - (used.length + places.length)) 0 ++
        (written ++ List.replicate (poly :: hints).length 0)) (by
          rw [List.length_replicate, ← hplaces]
          rfl)
    have hfront : (used ++ places ++
        List.replicate (omega - (used.length + places.length)) 0 ++ written).length =
          omega + written.length := by
      simp only [List.length_append, List.length_replicate]
      omega
    have hstored := store_append (used ++ places ++
      List.replicate (omega - (used.length + places.length)) 0 ++ written) 0
        (UInt8.ofNat (used.length + places.length)) (List.replicate hints.length 0)
    have hnext := ih (used ++ places)
      (written ++ [UInt8.ofNat (used.length + places.length)]) (by
        rw [List.length_append]
        omega)
    rw [show positionsFrom 0 poly.toList = places from hplaces, List.length_replicate] at hrow
    rw [hfront] at hstored
    simp only [List.append_assoc, List.length_append, List.length_cons, List.length_nil,
      Nat.zero_add, List.replicate_succ, List.cons_append, List.nil_append] at hrow hstored hnext
    rw [encodeRows, hfree]
    simp only [List.append_assoc, List.length_cons, List.replicate_succ, List.map_cons, hplaces,
      List.flatten_cons, List.length_append, endsFrom]
    rw [hrow, Option.bind_some, hstored, Option.bind_some, hnext]
    simp [Nat.add_assoc]

theorem hintsEncode_eq (hints : List Poly) (hcount : hints.length = k)
    (hfits : (hints.map positions).flatten.length ≤ omega) {buffer : List UInt8}
    (hbuffer : buffer.length = omega + k) :
    hintsEncode hints buffer = some (layout (hints.map positions)) := by
  have hcleared : buffer.map (fun _ => (0 : UInt8)) =
      List.replicate omega 0 ++ List.replicate hints.length 0 := by
    rw [List.map_const', hbuffer, hcount, List.replicate_add]
  have hrows := encodeRows_eq hints [] [] (by simpa using hfits)
  simp only [List.nil_append, List.length_nil, Nat.sub_zero, Nat.zero_add] at hrows
  rw [hintsEncode, hcleared, hrows, layout]

theorem map_of_fixed {α : Type} {change : α → α} {items : List α}
    (hfixed : ∀ item ∈ items, change item = item) : items.map change = items := by
  induction items with
  | nil => rfl
  | cons item items ih =>
    rw [List.map_cons, hfixed item (by simp), ih fun other hother => hfixed other (by simp [hother])]

theorem ones_eq {hints : List Poly}
    (hbinary : ∀ poly ∈ hints, ∀ coefficient ∈ poly.toList, coefficient = 0 ∨ coefficient = 1) :
    (hints.map positions).flatten.length = ones hints := by
  unfold ones
  rw [List.length_flatten, List.map_map]
  congr 1
  apply List.map_congr_left
  intro poly hpoly
  exact length_positionsFrom (hbinary poly hpoly)

/-- A hint string has one spelling: an accepted string is what its hints are written as, and every
hint vector is read back from what it is written as. -/
theorem hints_canonical :
    (∀ bytes, bytes.length = omega + k → ∃ decoded, hintsDecode bytes = some decoded ∧
      ∀ hints, decoded = .ok hints → HintVector hints ∧
        ∀ buffer, buffer.length = omega + k → hintsEncode hints buffer = some bytes) ∧
    (∀ hints, HintVector hints → ∀ buffer, buffer.length = omega + k →
      ∃ bytes, hintsEncode hints buffer = some bytes ∧ bytes.length = omega + k ∧
        hintsDecode bytes = some (.ok hints)) ∧
    ∀ bytes other hints, bytes.length = omega + k → other.length = omega + k →
      hintsDecode bytes = some (.ok hints) → hintsDecode other = some (.ok hints) →
        bytes = other := by
  have hread : ∀ bytes, bytes.length = omega + k → ∃ decoded, hintsDecode bytes = some decoded ∧
      ∀ hints, decoded = .ok hints → HintVector hints ∧
        ∀ buffer, buffer.length = omega + k → hintsEncode hints buffer = some bytes := by
    intro bytes hlength
    obtain ⟨decoded, hdecoded, hok⟩ := hintsDecode_spec hlength
    refine ⟨decoded, hdecoded, ?_⟩
    rintro hints hhints
    obtain ⟨rows, hcount, hascend, hfits, rfl, rfl⟩ := hok hints hhints
    have hsame : (rows.map polyOf).map positions = rows := by
      rw [List.map_map, map_of_fixed]
      intro places hplaces
      rw [Function.comp_apply, positions_polyOf (hascend places hplaces)]
    have hbinary : ∀ poly ∈ rows.map polyOf, ∀ coefficient ∈ poly.toList,
        coefficient = 0 ∨ coefficient = 1 := by
      intro poly hpoly
      obtain ⟨places, -, rfl⟩ := List.mem_map.mp hpoly
      exact polyOf_binary places
    refine ⟨⟨by rw [List.length_map, hcount], hbinary, ?_⟩, ?_⟩
    · rw [← ones_eq hbinary, hsame]
      exact hfits
    · intro buffer hbuffer
      have hwritten := hintsEncode_eq (rows.map polyOf) (by rw [List.length_map, hcount])
        (by rw [hsame]; exact hfits) hbuffer
      rwa [hsame] at hwritten
  refine ⟨hread, ?_, ?_⟩
  · intro hints hvector buffer hbuffer
    have hfits : (hints.map positions).flatten.length ≤ omega := by
      rw [ones_eq hvector.binary]
      exact hvector.light
    have hcount : (hints.map positions).length = k := by
      rw [List.length_map, hvector.rows]
    have hback : (hints.map positions).map polyOf = hints := by
      rw [List.map_map, map_of_fixed]
      intro poly hpoly
      rw [Function.comp_apply, polyOf_positions (hvector.binary poly hpoly)]
    refine ⟨_, hintsEncode_eq hints hvector.rows hfits hbuffer, layout_length hcount hfits, ?_⟩
    rw [hintsDecode_layout hcount ?_ hfits, hback]
    intro places hplaces
    obtain ⟨poly, -, rfl⟩ := List.mem_map.mp hplaces
    exact positions_ascend poly
  · intro bytes other hints hlength hother hbytes hotherBytes
    obtain ⟨decoded, hdecoded, hok⟩ := hread bytes hlength
    obtain ⟨otherDecoded, hotherDecoded, hotherOk⟩ := hread other hother
    have hfirst := (hok hints (Option.some.inj (hdecoded.symm.trans hbytes))).2 bytes hlength
    have hsecond := (hotherOk hints
      (Option.some.inj (hotherDecoded.symm.trans hotherBytes))).2 bytes hlength
    exact Option.some.inj (hfirst.symm.trans hsecond)

end Purrdf.MlDsa
