import Purrdf.Lattice
import Purrdf.PackBits

/-!
# Packed coefficients

The 256 coefficients of a polynomial as a string of fixed-width fields, least significant bit
first. Both directions pass through an accumulator of 32 bits, and both are readings of one
number: the bytes are its digits in base 256, and the fields in base `2 ^ width`.
-/

namespace Purrdf.Lattice

open PackBits

def asU32 (value : Int) : Nat :=
  (value % 2 ^ 32).toNat

def shiftLeft (value amount : Nat) : Option Nat :=
  if amount < 32 then some (value <<< amount % 2 ^ 32) else none

/-- The field of a coefficient, or the coefficient of a field: both are taken from the upper bound
when there is one. -/
def field (upper : Option Int) (value : Int) : Option Int :=
  match upper with
  | none => some value
  | some bound => i32 (bound - value)

structure Packer where
  accumulator : Nat
  pending : Nat
  index : Nat
  out : List UInt8
deriving DecidableEq, Repr

def Packer.drain (packer : Packer) : Option Packer :=
  if _h : 8 ≤ packer.pending then
    if packer.index < packer.out.length then
      Packer.drain {
        accumulator := packer.accumulator >>> 8
        pending := packer.pending - 8
        index := packer.index + 1
        out := packer.out.set packer.index (UInt8.ofNat packer.accumulator) }
    else none
  else some packer
termination_by packer.pending

def Packer.push (width : Nat) (upper : Option Int) (packer : Packer) (coefficient : Int) :
    Option Packer := do
  let value ← field upper coefficient
  let shifted ← shiftLeft (asU32 value) packer.pending
  Packer.drain { packer with
    accumulator := packer.accumulator ||| shifted
    pending := packer.pending + width }

/-- The code asserts the size of the destination and the empty accumulator at the end. -/
def pack (poly : Poly) (width : Nat) (upper : Option Int) (out : List UInt8) :
    Option (List UInt8) := do
  guard (out.length = 256 * width / 8)
  let packer ← poly.toList.foldlM (Packer.push width upper) ⟨0, 0, 0, out⟩
  guard (packer.pending = 0)
  return packer.out

/-! ### Unpacking -/

structure Unpacker where
  accumulator : Nat
  pending : Nat
  index : Nat
deriving DecidableEq, Repr

/-- Bytes enter the accumulator until it holds a field. -/
def Unpacker.refill (bytes : List UInt8) (width : Nat) (unpacker : Unpacker) : Option Unpacker :=
  if _h : unpacker.pending < width then do
    let byte ← bytes[unpacker.index]?
    let shifted ← shiftLeft byte.toNat unpacker.pending
    Unpacker.refill bytes width {
      accumulator := unpacker.accumulator ||| shifted
      pending := unpacker.pending + 8
      index := unpacker.index + 1 }
  else some unpacker
termination_by width - unpacker.pending

def Unpacker.next (bytes : List UInt8) (width : Nat) (upper : Option Int) (unpacker : Unpacker) :
    Option (Int × Unpacker) := do
  let bit ← shiftLeft 1 width
  let filled ← unpacker.refill bytes width
  let coefficient ← field upper (asI32 (filled.accumulator &&& (bit - 1)))
  return (coefficient, {
    accumulator := filled.accumulator >>> width
    pending := filled.pending - width
    index := filled.index })

def Unpacker.take (bytes : List UInt8) (width : Nat) (upper : Option Int) :
    Nat → Unpacker → Option (List Int)
  | 0, _ => some []
  | count + 1, unpacker => do
    let (coefficient, unpacker) ← unpacker.next bytes width upper
    let coefficients ← Unpacker.take bytes width upper count unpacker
    return coefficient :: coefficients

def ofList (coefficients : List Int) : Poly :=
  Vector.ofFn fun place => coefficients.getD place 0

def unpack (bytes : List UInt8) (width : Nat) (upper : Option Int) : Option Poly := do
  guard (bytes.length = 256 * width / 8)
  let coefficients ← Unpacker.take bytes width upper 256 ⟨0, 0, 0⟩
  return ofList coefficients

/-! ### Fields -/

/-- Upper bounds that no field leaves 32 bits under. -/
def Bounded (upper : Option Int) : Prop :=
  ∀ bound ∈ upper, -2 ^ 30 ≤ bound ∧ bound < 2 ^ 30

def Packable (width : Nat) (upper : Option Int) (coefficient : Int) : Prop :=
  ∃ value : Nat, value < 2 ^ width ∧ upper.elim coefficient (· - coefficient) = value

structure FieldOf (width : Nat) (upper : Option Int) (coefficient : Int) (value : Nat) : Prop where
  lt : value < 2 ^ width
  there : field upper coefficient = some (value : Int)
  back : field upper value = some coefficient

theorem exists_field {width : Nat} {upper : Option Int} (hwidth : width ≤ 25)
    (hupper : Bounded upper) {coefficient : Int} (hpackable : Packable width upper coefficient) :
    ∃ value, FieldOf width upper coefficient value := by
  have hpow : 2 ^ width ≤ 2 ^ 25 := Nat.pow_le_pow_right (by decide) hwidth
  obtain ⟨value, hvalue, hsame⟩ := hpackable
  cases upper with
  | none =>
    obtain rfl : coefficient = value := hsame
    exact ⟨value, hvalue, rfl, rfl⟩
  | some bound =>
    obtain ⟨hlow, hhigh⟩ := hupper bound rfl
    have hthere : bound - coefficient = value := hsame
    have hback : bound - (value : Int) = coefficient := by omega
    refine ⟨value, hvalue, ?_, ?_⟩
    · rw [field, hthere]
      exact if_pos ⟨by omega, by omega⟩
    · rw [field, hback]
      exact if_pos ⟨by omega, by omega⟩

theorem exists_coefficient {width : Nat} {upper : Option Int} (hwidth : width ≤ 25)
    (hupper : Bounded upper) {value : Nat} (hvalue : value < 2 ^ width) :
    ∃ coefficient, FieldOf width upper coefficient value := by
  have hpow : 2 ^ width ≤ 2 ^ 25 := Nat.pow_le_pow_right (by decide) hwidth
  cases upper with
  | none => exact ⟨value, hvalue, rfl, rfl⟩
  | some bound =>
    obtain ⟨hlow, hhigh⟩ := hupper bound rfl
    refine ⟨bound - value, hvalue, ?_, if_pos ⟨by omega, by omega⟩⟩
    rw [field, sub_sub_cancel]
    exact if_pos ⟨by omega, by omega⟩

theorem FieldOf.packable {width : Nat} {upper : Option Int} {coefficient : Int} {value : Nat}
    (hfield : FieldOf width upper coefficient value) : Packable width upper coefficient := by
  refine ⟨value, hfield.lt, ?_⟩
  have hthere := hfield.there
  cases upper with
  | none => exact Option.some.inj hthere
  | some bound =>
    simp only [field, i32, Option.ite_none_right_eq_some] at hthere
    exact Option.some.inj hthere.2

def Spells (width : Nat) (upper : Option Int) : List Int → List Nat → Prop :=
  List.Forall₂ (FieldOf width upper)

theorem exists_spelling {width : Nat} {upper : Option Int} (hwidth : width ≤ 25)
    (hupper : Bounded upper) {coefficients : List Int}
    (hall : ∀ coefficient ∈ coefficients, Packable width upper coefficient) :
    ∃ values, Spells width upper coefficients values := by
  induction coefficients with
  | nil => exact ⟨[], .nil⟩
  | cons coefficient coefficients ih =>
    obtain ⟨value, hvalue⟩ := exists_field hwidth hupper (hall coefficient List.mem_cons_self)
    obtain ⟨values, hvalues⟩ := ih fun other hother => hall other (List.mem_cons_of_mem _ hother)
    exact ⟨value :: values, .cons hvalue hvalues⟩

theorem Spells.packable {width : Nat} {upper : Option Int} {coefficients : List Int}
    {values : List Nat} (hspells : Spells width upper coefficients values) :
    ∀ coefficient ∈ coefficients, Packable width upper coefficient := by
  induction hspells with
  | nil => simp
  | cons hfirst _ ih => simpa using ⟨hfirst.packable, ih⟩

theorem Spells.lt {width : Nat} {upper : Option Int} {coefficients : List Int}
    {values : List Nat} (hspells : Spells width upper coefficients values) :
    ∀ value ∈ values, value < 2 ^ width := by
  induction hspells with
  | nil => simp
  | cons hfirst _ ih => simpa using ⟨hfirst.lt, ih⟩

theorem Spells.unique {width : Nat} {upper : Option Int} {left right : List Int}
    {values : List Nat} (hleft : Spells width upper left values)
    (hright : Spells width upper right values) : left = right :=
  List.left_unique_forall₂' (fun _ _ _ h h' => Option.some.inj (h.back.symm.trans h'.back))
    hleft hright

theorem shiftLeft_eq {value amount : Nat} (hamount : amount < 32)
    (hvalue : value * 2 ^ amount < 2 ^ 32) : shiftLeft value amount = some (value * 2 ^ amount) := by
  rw [shiftLeft, if_pos hamount, Nat.shiftLeft_eq, Nat.mod_eq_of_lt hvalue]

theorem or_shifted {low high amount : Nat} (hlow : low < 2 ^ amount) :
    low ||| high * 2 ^ amount = low + high * 2 ^ amount := by
  rw [Nat.or_comm, Nat.mul_comm, ← Nat.two_pow_add_eq_or_of_lt hlow, Nat.add_comm]

theorem shifted_lt {low high amount width : Nat} (hlow : low < 2 ^ amount)
    (hhigh : high < 2 ^ width) : low + high * 2 ^ amount < 2 ^ (amount + width) := by
  rw [Nat.pow_add]
  calc low + high * 2 ^ amount < 2 ^ amount + high * 2 ^ amount := Nat.add_lt_add_right hlow _
    _ = (high + 1) * 2 ^ amount := by ring
    _ ≤ 2 ^ width * 2 ^ amount := Nat.mul_le_mul_right _ hhigh
    _ = 2 ^ amount * 2 ^ width := Nat.mul_comm _ _

theorem pow_bytes (index : Nat) : 256 ^ index = 2 ^ (8 * index) := by
  rw [Nat.pow_mul]

/-! ### The writer -/

structure Packer.Holds (width : Nat) (fields : List Nat) (size : Nat) (packer : Packer) : Prop where
  bits : 8 * packer.index + packer.pending = width * fields.length
  small : packer.accumulator < 2 ^ packer.pending
  value : leValue (packer.out.take packer.index) + 256 ^ packer.index * packer.accumulator =
    packValue width fields
  size : packer.out.length = size

theorem take_set (bytes : List UInt8) {index : Nat} (hindex : index < bytes.length) (byte : UInt8) :
    (bytes.set index byte).take (index + 1) = bytes.take index ++ [byte] := by
  rw [List.take_add_one, List.take_set_of_le (Nat.le_refl index), List.getElem?_set_self hindex]
  rfl

theorem Packer.Holds.drain {width size : Nat} {fields : List Nat} {packer : Packer}
    (hroom : width * fields.length ≤ 8 * size) (hholds : packer.Holds width fields size) :
    ∃ drained, packer.drain = some drained ∧ drained.Holds width fields size ∧
      drained.pending < 8 := by
  induction packer using Packer.drain.induct with
  | case1 packer hwhole hindex ih =>
    obtain ⟨hbits, hsmall, hvalue, hsize⟩ := hholds
    rw [Packer.drain, dif_pos hwhole, if_pos hindex]
    apply ih
    refine ⟨?_, ?_, ?_, ?_⟩
    · dsimp only
      omega
    · dsimp only
      rw [Nat.shiftRight_eq_div_pow, Nat.div_lt_iff_lt_mul (Nat.two_pow_pos 8), ← Nat.pow_add,
        Nat.sub_add_cancel hwhole]
      exact hsmall
    · dsimp only
      rw [take_set _ hindex, leValue_append, List.length_take, Nat.min_eq_left (by omega),
        Nat.shiftRight_eq_div_pow, ← hvalue]
      have hbyte : leValue [UInt8.ofNat packer.accumulator] = packer.accumulator % 256 := by
        simp [leValue]
      rw [hbyte, Nat.pow_succ, Nat.add_assoc, Nat.mul_assoc, ← Nat.mul_add]
      congr 2
      exact Nat.mod_add_div packer.accumulator 256
    · simpa using hsize
  | case2 packer hwhole hindex =>
    obtain ⟨hbits, -, -, hsize⟩ := hholds
    omega
  | case3 packer hpart =>
    rw [Packer.drain, dif_neg hpart]
    exact ⟨packer, rfl, hholds, by omega⟩

theorem Packer.Holds.push {width size : Nat} {upper : Option Int} {fields : List Nat}
    {packer : Packer} (hwidth : width ≤ 25) (hroom : width * (fields.length + 1) ≤ 8 * size)
    (hholds : packer.Holds width fields size) (hpending : packer.pending < 8) {coefficient : Int}
    {value : Nat} (hfieldOf : FieldOf width upper coefficient value) :
    ∃ next, packer.push width upper coefficient = some next ∧
      next.Holds width (fields ++ [value]) size ∧ next.pending < 8 := by
  obtain ⟨hbits, hsmall, hspelled, hsize⟩ := hholds
  have hvalue := hfieldOf.lt
  have hlast : value * 2 ^ packer.pending < 2 ^ 32 := by
    calc value * 2 ^ packer.pending < 2 ^ width * 2 ^ packer.pending :=
        Nat.mul_lt_mul_of_pos_right hvalue (Nat.two_pow_pos _)
      _ = 2 ^ (width + packer.pending) := (Nat.pow_add 2 width packer.pending).symm
      _ ≤ 2 ^ 32 := Nat.pow_le_pow_right (by decide) (by omega)
  have hword : asU32 (value : Int) = value := by
    have hpow : 2 ^ width ≤ 2 ^ 25 := Nat.pow_le_pow_right (by decide) hwidth
    unfold asU32
    omega
  have hnext : Packer.Holds width (fields ++ [value]) size {
      packer with
      accumulator := packer.accumulator ||| value * 2 ^ packer.pending
      pending := packer.pending + width } := by
    refine ⟨?_, ?_, ?_, hsize⟩
    · simp only [List.length_append, List.length_singleton, Nat.mul_add, Nat.mul_one]
      omega
    · dsimp only
      rw [or_shifted hsmall]
      exact shifted_lt hsmall hvalue
    · dsimp only
      rw [or_shifted hsmall, packValue_append, ← hspelled, ← hbits, Nat.pow_add, ← pow_bytes]
      simp only [packValue]
      ring
  obtain ⟨drained, hdrained, hheld, hless⟩ := hnext.drain (by simpa using hroom)
  refine ⟨drained, ?_, hheld, hless⟩
  rw [Packer.push, hfieldOf.there, Option.bind_eq_bind, Option.bind_some, hword,
    shiftLeft_eq (by omega) hlast]
  exact hdrained

theorem Packer.Holds.pushAll {width size : Nat} {upper : Option Int} (hwidth : width ≤ 25)
    {coefficients : List Int} {values : List Nat}
    (hfields : Spells width upper coefficients values)
    {fields : List Nat} {packer : Packer}
    (hroom : width * (fields.length + values.length) ≤ 8 * size)
    (hholds : packer.Holds width fields size) (hpending : packer.pending < 8) :
    ∃ last, coefficients.foldlM (Packer.push width upper) packer = some last ∧
      last.Holds width (fields ++ values) size ∧ last.pending < 8 := by
  induction hfields generalizing fields packer with
  | nil => exact ⟨packer, rfl, by simpa using hholds, hpending⟩
  | cons hfirst hrest ih =>
    rename_i coefficient value coefficients values
    obtain ⟨next, hnext, hheld, hless⟩ := hholds.push hwidth
      (le_trans (Nat.mul_le_mul_left _ (by simp)) hroom) hpending hfirst
    have hroom' : width * ((fields ++ [value]).length + values.length) ≤ 8 * size := by
      simpa [Nat.add_assoc, Nat.add_comm 1] using hroom
    obtain ⟨last, hlast, hlastHeld, hlastLess⟩ := ih hroom' hheld hless
    refine ⟨last, ?_, by simpa using hlastHeld, hlastLess⟩
    rw [List.foldlM_cons, hnext]
    exact hlast

theorem pack_spec {width : Nat} {upper : Option Int} (hwidth : width ≤ 25) {poly : Poly}
    {values : List Nat}
    (hfields : Spells width upper poly.toList values)
    {out : List UInt8} (hout : out.length = 32 * width) :
    ∃ bytes, pack poly width upper out = some bytes ∧ bytes.length = 32 * width ∧
      leValue bytes = packValue width values := by
  have hcount : values.length = 256 := by simpa using hfields.length_eq.symm
  have hstart : Packer.Holds width [] (32 * width) ⟨0, 0, 0, out⟩ :=
    ⟨rfl, by simp, by simp [leValue, packValue], hout⟩
  obtain ⟨last, hlast, ⟨hbits, hsmall, hvalue, hsize⟩, hless⟩ :=
    hstart.pushAll hwidth hfields (by rw [hcount, List.length_nil]; omega) (Nat.zero_lt_succ 7)
  simp only [List.nil_append, hcount] at hbits hvalue
  have hpending : last.pending = 0 := by omega
  have hempty : last.accumulator = 0 := by
    rw [hpending] at hsmall
    omega
  refine ⟨last.out, ?_, hsize, ?_⟩
  · rw [pack, guard, if_pos (by omega), hlast]
    simp [guard, hpending]
  · rw [hempty, Nat.mul_zero, Nat.add_zero, List.take_of_length_le (by omega)] at hvalue
    exact hvalue

/-! ### The reader -/

structure Unpacker.Holds (bytes : List UInt8) (width : Nat) (fields : List Nat)
    (unpacker : Unpacker) : Prop where
  bits : 8 * unpacker.index = width * fields.length + unpacker.pending
  small : unpacker.accumulator < 2 ^ unpacker.pending
  value : leValue (bytes.take unpacker.index) =
    packValue width fields + 2 ^ (width * fields.length) * unpacker.accumulator

theorem Unpacker.Holds.refill {bytes : List UInt8} {width : Nat} {fields : List Nat}
    {unpacker : Unpacker} (hwidth : width ≤ 25)
    (hroom : width * (fields.length + 1) ≤ 8 * bytes.length)
    (hholds : unpacker.Holds bytes width fields) (hless : unpacker.pending < width + 8) :
    ∃ filled, unpacker.refill bytes width = some filled ∧
      filled.Holds bytes width fields ∧ width ≤ filled.pending ∧ filled.pending < width + 8 := by
  induction unpacker using Unpacker.refill.induct width with
  | case1 unpacker hshort ih =>
    obtain ⟨hbits, hsmall, hvalue⟩ := hholds
    have hindex : unpacker.index < bytes.length := by
      rw [Nat.mul_add] at hroom
      omega
    have hbyte : bytes[unpacker.index].toNat < 2 ^ 8 := bytes[unpacker.index].toNat_lt
    have hlast : bytes[unpacker.index].toNat * 2 ^ unpacker.pending < 2 ^ 32 := by
      calc bytes[unpacker.index].toNat * 2 ^ unpacker.pending
          < 2 ^ 8 * 2 ^ unpacker.pending := Nat.mul_lt_mul_of_pos_right hbyte (Nat.two_pow_pos _)
        _ = 2 ^ (8 + unpacker.pending) := (Nat.pow_add 2 8 unpacker.pending).symm
        _ ≤ 2 ^ 32 := Nat.pow_le_pow_right (by decide) (by omega)
    have hnext : Unpacker.Holds bytes width fields {
        accumulator := unpacker.accumulator ||| bytes[unpacker.index].toNat * 2 ^ unpacker.pending
        pending := unpacker.pending + 8
        index := unpacker.index + 1 } := by
      refine ⟨by dsimp only; omega, ?_, ?_⟩
      · dsimp only
        rw [or_shifted hsmall]
        exact shifted_lt hsmall hbyte
      · dsimp only
        rw [or_shifted hsmall, List.take_add_one, List.getElem?_eq_getElem hindex, leValue_append,
          hvalue, List.length_take, Nat.min_eq_left (by omega), pow_bytes, hbits, Nat.pow_add]
        simp only [Option.toList_some, leValue]
        ring
    obtain ⟨filled, hfilled, hheld⟩ := ih _ hnext (by dsimp only; omega)
    refine ⟨filled, ?_, hheld⟩
    rw [Unpacker.refill, dif_pos hshort, List.getElem?_eq_getElem hindex, Option.bind_eq_bind,
      Option.bind_some, shiftLeft_eq (by omega) hlast]
    exact hfilled
  | case2 unpacker hfull =>
    rw [Unpacker.refill, dif_neg hfull]
    exact ⟨unpacker, rfl, hholds, by omega, hless⟩

theorem Unpacker.Holds.next {bytes : List UInt8} {width : Nat} {upper : Option Int}
    {fields : List Nat} {unpacker : Unpacker} (hwidth : width ≤ 25) (hupper : Bounded upper)
    (hroom : width * (fields.length + 1) ≤ 8 * bytes.length)
    (hholds : unpacker.Holds bytes width fields) (hpending : unpacker.pending < 8) :
    ∃ value coefficient later, FieldOf width upper coefficient value ∧
      unpacker.next bytes width upper = some (coefficient, later) ∧
      later.Holds bytes width (fields ++ [value]) ∧ later.pending < 8 := by
  obtain ⟨filled, hfilled, ⟨hbits, hsmall, hvalue⟩, henough, hless⟩ :=
    hholds.refill hwidth hroom (by omega)
  have hlow : filled.accumulator % 2 ^ width < 2 ^ width := Nat.mod_lt _ (Nat.two_pow_pos _)
  have hpow : 2 ^ width ≤ 2 ^ 25 := Nat.pow_le_pow_right (by decide) hwidth
  obtain ⟨coefficient, hfieldOf⟩ := exists_coefficient hwidth hupper hlow
  have hmask : filled.accumulator &&& (1 * 2 ^ width - 1) = filled.accumulator % 2 ^ width := by
    rw [Nat.one_mul, Nat.and_two_pow_sub_one_eq_mod]
  have hword : asI32 (filled.accumulator % 2 ^ width) =
      ((filled.accumulator % 2 ^ width : Nat) : Int) := by
    unfold asI32
    rw [Int.bmod_eq_of_le_mul_two] <;> omega
  refine ⟨filled.accumulator % 2 ^ width, coefficient, {
    accumulator := filled.accumulator >>> width
    pending := filled.pending - width
    index := filled.index }, hfieldOf, ?_, ⟨?_, ?_, ?_⟩, by dsimp only; omega⟩
  · simp only [Unpacker.next, shiftLeft_eq (show width < 32 by omega)
      (show 1 * 2 ^ width < 2 ^ 32 by omega), hfilled, hmask, hword, hfieldOf.back,
      Option.bind_eq_bind, Option.bind_some, Option.pure_def]
  · simp only [List.length_append, List.length_singleton, Nat.mul_add, Nat.mul_one]
    omega
  · dsimp only
    rw [Nat.shiftRight_eq_div_pow, Nat.div_lt_iff_lt_mul (Nat.two_pow_pos width), ← Nat.pow_add,
      Nat.sub_add_cancel henough]
    exact hsmall
  · dsimp only
    have hsplit := Nat.mod_add_div filled.accumulator (2 ^ width)
    rw [packValue_append, Nat.shiftRight_eq_div_pow, hvalue, List.length_append,
      List.length_singleton, Nat.mul_add, Nat.mul_one, Nat.pow_add]
    simp only [packValue]
    conv_lhs => rw [← hsplit]
    ring

theorem Unpacker.Holds.take {bytes : List UInt8} {width : Nat} {upper : Option Int}
    (hwidth : width ≤ 25) (hupper : Bounded upper) (count : Nat) {fields : List Nat}
    {unpacker : Unpacker} (hroom : width * (fields.length + count) ≤ 8 * bytes.length)
    (hholds : unpacker.Holds bytes width fields) (hpending : unpacker.pending < 8) :
    ∃ values coefficients last, Unpacker.take bytes width upper count unpacker = some coefficients ∧
      values.length = count ∧
      Spells width upper coefficients values ∧
      Unpacker.Holds bytes width (fields ++ values) last ∧ last.pending < 8 := by
  induction count generalizing fields unpacker with
  | zero => exact ⟨[], [], unpacker, rfl, rfl, .nil, by simpa using hholds, hpending⟩
  | succ count ih =>
    obtain ⟨value, coefficient, later, hfieldOf, hnext, hheld, hless⟩ :=
      hholds.next hwidth hupper (le_trans (Nat.mul_le_mul_left _ (by omega)) hroom) hpending
    have hroom' : width * ((fields ++ [value]).length + count) ≤ 8 * bytes.length := by
      simpa [Nat.add_assoc, Nat.add_comm 1] using hroom
    obtain ⟨values, coefficients, last, htaken, hcount, hall, hlast, hlastLess⟩ :=
      ih hroom' hheld hless
    refine ⟨value :: values, coefficient :: coefficients, last, ?_, by simp [hcount],
      .cons hfieldOf hall, by simpa using hlast, hlastLess⟩
    simp only [Unpacker.take, hnext, htaken, Option.bind_eq_bind, Option.bind_some, Option.pure_def]

theorem toList_ofList {coefficients : List Int} (hcount : coefficients.length = 256) :
    (ofList coefficients).toList = coefficients := by
  apply List.ext_getElem
  · simp [hcount]
  · intro place hplace hbound
    simp [ofList, List.getElem?_eq_getElem hbound]

theorem unpack_spec {width : Nat} {upper : Option Int} (hwidth : width ≤ 25)
    (hupper : Bounded upper) {bytes : List UInt8} (hbytes : bytes.length = 32 * width) :
    ∃ poly values, unpack bytes width upper = some poly ∧
      Spells width upper poly.toList values ∧
      leValue bytes = packValue width values := by
  have hstart : Unpacker.Holds bytes width [] ⟨0, 0, 0⟩ :=
    ⟨by simp, by simp, by simp [leValue, packValue]⟩
  obtain ⟨values, coefficients, last, htaken, hcount, hall, ⟨hbits, hsmall, hvalue⟩, hless⟩ :=
    hstart.take hwidth hupper 256 (by rw [List.length_nil, hbytes]; omega) (by decide)
  have hlength : coefficients.length = 256 := by rw [hall.length_eq, hcount]
  simp only [List.nil_append, hcount] at hbits hvalue
  have hpending : last.pending = 0 := by omega
  have hempty : last.accumulator = 0 := by
    rw [hpending] at hsmall
    omega
  refine ⟨ofList coefficients, values, ?_, by rwa [toList_ofList hlength], ?_⟩
  · rw [unpack, guard, if_pos (by omega), htaken]
    rfl
  · rw [hempty, Nat.mul_zero, Nat.add_zero, List.take_of_length_le (by omega)] at hvalue
    exact hvalue

/-! ### Both ways -/

theorem packValue_injective {width : Nat} {left right : List Nat}
    (hlength : left.length = right.length) (hleft : ∀ value ∈ left, value < 2 ^ width)
    (hright : ∀ value ∈ right, value < 2 ^ width)
    (hsame : packValue width left = packValue width right) : left = right := by
  apply List.ext_getElem hlength
  intro index hindex hindex'
  rw [← packValue_digit hleft (List.getElem?_eq_getElem hindex),
    ← packValue_digit hright (List.getElem?_eq_getElem hindex'), hsame]

theorem poly_ext {left right : Poly} (hsame : left.toList = right.toList) : left = right :=
  Vector.toList_inj.mp hsame

theorem exists_pack {width : Nat} {upper : Option Int} (hwidth : width ≤ 25)
    (hupper : Bounded upper) {out : List UInt8} (hout : out.length = 32 * width) {poly : Poly}
    (hpoly : ∀ coefficient ∈ poly.toList, Packable width upper coefficient) :
    ∃ bytes, pack poly width upper out = some bytes ∧ bytes.length = 32 * width ∧
      unpack bytes width upper = some poly := by
  obtain ⟨values, hvalues⟩ := exists_spelling hwidth hupper hpoly
  obtain ⟨bytes, hbytes, hlength, hspelled⟩ := pack_spec hwidth hvalues hout
  obtain ⟨read, fields, hread, hfields, hspelled'⟩ := unpack_spec hwidth hupper hlength
  have hsame : fields = values := packValue_injective
    (by rw [← hvalues.length_eq, ← hfields.length_eq]; simp) hfields.lt hvalues.lt
    (hspelled'.symm.trans hspelled)
  refine ⟨bytes, hbytes, hlength, ?_⟩
  rw [hread, poly_ext (hfields.unique (hsame ▸ hvalues))]

theorem exists_unpack {width : Nat} {upper : Option Int} (hwidth : width ≤ 25)
    (hupper : Bounded upper) {out : List UInt8} (hout : out.length = 32 * width)
    {bytes : List UInt8} (hlength : bytes.length = 32 * width) :
    ∃ poly, unpack bytes width upper = some poly ∧
      (∀ coefficient ∈ poly.toList, Packable width upper coefficient) ∧
      pack poly width upper out = some bytes := by
  obtain ⟨poly, values, hread, hvalues, hspelled⟩ := unpack_spec hwidth hupper hlength
  obtain ⟨packed, hpacked, hlength', hspelled'⟩ := pack_spec hwidth hvalues hout
  refine ⟨poly, hread, hvalues.packable, ?_⟩
  rw [hpacked, leValue_injective (hlength'.trans hlength.symm) (hspelled'.trans hspelled.symm)]

theorem packing_inverse {width : Nat} {upper : Option Int} (hwidth : width ≤ 25)
    (hupper : Bounded upper) {out : List UInt8} (hout : out.length = 32 * width) :
    (∀ poly : Poly, (∀ coefficient ∈ poly.toList, Packable width upper coefficient) →
      ∃ bytes, pack poly width upper out = some bytes ∧ bytes.length = 32 * width ∧
        unpack bytes width upper = some poly) ∧
    ∀ bytes : List UInt8, bytes.length = 32 * width →
      ∃ poly, unpack bytes width upper = some poly ∧
        (∀ coefficient ∈ poly.toList, Packable width upper coefficient) ∧
        pack poly width upper out = some bytes := by
  constructor
  · intro poly hpoly
    exact exists_pack hwidth hupper hout hpoly
  · intro bytes hlength
    exact exists_unpack hwidth hupper hout hlength

theorem packing_inverse_twenty :
    (20 ≤ 25 ∧ Bounded (some 524288) ∧ (List.replicate 640 (0 : UInt8)).length = 32 * 20) ∧
      ∀ bytes : List UInt8, bytes.length = 640 →
        ∃ poly, unpack bytes 20 (some 524288) = some poly ∧
          (∀ coefficient ∈ poly.toList, Packable 20 (some 524288) coefficient) ∧
          pack poly 20 (some 524288) (List.replicate 640 0) = some bytes := by
  have hupper : Bounded (some 524288) := by
    intro bound hbound
    obtain rfl := Option.some.inj hbound
    decide
  exact ⟨⟨by decide, hupper, List.length_replicate⟩,
    (packing_inverse (show 20 ≤ 25 by decide) hupper List.length_replicate).2⟩

end Purrdf.Lattice
