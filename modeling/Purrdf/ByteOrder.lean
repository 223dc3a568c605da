import Mathlib.Data.Nat.ModEq
import Mathlib.Tactic.Ring

/-!
# Bytes of literals and fixed-width byte orders

Little-endian and big-endian spellings of natural numbers in a fixed number of
bytes. A width-`w` spelling keeps the value modulo `256 ^ w`; on values below
that bound the two directions are inverse, which is all the wire formats of the
other modules use.
-/

namespace Purrdf

def asciiBytes (text : String) : List UInt8 := text.toList.map fun char => UInt8.ofNat char.toNat

/-- The low `width` bytes of `value`, least significant first. -/
def leBytes : Nat → Nat → List UInt8
  | 0, _ => []
  | width + 1, value => UInt8.ofNat value :: leBytes width (value / 256)

def leValue : List UInt8 → Nat
  | [] => 0
  | byte :: bytes => byte.toNat + 256 * leValue bytes

/-- The low `width` bytes of `value`, most significant first. -/
def beBytes (width value : Nat) : List UInt8 := (leBytes width value).reverse

def beValue (bytes : List UInt8) : Nat := leValue bytes.reverse

@[simp] theorem leBytes_length (width value : Nat) :
    (leBytes width value).length = width := by
  induction width generalizing value with
  | zero => rfl
  | succ width ih => simp [leBytes, ih]

@[simp] theorem beBytes_length (width value : Nat) :
    (beBytes width value).length = width := by
  simp [beBytes]

theorem leValue_leBytes (width value : Nat) :
    leValue (leBytes width value) = value % 256 ^ width := by
  induction width generalizing value with
  | zero => simp [leBytes, leValue, Nat.mod_one]
  | succ width ih =>
    have hbyte : (UInt8.ofNat value).toNat = value % 256 := UInt8.toNat_ofNat'
    simp only [leBytes, leValue, ih, hbyte]
    rw [Nat.pow_succ', Nat.mod_mul]

theorem leValue_leBytes_of_lt {width value : Nat} (hvalue : value < 256 ^ width) :
    leValue (leBytes width value) = value := by
  rw [leValue_leBytes, Nat.mod_eq_of_lt hvalue]

theorem beValue_beBytes_of_lt {width value : Nat} (hvalue : value < 256 ^ width) :
    beValue (beBytes width value) = value := by
  rw [beValue, beBytes, List.reverse_reverse, leValue_leBytes_of_lt hvalue]

theorem leValue_lt (bytes : List UInt8) : leValue bytes < 256 ^ bytes.length := by
  induction bytes with
  | nil => simp [leValue]
  | cons byte bytes ih =>
    have hbyte : byte.toNat < 256 := byte.toNat_lt
    simp only [leValue, List.length_cons, Nat.pow_succ]
    omega

/-- Spelling what a list spells gives the list back: every byte list of a width
is the canonical one of its value. -/
theorem leBytes_leValue (bytes : List UInt8) :
    leBytes bytes.length (leValue bytes) = bytes := by
  induction bytes with
  | nil => rfl
  | cons byte bytes ih =>
    have hbyte : byte.toNat < 256 := byte.toNat_lt
    have hquot : (byte.toNat + 256 * leValue bytes) / 256 = leValue bytes := by omega
    have hlow : UInt8.ofNat (byte.toNat + 256 * leValue bytes) = byte := by
      apply UInt8.toNat_inj.mp
      rw [UInt8.toNat_ofNat']
      omega
    simp only [List.length_cons, leValue, leBytes, hquot, hlow, ih]

theorem leValue_injective {left right : List UInt8}
    (hlength : left.length = right.length) (hvalue : leValue left = leValue right) :
    left = right := by
  rw [← leBytes_leValue left, ← leBytes_leValue right, hlength, hvalue]

theorem leValue_append (left right : List UInt8) :
    leValue (left ++ right) = leValue left + 256 ^ left.length * leValue right := by
  induction left with
  | nil => simp [leValue]
  | cons head left ih =>
    simp only [List.cons_append, leValue, ih, List.length_cons, Nat.pow_succ']
    ring

theorem beValue_cons (byte : UInt8) (bytes : List UInt8) :
    beValue (byte :: bytes) = byte.toNat * 256 ^ bytes.length + beValue bytes := by
  simp only [beValue, List.reverse_cons, leValue_append, leValue, List.length_reverse]
  ring

theorem leBytes_take (width extra value : Nat) :
    (leBytes (width + extra) value).take width = leBytes width value := by
  induction width generalizing value with
  | zero => simp [leBytes]
  | succ width ih => simp [leBytes, Nat.succ_add, ih]

theorem beBytes_drop (width extra value : Nat) :
    (beBytes (width + extra) value).drop extra = beBytes width value := by
  rw [beBytes, List.drop_reverse, leBytes_length, Nat.add_sub_cancel, leBytes_take, beBytes]

end Purrdf
