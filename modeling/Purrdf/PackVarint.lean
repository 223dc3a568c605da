import Purrdf.PackBits

/-!
# Varints and zigzag

The variable-length integers of the pack codecs, seven payload bits a byte, and the map
that keeps integers of small magnitude short. Both are read back exactly.
-/

namespace Purrdf.PackBits

def writeVarintLoop : Nat → UInt64 → List UInt8
  | 0, _ => []
  | fuel + 1, v =>
    let byte := (v &&& 0x7f).toUInt8
    let v := v >>> 7
    if v = 0 then [byte] else (byte ||| 0x80) :: writeVarintLoop fuel v

def writeVarint (value : UInt64) : List UInt8 := writeVarintLoop 10 value

def varintOverflow : PackBitsError := .malformed "varint exceeds 64 bits"

def readVarintLoop (bytes : List UInt8) :
    Nat → Nat → Nat → UInt64 → Except PackBitsError (UInt64 × Nat)
  | 0, _, _, _ => .error varintOverflow
  | fuel + 1, pos, shift, result =>
    if 64 ≤ shift then .error varintOverflow
    else
      match bytes[pos]? with
      | none => .error (.truncated (min (pos + 1) (2 ^ 64 - 1)) bytes.length)
      | some byte =>
        if shift = 63 ∧ byte &&& 0x7e ≠ 0 then .error varintOverflow
        else
          let result := result ||| (byte &&& 0x7f).toUInt64 <<< UInt64.ofNat shift
          if byte &&& 0x80 = 0 then .ok (result, pos + 1)
          else readVarintLoop bytes fuel (pos + 1) (shift + 7) result

/-- A varint at a position, with the position after it. The tenth byte is the last one
whose shift is below 64. -/
def readVarint (bytes : List UInt8) (pos : Nat) : Except PackBitsError (UInt64 × Nat) :=
  readVarintLoop bytes 11 pos 0 0

/-- Signed to unsigned, by magnitude: `0, -1, 1, -2, 2` to `0, 1, 2, 3, 4`. -/
def zigzagEncode (value : Int64) : UInt64 := ((value <<< 1) ^^^ (value >>> 63)).toUInt64

def zigzagDecode (value : UInt64) : Int64 := (value >>> 1).toInt64 ^^^ -(value &&& 1).toInt64

example : writeVarint 300 = [0xac, 0x02] := by decide

/-! ### Varints round trip -/

theorem payload_toNat (v : UInt64) : ((v &&& 0x7f).toUInt8).toNat = v.toNat % 128 := by
  have mask : (v &&& 0x7f).toNat = v.toNat % 2 ^ 7 := by
    rw [UInt64.toNat_and]
    exact Nat.and_two_pow_sub_one_eq_mod v.toNat 7
  rw [UInt64.toNat_toUInt8, mask]
  omega

theorem rest_toNat (v : UInt64) : (v >>> 7).toNat = v.toNat / 128 := by
  rw [UInt64.toNat_shiftRight]
  exact Nat.shiftRight_eq_div_pow v.toNat 7

theorem final_byte {byte : UInt8} (small : byte.toNat < 128) :
    byte &&& 0x80 = 0 ∧ (byte &&& 0x7f).toUInt64.toNat = byte.toNat := by
  have all : ∀ low : Fin 128, UInt8.ofNat low &&& 0x80 = 0 ∧
      (UInt8.ofNat low &&& 0x7f).toUInt64.toNat = low := by decide
  have here := all ⟨byte.toNat, small⟩
  rw [UInt8.ofNat_toNat] at here
  exact here

theorem continued_byte {byte : UInt8} (small : byte.toNat < 128) :
    (byte ||| 0x80) &&& 0x80 ≠ 0 ∧ ((byte ||| 0x80) &&& 0x7f).toUInt64.toNat = byte.toNat := by
  have all : ∀ low : Fin 128, (UInt8.ofNat low ||| 0x80) &&& 0x80 ≠ 0 ∧
      ((UInt8.ofNat low ||| 0x80) &&& 0x7f).toUInt64.toNat = low := by decide
  have here := all ⟨byte.toNat, small⟩
  rw [UInt8.ofNat_toNat] at here
  exact here

theorem top_byte {byte : UInt8} (small : byte.toNat < 2) : byte &&& 0x7e = 0 := by
  have all : ∀ low : Fin 2, UInt8.ofNat low &&& 0x7e = 0 := by decide
  have here := all ⟨byte.toNat, small⟩
  rw [UInt8.ofNat_toNat] at here
  exact here

theorem or_payload {result : UInt64} (payload : UInt64) {shift : Nat} (small : shift < 64)
    (below : result.toNat < 2 ^ shift) (fits : payload.toNat * 2 ^ shift < 2 ^ 64) :
    (result ||| payload <<< UInt64.ofNat shift).toNat =
      result.toNat + payload.toNat * 2 ^ shift := by
  rw [or_shiftLeft small below, Nat.mod_eq_of_lt fits]

theorem readVarintLoop_writeVarintLoop (bytes rest : List UInt8) :
    ∀ (fuel shift pos : Nat) (v result : UInt64), shift + 7 * fuel = 70 → 0 < fuel →
      v.toNat * 2 ^ shift < 2 ^ 64 → result.toNat < 2 ^ shift →
      bytes.drop pos = writeVarintLoop fuel v ++ rest →
      readVarintLoop bytes (fuel + 1) pos shift result =
        .ok (UInt64.ofNat (result.toNat + v.toNat * 2 ^ shift),
          pos + (writeVarintLoop fuel v).length) := by
  intro fuel
  -- The writer's fuel and the reader's shift move together.
  induction fuel with
  | zero =>
    intro shift pos v result _ positive
    exact absurd positive (Nat.lt_irrefl 0)
  | succ fuel ih =>
    intro shift pos v result fuel_eq _ fits below at_pos
    have small : shift < 64 := by omega
    have power := Nat.two_pow_pos shift
    obtain ⟨byte, byte_eq⟩ : ∃ byte, (v &&& 0x7f).toUInt8 = byte := ⟨_, rfl⟩
    have payload : byte.toNat = v.toNat % 128 := by rw [← byte_eq, payload_toNat]
    have byteSmall : byte.toNat < 128 := by omega
    have payloadFits : byte.toNat * 2 ^ shift < 2 ^ 64 := by
      apply Nat.lt_of_le_of_lt _ fits
      exact Nat.mul_le_mul_right _ (payload.trans_le (Nat.mod_le _ _))
    rw [writeVarintLoop] at at_pos ⊢
    simp only [byte_eq] at at_pos ⊢
    have topBit : shift = 63 → v.toNat < 2 := by
      intro top
      rw [top] at fits
      omega
    by_cases last : v >>> 7 = 0
    · rw [if_pos last] at at_pos ⊢
      have quotient : v.toNat / 128 = 0 := by
        rw [← rest_toNat, last]
        rfl
      have found : bytes[pos]? = some byte := by
        rw [← List.head?_drop, at_pos]
        rfl
      obtain ⟨ends, same⟩ := final_byte byteSmall
      have noOverflow : ¬(shift = 63 ∧ byte &&& 0x7e ≠ 0) := by
        intro ⟨top, bad⟩
        have := topBit top
        exact bad (top_byte (by omega))
      have sum := or_payload (byte &&& 0x7f).toUInt64 small below (by
        rw [same]
        exact payloadFits)
      rw [readVarintLoop, if_neg (by omega), found]
      simp only [if_neg noOverflow, if_pos ends]
      have value : v.toNat = byte.toNat := by omega
      rw [value, ← same, ← sum, UInt64.ofNat_toNat]
      rfl
    · rw [if_neg last] at at_pos ⊢
      have quotient : v.toNat / 128 ≠ 0 := by
        rw [← rest_toNat]
        intro zero
        exact last (UInt64.toNat_inj.mp zero)
      have low : shift < 63 := by
        have atMost := Nat.lt_or_ge shift 63
        rcases atMost with low | high
        · exact low
        · have := topBit (by omega)
          omega
      have found : bytes[pos]? = some (byte ||| 0x80) := by
        rw [← List.head?_drop, at_pos]
        rfl
      obtain ⟨goes, same⟩ := continued_byte byteSmall
      have noOverflow : ¬(shift = 63 ∧ (byte ||| 0x80) &&& 0x7e ≠ 0) := by
        intro ⟨top, _⟩
        omega
      have sum := or_payload ((byte ||| 0x80) &&& 0x7f).toUInt64 small below (by
        rw [same]
        exact payloadFits)
      have split : v.toNat * 2 ^ shift =
          byte.toNat * 2 ^ shift + (v >>> 7).toNat * 2 ^ (shift + 7) := by
        have digits := Nat.mod_add_div v.toNat 128
        rw [rest_toNat, payload, Nat.pow_add]
        calc v.toNat * 2 ^ shift
            = (v.toNat % 128 + 128 * (v.toNat / 128)) * 2 ^ shift := by rw [digits]
          _ = v.toNat % 128 * 2 ^ shift + v.toNat / 128 * (2 ^ shift * 2 ^ 7) := by ring
      have step := ih (shift + 7) (pos + 1) (v >>> 7)
        (result ||| ((byte ||| 0x80) &&& 0x7f).toUInt64 <<< UInt64.ofNat shift)
        (by omega) (by omega) (by omega) (by
          rw [sum, same, Nat.pow_add]
          have bound : byte.toNat * 2 ^ shift ≤ 127 * 2 ^ shift :=
            Nat.mul_le_mul_right _ (by omega)
          omega) (by
          rw [← List.tail_drop, at_pos]
          rfl)
      rw [readVarintLoop, if_neg (by omega), found]
      simp only [if_neg noOverflow, if_neg goes]
      rw [step, sum, same, split, List.length_cons, Nat.add_assoc, Nat.add_assoc,
        Nat.add_comm 1]

theorem readVarint_writeVarint {bytes rest : List UInt8} {pos : Nat} {value : UInt64}
    (at_pos : bytes.drop pos = writeVarint value ++ rest) :
    readVarint bytes pos = .ok (value, pos + (writeVarint value).length) := by
  have fits : value.toNat * 2 ^ 0 < 2 ^ 64 := by
    rw [Nat.pow_zero, Nat.mul_one]
    exact value.toNat_lt
  have loop := readVarintLoop_writeVarintLoop bytes rest 10 0 pos value 0 rfl (by decide) fits
    (by decide) at_pos
  rw [Nat.pow_zero, Nat.mul_one, UInt64.toNat_zero, Nat.zero_add, UInt64.ofNat_toNat] at loop
  exact loop

theorem readVarintLoop_ok {bytes : List UInt8} {value : UInt64} {next : Nat} :
    ∀ {fuel pos shift : Nat} {result : UInt64},
      readVarintLoop bytes fuel pos shift result = .ok (value, next) →
        pos < next ∧ next ≤ bytes.length := by
  intro fuel
  induction fuel with
  | zero => exact fun read => by cases read
  | succ fuel ih =>
    intro pos shift result read
    rw [readVarintLoop] at read
    split at read
    · cases read
    · split at read
      · cases read
      · rename_i byte found
        have inside := (List.getElem?_eq_some_iff.mp found).1
        split at read
        · cases read
        · dsimp only at read
          split at read
          · cases read
            exact ⟨Nat.lt_succ_self pos, inside⟩
          · obtain ⟨forward, within⟩ := ih read
            exact ⟨Nat.lt_of_succ_lt forward, within⟩

theorem readVarint_ok {bytes : List UInt8} {pos next : Nat} {value : UInt64}
    (read : readVarint bytes pos = .ok (value, next)) : pos < next ∧ next ≤ bytes.length :=
  readVarintLoop_ok read

theorem readVarintLoop_malformed {bytes : List UInt8} {rule : String} :
    ∀ {fuel pos shift : Nat} {result : UInt64}, shift + 7 * fuel = 70 → pos ≤ bytes.length →
      readVarintLoop bytes (fuel + 1) pos shift result = .error (.malformed rule) →
        pos + fuel ≤ bytes.length := by
  intro fuel
  induction fuel with
  | zero => exact fun _ within _ => within
  | succ fuel ih =>
    intro pos shift result budget within read
    rw [readVarintLoop, if_neg (by omega)] at read
    split at read
    · cases read
    · rename_i byte found
      have inside := (List.getElem?_eq_some_iff.mp found).1
      split at read
      · rename_i overflow
        have last : fuel = 0 := by omega
        subst last
        exact inside
      · dsimp only at read
        split at read
        · cases read
        · have rest := ih (by omega) inside read
          omega

theorem readVarint_malformed {bytes : List UInt8} {pos : Nat} {rule : String}
    (within : pos ≤ bytes.length) (read : readVarint bytes pos = .error (.malformed rule)) :
    pos + 10 ≤ bytes.length := readVarintLoop_malformed rfl within read

theorem neg_lowest (bits : BitVec 64) :
    -(bits &&& 1#64) = if bits.getLsbD 0 then BitVec.allOnes 64 else 0#64 := by
  have lowest : bits &&& 1#64 = if bits.getLsbD 0 then 1#64 else 0#64 := by
    ext i bound
    cases i with
    | zero => cases low : bits.getLsbD 0 <;> simp_all
    | succ i => cases low : bits.getLsbD 0 <;> simp
  rw [lowest]
  split <;> decide

theorem sshiftRight_top (bits : BitVec 64) :
    bits.sshiftRight 63 = if bits.msb then BitVec.allOnes 64 else 0#64 := by
  have top : bits[63] = bits.msb := by
    rw [BitVec.msb_eq_getLsbD_last]
    rfl
  ext i bound
  have filled : (bits.sshiftRight 63)[i] = bits.msb := by
    rw [BitVec.getElem_sshiftRight]
    split
    · have first : i = 0 := by omega
      subst first
      exact top
    · rfl
  rw [filled]
  cases bits.msb
  · simp
  · rw [if_pos rfl, BitVec.getElem_allOnes]

/-- The sign moves to the lowest bit and flips all the others, and both undo it. -/
theorem zigzag_bits (bits : BitVec 64) :
    (((bits <<< 1) ^^^ bits.sshiftRight 63) >>> 1) ^^^
      -(((bits <<< 1) ^^^ bits.sshiftRight 63) &&& 1#64) = bits := by
  have lowest : (bits <<< 1 ^^^ if bits.msb then BitVec.allOnes 64 else 0#64).getLsbD 0 =
      bits.msb := by
    cases bits.msb <;> simp
  rw [neg_lowest, sshiftRight_top, lowest]
  ext i bound
  by_cases edge : i = 63
  · subst edge
    have top : bits[63] = bits.msb := by
      rw [BitVec.msb_eq_getLsbD_last]
      rfl
    rw [top]
    cases bits.msb <;> simp
  · have inside : 1 + i < 64 := by omega
    cases bits.msb
    · simp [inside]
    · rw [if_pos rfl, BitVec.getElem_xor, BitVec.getElem_allOnes, BitVec.getElem_ushiftRight,
        BitVec.getLsbD_xor, BitVec.getLsbD_allOnes]
      simp [inside]

theorem zigzagDecode_zigzagEncode (value : Int64) : zigzagDecode (zigzagEncode value) = value := by
  apply Int64.toBitVec_inj.mp
  have bits := zigzag_bits value.toBitVec
  rw [zigzagDecode, zigzagEncode]
  simpa using bits

end Purrdf.PackBits
