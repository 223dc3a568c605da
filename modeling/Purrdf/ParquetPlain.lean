import Purrdf.ParquetWorkspace

/-!
# PLAIN pages

The reader of dense PLAIN bytes. A page it parses is the concatenation of its entries.
-/

namespace Purrdf.Parquet

open PackBits

structure Plain where
  bytes : List UInt8
  physical : PhysicalType
  pos : Nat
deriving DecidableEq, Repr

def castSigned (word : Nat) : Int := if word < 2 ^ 31 then word else (word : Int) - 2 ^ 32

namespace Plain

def new (bytes : List UInt8) (physical : PhysicalType) : Plain := ⟨bytes, physical, 0⟩

def advance (reader : Plain) (pos : Nat) : List UInt8 × Plain :=
  ((reader.bytes.take pos).drop reader.pos, { reader with pos := pos })

def next (reader : Plain) : Outcome (Option (List UInt8 × Plain)) :=
  if reader.pos = reader.bytes.length then return none
  else
    match reader.physical with
    | .int64 => do
        let (_, pos) ← take reader.bytes reader.pos 8
        return some (reader.advance pos)
    | .byteArray =>
      match readLe reader.bytes reader.pos 4 with
      | none =>
        .error (.refused (.truncated "PLAIN BYTE_ARRAY length"
          (min (reader.pos + 4) (2 ^ 64 - 1)) reader.bytes.length))
      | some word =>
        let length := castSigned word
        if length < 0 then
          .error (.refused (.valueBody "PLAIN BYTE_ARRAY" (.negativeLength length)))
        else do
          let (_, pos) ← take reader.bytes (reader.pos + 4) length.toNat
          return some (reader.advance pos)

/-- Every value a reader has left, with the position after it. A value takes bytes, so the
fuel outlasts the reader. -/
def drain : Nat → Plain → Outcome (List (List UInt8 × Nat))
  | 0, _ => return []
  | fuel + 1, reader => do
      match ← reader.next with
      | none => return []
      | some (value, reader) => do
          let rest ← drain fuel reader
          return (value, reader.pos) :: rest

def steps (bytes : List UInt8) (physical : PhysicalType) : Outcome (List (List UInt8 × Nat)) :=
  drain (bytes.length + 1) (new bytes physical)

def values (bytes : List UInt8) (physical : PhysicalType) : Outcome (List (List UInt8)) := do
  let steps ← steps bytes physical
  return steps.map Prod.fst

end Plain

def plainCount (bytes : List UInt8) (physical : PhysicalType) : Outcome Nat := do
  let values ← Plain.values bytes physical
  return values.length

/-! ### Entries -/

def Entry (physical : PhysicalType) (value : List UInt8) : Prop :=
  match physical with
  | .int64 => value.length = 8
  | .byteArray => ∃ body, value = leBytes 4 body.length ++ body ∧ body.length < 2 ^ 31

def minimumBytes : PhysicalType → Nat
  | .int64 => 8
  | .byteArray => 4

variable {physical : PhysicalType}

theorem Entry.minimum_le {value : List UInt8} (entry : Entry physical value) :
    minimumBytes physical ≤ value.length := by
  cases physical with
  | int64 => exact Nat.le_of_eq entry.symm
  | byteArray =>
    obtain ⟨body, rfl, -⟩ := entry
    rw [List.length_append, leBytes_length]
    exact Nat.le_add_right 4 body.length

theorem four_le_minimumBytes (physical : PhysicalType) : 4 ≤ minimumBytes physical := by
  cases physical <;> decide

theorem minimumBytes_mul_le {values : List (List UInt8)}
    (entries : ∀ value ∈ values, Entry physical value) :
    minimumBytes physical * values.length ≤ values.flatten.length := by
  induction values with
  | nil => exact Nat.le_refl 0
  | cons value values ih =>
    have first := (entries value List.mem_cons_self).minimum_le
    have rest := ih fun other member => entries other (List.mem_cons_of_mem _ member)
    rw [List.flatten_cons, List.length_append, List.length_cons, Nat.mul_add, Nat.mul_one]
    omega

/-! ### Reading a page -/

theorem take_inv {bytes : List UInt8} {pos len : Nat} {result : List UInt8 × Nat}
    (taken : take bytes pos len = .ok result) :
    result.2 = pos + len ∧ pos + len ≤ bytes.length := by
  obtain ⟨stop, added, rest⟩ := bind_ok taken
  rw [add] at added
  split at added
  · cases added
    split at rest
    · rename_i fits
      cases rest
      exact ⟨rfl, fits⟩
    · cases rest
  · cases added

structure Stepped (reader : Plain) (value : List UInt8) (after : Plain) : Prop where
  bytes_eq : after.bytes = reader.bytes
  physical_eq : after.physical = reader.physical
  pos_eq : after.pos = reader.pos + value.length
  inside : after.pos ≤ reader.bytes.length
  slice : value = (reader.bytes.take after.pos).drop reader.pos
  entry : Entry reader.physical value

theorem Plain.next_none {reader : Plain} (stopped : reader.next = .ok none) :
    reader.pos = reader.bytes.length := by
  rw [Plain.next] at stopped
  split at stopped
  · assumption
  · split at stopped
    · obtain ⟨result, -, rest⟩ := bind_ok stopped
      cases rest
    · split at stopped
      · cases stopped
      · dsimp only at stopped
        split at stopped
        · cases stopped
        · obtain ⟨result, -, rest⟩ := bind_ok stopped
          cases rest

theorem Plain.stepped {reader : Plain} {len : Nat}
    (inside : reader.pos + len ≤ reader.bytes.length)
    (entry : Entry reader.physical ((reader.bytes.drop reader.pos).take len)) :
    Stepped reader (reader.advance (reader.pos + len)).1 (reader.advance (reader.pos + len)).2 := by
  have slice : (reader.advance (reader.pos + len)).1 =
      (reader.bytes.drop reader.pos).take len := by
    rw [advance, List.drop_take, Nat.add_sub_cancel_left]
  have length : (reader.advance (reader.pos + len)).1.length = len := by
    rw [slice, List.length_take, List.length_drop]
    omega
  constructor
  · rfl
  · rfl
  · rw [length]
    rfl
  · exact inside
  · rfl
  · rw [slice]
    exact entry

theorem readLe_some {bytes : List UInt8} {pos width value : Nat}
    (read : readLe bytes pos width = some value) :
    pos + width ≤ bytes.length ∧ value = leValue ((bytes.drop pos).take width) := by
  rw [readLe] at read
  split at read
  · rename_i fits
    cases read
    exact ⟨fits, rfl⟩
  · cases read

theorem castSigned_toNat {word : Nat} (bound : word < 2 ^ 32) (signed : ¬castSigned word < 0) :
    word < 2 ^ 31 ∧ (castSigned word).toNat = word := by
  rw [castSigned] at signed ⊢
  split at signed
  · rename_i small
    rw [if_pos small]
    exact ⟨small, Int.toNat_natCast word⟩
  · omega

theorem Plain.next_some {reader after : Plain} {value : List UInt8}
    (stepped : reader.next = .ok (some (value, after))) : Stepped reader value after := by
  rw [Plain.next] at stepped
  split at stepped
  · cases stepped
  · split at stepped
    · rename_i physical
      obtain ⟨result, taken, rest⟩ := bind_ok stepped
      obtain ⟨stop, inside⟩ := take_inv taken
      obtain ⟨chunk, pos⟩ := result
      cases stop
      cases rest
      apply Plain.stepped inside
      rw [physical]
      change ((reader.bytes.drop reader.pos).take 8).length = 8
      rw [List.length_take, List.length_drop]
      omega
    · rename_i physical
      split at stepped
      · cases stepped
      · rename_i word read
        dsimp only at stepped
        split at stepped
        · cases stepped
        · rename_i signed
          obtain ⟨result, taken, rest⟩ := bind_ok stepped
          obtain ⟨stop, inside⟩ := take_inv taken
          obtain ⟨header, word_eq⟩ := readLe_some read
          have headerLength : ((reader.bytes.drop reader.pos).take 4).length = 4 := by
            rw [List.length_take, List.length_drop]
            omega
          have bound : word < 2 ^ 32 := by
            have := leValue_lt ((reader.bytes.drop reader.pos).take 4)
            rw [headerLength, ← word_eq] at this
            exact this
          obtain ⟨small, length⟩ := castSigned_toNat bound signed
          rw [length, Nat.add_assoc] at inside stop
          obtain ⟨chunk, pos⟩ := result
          cases stop
          cases rest
          apply Plain.stepped inside
          rw [physical]
          exists (reader.bytes.drop (reader.pos + 4)).take word
          have bodyLength : ((reader.bytes.drop (reader.pos + 4)).take word).length = word := by
            rw [List.length_take, List.length_drop]
            omega
          rw [bodyLength]
          constructor
          · rw [List.take_add, List.drop_drop]
            have spelled := leBytes_leValue ((reader.bytes.drop reader.pos).take 4)
            rw [headerLength, ← word_eq] at spelled
            rw [spelled]
          · exact small

/-- The values of a page make up its bytes, each one an entry, cut where the reader stood. -/
structure Parsed (bytes : List UInt8) (physical : PhysicalType) (from_pos : Nat)
    (steps : List (List UInt8 × Nat)) : Prop where
  whole : bytes.drop from_pos = (steps.map Prod.fst).flatten
  entries : ∀ step ∈ steps, Entry physical step.1
  slices : ∀ step ∈ steps, step.1.length ≤ step.2 ∧ step.2 ≤ bytes.length ∧
    step.1 = (bytes.take step.2).drop (step.2 - step.1.length)

theorem Plain.drain_spec (bytes : List UInt8) (physical : PhysicalType) :
    ∀ (fuel pos : Nat) (steps : List (List UInt8 × Nat)), pos ≤ bytes.length →
      bytes.length - pos < fuel → drain fuel ⟨bytes, physical, pos⟩ = .ok steps →
      Parsed bytes physical pos steps := by
  intro fuel
  induction fuel with
  | zero =>
    intro pos steps _ enough
    exact absurd enough (Nat.not_lt_zero _)
  | succ fuel ih =>
    intro pos steps inside enough drained
    obtain ⟨found, stepped, rest⟩ := bind_ok drained
    cases found with
    | none =>
      cases rest
      have stopped : pos = bytes.length := next_none stepped
      constructor
      · rw [stopped, List.drop_length]
        rfl
      · intro step member
        cases member
      · intro step member
        cases member
    | some found =>
      obtain ⟨value, after⟩ := found
      have step := next_some stepped
      obtain ⟨remaining, drained', rest⟩ := bind_ok rest
      cases rest
      obtain ⟨afterBytes, afterPhysical, afterPos⟩ := after
      obtain ⟨bytes_eq, physical_eq, pos_eq, after_inside, slice, entry⟩ := step
      dsimp only at bytes_eq physical_eq pos_eq after_inside slice entry
      subst bytes_eq physical_eq
      have positive := entry.minimum_le
      have atLeast := four_le_minimumBytes afterPhysical
      have parsed := ih afterPos remaining after_inside (by omega) drained'
      have cut : value = (afterBytes.drop pos).take value.length := by
        have window : (afterBytes.take afterPos).drop pos =
            (afterBytes.drop pos).take value.length := by
          rw [pos_eq, List.drop_take, Nat.add_sub_cancel_left]
        exact slice.trans window
      constructor
      · rw [List.map_cons, List.flatten_cons, ← parsed.whole, pos_eq, ← List.drop_drop]
        have both := List.take_append_drop value.length (afterBytes.drop pos)
        rw [← cut] at both
        exact both.symm
      · intro step member
        rcases List.mem_cons.mp member with rfl | member
        · exact entry
        · exact parsed.entries step member
      · intro step member
        rcases List.mem_cons.mp member with rfl | member
        · dsimp only
          have start : afterPos - value.length = pos := by omega
          rw [start]
          exact ⟨by omega, after_inside, slice⟩
        · exact parsed.slices step member

theorem Plain.steps_spec {bytes : List UInt8} {steps : List (List UInt8 × Nat)}
    (parsed : Plain.steps bytes physical = .ok steps) :
    Parsed bytes physical 0 steps :=
  drain_spec bytes physical _ 0 steps (Nat.zero_le _) (Nat.lt_succ_self _) parsed

theorem Plain.values_spec {bytes : List UInt8} {values : List (List UInt8)}
    (parsed : Plain.values bytes physical = .ok values) :
    bytes = values.flatten ∧ ∀ value ∈ values, Entry physical value := by
  obtain ⟨steps, read, rest⟩ := bind_ok parsed
  cases rest
  have spec := Plain.steps_spec read
  constructor
  · exact spec.whole
  · intro value member
    obtain ⟨step, step_mem, rfl⟩ := List.mem_map.mp member
    exact spec.entries step step_mem

end Purrdf.Parquet
