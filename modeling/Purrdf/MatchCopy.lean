import Purrdf.InflateStream

/-!
# Match copies

A match is copied in runs that double while the distance is shorter than what is left. The
bytes are those of the copy one byte at a time, each read that distance back.
-/

namespace Purrdf.Deflate

def appendCopy (distance : Nat) : Nat → List UInt8 → List UInt8
  | 0, out => out
  | length + 1, out => appendCopy distance length (out ++ [Stream.back out distance])

def tile (window : List UInt8) (distance length : Nat) : List UInt8 :=
  (List.range length).map fun i => window.getD (window.length - distance + i % distance) 0

@[simp] theorem tile_length (window : List UInt8) (distance length : Nat) :
    (tile window distance length).length = length := by
  simp [tile]

theorem tile_succ (window : List UInt8) (distance length : Nat) :
    tile window distance (length + 1) = tile window distance length
      ++ [window.getD (window.length - distance + length % distance) 0] := by
  rw [tile, List.range_succ, List.map_append, List.map_singleton, tile]

theorem tile_take (window : List UInt8) (distance : Nat) {run length : Nat}
    (order : run ≤ length) :
    (tile window distance length).take run = tile window distance run := by
  rw [tile, ← List.map_take, List.take_range, Nat.min_eq_left order, tile]

theorem tile_append (window : List UInt8) {distance whole : Nat} (periods : distance ∣ whole)
    (rest : Nat) :
    tile window distance whole ++ tile window distance rest
      = tile window distance (whole + rest) := by
  rw [tile, tile, tile, List.range_add, List.map_append, List.map_map]
  congr 1
  apply List.map_congr_left
  intro i _
  obtain ⟨turns, rfl⟩ := periods
  rw [Function.comp_apply, Nat.mul_add_mod]

variable {window : List UInt8} {distance : Nat}

theorem tile_period (inside : distance ≤ window.length) :
    tile window distance distance = window.drop (window.length - distance) := by
  apply List.ext_getElem
  · rw [tile_length, List.length_drop]
    omega
  · intro i left right
    rw [tile_length] at left
    have within : window.length - distance + i < window.length := by omega
    simp [tile, Nat.mod_eq_of_lt left, within]

theorem appendCopy_succ (distance length : Nat) (out : List UInt8) :
    appendCopy distance (length + 1) out
      = appendCopy distance length out
        ++ [Stream.back (appendCopy distance length out) distance] := by
  induction length generalizing out with
  | zero => rfl
  | succ length ih =>
    rw [appendCopy, ih]
    rfl

theorem appendCopy_eq (positive : 0 < distance) (inside : distance ≤ window.length) (length : Nat) :
    appendCopy distance length window = window ++ tile window distance length := by
  induction length with
  | zero => simp [appendCopy, tile]
  | succ length ih =>
    rw [appendCopy_succ, ih, tile_succ, ← List.append_assoc]
    congr 2
    rw [Stream.back, List.length_append, tile_length]
    by_cases short : length < distance
    · rw [List.getD_append _ _ _ _ (by omega), Nat.mod_eq_of_lt short]
      congr 1
      omega
    · have past : window.length ≤ window.length + length - distance := by omega
      have place : window.length + length - distance - window.length = length - distance := by
        omega
      rw [List.getD_append_right _ _ _ _ past, place, tile,
        Nat.mod_eq_sub_mod (Nat.not_lt.mp short)]
      have within : length - distance < length := by omega
      simp [within]

theorem copyRuns_eq (positive : 0 < distance) (inside : distance ≤ window.length)
    (length fuel copied : Nat) (short : copied ≤ length)
    (periods : copied = length ∨ distance ∣ copied) (enough : length ≤ copied + fuel) :
    copyRuns (window.length - distance) (window.length + length) fuel
        (window ++ tile window distance copied)
      = window ++ tile window distance length := by
  induction fuel generalizing copied with
  | zero =>
    have all : copied = length := by omega
    rw [copyRuns, all]
  | succ fuel ih =>
    rw [copyRuns, List.length_append, tile_length]
    by_cases more : window.length + copied < window.length + length
    · have whole : distance ∣ copied := by
        rcases periods with all | whole
        · omega
        · exact whole
      rw [if_pos more]
      dsimp only
      obtain ⟨run, run_eq⟩ : ∃ run, min (window.length + copied - (window.length - distance))
        (window.length + length - (window.length + copied)) = run := ⟨_, rfl⟩
      rw [run_eq]
      have source : (window ++ tile window distance copied).drop (window.length - distance)
          = tile window distance (distance + copied) := by
        rw [List.drop_append_of_le_length (by omega), ← tile_period inside,
          tile_append window dvd_rfl]
      rw [source, tile_take window distance (by omega), List.append_assoc,
        tile_append window whole]
      apply ih
      · omega
      · by_cases last : copied + run = length
        · exact Or.inl last
        · have doubled : run = distance + copied := by omega
          rw [doubled]
          exact Or.inr (Nat.dvd_add whole (Nat.dvd_add dvd_rfl whole))
      · omega
    · have all : copied = length := by omega
      rw [if_neg more, all]

theorem copied_eq (positive : 0 < distance) (inside : distance ≤ window.length) (length : Nat) :
    (if length ≤ distance then
        window ++ (window.drop (window.length - distance)).take length
      else copyRuns (window.length - distance) (window.length + length) length window)
      = appendCopy distance length window := by
  rw [appendCopy_eq positive inside]
  split
  · rename_i short
    rw [← tile_period inside, tile_take window distance short]
  · have runs := copyRuns_eq positive inside length length 0 (Nat.zero_le _)
      (Or.inr (Nat.dvd_zero distance)) (by omega)
    have start : window ++ tile window distance 0 = window := by
      simp [tile]
    rwa [start] at runs

@[simp] theorem appendCopy_length (distance length : Nat) (out : List UInt8) :
    (appendCopy distance length out).length = out.length + length := by
  induction length generalizing out with
  | zero => rfl
  | succ length ih =>
    rw [appendCopy, ih, List.length_append]
    simp
    omega

theorem appendCopy_append (before : List UInt8) (positive : 0 < distance)
    (inside : distance ≤ window.length) (length : Nat) :
    appendCopy distance length (before ++ window)
      = before ++ appendCopy distance length window := by
  induction length generalizing window with
  | zero => rfl
  | succ length ih =>
    have same : Stream.back (before ++ window) distance = Stream.back window distance := by
      have past : before.length ≤ before.length + window.length - distance := by omega
      have place : before.length + window.length - distance - before.length
          = window.length - distance := by omega
      rw [Stream.back, Stream.back, List.length_append, List.getD_append_right _ _ _ _ past,
        place]
    rw [appendCopy, appendCopy, same, List.append_assoc]
    apply ih
    rw [List.length_append]
    omega

end Purrdf.Deflate
