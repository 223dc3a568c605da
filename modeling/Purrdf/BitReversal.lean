import Purrdf.FourierTransform

/-!
# Bit reversal

The numbers below a power of two with their bits in the opposite order, and the lists whose
positions are so reversed: first the even positions, then the odd ones, each reversed alike.
-/

namespace Purrdf.Fourier

def reverseBits : Nat → Nat → Nat
  | 0, _ => 0
  | bits + 1, n => n % 2 * 2 ^ bits + reverseBits bits (n / 2)

theorem reverseBits_lt (bits n : Nat) : reverseBits bits n < 2 ^ bits := by
  induction bits generalizing n with
  | zero => simp [reverseBits]
  | succ bits ih =>
    have hrest := ih (n / 2)
    have hbit : n % 2 * 2 ^ bits ≤ 1 * 2 ^ bits := Nat.mul_le_mul_right _ (by omega)
    rw [reverseBits, pow_succ]
    omega

@[simp] theorem reverseBits_zero (bits : Nat) : reverseBits bits 0 = 0 := by
  induction bits with
  | zero => rfl
  | succ bits ih => simp [reverseBits, ih]

theorem reverseBits_high (bits : Nat) {high low : Nat} (hhigh : high < 2) (hlow : low < 2 ^ bits) :
    reverseBits (bits + 1) (high * 2 ^ bits + low) = 2 * reverseBits bits low + high := by
  induction bits generalizing low with
  | zero =>
    have hzero : low = 0 := by simpa using hlow
    simp [reverseBits, hzero]
    omega
  | succ bits ih =>
    rw [pow_succ] at hlow
    have hnext := @ih (low / 2) (by omega)
    have hdouble : high * 2 ^ (bits + 1) = 2 * (high * 2 ^ bits) := by
      rw [pow_succ]
      ring
    have hmod : (high * 2 ^ (bits + 1) + low) % 2 = low % 2 := by omega
    have hdiv : (high * 2 ^ (bits + 1) + low) / 2 = high * 2 ^ bits + low / 2 := by omega
    rw [reverseBits, hmod, hdiv, hnext, reverseBits, pow_succ]
    ring

theorem reverseBits_reverseBits {bits n : Nat} (hn : n < 2 ^ bits) :
    reverseBits bits (reverseBits bits n) = n := by
  induction bits generalizing n with
  | zero =>
    have hzero : n = 0 := by simpa using hn
    rw [hzero, reverseBits_zero, reverseBits_zero]
  | succ bits ih =>
    rw [pow_succ] at hn
    have hhigh := reverseBits_high bits (Nat.mod_lt n (by decide)) (reverseBits_lt bits (n / 2))
    rw [ih (by omega)] at hhigh
    rw [show reverseBits (bits + 1) n = n % 2 * 2 ^ bits + reverseBits bits (n / 2) from rfl,
      hhigh]
    omega

section Lists

variable {α : Type*}

def bitReverse : Nat → List α → List α
  | 0, list => list
  | bits + 1, list => bitReverse bits (evens list) ++ bitReverse bits (odds list)

theorem evens_length (list : List α) : (evens list).length = (list.length + 1) / 2 := by
  induction list using evens.induct with
  | case1 => simp [evens]
  | case2 => simp [evens]
  | case3 x y rest ih =>
    simp only [evens, List.length_cons, ih]
    omega

theorem odds_length (list : List α) : (odds list).length = list.length / 2 := by
  induction list using evens.induct with
  | case1 => simp [odds]
  | case2 => simp [odds]
  | case3 x y rest ih =>
    simp only [odds, List.length_cons, ih]
    omega

theorem evens_getElem? (list : List α) (i : Nat) : (evens list)[i]? = list[2 * i]? := by
  induction list using evens.induct generalizing i with
  | case1 => simp [evens]
  | case2 x => cases i <;> simp [evens, Nat.mul_succ]
  | case3 x y rest ih => cases i <;> simp [evens, Nat.mul_succ, ih]

theorem odds_getElem? (list : List α) (i : Nat) : (odds list)[i]? = list[2 * i + 1]? := by
  induction list using evens.induct generalizing i with
  | case1 => simp [odds]
  | case2 x => simp [odds]
  | case3 x y rest ih => cases i <;> simp [odds, Nat.mul_succ, ih]

theorem halves_length {bits : Nat} {list : List α} (hlength : list.length = 2 ^ (bits + 1)) :
    (evens list).length = 2 ^ bits ∧ (odds list).length = 2 ^ bits := by
  rw [pow_succ] at hlength
  rw [evens_length, odds_length]
  omega

@[simp] theorem bitReverse_length {bits : Nat} {list : List α} (hlength : list.length = 2 ^ bits) :
    (bitReverse bits list).length = 2 ^ bits := by
  induction bits generalizing list with
  | zero => exact hlength
  | succ bits ih =>
    obtain ⟨heven, hodd⟩ := halves_length hlength
    rw [bitReverse, List.length_append, ih heven, ih hodd, pow_succ]
    omega

theorem bitReverse_getElem? {bits : Nat} {list : List α} (hlength : list.length = 2 ^ bits)
    {position : Nat} (hposition : position < 2 ^ bits) :
    (bitReverse bits list)[position]? = list[reverseBits bits position]? := by
  induction bits generalizing list position with
  | zero =>
    have hzero : position = 0 := by simpa using hposition
    rw [bitReverse, hzero, reverseBits_zero]
  | succ bits ih =>
    obtain ⟨heven, hodd⟩ := halves_length hlength
    rw [pow_succ] at hposition
    rw [bitReverse]
    by_cases hfirst : position < 2 ^ bits
    · have hreverse := reverseBits_high bits (show 0 < 2 by decide) hfirst
      rw [Nat.zero_mul, Nat.zero_add] at hreverse
      rw [List.getElem?_append_left (by rwa [bitReverse_length heven]), ih heven hfirst,
        evens_getElem?, hreverse, Nat.add_zero]
    · obtain ⟨low, rfl⟩ := Nat.exists_eq_add_of_le (Nat.le_of_not_lt hfirst)
      have hreverse := reverseBits_high bits (show 1 < 2 by decide) (show low < 2 ^ bits by omega)
      rw [Nat.one_mul] at hreverse
      rw [List.getElem?_append_right (by rw [bitReverse_length heven]; omega),
        bitReverse_length heven, Nat.add_sub_cancel_left, ih hodd (by omega), odds_getElem?,
        hreverse]

theorem evens_subset (list : List α) : ∀ x ∈ evens list, x ∈ list := by
  intro x hx
  obtain ⟨i, hi⟩ := List.mem_iff_getElem?.mp hx
  rw [evens_getElem?] at hi
  exact List.mem_of_getElem? hi

theorem odds_subset (list : List α) : ∀ x ∈ odds list, x ∈ list := by
  intro x hx
  obtain ⟨i, hi⟩ := List.mem_iff_getElem?.mp hx
  rw [odds_getElem?] at hi
  exact List.mem_of_getElem? hi

theorem evens_map {β : Type*} (f : α → β) (list : List α) :
    evens (list.map f) = (evens list).map f := by
  induction list using evens.induct with
  | case1 => rfl
  | case2 => rfl
  | case3 x y rest ih => simp [evens, ih]

theorem odds_map {β : Type*} (f : α → β) (list : List α) :
    odds (list.map f) = (odds list).map f := by
  induction list using evens.induct with
  | case1 => rfl
  | case2 => rfl
  | case3 x y rest ih => simp [odds, ih]

end Lists

end Purrdf.Fourier
