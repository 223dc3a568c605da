import Mathlib.Algebra.BigOperators.Ring.Finset
import Mathlib.Algebra.Ring.GeomSum
import Mathlib.RingTheory.RootsOfUnity.PrimitiveRoots
import Mathlib.Tactic.LinearCombination

/-!
# Discrete Fourier transforms

A list of coefficients and its values at the powers of a root. Values of an even number of
coefficients come from those of its two halves by butterflies, and the values at the powers of the
inverse root give the coefficients back.
-/

namespace Purrdf.Fourier

section Semiring

variable {R : Type*} [CommSemiring R]

/-! ### Values of coefficient lists -/

def evaluate (x : R) : List R → R
  | [] => 0
  | coefficient :: rest => coefficient + x * evaluate x rest

@[simp] theorem evaluate_nil (x : R) : evaluate x [] = 0 :=
  rfl

@[simp] theorem evaluate_cons (x coefficient : R) (rest : List R) :
    evaluate x (coefficient :: rest) = coefficient + x * evaluate x rest :=
  rfl

theorem evaluate_append (x : R) (low high : List R) :
    evaluate x (low ++ high) = evaluate x low + x ^ low.length * evaluate x high := by
  induction low with
  | nil => simp
  | cons coefficient low ih =>
    simp only [List.cons_append, evaluate_cons, List.length_cons, ih]
    ring

@[simp] theorem evaluate_replicate_zero (x : R) (n : Nat) :
    evaluate x (List.replicate n 0) = 0 := by
  induction n with
  | zero => rfl
  | succ n ih => simp [List.replicate_succ, ih]

theorem evaluate_map_mul (x factor : R) (coefficients : List R) :
    evaluate x (coefficients.map (factor * ·)) = factor * evaluate x coefficients := by
  induction coefficients with
  | nil => simp
  | cons coefficient rest ih =>
    simp only [List.map_cons, evaluate_cons, ih]
    ring

theorem evaluate_eq_sum (x : R) (coefficients : List R) :
    evaluate x coefficients =
      ∑ i ∈ Finset.range coefficients.length, coefficients.getD i 0 * x ^ i := by
  induction coefficients with
  | nil => simp
  | cons coefficient rest ih =>
    rw [List.length_cons, Finset.sum_range_succ', evaluate_cons, ih, Finset.mul_sum, add_comm]
    congr 1
    · refine Finset.sum_congr rfl fun i _ => ?_
      rw [List.getD_cons_succ, pow_succ]
      ring
    · simp

/-! ### Products of coefficient lists -/

def addLists : List R → List R → List R
  | [], b => b
  | a, [] => a
  | x :: a, y :: b => (x + y) :: addLists a b

def mulLists : List R → List R → List R
  | [], _ => []
  | x :: a, b => addLists (b.map (x * ·)) (0 :: mulLists a b)

theorem addLists_length (a b : List R) :
    (addLists a b).length = max a.length b.length := by
  induction a generalizing b with
  | nil => simp [addLists]
  | cons x a ih =>
    cases b with
    | nil => simp [addLists]
    | cons y b => simp [addLists, ih, Nat.succ_max_succ]

theorem mulLists_length_le (a b : List R) :
    (mulLists a b).length ≤ a.length + b.length := by
  induction a with
  | nil => simp [mulLists]
  | cons x a ih =>
    rw [mulLists, addLists_length]
    simp only [List.length_map, List.length_cons]
    omega

theorem evaluate_addLists (x : R) (a b : List R) :
    evaluate x (addLists a b) = evaluate x a + evaluate x b := by
  induction a generalizing b with
  | nil => simp [addLists]
  | cons y a ih =>
    cases b with
    | nil => simp [addLists]
    | cons z b =>
      simp only [addLists, evaluate_cons, ih]
      ring

theorem evaluate_mulLists (x : R) (a b : List R) :
    evaluate x (mulLists a b) = evaluate x a * evaluate x b := by
  induction a with
  | nil => simp [mulLists]
  | cons y a ih =>
    rw [mulLists, evaluate_addLists, evaluate_map_mul, evaluate_cons, evaluate_cons, ih]
    ring

theorem map_addLists {S : Type*} [CommSemiring S] (f : R →+* S) (a b : List R) :
    (addLists a b).map f = addLists (a.map f) (b.map f) := by
  induction a generalizing b with
  | nil => simp [addLists]
  | cons x a ih =>
    cases b with
    | nil => simp [addLists]
    | cons y b => simp [addLists, ih]

theorem map_mulLists {S : Type*} [CommSemiring S] (f : R →+* S) (a b : List R) :
    (mulLists a b).map f = mulLists (a.map f) (b.map f) := by
  induction a with
  | nil => simp [mulLists]
  | cons x a ih => simp [mulLists, map_addLists, ih, Function.comp_def]

@[simp] theorem evaluate_append_zeros (x : R) (coefficients : List R) (n : Nat) :
    evaluate x (coefficients ++ List.replicate n 0) = evaluate x coefficients := by
  rw [evaluate_append, evaluate_replicate_zero, mul_zero, add_zero]

/-- A coefficient of a product is a sum of at most as many products as there are digits. -/
theorem mulLists_le {a b : List Nat} {bound : Nat} (hbound : ∀ x ∈ a, ∀ y ∈ b, x * y ≤ bound) :
    ∀ coefficient ∈ mulLists a b, coefficient ≤ a.length * bound := by
  have hsum : ∀ {left right : List Nat} {m n : Nat}, (∀ x ∈ left, x ≤ m) → (∀ x ∈ right, x ≤ n) →
      ∀ x ∈ addLists left right, x ≤ m + n := by
    intro left right m n hleft hright
    induction left generalizing right with
    | nil =>
      intro x hx
      rw [addLists] at hx
      exact (hright x hx).trans (Nat.le_add_left n m)
    | cons x left ih =>
      cases right with
      | nil =>
        intro y hy
        rw [addLists] at hy
        · exact (hleft y hy).trans (Nat.le_add_right m n)
        · exact List.cons_ne_nil x left
      | cons y right =>
        intro z hz
        rw [addLists, List.mem_cons] at hz
        rcases hz with rfl | hz
        · exact Nat.add_le_add (hleft x List.mem_cons_self) (hright y List.mem_cons_self)
        · exact ih (fun w hw => hleft w (List.mem_cons_of_mem x hw))
            (fun w hw => hright w (List.mem_cons_of_mem y hw)) z hz
  induction a with
  | nil => simp [mulLists]
  | cons x a ih =>
    have hfirst : ∀ z ∈ b.map (x * ·), z ≤ bound := by
      intro z hz
      obtain ⟨y, hy, rfl⟩ := List.mem_map.mp hz
      exact hbound x List.mem_cons_self y hy
    have hrest : ∀ z ∈ 0 :: mulLists a b, z ≤ a.length * bound := by
      intro z hz
      rcases List.mem_cons.mp hz with rfl | hz
      · exact Nat.zero_le _
      · exact ih (fun w hw => hbound w (List.mem_cons_of_mem x hw)) z hz
    intro z hz
    rw [mulLists] at hz
    have hle := hsum hfirst hrest z hz
    rw [List.length_cons, Nat.succ_mul, Nat.add_comm]
    exact hle

/-! ### Even and odd coefficients -/

def evens : List R → List R
  | [] => []
  | [x] => [x]
  | x :: _ :: rest => x :: evens rest

def odds : List R → List R
  | [] => []
  | [_] => []
  | _ :: y :: rest => y :: odds rest

theorem evaluate_evens_odds (x : R) (coefficients : List R) :
    evaluate x coefficients =
      evaluate (x ^ 2) (evens coefficients) + x * evaluate (x ^ 2) (odds coefficients) := by
  induction coefficients using evens.induct with
  | case1 => simp [evens, odds]
  | case2 y => simp [evens, odds]
  | case3 y z rest ih =>
    simp only [evens, odds, evaluate_cons, ih]
    ring

def transform (root : R) (n : Nat) (coefficients : List R) : List R :=
  (List.range n).map fun k => evaluate (root ^ k) coefficients

@[simp] theorem transform_length (root : R) (n : Nat) (coefficients : List R) :
    (transform root n coefficients).length = n := by
  simp [transform]

theorem transform_mulLists (root : R) (n : Nat) (a b : List R) :
    List.zipWith (· * ·) (transform root n a) (transform root n b) =
      transform root n (mulLists a b) := by
  simp only [transform, List.zipWith_map, List.zipWith_self, evaluate_mulLists]

@[simp] theorem transform_append_zeros (root : R) (n : Nat) (coefficients : List R) (m : Nat) :
    transform root n (coefficients ++ List.replicate m 0) = transform root n coefficients := by
  simp only [transform, evaluate_append_zeros]

end Semiring

section Ring

variable {R : Type*} [CommRing R]

/-! ### Butterflies -/

def butterfly (root : R) : R → List R → List R → List R × List R
  | factor, even :: left, odd :: right =>
    let rest := butterfly root (factor * root) left right
    ((even + odd * factor) :: rest.1, (even - odd * factor) :: rest.2)
  | _, _, _ => ([], [])

theorem butterfly_map (root : R) (f g : Nat → R) (start n : Nat) :
    butterfly root (root ^ start) ((List.range' start n).map f) ((List.range' start n).map g) =
      ((List.range' start n).map fun k => f k + g k * root ^ k,
        (List.range' start n).map fun k => f k - g k * root ^ k) := by
  induction n generalizing start with
  | zero => rfl
  | succ n ih =>
    simp only [List.range'_succ, List.map_cons, butterfly, ← pow_succ, ih]

theorem transform_butterfly {root : R} {n : Nat} (hroot : root ^ n = -1)
    (coefficients : List R) :
    transform root (2 * n) coefficients =
      (butterfly root 1 (transform (root ^ 2) n (evens coefficients))
        (transform (root ^ 2) n (odds coefficients))).1 ++
      (butterfly root 1 (transform (root ^ 2) n (evens coefficients))
        (transform (root ^ 2) n (odds coefficients))).2 := by
  have hhalves := butterfly_map root
    (fun k => evaluate ((root ^ 2) ^ k) (evens coefficients))
    (fun k => evaluate ((root ^ 2) ^ k) (odds coefficients)) 0 n
  rw [pow_zero] at hhalves
  simp only [transform, List.range_eq_range'] at hhalves ⊢
  rw [hhalves, two_mul, ← List.range'_append_1, List.map_append]
  dsimp only
  congr 1
  · refine List.map_congr_left fun k _ => ?_
    rw [evaluate_evens_odds, ← pow_mul, ← pow_mul, Nat.mul_comm k]
    ring
  · rw [Nat.zero_add, List.range'_eq_map_range, List.range'_eq_map_range, List.map_map,
      List.map_map]
    refine List.map_congr_left fun k _ => ?_
    have hpower : root ^ (n + k) = -root ^ k := by
      rw [pow_add, hroot, neg_one_mul]
    simp only [Function.comp_apply, Nat.zero_add]
    rw [evaluate_evens_odds, hpower, neg_sq, ← pow_mul, ← pow_mul, Nat.mul_comm k]
    ring

end Ring

section Inverse

variable {R : Type*} [CommRing R] [IsDomain R]

theorem sum_powers_eq_zero {x : R} {n : Nat} (hpower : x ^ n = 1) (hx : x ≠ 1) :
    ∑ i ∈ Finset.range n, x ^ i = 0 := by
  have hproduct := geom_sum_mul x n
  rw [hpower, sub_self] at hproduct
  exact (mul_eq_zero.mp hproduct).resolve_right (sub_ne_zero.mpr hx)

theorem transform_transform {root inverse : R} {n : Nat} (hroot : IsPrimitiveRoot root n)
    (hinverse : root * inverse = 1) {coefficients : List R} (hlength : coefficients.length = n) :
    transform inverse n (transform root n coefficients) =
      coefficients.map ((n : R) * ·) := by
  have hreturn : inverse ^ n = 1 := by
    have hproduct := mul_pow root inverse n
    rw [hinverse, one_pow, hroot.pow_eq_one, one_mul] at hproduct
    exact hproduct.symm
  apply List.ext_getElem
  · simp [hlength]
  · intro k hk _
    rw [transform_length] at hk
    have hterm : ∀ j ∈ Finset.range n,
        ∑ i ∈ Finset.range n, (root ^ j * inverse ^ k) ^ i = if j = k then (n : R) else 0 := by
      intro j hj
      rw [Finset.mem_range] at hj
      split
      · rename_i hjk
        rw [hjk, ← mul_pow, hinverse]
        simp
      · rename_i hjk
        apply sum_powers_eq_zero
        · rw [mul_pow, ← pow_mul, ← pow_mul, Nat.mul_comm j, Nat.mul_comm k, pow_mul, pow_mul,
            hroot.pow_eq_one, hreturn, one_pow, one_pow, one_mul]
        · intro hone
          refine hjk (hroot.pow_inj hj hk ?_)
          calc root ^ j = root ^ j * (root * inverse) ^ k := by rw [hinverse, one_pow, mul_one]
            _ = root ^ j * inverse ^ k * root ^ k := by rw [mul_pow]; ring
            _ = root ^ k := by rw [hone, one_mul]
    have hvalue : ∀ i ∈ Finset.range n,
        (transform root n coefficients).getD i 0 * (inverse ^ k) ^ i =
          ∑ j ∈ Finset.range n, coefficients.getD j 0 * (root ^ j * inverse ^ k) ^ i := by
      intro i hi
      rw [Finset.mem_range] at hi
      have hget : (transform root n coefficients).getD i 0 = evaluate (root ^ i) coefficients := by
        simp [transform, List.getD_eq_getElem?_getD, hi]
      rw [hget, evaluate_eq_sum, hlength, Finset.sum_mul]
      refine Finset.sum_congr rfl fun j _ => ?_
      ring
    have hlist : (transform inverse n (transform root n coefficients))[k] =
        evaluate (inverse ^ k) (transform root n coefficients) := by
      simp [transform]
    rw [hlist, evaluate_eq_sum, transform_length, Finset.sum_congr rfl hvalue, Finset.sum_comm]
    have hsum : ∀ j ∈ Finset.range n,
        ∑ i ∈ Finset.range n, coefficients.getD j 0 * (root ^ j * inverse ^ k) ^ i =
          if j = k then (n : R) * coefficients.getD j 0 else 0 := by
      intro j hj
      rw [← Finset.mul_sum, hterm j hj]
      split <;> ring
    rw [Finset.sum_congr rfl hsum, Finset.sum_ite_eq', if_pos (Finset.mem_range.mpr hk)]
    simp [List.getD_eq_getElem?_getD, hlength, hk]

end Inverse

end Purrdf.Fourier
