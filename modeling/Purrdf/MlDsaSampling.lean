import Purrdf.LatticePacking
import Purrdf.MlDsaRounding

/-!
# Sampling

Polynomials out of the bytes that a sponge gives: uniform ones for the public matrix, small ones
for the secrets, masks, and challenges with 49 coefficients that are not zero. Rejection is
bounded, and an exhausted budget is an error.
-/

namespace Purrdf.MlDsa

open Purrdf.Lattice

abbrev Outcome (α : Type) : Type :=
  ExceptT Error Option α

/-- The bytes that can be squeezed out after some were absorbed. -/
structure Sponges where
  shake128 : List UInt8 → Nat → UInt8
  shake256 : List UInt8 → Nat → UInt8

def l : Nat := 5

def squeeze (stream : Nat → UInt8) (start length : Nat) : List UInt8 :=
  (List.range length).map fun index => stream (start + index)

def hash (sponges : Sponges) (parts : List (List UInt8)) (length : Nat) : List UInt8 :=
  squeeze (sponges.shake256 parts.flatten) 0 length

def boundedFill : List UInt8 → Poly → Nat → Option (Poly × Nat)
  | [], out, index => some (out, index)
  | candidate :: candidates, out, index =>
    if candidate.toNat < 9 then do
      let out ← Lattice.store out index (4 - (candidate.toNat : Int))
      if index + 1 = 256 then some (out, index + 1) else boundedFill candidates out (index + 1)
    else boundedFill candidates out index

def bounded (stream : Nat → UInt8) : Nat → Nat → Poly → Nat → Outcome Poly
  | 0, _, _, _ => throw .samplingExhausted
  | budget + 1, start, out, index => do
    let (out, index) ← boundedFill [stream start &&& 15, stream start >>> 4] out index
    if index = 256 then pure out else bounded stream budget (start + 1) out index

def mask (sponges : Sponges) (seed : List UInt8) (nonce : Nat) : Option (List Poly) :=
  (List.range l).mapM fun index => do
    guard (nonce + index < 2 ^ 16)
    unpack (hash sponges [seed, leBytes 2 (nonce + index)] 640) 20 (some gamma1)

section
variable {α β : Type}

theorem mapM_eq_some {f : α → Option β} {items : List α} {results : List β} :
    items.mapM f = some results ↔ List.Forall₂ (fun item result => f item = some result) items results := by
  induction items generalizing results with
  | nil => 
    rw [List.mapM_nil, Option.pure_def, Option.some.injEq, List.forall₂_nil_left_iff, eq_comm]
  | cons item items ih =>
    rw [List.mapM_cons, Option.bind_eq_bind, Option.bind_eq_some_iff, List.forall₂_cons_left_iff]
    constructor
    · rintro ⟨result, hresult, hrest⟩
      obtain ⟨results, hresults, hsame⟩ := Option.bind_eq_some_iff.mp hrest
      exact ⟨result, results, hresult, ih.mp hresults, (Option.some.inj hsame).symm⟩
    · rintro ⟨result, results, hresult, hresults, rfl⟩
      exact ⟨result, hresult, Option.bind_eq_some_iff.mpr ⟨results, ih.mpr hresults, rfl⟩⟩

end

/-! ### What is sampled -/

def Filled (good : Int → Prop) (out : Poly) (index : Nat) : Prop :=
  ∀ (place : Nat) (hplace : place < 256), place < index → good out[place]

theorem Filled.store {good : Int → Prop} {out : Poly} {index : Nat} (hfilled : Filled good out index)
    {value : Int} (hvalue : good value) (hindex : index < 256) :
    Filled good (out.set index value) (index + 1) := by
  intro place hplace hless
  rw [Vector.getElem_set]
  split
  · exact hvalue
  · exact hfilled place hplace (by omega)

theorem Filled.all {good : Int → Prop} {out : Poly} (hfilled : Filled good out 256) :
    ∀ value ∈ out.toList, good value := by
  intro value hvalue
  obtain ⟨place, hplace, rfl⟩ := List.getElem_of_mem hvalue
  rw [Vector.length_toList] at hplace
  rw [Vector.getElem_toList]
  exact hfilled place hplace hplace

def weight (poly : Poly) : Nat :=
  (poly.toList.map Int.natAbs).sum

theorem sum_set (values : List Int) {index : Nat} (hindex : index < values.length) (value : Int) :
    ((values.set index value).map Int.natAbs).sum + values[index].natAbs =
      (values.map Int.natAbs).sum + value.natAbs := by
  induction values generalizing index with
  | nil => exact absurd hindex (Nat.not_lt_zero _)
  | cons head values ih =>
    cases index with
    | zero =>
      simp only [List.set_cons_zero, List.map_cons, List.sum_cons, List.getElem_cons_zero]
      omega
    | succ index =>
      have hrest := ih (Nat.lt_of_succ_lt_succ hindex)
      simp only [List.set_cons_succ, List.map_cons, List.sum_cons, List.getElem_cons_succ]
      omega

theorem weight_set (poly : Poly) {place : Nat} (hplace : place < 256) (value : Int) :
    weight (poly.set place value) + poly[place].natAbs = weight poly + value.natAbs := by
  have hinside : place < poly.toList.length := by simpa using hplace
  have hsum := sum_set poly.toList hinside value
  rwa [Vector.getElem_toList, ← Vector.toList_set] at hsum

structure Drawn (poly : Poly) (index : Nat) : Prop where
  empty : ∀ (place : Nat) (hplace : place < 256), index ≤ place → poly[place] = 0
  small : ∀ (place : Nat) (hplace : place < 256), |poly[place]| ≤ 1

theorem Drawn.next {poly : Poly} {index position : Nat} (hdrawn : Drawn poly index)
    (hindex : index < 256) (hposition : position ≤ index) {sign : Int} (hsign : |sign| = 1) :
    Drawn ((poly.set index poly[position]).set position sign) (index + 1) ∧
      weight ((poly.set index poly[position]).set position sign) = weight poly + 1 := by
  have hone : sign.natAbs = 1 := by
    rw [Int.abs_eq_natAbs] at hsign
    exact_mod_cast hsign
  constructor
  · constructor
    · intro place hplace hlater
      rw [Vector.getElem_set_ne _ _ (show position ≠ place by omega),
        Vector.getElem_set_ne _ _ (show index ≠ place by omega)]
      exact hdrawn.empty place hplace (by omega)
    · intro place hplace
      rw [Vector.getElem_set, Vector.getElem_set]
      split
      · exact hsign.le
      · split
        · exact hdrawn.small position (by omega)
        · exact hdrawn.small place hplace
  · have hfirst := weight_set poly hindex poly[position]
    have hsecond := weight_set (poly.set index poly[position]) (show position < 256 by omega) sign
    have hkept : (poly.set index poly[position])[position] = poly[position] := by
      rw [Vector.getElem_set]
      split <;> rfl
    rw [hdrawn.empty index hindex (Nat.le_refl _), Int.natAbs_zero] at hfirst
    rw [hkept, hone] at hsecond
    omega

end Purrdf.MlDsa
