import Purrdf.LatticeLayers

/-!
# Both transforms

The transform takes a polynomial to what is left of it at the leaves, and the inverse takes what is
left there back to the polynomial modulo `X ^ 256 + 1`.
-/

namespace Purrdf.Lattice

open RemainderTree Polynomial

variable {params : Params} {levels : Nat}

/-! ### Down to the leaves -/

theorem lengthsDown_small {minLength length : Nat} (hlength : length < minLength) :
    lengthsDown minLength length = [] := by
  rw [lengthsDown, dif_neg (by omega)]

theorem lengthsDown_step {minLength length : Nat} (hpositive : 0 < length)
    (hlength : minLength ≤ length) :
    lengthsDown minLength length = length :: lengthsDown minLength (length / 2) := by
  rw [lengthsDown, dif_pos ⟨hpositive, hlength⟩]

def turnsDown (params : Params) (level width : Nat) : List Turn :=
  (((lengthsDown params.minLength (width / 2)).flatMap blocks).zipIdx (2 ^ level)).flatMap
    fun entry => turnsOf entry.2 entry.1.1 entry.1.2

theorem Sound.minLength_pos (hsound : Sound params levels) : 0 < params.minLength := by
  have hsize := hsound.size
  by_contra hzero
  rw [Nat.eq_zero_of_not_pos hzero] at hsize
  simp at hsize

theorem turnsDown_leaf (hsound : Sound params levels) :
    turnsDown params levels params.minLength = [] := by
  have hpositive := hsound.minLength_pos
  rw [turnsDown, lengthsDown_small (by omega)]
  rfl

theorem turnsDown_step {level length : Nat} (hsize : 2 ^ level * (2 * length) = 256)
    (hpositive : 0 < length) (hlength : params.minLength ≤ length) :
    turnsDown params level (2 * length) =
      layer (2 ^ level + ·) (2 ^ level) length ++ turnsDown params (level + 1) length := by
  have hhalf : 2 * length / 2 = length := by omega
  have hcount : (blocks length).length = 2 ^ level := by simp [blocks_eq hsize]
  have hpow : 2 ^ level + 2 ^ level = 2 ^ (level + 1) := by rw [pow_succ']; ring
  rw [turnsDown, hhalf, lengthsDown_step hpositive hlength, List.flatMap_cons, List.zipIdx_append,
    List.flatMap_append, hcount, hpow]
  congr 1
  exact turns_eq hsize (2 ^ level) id

theorem two_pow_le {level width : Nat} (hsize : 2 ^ level * width = 256) : 2 ^ level ≤ 256 := by
  apply Nat.le_of_dvd (by decide)
  exact ⟨width, hsize.symm⟩

theorem ntt_layers (hsound : Sound params levels) (left : Nat) {level : Nat}
    (hlevel : level + left = levels) {p : (ZMod params.modulus)[X]} {poly : Poly}
    (hreduced : Reduced params poly)
    (hheld : Level p (residues params poly) level (params.minLength * 2 ^ left)) :
    (∀ turn ∈ turnsDown params level (params.minLength * 2 ^ left), turn.Inside) ∧
    ∃ last, (turnsDown params level (params.minLength * 2 ^ left)).foldlM params.nttTurn poly =
      some last ∧ Reduced params last ∧
      Level p (residues params last) levels params.minLength := by
  induction left generalizing level poly with
  | zero =>
    obtain rfl : level = levels := hlevel
    rw [pow_zero, Nat.mul_one] at hheld ⊢
    rw [turnsDown_leaf hsound]
    exact ⟨by simp, poly, rfl, hreduced, hheld⟩
  | succ left ih =>
    have hwidth : params.minLength * 2 ^ (left + 1) = 2 * (params.minLength * 2 ^ left) := by
      rw [pow_succ]
      ring
    have hsize : 2 ^ level * (2 * (params.minLength * 2 ^ left)) = 256 := by
      rw [← hwidth, ← hsound.size, ← hlevel, pow_add]
      ring
    have hpositive : 0 < params.minLength * 2 ^ left :=
      Nat.mul_pos hsound.minLength_pos (Nat.two_pow_pos left)
    have hnext : 2 ^ (level + 1) ≤ 256 := by
      have hrest : 2 ^ (level + 1) * (params.minLength * 2 ^ left) = 256 := by
        rw [← hsize, pow_succ]
        ring
      exact two_pow_le hrest
    rw [hwidth] at hheld ⊢
    rw [turnsDown_step hsize hpositive (Nat.le_mul_of_pos_right _ (Nat.two_pow_pos left))]
    obtain ⟨middle, hmiddle, hmiddleReduced, hmiddleHeld⟩ :=
      ntt_layer hsound (by omega) hsize hnext hreduced hheld
    obtain ⟨hinside, last, hlast, hlastReduced, hlastHeld⟩ :=
      ih (by omega) hmiddleReduced hmiddleHeld
    refine ⟨?_, last, ?_, hlastReduced, hlastHeld⟩
    · intro turn hturn
      rcases List.mem_append.mp hturn with hfirst | hrest
      · apply layer_inside hsize _ turn hfirst
        intro block hblock
        rw [pow_succ] at hnext
        omega
      · exact hinside turn hrest
    · rw [List.foldlM_append, hmiddle]
      exact hlast

/-! ### Up from the leaves -/

theorem lengthsUp_whole : lengthsUp 256 = [] := by
  rw [lengthsUp, dif_neg (by omega)]

theorem lengthsUp_step {length : Nat} (hpositive : 0 < length) (hlength : length < 256) :
    lengthsUp length = length :: lengthsUp (2 * length) := by
  rw [lengthsUp, dif_pos ⟨hpositive, hlength⟩]

def turnsUp (params : Params) (level width : Nat) : List Turn :=
  (((lengthsUp width).flatMap blocks).zipIdx (256 / params.minLength + 1 - 2 ^ level)).flatMap
    fun entry => turnsOf (256 / params.minLength - entry.2) entry.1.1 entry.1.2

theorem Sound.leaves_eq (hsound : Sound params levels) :
    256 / params.minLength = 2 ^ levels := by
  rw [← hsound.size, Nat.mul_div_cancel _ hsound.minLength_pos]

theorem turnsUp_root : turnsUp params 0 256 = [] := by
  rw [turnsUp, lengthsUp_whole]
  rfl

theorem turnsUp_step (hsound : Sound params levels) {level length : Nat} (hlevel : level < levels)
    (hsize : 2 ^ level * (2 * length) = 256) :
    ∃ indexOf : Nat → Nat, (∀ block < 2 ^ level, indexOf block = 2 ^ (level + 1) - 1 - block) ∧
      turnsUp params (level + 1) length =
        layer indexOf (2 ^ level) length ++ turnsUp params level (2 * length) := by
  have hpositive : 0 < length := by
    by_contra hzero
    rw [Nat.eq_zero_of_not_pos hzero] at hsize
    simp at hsize
  have hcount : (blocks length).length = 2 ^ level := by simp [blocks_eq hsize]
  have hpow : 2 ^ (level + 1) = 2 ^ level + 2 ^ level := by rw [pow_succ']; ring
  have hfew : 2 ^ (level + 1) ≤ 2 ^ levels := Nat.pow_le_pow_right (by decide) hlevel
  have hlength : length < 256 := by
    have hsome := Nat.two_pow_pos level
    calc length < 2 * length := by omega
      _ ≤ 2 ^ level * (2 * length) := Nat.le_mul_of_pos_left _ hsome
      _ = 256 := hsize
  refine ⟨fun block => 2 ^ levels - (2 ^ levels + 1 - 2 ^ (level + 1) + block), ?_, ?_⟩
  · intro block hblock
    dsimp only
    omega
  · have hfirst : 2 ^ levels + 1 - 2 ^ (level + 1) + 2 ^ level = 2 ^ levels + 1 - 2 ^ level := by
      omega
    rw [turnsUp, lengthsUp_step hpositive hlength, List.flatMap_cons, List.zipIdx_append,
      List.flatMap_append, hcount, hsound.leaves_eq, hfirst,
      turns_eq hsize _ (fun entry => 2 ^ levels - entry), turnsUp, hsound.leaves_eq]

theorem inverse_layers (hsound : Sound params levels) {level width : Nat} (hlevel : level ≤ levels)
    (hsize : 2 ^ level * width = 256) {p : (ZMod params.modulus)[X]} {poly : Poly}
    (hreduced : Reduced params poly) (hheld : Level p (residues params poly) level width) :
    (∀ turn ∈ turnsUp params level width, turn.Inside) ∧
    ∃ last, (turnsUp params level width).foldlM params.inverseTurn poly = some last ∧
      Reduced params last ∧ Level (2 ^ level * p) (residues params last) 0 256 := by
  induction level generalizing width p poly with
  | zero =>
    obtain rfl : width = 256 := by simpa using hsize
    rw [turnsUp_root, pow_zero, one_mul]
    exact ⟨by simp, poly, rfl, hreduced, hheld⟩
  | succ level ih =>
    have hsize' : 2 ^ level * (2 * width) = 256 := by
      rw [← hsize, pow_succ]
      ring
    have hpow : 2 ^ (level + 1) = 2 * 2 ^ level := pow_succ' 2 level
    have hindex := two_pow_le hsize
    obtain ⟨indexOf, hindexOf, hturns⟩ := turnsUp_step hsound hlevel hsize'
    obtain ⟨middle, hmiddle, hmiddleReduced, hmiddleHeld⟩ :=
      inverse_layer hsound hlevel hsize' hindex hindexOf hreduced hheld
    obtain ⟨hinside, last, hlast, hlastReduced, hlastHeld⟩ :=
      ih (by omega) hsize' hmiddleReduced hmiddleHeld
    rw [hturns]
    refine ⟨?_, last, ?_, hlastReduced, ?_⟩
    · intro turn hturn
      rcases List.mem_append.mp hturn with hfirst | hrest
      · apply layer_inside hsize' _ turn hfirst
        intro block hblock
        rw [hindexOf block hblock]
        omega
      · exact hinside turn hrest
    · rw [List.foldlM_append, hmiddle]
      exact hlast
    · rw [pow_succ, mul_assoc]
      exact hlastHeld

end Purrdf.Lattice

/-!
## Products of transforms

Transforms are multiplied leaf by leaf, and the inverse gives the product modulo `X ^ 256 + 1` and
the modulus.
-/

namespace Purrdf.Lattice

open RemainderTree Polynomial

variable {params : Params} {levels : Nat}

/-- Coefficients strictly between minus and plus the modulus. -/
def Small (params : Params) (poly : Poly) : Prop :=
  ∀ (place : Nat) (value : Int), poly[place]? = some value →
    -(params.modulus : Int) < value ∧ value < params.modulus

def coefficient (poly : Poly) (place : Nat) : Int :=
  poly[place]?.getD 0

/-- A coefficient of the product modulo `X ^ 256 + 1`. -/
def negacyclic (a b : Poly) (place : Nat) : Int :=
  ∑ j ∈ Finset.range 256, (if place < j then -1 else 1) *
    (coefficient a j * coefficient b ((place + 256 - j) % 256))

def modulo (params : Params) (coefficients : Nat → Int) : Poly :=
  Vector.ofFn fun place => coefficients place % params.modulus

def Throughout (params : Params) (step : Poly → Turn → Option Poly) (turns : List Turn)
    (poly : Poly) : Prop :=
  ∀ earlier, earlier <+: turns → ∃ state, earlier.foldlM step poly = some state ∧
    Reduced params state

theorem Butterfly.throughout {step : Poly → Turn → Option Poly}
    {low high : ZMod params.modulus → ZMod params.modulus → ZMod params.modulus →
      ZMod params.modulus} (hstep : Butterfly params step low high) {turns : List Turn}
    (hturns : ∀ turn ∈ turns, turn.Inside) {poly : Poly} (hreduced : Reduced params poly) :
    Throughout params step turns poly := by
  intro earlier hearlier
  exact hstep.reduced earlier (fun turn hturn => hturns turn (hearlier.subset hturn)) hreduced

/-! ### There and back -/

variable {p : (ZMod params.modulus)[X]}

theorem level_zero (hsound : Sound params levels) {v : Nat → ZMod params.modulus} :
    Level p v 0 256 ↔ Leaves p v 0 256 (-1) := by
  have hroot : Leaves p v (0 * 256) 256 (constant params (2 ^ 0 + 0)) ↔ Leaves p v 0 256 (-1) := by
    rw [Nat.zero_mul, pow_zero, Nat.add_zero, constant_one hsound]
  rw [← hroot]
  constructor
  · intro hlevel
    exact hlevel 0 (by decide)
  · intro hleaves block hblock
    obtain rfl : block = 0 := by simpa using hblock
    exact hleaves

noncomputable def polynomial (params : Params) (poly : Poly) : (ZMod params.modulus)[X] :=
  block (residues params poly) 0 256

theorem ntt_spec (hsound : Sound params levels) {poly : Poly} (hsmall : Small params poly) :
    ∃ start transform, inPlace (fun _ => params.canonical) poly = some start ∧
      Throughout params params.nttTurn params.nttTurns start ∧
      params.ntt poly = some transform ∧ Reduced params transform ∧
      Level (polynomial params poly) (residues params transform) levels params.minLength := by
  obtain ⟨start, hstart, hstartReduced, hsame⟩ :=
    inPlace_spec (fun _ => params.canonical) poly (residues params poly) (by
      intro place value hvalue
      rw [residues_eq hvalue]
      exact canonical_spec hsound value (hsmall place value hvalue).1.le
        (hsmall place value hvalue).2)
  have hturns : params.nttTurns = turnsDown params 0 (params.minLength * 2 ^ levels) := by
    rw [Nat.mul_comm, hsound.size]
    rfl
  have hheld : Level (polynomial params poly) (residues params start) 0
      (params.minLength * 2 ^ levels) := by
    rw [Nat.mul_comm, hsound.size, level_zero hsound]
    apply (Leaves.refl (residues params poly) 0 256 (-1)).congr
    intro t ht
    rw [Nat.zero_add]
    exact hsame t ht
  obtain ⟨hinside, transform, htransform, hreduced, hleaves⟩ :=
    ntt_layers hsound levels (Nat.zero_add levels) hstartReduced hheld
  rw [← hturns] at hinside htransform
  refine ⟨start, transform, hstart, (ntt_butterfly hsound).throughout hinside hstartReduced, ?_,
    hreduced, hleaves⟩
  rw [Params.ntt, hstart]
  exact htransform

theorem Sound.scale_eq (hsound : Sound params levels) :
    residue params params.inverseScale * 2 ^ levels = 1 := by
  have hscale : (params.inverseScale * 2 ^ levels) % params.modulus = 1 % params.modulus := by
    rw [hsound.scale, Nat.mod_eq_of_lt hsound.some]
  have hcast := (ZMod.natCast_eq_natCast_iff' _ _ _).mpr hscale
  simpa [residue] using hcast

theorem inverse_spec (hsound : Sound params levels) {poly : Poly} (hreduced : Reduced params poly)
    (hheld : Level p (residues params poly) levels params.minLength) :
    Throughout params params.inverseTurn params.inverseTurns poly ∧
    ∃ out, params.inverse poly = some out ∧ Reduced params out ∧
      Leaves p (residues params out) 0 256 (-1) := by
  have hturns : params.inverseTurns = turnsUp params levels params.minLength := by
    rw [turnsUp, hsound.leaves_eq, Nat.add_sub_cancel_left, Params.inverseTurns, hsound.leaves_eq]
  obtain ⟨hinside, last, hlast, hlastReduced, hlastHeld⟩ :=
    inverse_layers hsound (Nat.le_refl levels) hsound.size hreduced hheld
  rw [← hturns] at hinside hlast
  have hscale : InRange params params.inverseScale :=
    ⟨Int.natCast_nonneg _, by exact_mod_cast hsound.reduced⟩
  obtain ⟨out, hout, houtReduced, hscaled⟩ :=
    inPlace_spec (fun _ value => params.mul value params.inverseScale) last
      (fun place => residues params last place * residue params params.inverseScale) (by
        intro place value hvalue
        rw [residues_eq hvalue]
        exact mul_spec hsound (hlastReduced place value hvalue) hscale)
  refine ⟨(inverse_butterfly hsound).throughout hinside hreduced, out, ?_, houtReduced, ?_⟩
  · rw [Params.inverse, hlast]
    exact hout
  · have hwhole := (level_zero hsound).mp hlastHeld
    have hfactor : (2 ^ levels : (ZMod params.modulus)[X]) = C (2 ^ levels) := by
      rw [C_pow, C_ofNat]
    rw [hfactor] at hwhole
    apply hwhole.scale hsound.scale_eq
    intro t ht
    rw [Nat.zero_add, hscaled t ht, mul_comm]

theorem eq_emod {value target : Int} (hvalue : InRange params value)
    (hsame : residue params value = residue params target) : value = target % params.modulus := by
  have hmod := (ZMod.intCast_eq_intCast_iff' _ _ _).mp hsame
  rw [← hmod, Int.emod_eq_of_lt hvalue.1 hvalue.2]

theorem out_eq {out : Poly} {coefficients : Nat → Int} (hreduced : Reduced params out)
    (hout : Leaves p (residues params out) 0 256 (-1))
    (htarget : Leaves p (fun place => residue params (coefficients place)) 0 256 (-1)) :
    out = modulo params coefficients := by
  apply Vector.ext
  intro place hplace
  have hvalue : out[place]? = some out[place] := Vector.getElem?_eq_getElem hplace
  have hsame := hout.unique htarget hplace
  rw [residues_eq hvalue] at hsame
  rw [modulo, Vector.getElem_ofFn]
  exact eq_emod (hreduced place _ hvalue) hsame

theorem twisted_residues (a b : Poly) {place : Nat} (hplace : place < 256) :
    residue params (negacyclic a b place) =
      twisted (-1) 256 (residues params a) (residues params b) place := by
  unfold residue negacyclic twisted
  rw [Int.cast_sum]
  apply Finset.sum_congr rfl
  intro j hj
  have hj' := Finset.mem_range.mp hj
  unfold shifted residues residue coefficient
  by_cases hlater : place < j
  · have hindex : (place + 256 - j) % 256 = 256 + place - j := by omega
    rw [if_pos hlater, if_neg (by omega), hindex]
    push_cast
    ring
  · have hindex : (place + 256 - j) % 256 = place - j := by omega
    rw [if_neg hlater, if_pos (by omega), hindex]
    push_cast
    ring

theorem negacyclic_leaves (a b : Poly) :
    Leaves (polynomial params a * polynomial params b)
      (fun place => residue params (negacyclic a b place)) 0 256 (-1) := by
  apply (twisted_leaves (-1) 256 (residues params a) (residues params b)).congr
  intro place hplace
  rw [Nat.zero_add]
  exact twisted_residues a b hplace

/-! ### Leaf by leaf -/

def Multiplying (params : Params) (levels : Nat) (product : Poly → Poly → Option Poly) : Prop :=
  ∀ (left right : Poly) (p q : (ZMod params.modulus)[X]), Reduced params left →
    Reduced params right → Level p (residues params left) levels params.minLength →
    Level q (residues params right) levels params.minLength →
    ∃ out, product left right = some out ∧ Reduced params out ∧
      Level (p * q) (residues params out) levels params.minLength

theorem pointwise_multiplying : Multiplying dsa 8 dsa.pointwise := by
  intro left right p q hleft hright hp hq
  obtain ⟨out, hout, houtReduced, hproduct⟩ :=
    inPlace_spec (fun place a => do
        let b ← right[place]?
        dsa.mul a b) left
      (fun place => residues dsa left place * residues dsa right place) (by
        intro place value hvalue
        have hplace : place < 256 := by
          by_contra hpast
          simp [Vector.getElem?_eq_none (Nat.not_lt.mp hpast)] at hvalue
        obtain ⟨other, hother⟩ := load right place hplace
        have hmul := mul_spec dsa_sound (hleft place value hvalue) (hright place other hother)
        simpa [hother, residues_eq hvalue, residues_eq hother] using hmul)
  refine ⟨out, hout, houtReduced, ?_⟩
  intro block hblock
  apply (hp block hblock).mul_single (hq block hblock)
  apply hproduct
  change block * 1 < 256
  rw [Nat.mul_one]
  exact hblock

/-- A pair of coefficients gains the product of two remainders modulo `X ^ 2` minus its root. -/
theorem accumulatePair_spec {a b out : Poly} (ha : Reduced kem a) (hb : Reduced kem b)
    (hout : Reduced kem out) (index : Nat) (hindex : index < 128) :
    ∃ next, accumulatePair a b out index = some next ∧ Reduced kem next ∧
      residues kem next (2 * index) = residues kem out (2 * index) +
        (residues kem a (2 * index) * residues kem b (2 * index) +
          residues kem a (2 * index + 1) * residues kem b (2 * index + 1) *
            quadraticRoot index) ∧
      residues kem next (2 * index + 1) = residues kem out (2 * index + 1) +
        (residues kem a (2 * index) * residues kem b (2 * index + 1) +
          residues kem a (2 * index + 1) * residues kem b (2 * index)) ∧
      ∀ other, other ≠ 2 * index → other ≠ 2 * index + 1 →
        residues kem next other = residues kem out other := by
  have hplace : 2 * index < 256 := by omega
  have hplace' : 2 * index + 1 < 256 := by omega
  obtain ⟨a₀, ha₀⟩ := load a _ hplace
  obtain ⟨b₀, hb₀⟩ := load b _ hplace
  obtain ⟨a₁, ha₁⟩ := load a _ hplace'
  obtain ⟨b₁, hb₁⟩ := load b _ hplace'
  obtain ⟨first, hfirst⟩ := load out _ hplace
  obtain ⟨second, hsecond⟩ := load out _ hplace'
  have hroot : InRange kem (quadraticRoot index : Int) := rootPower_inRange kem_sound _
  have hgamma : quadraticRoots[index]? = some (quadraticRoot index : Int) := by
    simp [quadraticRoots, hindex]
  obtain ⟨even, heven, hevenRange, hevenEq⟩ := mul_spec kem_sound (ha _ _ ha₀) (hb _ _ hb₀)
  obtain ⟨top, htop, htopRange, htopEq⟩ := mul_spec kem_sound (ha _ _ ha₁) (hb _ _ hb₁)
  obtain ⟨outer, houter, houterRange, houterEq⟩ := mul_spec kem_sound (ha _ _ ha₀) (hb _ _ hb₁)
  obtain ⟨inner, hinner, hinnerRange, hinnerEq⟩ := mul_spec kem_sound (ha _ _ ha₁) (hb _ _ hb₀)
  obtain ⟨folded, hfolded, hfoldedRange, hfoldedEq⟩ := mul_spec kem_sound htopRange hroot
  obtain ⟨low, hlow, hlowRange, hlowEq⟩ := add_spec kem_sound hevenRange hfoldedRange
  obtain ⟨low', hlow', hlowRange', hlowEq'⟩ := add_spec kem_sound (hout _ _ hfirst) hlowRange
  obtain ⟨high, hhigh, hhighRange, hhighEq⟩ := add_spec kem_sound houterRange hinnerRange
  obtain ⟨high', hhigh', hhighRange', hhighEq'⟩ :=
    add_spec kem_sound (hout _ _ hsecond) hhighRange
  obtain ⟨middle, hmiddle, -, hkept⟩ := store_spec out _ hplace low'
  have hsecond' : middle[2 * index + 1]? = some second := by
    rw [hkept _ (by omega), hsecond]
  obtain ⟨middle', next, hmiddle', hnext, hnextReduced, hnextLow, hnextHigh, hother⟩ :=
    store_pair hout hplace hplace' (by omega) hlowRange' hhighRange'
  obtain rfl : middle' = middle := Option.some.inj (hmiddle'.symm.trans hmiddle)
  refine ⟨next, ?_, hnextReduced, ?_, ?_, hother⟩
  · simp only [accumulatePair, hgamma, ha₀, hb₀, ha₁, hb₁, hfirst, heven, htop, houter, hinner,
      hfolded, hlow, hlow', hmiddle, hsecond', hhigh, hhigh', hnext, Option.bind_eq_bind,
      Option.bind_some]
  · rw [hnextLow, hlowEq', hlowEq, hevenEq, hfoldedEq, htopEq, residues_eq hfirst, residues_eq ha₀,
      residues_eq hb₀, residues_eq ha₁, residues_eq hb₁]
    simp [residue]
  · rw [hnextHigh, hhighEq', hhighEq, houterEq, hinnerEq, residues_eq hsecond, residues_eq ha₀,
      residues_eq hb₀, residues_eq ha₁, residues_eq hb₁]

def zero : Poly :=
  Vector.replicate 256 0

theorem accumulate_upTo {a b : Poly} (ha : Reduced kem a) (hb : Reduced kem b) {count : Nat}
    (hcount : count ≤ 128) :
    ∃ out, (List.range count).foldlM (accumulatePair a b) zero = some out ∧ Reduced kem out ∧
      (∀ index < count, residues kem out (2 * index) =
          residues kem a (2 * index) * residues kem b (2 * index) +
            residues kem a (2 * index + 1) * residues kem b (2 * index + 1) *
              quadraticRoot index ∧
        residues kem out (2 * index + 1) =
          residues kem a (2 * index) * residues kem b (2 * index + 1) +
            residues kem a (2 * index + 1) * residues kem b (2 * index)) ∧
      ∀ place, 2 * count ≤ place → residues kem out place = 0 := by
  have hnothing : ∀ place : Nat, zero[place]?.getD 0 = 0 := by
    intro place
    rw [zero, Vector.getElem?_replicate]
    split <;> rfl
  induction count with
  | zero =>
    refine ⟨zero, rfl, ?_, by simp, ?_⟩
    · intro place value hvalue
      have hzero := hnothing place
      rw [hvalue, Option.getD_some] at hzero
      rw [hzero]
      exact ⟨le_refl 0, by decide⟩
    · intro place _
      rw [residues, hnothing]
      simp [residue]
  | succ count ih =>
    obtain ⟨before, hbefore, hbeforeReduced, hdone, hrest⟩ := ih (by omega)
    obtain ⟨out, hout, houtReduced, hlow, hhigh, hother⟩ :=
      accumulatePair_spec ha hb hbeforeReduced count (by omega)
    refine ⟨out, ?_, houtReduced, ?_, ?_⟩
    · rw [List.range_succ, List.foldlM_append, hbefore]
      simp [hout]
    · intro index hindex
      by_cases hsame : index = count
      · rw [hsame, hlow, hhigh, hrest _ (by omega), hrest _ (by omega), zero_add, zero_add]
        exact ⟨rfl, rfl⟩
      · rw [hother _ (by omega) (by omega), hother _ (by omega) (by omega)]
        exact hdone index (by omega)
    · intro place hplace
      rw [hother _ (by omega) (by omega)]
      exact hrest place (by omega)

theorem quadraticRoot_cast {index : Nat} (hindex : index < 128) :
    (quadraticRoot index : ZMod kem.modulus) = constant kem (2 ^ 7 + index) :=
  (ZMod.natCast_eq_natCast_iff' _ _ _).mpr (quadraticRoot_eq index hindex)

theorem accumulateProduct_multiplying : Multiplying kem 7 (accumulateProduct zero) := by
  intro left right p q hleft hright hp hq
  obtain ⟨out, hout, houtReduced, hdone, -⟩ :=
    accumulate_upTo hleft hright (Nat.le_refl 128)
  refine ⟨out, hout, houtReduced, ?_⟩
  intro block hblock
  obtain ⟨hlow, hhigh⟩ := hdone block hblock
  have hplace : block * kem.minLength = 2 * block := Nat.mul_comm block 2
  apply (hp block hblock).mul_pair (hq block hblock)
  · rw [hplace, hlow, quadraticRoot_cast hblock]
  · rw [hplace, hhigh]

/-! ### The ring -/

/-- Reduced coefficients are added, subtracted and multiplied without overflow, and the result is
reduced. -/
def Closed (params : Params) : Prop :=
  ∀ c d, InRange params c → InRange params d →
    (∃ sum, params.add c d = some sum ∧ InRange params sum) ∧
    (∃ difference, params.sub c d = some difference ∧ InRange params difference) ∧
    ∃ product, params.mul c d = some product ∧ InRange params product

structure Transformed (params : Params) (poly transform : Poly) : Prop where
  result : params.ntt poly = some transform
  throughout : ∃ start, inPlace (fun _ => params.canonical) poly = some start ∧
    Throughout params params.nttTurn params.nttTurns start

structure Restored (params : Params) (transform out : Poly) : Prop where
  result : params.inverse transform = some out
  throughout : Throughout params params.inverseTurn params.inverseTurns transform

/-- Two polynomials come back from their transforms reduced, and multiplied from the product of
the two. -/
def Exact (params : Params) (product : Poly → Poly → Option Poly) (a b : Poly) : Prop :=
  ∃ left right both, Transformed params a left ∧ Transformed params b right ∧
    Restored params left (modulo params (coefficient a)) ∧
    Restored params right (modulo params (coefficient b)) ∧
    product left right = some both ∧ Restored params both (modulo params (negacyclic a b))

theorem closed_of_sound (hsound : Sound params levels) : Closed params := by
  intro c d hc hd
  obtain ⟨sum, hsum, hsumRange, -⟩ := add_spec hsound hc hd
  obtain ⟨difference, hdifference, hdifferenceRange, -⟩ := sub_spec hsound hc hd
  obtain ⟨product, hproduct, hproductRange, -⟩ := mul_spec hsound hc hd
  exact ⟨⟨sum, hsum, hsumRange⟩, ⟨difference, hdifference, hdifferenceRange⟩, product, hproduct,
    hproductRange⟩

theorem restored_of_level (hsound : Sound params levels) {transform : Poly}
    (hreduced : Reduced params transform)
    (hheld : Level p (residues params transform) levels params.minLength)
    {coefficients : Nat → Int}
    (htarget : Leaves p (fun place => residue params (coefficients place)) 0 256 (-1)) :
    Restored params transform (modulo params coefficients) := by
  obtain ⟨hthroughout, out, hout, houtReduced, hleaves⟩ := inverse_spec hsound hreduced hheld
  rw [out_eq houtReduced hleaves htarget] at hout
  exact ⟨hout, hthroughout⟩

theorem exact_of_multiplying (hsound : Sound params levels)
    {product : Poly → Poly → Option Poly} (hproduct : Multiplying params levels product)
    {a b : Poly} (ha : Small params a) (hb : Small params b) : Exact params product a b := by
  obtain ⟨start, left, hstart, hstartTurns, hleft, hleftReduced, hleftHeld⟩ := ntt_spec hsound ha
  obtain ⟨start', right, hstart', hstartTurns', hright, hrightReduced, hrightHeld⟩ :=
    ntt_spec hsound hb
  obtain ⟨both, hboth, hbothReduced, hbothHeld⟩ :=
    hproduct left right _ _ hleftReduced hrightReduced hleftHeld hrightHeld
  exact ⟨left, right, both, ⟨hleft, start, hstart, hstartTurns⟩,
    ⟨hright, start', hstart', hstartTurns'⟩,
    restored_of_level hsound hleftReduced hleftHeld (Leaves.refl (residues params a) 0 256 (-1)),
    restored_of_level hsound hrightReduced hrightHeld (Leaves.refl (residues params b) 0 256 (-1)),
    hboth, restored_of_level hsound hbothReduced hbothHeld (negacyclic_leaves a b)⟩

/-- Both transforms multiply modulo `X ^ 256 + 1`. -/
theorem ntt_multiplies (a b : Poly) :
    Closed dsa ∧ (Small dsa a → Small dsa b → Exact dsa dsa.pointwise a b) ∧
      Closed kem ∧ (Small kem a → Small kem b → Exact kem (accumulateProduct zero) a b) :=
  ⟨closed_of_sound dsa_sound, exact_of_multiplying dsa_sound pointwise_multiplying,
    closed_of_sound kem_sound, exact_of_multiplying kem_sound accumulateProduct_multiplying⟩

theorem small_replicate {value : Int} (hlow : -(params.modulus : Int) < value)
    (hhigh : value < params.modulus) : Small params (Vector.replicate 256 value) := by
  intro place held hheld
  rw [Vector.getElem?_replicate] at hheld
  split at hheld
  · exact Option.some.inj hheld ▸ ⟨hlow, hhigh⟩
  · cases hheld

theorem ntt_multiplies_constant :
    Exact dsa dsa.pointwise (Vector.replicate 256 (-1)) (Vector.replicate 256 2) ∧
      Exact kem (accumulateProduct zero) (Vector.replicate 256 (-1)) (Vector.replicate 256 2) := by
  obtain ⟨-, hdsa, -, hkem⟩ :=
    ntt_multiplies (Vector.replicate 256 (-1)) (Vector.replicate 256 2)
  exact ⟨hdsa (small_replicate (by decide) (by decide)) (small_replicate (by decide) (by decide)),
    hkem (small_replicate (by decide) (by decide)) (small_replicate (by decide) (by decide))⟩

end Purrdf.Lattice
