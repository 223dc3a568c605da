import Purrdf.LatticeArithmetic

/-!
# The loops of the transforms

A turn changes two coefficients, a block of turns changes its two halves, and whatever turns are
taken the coefficients stay reduced.
-/

namespace Purrdf.Lattice

variable {params : Params} {levels : Nat}

def Reduced (params : Params) (poly : Poly) : Prop :=
  ∀ (place : Nat) (value : Int), poly[place]? = some value → InRange params value

def residues (params : Params) (poly : Poly) (place : Nat) : ZMod params.modulus :=
  residue params (poly[place]?.getD 0)

theorem load (poly : Poly) (place : Nat) (hplace : place < 256) :
    ∃ value, poly[place]? = some value :=
  ⟨poly[place], Vector.getElem?_eq_getElem hplace⟩

theorem residues_eq {poly : Poly} {place : Nat} {value : Int} (hvalue : poly[place]? = some value) :
    residues params poly place = residue params value := by
  rw [residues, hvalue, Option.getD_some]

theorem store_spec (poly : Poly) (place : Nat) (hplace : place < 256) (value : Int) :
    ∃ stored, store poly place value = some stored ∧ stored[place]? = some value ∧
      ∀ other, other ≠ place → stored[other]? = poly[other]? := by
  refine ⟨poly.set place value hplace, dif_pos hplace, ?_, ?_⟩
  · simp
  · intro other hother
    simp [Ne.symm hother]

theorem Reduced.store {poly stored : Poly} {place : Nat} {value : Int}
    (hreduced : Reduced params poly) (hvalue : InRange params value)
    (hhere : stored[place]? = some value)
    (hother : ∀ other, other ≠ place → stored[other]? = poly[other]?) :
    Reduced params stored := by
  intro other held hheld
  by_cases hsame : other = place
  · rw [hsame, hhere] at hheld
    exact Option.some.inj hheld ▸ hvalue
  · exact hreduced other held (hother other hsame ▸ hheld)

theorem inPlace_upTo (operation : Nat → Int → Option Int) (poly : Poly)
    (target : Nat → ZMod params.modulus)
    (hoperation : ∀ (place : Nat) (value : Int), poly[place]? = some value →
      Yields params (operation place value) (target place)) {count : Nat} (hcount : count ≤ 256) :
    ∃ result, (List.range count).foldlM (fun poly place => do
        let value ← poly[place]?
        let value ← operation place value
        Lattice.store poly place value) poly = some result ∧
      (∀ place < count, ∃ value, result[place]? = some value ∧ InRange params value ∧
        residue params value = target place) ∧
      ∀ place, count ≤ place → result[place]? = poly[place]? := by
  induction count with
  | zero => exact ⟨poly, rfl, by simp, by simp⟩
  | succ count ih =>
    obtain ⟨before, hbefore, hdone, hrest⟩ := ih (by omega)
    obtain ⟨value, hvalue⟩ := load before count (by omega)
    obtain ⟨next, hnext, hrange, htarget⟩ :=
      hoperation count value (by rw [← hrest count (Nat.le_refl _), hvalue])
    obtain ⟨stored, hstored, hhere, hother⟩ := store_spec before count (by omega) next
    refine ⟨stored, ?_, ?_, ?_⟩
    · rw [List.range_succ, List.foldlM_append, hbefore]
      simp only [List.foldlM_cons, List.foldlM_nil, hvalue, hnext, hstored, Option.bind_eq_bind,
        Option.bind_some, Option.pure_def]
    · intro place hplace
      by_cases hsame : place = count
      · exact ⟨next, hsame ▸ hhere, hrange, hsame ▸ htarget⟩
      · rw [hother place hsame]
        exact hdone place (by omega)
    · intro place hplace
      rw [hother place (by omega)]
      exact hrest place (by omega)

theorem inPlace_spec (operation : Nat → Int → Option Int) (poly : Poly)
    (target : Nat → ZMod params.modulus)
    (hoperation : ∀ (place : Nat) (value : Int), poly[place]? = some value →
      Yields params (operation place value) (target place)) :
    ∃ result, inPlace operation poly = some result ∧ Reduced params result ∧
      ∀ place < 256, residues params result place = target place := by
  obtain ⟨result, hresult, hdone, -⟩ :=
    inPlace_upTo operation poly target hoperation (Nat.le_refl 256)
  refine ⟨result, hresult, ?_, ?_⟩
  · intro place value hvalue
    have hplace : place < 256 := by
      by_contra hpast
      simp [Vector.getElem?_eq_none (Nat.not_lt.mp hpast)] at hvalue
    obtain ⟨held, hheld, hrange, -⟩ := hdone place hplace
    rw [hvalue] at hheld
    exact Option.some.inj hheld ▸ hrange
  · intro place hplace
    obtain ⟨value, hvalue, -, htarget⟩ := hdone place hplace
    rw [residues_eq hvalue, htarget]

/-! ### Turns -/

structure Turn.Inside (turn : Turn) : Prop where
  index : turn.index < 256
  length : 0 < turn.length
  offset : turn.offset + turn.length < 256

structure Turn.Apart (turn other : Turn) : Prop where
  low : turn.offset ≠ other.offset
  cross : turn.offset ≠ other.offset + other.length
  cross' : turn.offset + turn.length ≠ other.offset
  high : turn.offset + turn.length ≠ other.offset + other.length

def root (params : Params) (index : Nat) : ZMod params.modulus :=
  params.zeta index

structure Butterfly (params : Params) (step : Poly → Turn → Option Poly)
    (low high : ZMod params.modulus → ZMod params.modulus → ZMod params.modulus →
      ZMod params.modulus) : Prop where
  turn : ∀ poly turn, Reduced params poly → turn.Inside → ∃ next, step poly turn = some next ∧
    Reduced params next ∧
    residues params next turn.offset = low (root params turn.index)
      (residues params poly turn.offset) (residues params poly (turn.offset + turn.length)) ∧
    residues params next (turn.offset + turn.length) = high (root params turn.index)
      (residues params poly turn.offset) (residues params poly (turn.offset + turn.length)) ∧
    ∀ other, other ≠ turn.offset → other ≠ turn.offset + turn.length →
      residues params next other = residues params poly other

theorem zetas_eq {index : Nat} (hindex : index < 256) :
    params.zetas[index]? = some (params.zeta index : Int) := by
  simp [Params.zetas, hindex]

theorem store_pair {poly : Poly} (hreduced : Reduced params poly) {low high : Nat}
    (hlow : low < 256) (hhigh : high < 256) (hne : low ≠ high) {first second : Int}
    (hfirst : InRange params first) (hsecond : InRange params second) :
    ∃ middle next, store poly low first = some middle ∧ store middle high second = some next ∧
      Reduced params next ∧ residues params next low = residue params first ∧
      residues params next high = residue params second ∧
      ∀ other, other ≠ low → other ≠ high →
        residues params next other = residues params poly other := by
  obtain ⟨middle, hmiddle, hhere, hother⟩ := store_spec poly low hlow first
  obtain ⟨next, hnext, hhere', hother'⟩ := store_spec middle high hhigh second
  refine ⟨middle, next, hmiddle, hnext,
    (hreduced.store hfirst hhere hother).store hsecond hhere' hother', ?_, ?_, ?_⟩
  · exact residues_eq (by rw [hother' low hne, hhere])
  · exact residues_eq hhere'
  · intro other hotherLow hotherHigh
    rw [residues, hother' other hotherHigh, hother other hotherLow, residues]

theorem ntt_butterfly (hsound : Sound params levels) :
    Butterfly params params.nttTurn (fun z left right => left + z * right)
      (fun z left right => left - z * right) := by
  constructor
  intro poly turn hreduced hinside
  have hlength := hinside.length
  have hoffset : turn.offset < 256 :=
    Nat.lt_of_le_of_lt (Nat.le_add_right _ _) hinside.offset
  have hne : turn.offset ≠ turn.offset + turn.length := by omega
  obtain ⟨right, hright⟩ := load poly _ hinside.offset
  obtain ⟨left, hleft⟩ := load poly _ hoffset
  have hrootRange := rootPower_inRange hsound (params.bitReverse turn.index)
  obtain ⟨product, hproduct, hproductRange, hproductEq⟩ :=
    mul_spec hsound hrootRange (hreduced _ _ hright)
  obtain ⟨sum, hsum, hsumRange, hsumEq⟩ := add_spec hsound (hreduced _ _ hleft) hproductRange
  obtain ⟨difference, hdifference, hdifferenceRange, hdifferenceEq⟩ :=
    sub_spec hsound (hreduced _ _ hleft) hproductRange
  obtain ⟨middle, next, hmiddle, hnext, hnextReduced, hlow, hhigh, hother⟩ :=
    store_pair hreduced hoffset hinside.offset hne hsumRange
      hdifferenceRange
  have hroot : residue params (params.rootPower (params.bitReverse turn.index) : Int) =
      root params turn.index := by
    simp [residue, root, Params.zeta]
  refine ⟨next, ?_, hnextReduced, ?_, ?_, hother⟩
  · simp only [Params.nttTurn, zetas_eq hinside.index, Params.zeta, hright, hproduct, hleft, hsum,
      hmiddle, hdifference, hnext, Option.bind_eq_bind, Option.bind_some]
  · rw [hlow, hsumEq, hproductEq, hroot, residues_eq hleft, residues_eq hright]
  · rw [hhigh, hdifferenceEq, hproductEq, hroot, residues_eq hleft, residues_eq hright]

theorem inverse_butterfly (hsound : Sound params levels) :
    Butterfly params params.inverseTurn (fun _ left right => left + right)
      (fun z left right => z * (right - left)) := by
  constructor
  intro poly turn hreduced hinside
  have hlength := hinside.length
  have hoffset : turn.offset < 256 :=
    Nat.lt_of_le_of_lt (Nat.le_add_right _ _) hinside.offset
  have hne : turn.offset ≠ turn.offset + turn.length := by omega
  obtain ⟨right, hright⟩ := load poly _ hinside.offset
  obtain ⟨left, hleft⟩ := load poly _ hoffset
  have hrootRange := rootPower_inRange hsound (params.bitReverse turn.index)
  obtain ⟨sum, hsum, hsumRange, hsumEq⟩ :=
    add_spec hsound (hreduced _ _ hleft) (hreduced _ _ hright)
  obtain ⟨difference, hdifference, hdifferenceRange, hdifferenceEq⟩ :=
    sub_spec hsound (hreduced _ _ hright) (hreduced _ _ hleft)
  obtain ⟨product, hproduct, hproductRange, hproductEq⟩ :=
    mul_spec hsound hrootRange hdifferenceRange
  obtain ⟨middle, next, hmiddle, hnext, hnextReduced, hlow, hhigh, hother⟩ :=
    store_pair hreduced hoffset hinside.offset hne hsumRange
      hproductRange
  have hroot : residue params (params.rootPower (params.bitReverse turn.index) : Int) =
      root params turn.index := by
    simp [residue, root, Params.zeta]
  refine ⟨next, ?_, hnextReduced, ?_, ?_, hother⟩
  · simp only [Params.inverseTurn, zetas_eq hinside.index, Params.zeta, hright, hproduct, hleft,
      hsum, hmiddle, hdifference, hnext, Option.bind_eq_bind, Option.bind_some]
  · rw [hlow, hsumEq, residues_eq hleft, residues_eq hright]
  · rw [hhigh, hproductEq, hdifferenceEq, hroot, residues_eq hleft, residues_eq hright]

section
variable {step : Poly → Turn → Option Poly}
  {low high : ZMod params.modulus → ZMod params.modulus → ZMod params.modulus →
    ZMod params.modulus}

theorem Butterfly.reduced (hstep : Butterfly params step low high) (turns : List Turn)
    (hturns : ∀ turn ∈ turns, turn.Inside) {poly : Poly} (hreduced : Reduced params poly) :
    ∃ last, turns.foldlM step poly = some last ∧ Reduced params last := by
  induction turns generalizing poly with
  | nil => exact ⟨poly, rfl, hreduced⟩
  | cons turn turns ih =>
    obtain ⟨next, hnext, hnextReduced, -⟩ :=
      hstep.turn poly turn hreduced (hturns turn List.mem_cons_self)
    obtain ⟨last, hlast, hlastReduced⟩ :=
      ih (fun other hother => hturns other (List.mem_cons_of_mem _ hother)) hnextReduced
    refine ⟨last, ?_, hlastReduced⟩
    rw [List.foldlM_cons, hnext]
    exact hlast

theorem Butterfly.run (hstep : Butterfly params step low high) {turns : List Turn}
    (hturns : ∀ turn ∈ turns, turn.Inside) (hapart : turns.Pairwise Turn.Apart) {poly : Poly}
    (hreduced : Reduced params poly) :
    ∃ last, turns.foldlM step poly = some last ∧ Reduced params last ∧
      (∀ turn ∈ turns,
        residues params last turn.offset = low (root params turn.index)
          (residues params poly turn.offset) (residues params poly (turn.offset + turn.length)) ∧
        residues params last (turn.offset + turn.length) = high (root params turn.index)
          (residues params poly turn.offset) (residues params poly (turn.offset + turn.length))) ∧
      ∀ other, (∀ turn ∈ turns, other ≠ turn.offset ∧ other ≠ turn.offset + turn.length) →
        residues params last other = residues params poly other := by
  induction turns generalizing poly with
  | nil => exact ⟨poly, rfl, hreduced, by simp, by simp⟩
  | cons turn turns ih =>
    obtain ⟨hfirst, hrest⟩ := List.pairwise_cons.mp hapart
    obtain ⟨next, hnext, hnextReduced, hlow, hhigh, hother⟩ :=
      hstep.turn poly turn hreduced (hturns turn List.mem_cons_self)
    obtain ⟨last, hlast, hlastReduced, hturned, hkept⟩ :=
      ih (fun other hother => hturns other (List.mem_cons_of_mem _ hother)) hrest hnextReduced
    refine ⟨last, by rw [List.foldlM_cons, hnext]; exact hlast, hlastReduced, ?_, ?_⟩
    · intro other hmember
      rcases List.mem_cons.mp hmember with rfl | hmember
      · rw [hkept _ fun later hlater => ⟨(hfirst later hlater).low, (hfirst later hlater).cross⟩,
          hkept _ fun later hlater => ⟨(hfirst later hlater).cross', (hfirst later hlater).high⟩]
        exact ⟨hlow, hhigh⟩
      · have hplaces := hfirst other hmember
        rw [← hother other.offset hplaces.low.symm hplaces.cross'.symm,
          ← hother (other.offset + other.length) hplaces.cross.symm hplaces.high.symm]
        exact hturned other hmember
    · intro other hfree
      obtain ⟨hlow, hhigh⟩ := hfree turn List.mem_cons_self
      rw [hkept other fun later hlater => hfree later (List.mem_cons_of_mem _ hlater),
        hother other hlow hhigh]

end

end Purrdf.Lattice

/-!
## Layers

The turns of one length take every block of a level of the remainder tree to its two children, and
the turns of the inverse take two children back to twice their parent.
-/

namespace Purrdf.Lattice

open RemainderTree Polynomial

variable {params : Params} {levels : Nat}

/-! ### Nodes -/

/-- The number a node's block is a remainder by. -/
def constant (params : Params) (index : Nat) : ZMod params.modulus :=
  params.node index

theorem zeta_lt (hsound : Sound params levels) (index : Nat) :
    params.zeta index < params.modulus :=
  rootPowerFrom_lt hsound.some _ _ _ hsound.some

theorem constant_one (hsound : Sound params levels) : constant params 1 = -1 := by
  have hsome := hsound.some
  rw [constant, Params.node, if_pos rfl, Nat.cast_sub hsome.le]
  simp

theorem constant_even (index : Nat) :
    constant params (2 * index) = root params index := by
  have hhalf : 2 * index / 2 = index := by omega
  rw [constant, Params.node, if_neg (by omega), if_pos (by omega), hhalf, root]

theorem constant_odd (hsound : Sound params levels) {index : Nat} (hindex : 0 < index) :
    constant params (2 * index + 1) = -root params index := by
  have hhalf : (2 * index + 1) / 2 = index := by omega
  rw [constant, Params.node, if_neg (by omega), if_neg (by omega), hhalf,
    Nat.cast_sub (zeta_lt hsound index).le]
  simp [root]

theorem constant_eq_square (hsound : Sound params levels) {index : Nat} (hindex : 0 < index)
    (hbound : index < 2 ^ levels) :
    constant params index = root params index * root params index := by
  have hsquare := hsound.square index hbound hindex
  rw [constant, root, ← Nat.cast_mul]
  exact ((ZMod.natCast_eq_natCast_iff _ _ _).mpr hsquare).symm

theorem root_mul_mirror (hsound : Sound params levels) {level block : Nat}
    (hlevel : level < levels) (hblock : block < 2 ^ level) :
    root params (2 ^ level + block) * root params (2 ^ (level + 1) - 1 - block) = -1 := by
  have hmirror := hsound.mirror level hlevel block hblock
  have hzero := (ZMod.natCast_eq_zero_iff _ _).mpr (Nat.dvd_of_mod_eq_zero hmirror)
  rw [Nat.cast_add, Nat.cast_mul, Nat.cast_one] at hzero
  exact eq_neg_of_add_eq_zero_left hzero

def Level (p : (ZMod params.modulus)[X]) (v : Nat → ZMod params.modulus)
    (level width : Nat) : Prop :=
  ∀ block < 2 ^ level, Leaves p v (block * width) width (constant params (2 ^ level + block))

/-! ### The turns of a length -/

variable {level length : Nat} {p : (ZMod params.modulus)[X]}

theorem blocks_eq (hsize : 2 ^ level * (2 * length) = 256) :
    blocks length = (List.range (2 ^ level)).map fun block => (block * (2 * length), length) := by
  have hlength : 0 < 2 * length := by
    by_contra hzero
    rw [Nat.eq_zero_of_not_pos hzero] at hsize
    simp at hsize
  have hcount : (256 + 2 * length - 1) / (2 * length) = 2 ^ level := by
    rw [← hsize, Nat.add_sub_assoc hlength, Nat.mul_comm, Nat.mul_add_div hlength,
      Nat.div_eq_of_lt (by omega), Nat.add_zero]
  rw [blocks, hcount]

theorem zipIdx_map_range {α : Type} (f : Nat → α) (count first : Nat) :
    ((List.range count).map f).zipIdx first =
      (List.range count).map fun index => (f index, first + index) := by
  induction count with
  | zero => rfl
  | succ count ih =>
    rw [List.range_succ, List.map_append, List.zipIdx_append, ih, List.map_append]
    simp

def layer (indexOf : Nat → Nat) (count length : Nat) : List Turn :=
  (List.range count).flatMap fun block => turnsOf (indexOf block) (block * (2 * length)) length

theorem turns_eq (hsize : 2 ^ level * (2 * length) = 256) (first : Nat) (indexOf : Nat → Nat) :
    ((blocks length).zipIdx first).flatMap (fun entry =>
        turnsOf (indexOf entry.2) entry.1.1 entry.1.2) =
      layer (fun block => indexOf (first + block)) (2 ^ level) length := by
  rw [blocks_eq hsize, zipIdx_map_range, List.flatMap_map]
  rfl

theorem block_inside {level length block : Nat} (hsize : 2 ^ level * (2 * length) = 256)
    (hblock : block < 2 ^ level) : block * (2 * length) + 2 * length ≤ 256 := by
  calc block * (2 * length) + 2 * length = (block + 1) * (2 * length) := by ring
    _ ≤ 2 ^ level * (2 * length) := Nat.mul_le_mul_right _ hblock
    _ = 256 := hsize

theorem layer_inside {level length : Nat} (hsize : 2 ^ level * (2 * length) = 256)
    {indexOf : Nat → Nat} (hindexOf : ∀ block < 2 ^ level, indexOf block < 256) :
    ∀ turn ∈ layer indexOf (2 ^ level) length, turn.Inside := by
  intro turn hturn
  obtain ⟨block, hblock, hturn⟩ := List.mem_flatMap.mp hturn
  obtain ⟨t, ht, rfl⟩ := List.mem_map.mp hturn
  have hblock' := List.mem_range.mp hblock
  have ht' := List.mem_range.mp ht
  have hinside := block_inside hsize hblock'
  exact ⟨hindexOf block hblock', by dsimp only; omega, by dsimp only; omega⟩

theorem layer_apart (indexOf : Nat → Nat) (count length : Nat) :
    (layer indexOf count length).Pairwise Turn.Apart := by
  refine List.pairwise_flatMap.mpr ⟨fun block _ => ?_, ?_⟩
  · rw [turnsOf, List.pairwise_map]
    refine List.Pairwise.imp_of_mem (fun {t t'} ht ht' hlt => ?_) List.pairwise_lt_range
    rw [List.mem_range] at ht ht'
    constructor <;> dsimp only <;> omega
  · refine List.pairwise_lt_range.imp fun {block block'} hlt turn hturn turn' hturn' => ?_
    obtain ⟨t, ht, rfl⟩ := List.mem_map.mp hturn
    obtain ⟨t', ht', rfl⟩ := List.mem_map.mp hturn'
    rw [List.mem_range] at ht ht'
    have hpast : (block + 1) * (2 * length) ≤ block' * (2 * length) := Nat.mul_le_mul_right _ hlt
    rw [Nat.succ_mul] at hpast
    constructor <;> dsimp only <;> omega

theorem Butterfly.layer {step : Poly → Turn → Option Poly}
    {low high : ZMod params.modulus → ZMod params.modulus → ZMod params.modulus →
      ZMod params.modulus} (hstep : Butterfly params step low high)
    (hsize : 2 ^ level * (2 * length) = 256) (indexOf : Nat → Nat)
    (hindexOf : ∀ block < 2 ^ level, indexOf block < 256) {poly : Poly}
    (hreduced : Reduced params poly) :
    ∃ last, (layer indexOf (2 ^ level) length).foldlM step poly = some last ∧
      Reduced params last ∧ ∀ block < 2 ^ level,
        (∀ t < length, residues params last (block * (length + length) + t) =
          low (root params (indexOf block)) (residues params poly (block * (length + length) + t))
            (residues params poly (block * (length + length) + length + t))) ∧
        ∀ t < length, residues params last (block * (length + length) + length + t) =
          high (root params (indexOf block)) (residues params poly (block * (length + length) + t))
            (residues params poly (block * (length + length) + length + t)) := by
  obtain ⟨last, hlast, hlastReduced, hturned, -⟩ :=
    hstep.run (layer_inside hsize hindexOf) (layer_apart indexOf _ length) hreduced
  refine ⟨last, hlast, hlastReduced, fun block hblock => ?_⟩
  rw [← forall₂_and]
  intro t ht
  have hturn := hturned ⟨indexOf block, block * (2 * length) + t, length⟩
    (List.mem_flatMap.mpr ⟨block, List.mem_range.mpr hblock,
      List.mem_map.mpr ⟨t, List.mem_range.mpr ht, rfl⟩⟩)
  rwa [Nat.two_mul, Nat.add_right_comm] at hturn

theorem ntt_layer (hsound : Sound params levels) (hlevel : level < levels)
    (hsize : 2 ^ level * (2 * length) = 256) (hindex : 2 ^ (level + 1) ≤ 256) {poly : Poly}
    (hreduced : Reduced params poly) (hheld : Level p (residues params poly) level (2 * length)) :
    ∃ last, (layer (2 ^ level + ·) (2 ^ level) length).foldlM params.nttTurn poly = some last ∧
      Reduced params last ∧ Level p (residues params last) (level + 1) length := by
  have hpow : 2 ^ (level + 1) = 2 * 2 ^ level := pow_succ' 2 level
  have hlevels : 2 ^ (level + 1) ≤ 2 ^ levels := Nat.pow_le_pow_right (by decide) hlevel
  obtain ⟨last, hlast, hlastReduced, hturned⟩ := (ntt_butterfly hsound).layer hsize
    (2 ^ level + ·) (fun block hblock => by omega) hreduced
  refine ⟨last, hlast, hlastReduced, fun child hchild => ?_⟩
  have hblock : child / 2 < 2 ^ level := by omega
  have hwhole := hheld (child / 2) hblock
  rw [constant_eq_square hsound (by omega) (by omega), Nat.two_mul] at hwhole
  obtain ⟨hleft, hright⟩ := hwhole.split (hturned _ hblock).1 (hturned _ hblock).2
  obtain ⟨block, hchild' | hchild'⟩ := Nat.even_or_odd' child
  · obtain rfl : child / 2 = block := by omega
    have hnode : 2 ^ (level + 1) + child = 2 * (2 ^ level + child / 2) := by omega
    have hplace : child * length = child / 2 * (length + length) := by
      conv_lhs => rw [hchild']
      ring
    rw [hnode, constant_even, hplace]
    exact hleft
  · obtain rfl : child / 2 = block := by omega
    have hnode : 2 ^ (level + 1) + child = 2 * (2 ^ level + child / 2) + 1 := by omega
    have hplace : child * length = child / 2 * (length + length) + length := by
      conv_lhs => rw [hchild']
      ring
    rw [hnode, constant_odd hsound (by omega), hplace]
    exact hright

theorem inverse_layer (hsound : Sound params levels) (hlevel : level < levels)
    (hsize : 2 ^ level * (2 * length) = 256) (hindex : 2 ^ (level + 1) ≤ 256)
    {indexOf : Nat → Nat}
    (hindexOf : ∀ block < 2 ^ level, indexOf block = 2 ^ (level + 1) - 1 - block) {poly : Poly}
    (hreduced : Reduced params poly) (hheld : Level p (residues params poly) (level + 1) length) :
    ∃ last, (layer indexOf (2 ^ level) length).foldlM params.inverseTurn poly = some last ∧
      Reduced params last ∧ Level (2 * p) (residues params last) level (2 * length) := by
  have hpow : 2 ^ (level + 1) = 2 * 2 ^ level := pow_succ' 2 level
  have hlevels : 2 ^ (level + 1) ≤ 2 ^ levels := Nat.pow_le_pow_right (by decide) hlevel
  obtain ⟨last, hlast, hlastReduced, hturned⟩ := (inverse_butterfly hsound).layer hsize
    indexOf (fun block hblock => by rw [hindexOf block hblock]; omega) hreduced
  refine ⟨last, hlast, hlastReduced, fun block hblock => ?_⟩
  have hleft := hheld (2 * block) (by omega)
  have hright := hheld (2 * block + 1) (by omega)
  have hnode : 2 ^ (level + 1) + 2 * block = 2 * (2 ^ level + block) := by omega
  have hnode' : 2 ^ (level + 1) + (2 * block + 1) = 2 * (2 ^ level + block) + 1 := by omega
  have hplace : 2 * block * length = block * (length + length) := by ring
  have hplace' : (2 * block + 1) * length = block * (length + length) + length := by ring
  have hmirror := root_mul_mirror hsound hlevel hblock
  rw [← hindexOf block hblock] at hmirror
  rw [hnode, constant_even, hplace] at hleft
  rw [hnode', constant_odd hsound (by omega), hplace'] at hright
  rw [Nat.two_mul, constant_eq_square hsound (by omega) (by omega)]
  exact hleft.merge hmirror hright (hturned block hblock).1 (hturned block hblock).2

end Purrdf.Lattice
