import Purrdf.MagnitudeSums

/-!
# Bits and shifts of magnitudes

The length in bits, the zeros below the lowest bit, and the shifts as products with powers of two
and quotients by them.
-/

namespace Purrdf.BigInteger

open Limbs

/-! ### Bits -/

theorem size_limb_le (limb : UInt64) : limb.toNat.size ≤ 64 :=
  Nat.size_le.mpr limb.toNat_lt

theorem magBitLen_eq {a : Mag} (ha : Trimmed a) : magBitLen a = (value a).size := by
  induction a using List.reverseRecOn with
  | nil => rfl
  | append_singleton a top _ =>
    have htop := (trimmed_append_singleton a top).mp ha
    have hpositive : 0 < top.toNat :=
      Nat.pos_of_ne_zero fun hzero => htop (UInt64.toNat_inj.mp hzero)
    have hsize := size_limb_le top
    have hlow := value_lt a
    have hvalue : value (a ++ [top]) = top.toNat * 2 ^ (64 * a.length) + value a := by
      rw [value_append, radix_pow]
      simp [Nat.add_comm, Nat.mul_comm]
    rw [radix_pow] at hlow
    have hbits : (value (a ++ [top])).size = 64 * a.length + top.toNat.size := by
      apply le_antisymm
      · rw [Nat.size_le, hvalue, pow_add]
        have hbound := Nat.lt_size_self top.toNat
        calc top.toNat * 2 ^ (64 * a.length) + value a
            < top.toNat * 2 ^ (64 * a.length) + 2 ^ (64 * a.length) := by omega
          _ = 2 ^ (64 * a.length) * (top.toNat + 1) := by ring
          _ ≤ 2 ^ (64 * a.length) * 2 ^ top.toNat.size := Nat.mul_le_mul_left _ hbound
      · obtain ⟨bits, hbits⟩ := Nat.exists_eq_succ_of_ne_zero (Nat.size_pos.mpr hpositive).ne'
        have hbit : 2 ^ bits ≤ top.toNat := Nat.lt_size.mp (by omega)
        rw [hbits, Nat.add_succ, Nat.succ_le_iff, Nat.lt_size, hvalue, pow_add]
        calc 2 ^ (64 * a.length) * 2 ^ bits ≤ 2 ^ (64 * a.length) * top.toNat :=
              Nat.mul_le_mul_left _ hbit
          _ ≤ top.toNat * 2 ^ (64 * a.length) + value a := by
              rw [Nat.mul_comm]
              omega
    rw [hbits]
    simp only [magBitLen, leadingZeros, List.getLast?_append, List.getLast?_singleton,
      Option.some_or, List.length_append, List.length_singleton, Nat.add_sub_cancel]
    omega

theorem lowZeros_spec {bits n : Nat} (hn : 0 < n) (hbits : n < 2 ^ bits) :
    2 ^ lowZeros bits n ∣ n ∧ n / 2 ^ lowZeros bits n % 2 = 1 := by
  induction bits generalizing n with
  | zero => omega
  | succ bits ih =>
    unfold lowZeros
    split
    · rename_i heven
      rw [pow_succ] at hbits
      obtain ⟨hdvd, hodd⟩ := @ih (n / 2) (by omega) (by omega)
      refine ⟨?_, ?_⟩
      · have hhalf : n / 2 * 2 = n := by omega
        have hdouble := Nat.mul_dvd_mul_right hdvd 2
        rwa [hhalf, ← pow_succ] at hdouble
      · rwa [pow_succ', ← Nat.div_div_eq_div_mul]
    · simp
      omega

theorem trailingZeros_lt {limb : UInt64} (hlimb : 0 < limb.toNat) : trailingZeros limb < 64 := by
  have hdvd := (lowZeros_spec hlimb limb.toNat_lt).1
  exact (Nat.pow_lt_pow_iff_right (by decide)).mp
    (Nat.lt_of_le_of_lt (Nat.le_of_dvd hlimb hdvd) limb.toNat_lt)

theorem magTrailingZeros_spec {a : Mag} (ha : value a ≠ 0) :
    2 ^ magTrailingZeros a ∣ value a ∧ value a / 2 ^ magTrailingZeros a % 2 = 1 := by
  induction a with
  | nil => simp at ha
  | cons limb a ih =>
    by_cases hlimb : limb = 0
    · have hrest : value a ≠ 0 := by
        rintro hzero
        simp [hlimb, hzero] at ha
      obtain ⟨hdvd, hodd⟩ := ih hrest
      have hzeros : magTrailingZeros (limb :: a) = 64 + magTrailingZeros a := by
        unfold magTrailingZeros
        cases hfirst : a.findIdx? (· != 0) with
        | none =>
          have hall : ∀ word ∈ a, word = 0 := by simpa using hfirst
          rw [List.eq_replicate_of_mem hall] at hrest
          exact absurd (value_replicate_zero _) hrest
        | some i =>
          simp [List.findIdx?_cons, hlimb, hfirst]
          omega
      have hvalue : value (limb :: a) = 2 ^ 64 * value a := by
        simp [hlimb, radix]
      rw [hzeros, hvalue, pow_add, Nat.mul_div_mul_left _ _ (by decide)]
      exact ⟨Nat.mul_dvd_mul_left _ hdvd, hodd⟩
    · have hpositive : 0 < limb.toNat :=
        Nat.pos_of_ne_zero fun hzero => hlimb (UInt64.toNat_inj.mp hzero)
      have hzeros : magTrailingZeros (limb :: a) = trailingZeros limb := by
        simp [magTrailingZeros, List.findIdx?_cons, hlimb]
      obtain ⟨hdvd, hodd⟩ := lowZeros_spec hpositive limb.toNat_lt
      have hshort := trailingZeros_lt hpositive
      have hradix : radix = 2 ^ trailingZeros limb * (2 * 2 ^ (63 - trailingZeros limb)) := by
        rw [← pow_succ', ← pow_add, radix]
        congr 1
        omega
      change 2 ^ trailingZeros limb ∣ limb.toNat at hdvd
      change limb.toNat / 2 ^ trailingZeros limb % 2 = 1 at hodd
      rw [hzeros, value_cons, hradix, Nat.mul_assoc]
      refine ⟨Nat.dvd_add hdvd (Nat.dvd_mul_right _ _), ?_⟩
      rw [Nat.add_mul_div_left _ _ (Nat.two_pow_pos _), Nat.mul_assoc, Nat.add_mul_mod_self_left]
      exact hodd

variable {bits : Nat}

theorem toNat_shiftLeft (hbits : bits < 64) (limb : UInt64) :
    (limb <<< UInt64.ofNat bits).toNat = limb.toNat * 2 ^ bits % radix := by
  have hcount : (UInt64.ofNat bits).toNat = bits :=
    toNat_ofNat_of_lt (hbits.trans (by decide))
  rw [UInt64.toNat_shiftLeft, hcount, Nat.mod_eq_of_lt hbits, Nat.shiftLeft_eq, radix]

theorem toNat_shiftRight (hbits : bits < 64) (limb : UInt64) :
    (limb >>> UInt64.ofNat bits).toNat = limb.toNat / 2 ^ bits := by
  have hcount : (UInt64.ofNat bits).toNat = bits :=
    toNat_ofNat_of_lt (hbits.trans (by decide))
  rw [UInt64.toNat_shiftRight, hcount, Nat.mod_eq_of_lt hbits, Nat.shiftRight_eq_div_pow]

theorem toNat_or_disjoint {high low : UInt64} (hhigh : 2 ^ bits ∣ high.toNat)
    (hlow : low.toNat < 2 ^ bits) : (high ||| low).toNat = high.toNat + low.toNat := by
  obtain ⟨k, hk⟩ := hhigh
  rw [UInt64.toNat_or, hk, Nat.two_pow_add_eq_or_of_lt hlow]

theorem radix_split (hbits : bits ≤ 64) : radix = 2 ^ bits * 2 ^ (64 - bits) := by
  rw [← pow_add, Nat.add_sub_cancel' hbits, radix]

/-! ### Shifts to the left -/

theorem shlFrom_value (hpositive : 0 < bits) (hbits : bits < 64) {carry : UInt64}
    (hcarry : carry.toNat < 2 ^ bits) (a : Mag) :
    value (shlFrom bits carry a).1 + radix ^ a.length * (shlFrom bits carry a).2.toNat =
      value a * 2 ^ bits + carry.toNat := by
  induction a generalizing carry with
  | nil => simp [shlFrom]
  | cons limb a ih =>
    have hradix := radix_split hbits.le
    have hout := toNat_shiftRight (show 64 - bits < 64 by omega) limb
    have hnext : limb.toNat / 2 ^ (64 - bits) < 2 ^ bits := by
      rw [Nat.div_lt_iff_lt_mul (Nat.two_pow_pos _), ← hradix]
      exact limb_lt limb
    have hlow := toNat_shiftLeft hbits limb
    have hmod : limb.toNat * 2 ^ bits % radix + radix * (limb.toNat / 2 ^ (64 - bits)) =
        limb.toNat * 2 ^ bits := by
      have hdiv : limb.toNat * 2 ^ bits / radix = limb.toNat / 2 ^ (64 - bits) := by
        rw [hradix, Nat.mul_comm (2 ^ bits), Nat.mul_div_mul_right _ _ (Nat.two_pow_pos _)]
      rw [← hdiv, Nat.mod_add_div]
    have hdvd : 2 ^ bits ∣ (limb <<< UInt64.ofNat bits).toNat := by
      rw [hlow, hradix, Nat.mul_comm (limb.toNat), Nat.mul_mod_mul_left]
      exact Nat.dvd_mul_right _ _
    have hrest := @ih (limb >>> UInt64.ofNat (64 - bits)) (by rw [hout]; exact hnext)
    simp only [shlFrom, value_cons, List.length_cons]
    rw [toNat_or_disjoint hdvd hcarry, hlow]
    rw [hout] at hrest
    linear_combination radix * hrest + hmod

theorem shlFrom_length (bits : Nat) (carry : UInt64) (a : Mag) :
    (shlFrom bits carry a).1.length = a.length := by
  induction a generalizing carry with
  | nil => rfl
  | cons limb a ih => simp [shlFrom, ih]

theorem writeShl_guard (hbits : bits < 64) (a : Mag) :
    ∃ out, writeShl a bits (List.replicate (a.length + 1) 0) = some out ∧
      out.length = a.length + 1 ∧ value out = value a * 2 ^ bits := by
  unfold writeShl
  by_cases hzero : bits = 0
  · refine ⟨a ++ [0], ?_, by simp, by simp [value_append, hzero]⟩
    simp [hzero]
  · have hvalue := @shlFrom_value bits (by omega) hbits 0 (Nat.two_pow_pos bits) a
    have hlength := shlFrom_length bits 0 a
    refine ⟨(shlFrom bits 0 a).1 ++ [(shlFrom bits 0 a).2], by simp [hzero],
      by simp [hlength], ?_⟩
    rw [value_append, hlength]
    simpa using hvalue

theorem writeShl_exact (hbits : bits < 64) {a : Mag}
    (hfits : value a * 2 ^ bits < radix ^ a.length) :
    ∃ out, writeShl a bits (List.replicate a.length 0) = some out ∧
      out.length = a.length ∧ value out = value a * 2 ^ bits := by
  unfold writeShl
  by_cases hzero : bits = 0
  · exact ⟨a, by simp [hzero], rfl, by simp [hzero]⟩
  · have hvalue := @shlFrom_value bits (by omega) hbits 0 (Nat.two_pow_pos bits) a
    have hlength := shlFrom_length bits 0 a
    have hnone : (shlFrom bits 0 a).2 = 0 := by
      rw [← UInt64.toNat_inj]
      by_contra hcarry
      have hlarge : radix ^ a.length * 1 ≤ radix ^ a.length * (shlFrom bits 0 a).2.toNat :=
        Nat.mul_le_mul_left _ (Nat.pos_of_ne_zero hcarry)
      simp only [UInt64.toNat_zero] at hvalue
      omega
    refine ⟨(shlFrom bits 0 a).1, by simp [hzero, hnone], hlength, ?_⟩
    simpa [hnone] using hvalue

theorem carry_iff (hbits : bits < 64) (a : Mag) (top : UInt64) :
    (bits ≠ 0 ∧ top >>> UInt64.ofNat (64 - bits) ≠ 0) ↔
      radix ^ (a.length + 1) ≤ value (a ++ [top]) * 2 ^ bits := by
  have hvalue := value_lt (a ++ [top])
  rw [List.length_append, List.length_singleton] at hvalue
  by_cases hzero : bits = 0
  · simp [hzero]
    omega
  · have htop : value (a ++ [top]) / radix ^ a.length = top.toNat := by
      rw [← value_drop, List.drop_left]
      simp
    have hshift : top >>> UInt64.ofNat (64 - bits) ≠ 0 ↔ 2 ^ (64 - bits) ≤ top.toNat := by
      rw [ne_eq, ← UInt64.toNat_inj, toNat_shiftRight (by omega), UInt64.toNat_zero,
        Nat.div_eq_zero_iff]
      have hpower := Nat.two_pow_pos (64 - bits)
      omega
    have hpower : radix ^ (a.length + 1) =
        2 ^ (64 - bits) * radix ^ a.length * 2 ^ bits := by
      rw [pow_succ, mul_right_comm, Nat.mul_comm (2 ^ (64 - bits)), ← radix_split hbits.le,
        Nat.mul_comm]
    rw [hpower, Nat.mul_le_mul_right_iff (Nat.two_pow_pos _),
      ← Nat.le_div_iff_mul_le (pow_radix_pos _), htop]
    exact (and_iff_right hzero).trans hshift

/-- Whole limbs are zeros in front, and the rest is written with a limb for what is carried. -/
theorem magShl_spec {a : Mag} (ha : Trimmed a) (bits : Nat) :
    ∃ out, magShl a bits = some out ∧ Trimmed out ∧ value out = value a * 2 ^ bits := by
  induction a using List.reverseRecOn with
  | nil => exact ⟨[], rfl, trimmed_nil, by simp⟩
  | append_singleton a top _ =>
    have hbits : bits % 64 < 64 := Nat.mod_lt bits (by decide)
    have hpow := ha.pow_le (show (a ++ [top]).length = a.length + 1 by simp)
    have hplaced : ∀ (written : Mag) (m : Nat), written.length = m + 1 →
        value written = value (a ++ [top]) * 2 ^ (bits % 64) →
        radix ^ m ≤ value (a ++ [top]) * 2 ^ (bits % 64) →
        Trimmed (List.replicate (bits / 64) 0 ++ written) ∧
          value (List.replicate (bits / 64) 0 ++ written) = value (a ++ [top]) * 2 ^ bits := by
      intro written m hlength hwritten hm
      have hvalue : value (List.replicate (bits / 64) 0 ++ written) =
          radix ^ (bits / 64) * value written := by
        rw [value_append, value_replicate_zero, List.length_replicate, Nat.zero_add]
      refine ⟨trimmed_of_pow_le (n := bits / 64 + m) ?_ ?_, ?_⟩
      · rw [List.length_append, List.length_replicate, hlength]
        rfl
      · rw [hvalue, hwritten, pow_add]
        exact Nat.mul_le_mul_left _ hm
      · have hsplit : 2 ^ bits = radix ^ (bits / 64) * 2 ^ (bits % 64) := by
          rw [radix_pow, ← pow_add, Nat.div_add_mod]
        rw [hvalue, hwritten, hsplit]
        ring
    simp only [magShl, List.getLast?_append, List.getLast?_singleton, Option.some_or]
    by_cases hspare : bits % 64 ≠ 0 ∧ top >>> UInt64.ofNat (64 - bits % 64) ≠ 0
    · obtain ⟨written, hwritten, hlength, hvalue⟩ := writeShl_guard hbits (a ++ [top])
      have hcount : (a ++ [top]).length + bits / 64 + 1 - bits / 64 =
          (a ++ [top]).length + 1 := by omega
      simp only [if_pos hspare, hcount, hwritten]
      have hlarge := (carry_iff hbits a top).mp hspare
      exact ⟨_, rfl, hplaced written _ (by simpa using hlength) hvalue hlarge⟩
    · have hfits : value (a ++ [top]) * 2 ^ (bits % 64) < radix ^ (a ++ [top]).length := by
        have hsmall := (carry_iff hbits a top).not.mp hspare
        simpa using hsmall
      obtain ⟨written, hwritten, hlength, hvalue⟩ := writeShl_exact hbits hfits
      have hcount : (a ++ [top]).length + bits / 64 + 0 - bits / 64 =
          (a ++ [top]).length := by omega
      simp only [if_neg hspare, hcount, hwritten]
      exact ⟨_, rfl, hplaced written a.length (by simpa using hlength) hvalue
        (hpow.trans (Nat.le_mul_of_pos_right _ (Nat.two_pow_pos _)))⟩

/-! ### Shifts to the right -/

theorem add_mul_mod_mul {low bound : Nat} (hlow : low < bound) (high parts : Nat)
    (hparts : 0 < parts) : (low + bound * high) % (bound * parts) =
      low + bound * (high % parts) := by
  have hsplit : low + bound * high =
      low + bound * (high % parts) + bound * parts * (high / parts) := by
    rw [Nat.add_assoc, Nat.mul_assoc, ← Nat.mul_add, Nat.mod_add_div]
  have hfits : low + bound * (high % parts) < bound * parts :=
    calc low + bound * (high % parts) < bound * (high % parts + 1) := by
          rw [Nat.mul_succ]
          omega
      _ ≤ bound * parts := Nat.mul_le_mul_left _ (Nat.mod_lt high hparts)
  rw [hsplit, Nat.add_mul_mod_self_left, Nat.mod_eq_of_lt hfits]

/-- The bits of one limb of a quotient come from two limbs next to each other. -/
theorem div_mod_radix (hbits : bits ≤ 64) (number : Nat) :
    number / 2 ^ bits % radix = number % radix / 2 ^ bits +
      number / radix % radix * 2 ^ (64 - bits) % radix := by
  have hradix := radix_split hbits
  have hreversed : radix = 2 ^ (64 - bits) * 2 ^ bits := by
    rw [hradix, Nat.mul_comm]
  have hlow : number % radix / 2 ^ bits < 2 ^ (64 - bits) := by
    rw [Nat.div_lt_iff_lt_mul (Nat.two_pow_pos _), ← hreversed]
    exact Nat.mod_lt _ radix_pos
  have hquotient : number / 2 ^ bits =
      number % radix / 2 ^ bits + 2 ^ (64 - bits) * (number / radix) := by
    have hnumber : number = number % radix + 2 ^ bits * (2 ^ (64 - bits) * (number / radix)) := by
      rw [← Nat.mul_assoc, ← hradix, Nat.mod_add_div]
    conv_lhs => rw [hnumber]
    rw [Nat.add_mul_div_left _ _ (Nat.two_pow_pos _)]
  have hhigh : number / radix % radix * 2 ^ (64 - bits) % radix =
      2 ^ (64 - bits) * (number / radix % 2 ^ bits) := by
    rw [Nat.mul_comm, Nat.mul_mod_mod, hreversed, Nat.mul_mod_mul_left]
  have hmod := add_mul_mod_mul hlow (number / radix) (2 ^ bits) (Nat.two_pow_pos _)
  rw [hquotient, hhigh]
  rwa [← hreversed] at hmod

theorem shiftedRightLimb_eq {a : Mag} {source : Nat} (hsource : source < a.length)
    {partialBits : Nat} (hbits : partialBits < 64) :
    shiftedRightLimb a source partialBits =
      some (UInt64.ofNat (value a / radix ^ source / 2 ^ partialBits)) := by
  have hlimb := getElem?_value a source
  have hnext := getElem?_value a (source + 1)
  rw [List.getElem?_eq_getElem hsource, Option.getD_some] at hlimb
  rw [pow_succ, ← Nat.div_div_eq_div_mul] at hnext
  unfold shiftedRightLimb
  split
  · rename_i hzero
    rw [List.getElem?_eq_getElem hsource, Option.some.injEq, ← UInt64.toNat_inj, hlimb,
      toNat_ofNat, hzero, pow_zero, Nat.div_one]
  · rename_i hzero
    rw [List.getElem?_eq_getElem hsource, Option.map_some, Option.some.injEq, ← UInt64.toNat_inj,
      toNat_ofNat, div_mod_radix hbits.le, ← hlimb, ← hnext, UInt64.or_comm]
    have hhigh := toNat_shiftLeft (show 64 - partialBits < 64 by omega) ((a[source + 1]?).getD 0)
    have hlow := toNat_shiftRight hbits a[source]
    have hdvd : 2 ^ (64 - partialBits) ∣
        ((a[source + 1]?).getD 0 <<< UInt64.ofNat (64 - partialBits)).toNat := by
      rw [hhigh, radix_split hbits.le, Nat.mul_comm (2 ^ partialBits), Nat.mul_comm _ (2 ^ _),
        Nat.mul_mod_mul_left]
      exact Nat.dvd_mul_right _ _
    rw [toNat_or_disjoint hdvd, hhigh, hlow, Nat.add_comm]
    rw [hlow, Nat.div_lt_iff_lt_mul (Nat.two_pow_pos _), Nat.mul_comm,
      ← radix_split hbits.le]
    exact limb_lt _

theorem shifted_position (number bits position : Nat) :
    number / radix ^ (position + bits / 64) / 2 ^ (bits % 64) =
      number / 2 ^ bits / radix ^ position := by
  rw [radix_pow, radix_pow, Nat.div_div_eq_div_mul, Nat.div_div_eq_div_mul, ← pow_add, ← pow_add]
  congr 2
  omega

theorem mapM_eq_some {α β : Type} {f : α → Option β} {g : α → β} {l : List α}
    (hsome : ∀ x ∈ l, f x = some (g x)) : l.mapM f = some (l.map g) := by
  induction l with
  | nil => rfl
  | cons x l ih =>
    rw [List.mapM_cons, hsome x List.mem_cons_self,
      ih fun y hy => hsome y (List.mem_cons_of_mem x hy)]
    rfl

theorem magShr_spec {a : Mag} (ha : Trimmed a) (bits : Nat) :
    ∃ out, magShr a bits = some out ∧ Trimmed out ∧ value out = value a / 2 ^ bits := by
  have hsize : (value a).size ≤ 64 * a.length := by
    rw [Nat.size_le, ← radix_pow]
    exact value_lt a
  unfold magShr
  rw [magBitLen_eq ha]
  generalize hcount : ((value a).size - bits + 63) / 64 = length
  have hlimbs := mapM_eq_some (f := fun index => shiftedRightLimb a (index + bits / 64) (bits % 64))
    (g := fun index => UInt64.ofNat (value a / 2 ^ bits / radix ^ index))
    (l := List.range length) (by
      intro index hindex
      rw [List.mem_range] at hindex
      rw [shiftedRightLimb_eq (by omega) (Nat.mod_lt bits (by decide)), shifted_position])
  have hvalue := value_map_range (value a / 2 ^ bits) length
  have hfits : value a / 2 ^ bits < radix ^ length := by
    rw [Nat.div_lt_iff_lt_mul (Nat.two_pow_pos _), radix_pow, ← pow_add]
    exact Nat.lt_of_lt_of_le (Nat.lt_size_self _) (Nat.pow_le_pow_right (by decide) (by omega))
  rw [Nat.mod_eq_of_lt hfits] at hvalue
  refine ⟨_, hlimbs, ?_, hvalue⟩
  cases length with
  | zero => exact trimmed_nil
  | succ n =>
    apply trimmed_of_pow_le (n := n) (by simp)
    rw [hvalue, Nat.le_div_iff_mul_le (Nat.two_pow_pos _), radix_pow, ← pow_add]
    exact Nat.lt_size.mp (by omega)

/-- Writing forward does not reach the limbs still to be read. -/
theorem shrFrom_spec {a : Mag} (bits : Nat) {count i : Nat}
    (hcount : i + count + bits / 64 ≤ a.length) {current : Mag}
    (hlength : current.length = a.length) (hahead : current.drop i = a.drop i) :
    ∃ shifted, shrFrom (bits / 64) (bits % 64) count i current = some shifted ∧
      shifted.take (i + count) = current.take i ++ (List.range count).map
        fun k => UInt64.ofNat (value a / 2 ^ bits / radix ^ (i + k)) := by
  induction count generalizing i current with
  | zero => exact ⟨current, rfl, by simp⟩
  | succ count ih =>
    have hread : ∀ n, i ≤ n → current[n]? = a[n]? := by
      intro n hn
      have hsame := congrArg (·[n - i]?) hahead
      simpa [Nat.add_sub_cancel' hn] using hsame
    have hlimb : shiftedRightLimb current (i + bits / 64) (bits % 64) =
        some (UInt64.ofNat (value a / 2 ^ bits / radix ^ i)) := by
      rw [← shifted_position, ← shiftedRightLimb_eq (by omega) (Nat.mod_lt bits (by decide))]
      simp only [shiftedRightLimb, hread (i + bits / 64) (by omega),
        hread (i + bits / 64 + 1) (by omega)]
    have hinside : i < current.length := by omega
    obtain ⟨shifted, hshifted, htake⟩ := @ih (i + 1) (by omega)
      (current.set i (UInt64.ofNat (value a / 2 ^ bits / radix ^ i))) (by simpa using hlength)
      (by
        rw [List.drop_set_of_lt (by omega), ← List.drop_drop, hahead, List.drop_drop])
    refine ⟨shifted, by rw [shrFrom, hlimb]; exact hshifted, ?_⟩
    have hwritten : (current.set i (UInt64.ofNat (value a / 2 ^ bits / radix ^ i))).take (i + 1) =
        current.take i ++ [UInt64.ofNat (value a / 2 ^ bits / radix ^ i)] := by
      rw [List.take_succ_eq_append_getElem (by simpa using hinside), List.take_set_of_le (le_refl i)]
      simp
    rw [hwritten] at htake
    rw [← Nat.add_assoc, Nat.add_right_comm, htake, List.range_succ_eq_map, List.map_cons,
      List.map_map, List.append_assoc]
    congr 1
    simp only [List.singleton_append, Nat.add_zero, List.cons.injEq, true_and]
    congr 1
    funext k
    simp [Nat.add_assoc, Nat.add_comm 1]

theorem magShrInPlace_spec (a : Mag) (bits : Nat) :
    ∃ out, magShrInPlace a bits = some out ∧ Trimmed out ∧ value out = value a / 2 ^ bits ∧
      out.length ≤ a.length := by
  have hlarge := value_lt a
  have hquotient : value a / 2 ^ bits < radix ^ (a.length - bits / 64) := by
    rw [Nat.div_lt_iff_lt_mul (Nat.two_pow_pos _), radix_pow, ← pow_add]
    rw [radix_pow] at hlarge
    exact Nat.lt_of_lt_of_le hlarge (Nat.pow_le_pow_right (by decide) (by omega))
  unfold magShrInPlace
  by_cases hwhole : a.length ≤ bits / 64
  · have hnone : value a / 2 ^ bits = 0 := by
      rw [Nat.sub_eq_zero_of_le hwhole, pow_zero] at hquotient
      exact Nat.lt_one_iff.mp hquotient
    exact ⟨[], by simp [hwhole], trimmed_nil, by simp [hnone], Nat.zero_le _⟩
  · obtain ⟨shifted, hshifted, htake⟩ := @shrFrom_spec a bits (a.length - bits / 64) 0 (by omega)
      a rfl rfl
    have hvalue := value_map_range (value a / 2 ^ bits) (a.length - bits / 64)
    rw [Nat.mod_eq_of_lt hquotient] at hvalue
    simp only [Nat.zero_add, List.take_zero, List.nil_append] at htake
    refine ⟨magTrim (shifted.take (a.length - bits / 64)), ?_, trimmed_trim _, ?_, ?_⟩
    · simp only [if_neg hwhole, hshifted, Option.map_some]
    · rw [magTrim, value_trim, htake, hvalue]
    · refine (length_trim_le _).trans ?_
      rw [htake]
      simp

end Purrdf.BigInteger
