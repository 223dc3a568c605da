import Mathlib.Data.Nat.Bitwise
import Purrdf.NttField

/-!
# The transform computes values at roots

The swaps reverse the positions, each stage joins the transforms of neighbouring blocks, and the
last stage leaves the values of the whole list at the powers of one root.
-/

namespace Purrdf.BigInteger.Ntt

open Fourier

theorem xor_two_pow {bits low : Nat} (hlow : low < 2 ^ bits) : low ^^^ 2 ^ bits = 2 ^ bits + low := by
  have hor := Nat.two_pow_add_eq_or_of_lt hlow 1
  rw [Nat.mul_one] at hor
  rw [hor]
  apply Nat.eq_of_testBit_eq
  intro i
  rw [Nat.testBit_xor, Nat.testBit_or, Nat.testBit_two_pow]
  by_cases hi : bits = i
  · subst hi
    simp [Nat.testBit_lt_two_pow hlow]
  · simp [hi]

theorem nextReversed_spec (bits : Nat) {i : Nat} (hi : i + 1 < 2 ^ (bits + 1)) :
    nextReversed (2 ^ bits) (reverseBits (bits + 1) i) = reverseBits (bits + 1) (i + 1) := by
  induction bits generalizing i with
  | zero =>
    obtain rfl : i = 0 := by omega
    rw [nextReversed]
    simp [reverseBits]
  | succ bits ih =>
    have hlow := reverseBits_lt (bits + 1) (i / 2)
    rw [nextReversed, reverseBits]
    rcases Nat.mod_two_eq_zero_or_one i with heven | hodd
    · have hnone : reverseBits (bits + 1) (i / 2) &&& 2 ^ (bits + 1) = 0 := by
        rw [Nat.and_two_pow, Nat.testBit_lt_two_pow hlow]
        simp
      rw [heven, Nat.zero_mul, Nat.zero_add, if_neg (by simp [hnone]), xor_two_pow hlow]
      have hhalf : (i + 1) / 2 = i / 2 := by omega
      have hbit : (i + 1) % 2 = 1 := by omega
      conv_rhs => rw [reverseBits, hhalf, hbit, Nat.one_mul]
    · have hsome : (2 ^ (bits + 1) + reverseBits (bits + 1) (i / 2)) &&& 2 ^ (bits + 1) ≠ 0 := by
        rw [Nat.and_two_pow, Nat.testBit_two_pow_add_eq, Nat.testBit_lt_two_pow hlow]
        simp
      have hclear : (2 ^ (bits + 1) + reverseBits (bits + 1) (i / 2)) ^^^ 2 ^ (bits + 1) =
          reverseBits (bits + 1) (i / 2) := by
        rw [← xor_two_pow hlow, Nat.xor_assoc, Nat.xor_self, Nat.xor_zero]
      rw [pow_succ] at hi
      have hhalf : 2 ^ (bits + 1) / 2 = 2 ^ bits := by
        rw [pow_succ, Nat.mul_div_cancel _ (by decide)]
      have hnext : (i + 1) / 2 = i / 2 + 1 := by omega
      have hbit : (i + 1) % 2 = 0 := by omega
      rw [hodd, Nat.one_mul, if_pos hsome, hclear, hhalf, ih (by omega)]
      conv_rhs => rw [reverseBits, hnext, hbit, Nat.zero_mul, Nat.zero_add]

variable {words : List UInt64}

theorem swap_spec {i j : Nat} (hi : i < words.length) (hj : j < words.length) :
    ∃ swapped, swap words i j = some swapped ∧
      swapped.length = words.length ∧ ∀ k, swapped[k]? =
        if k = j then words[i]? else if k = i then words[j]? else words[k]? := by
  refine ⟨(words.set i words[j]).set j words[i], ?_, by simp, fun k => ?_⟩
  · simp [swap, hi, hj]
  · rw [List.getElem?_set, List.getElem?_set, List.length_set]
    by_cases hkj : k = j
    · subst hkj
      simp [hi, hj]
    · rw [if_neg (Ne.symm hkj), if_neg hkj]
      by_cases hki : k = i
      · subst hki
        simp [hi, hj]
      · rw [if_neg (Ne.symm hki), if_neg hki]

/-- Each pair of positions is swapped once, when the lower one is reached. -/
theorem permuteFrom_spec {bits : Nat} (words : List UInt64) {count index : Nat}
    (hindex : 0 < index) (hcount : index + count = 2 ^ (bits + 1)) {current : List UInt64}
    (hlength : current.length = 2 ^ (bits + 1))
    (hcurrent : ∀ k < 2 ^ (bits + 1), current[k]? =
      if min k (reverseBits (bits + 1) k) < index then words[reverseBits (bits + 1) k]?
      else words[k]?) :
    ∃ permuted, permuteFrom count index (reverseBits (bits + 1) (index - 1)) current =
        some permuted ∧ permuted.length = 2 ^ (bits + 1) ∧
      ∀ k < 2 ^ (bits + 1), permuted[k]? = words[reverseBits (bits + 1) k]? := by
  induction count generalizing index current with
  | zero =>
    refine ⟨current, rfl, hlength, fun k hk => ?_⟩
    rw [hcurrent k hk, if_pos (by omega)]
  | succ count ih =>
    have hhalf : 2 ^ (bits + 1) / 2 = 2 ^ bits := by
      rw [pow_succ, Nat.mul_div_cancel _ (by decide)]
    have hnext := @nextReversed_spec bits (index - 1) (by omega)
    rw [Nat.sub_add_cancel hindex] at hnext
    have hinside : index < 2 ^ (bits + 1) := by omega
    have hreversed := reverseBits_lt (bits + 1) index
    have htwice := reverseBits_reverseBits hinside
    have hother : ∀ k < 2 ^ (bits + 1), k ≠ index → k ≠ reverseBits (bits + 1) index →
        (min k (reverseBits (bits + 1) k) < index + 1 ↔
          min k (reverseBits (bits + 1) k) < index) := by
      intro k hk hne hne'
      have hback := reverseBits_reverseBits hk
      have hrne : reverseBits (bits + 1) k ≠ index := by
        intro hsame
        exact hne' (by rw [← hsame, hback])
      omega
    rw [permuteFrom, hlength, hhalf, hnext]
    have hstep : ∃ swapped, (if index < reverseBits (bits + 1) index then
          swap current index (reverseBits (bits + 1) index) else some current) = some swapped ∧
        swapped.length = 2 ^ (bits + 1) ∧ ∀ k < 2 ^ (bits + 1), swapped[k]? =
          if min k (reverseBits (bits + 1) k) < index + 1 then words[reverseBits (bits + 1) k]?
          else words[k]? := by
      split
      · rename_i hlower
        obtain ⟨swapped, hswapped, hcountSame, hplaces⟩ :=
          @swap_spec current index (reverseBits (bits + 1) index) (by omega) (by omega)
        refine ⟨swapped, hswapped, hcountSame.trans hlength, fun k hk => ?_⟩
        rw [hplaces k]
        by_cases hkj : k = reverseBits (bits + 1) index
        · rw [if_pos hkj, hcurrent index hinside, if_neg (by omega), hkj, htwice,
            if_pos (by omega)]
        · by_cases hki : k = index
          · rw [if_neg hkj, if_pos hki, hcurrent _ hreversed, htwice, if_neg (by omega), hki,
              if_pos (by omega)]
          · rw [if_neg hkj, if_neg hki, hcurrent k hk]
            simp only [hother k hk hki hkj]
      · rename_i hlower
        refine ⟨current, rfl, hlength, fun k hk => ?_⟩
        rw [hcurrent k hk]
        by_cases hki : k = index
        · subst hki
          by_cases hsame : reverseBits (bits + 1) k = k
          · rw [hsame]
            simp
          · rw [if_pos (by omega), if_pos (by omega)]
        · by_cases hkj : k = reverseBits (bits + 1) index
          · subst hkj
            rw [htwice]
            have hlt : reverseBits (bits + 1) index < index := by omega
            rw [if_pos (by omega), if_pos (by omega)]
          · simp only [hother k hk hki hkj]
    obtain ⟨swapped, hswapped, hswappedLength, hplaces⟩ := hstep
    obtain ⟨permuted, hpermuted, hresult⟩ := @ih (index + 1) (by omega) (by omega) swapped
      hswappedLength hplaces
    rw [Nat.add_sub_cancel] at hpermuted
    exact ⟨permuted, by rw [hswapped]; exact hpermuted, hresult⟩

theorem permuteFrom_bitReverse {bits : Nat} (hwords : words.length = 2 ^ bits) :
    permuteFrom (words.length - 1) 1 0 words = some (bitReverse bits words) := by
  cases bits with
  | zero =>
    rw [hwords]
    rfl
  | succ bits =>
    have hpositive : 0 < 2 ^ (bits + 1) := Nat.two_pow_pos _
    obtain ⟨permuted, hpermuted, hlength, hplaces⟩ := permuteFrom_spec words
      (show 0 < 1 by decide) (show 1 + (words.length - 1) = 2 ^ (bits + 1) by omega) hwords (by
        intro k hk
        by_cases hzero : min k (reverseBits (bits + 1) k) < 1
        · have hk0 : k = 0 ∨ reverseBits (bits + 1) k = 0 := by omega
          have hboth : k = 0 ∧ reverseBits (bits + 1) k = 0 := by
            have hback := reverseBits_reverseBits hk
            rcases hk0 with h | h
            · rw [h, reverseBits_zero]
              exact ⟨rfl, rfl⟩
            · rw [h, reverseBits_zero] at hback
              exact ⟨hback.symm, h⟩
          rw [if_pos hzero, hboth.2, hboth.1]
        · rw [if_neg hzero])
    simp only [Nat.sub_self, reverseBits_zero] at hpermuted
    rw [hpermuted, Option.some.injEq]
    apply List.ext_getElem?
    intro k
    by_cases hk : k < 2 ^ (bits + 1)
    · rw [hplaces k hk, bitReverse_getElem? hwords hk]
    · rw [List.getElem?_eq_none (by omega), List.getElem?_eq_none (by
        rw [bitReverse_length hwords]
        omega)]

/-! ### Butterflies -/

def AllReduced (words : List UInt64) : Prop :=
  ∀ word ∈ words, Reduced word

theorem AllReduced.cons {word : UInt64} (hword : Reduced word) (hwords : AllReduced words) :
    AllReduced (word :: words) := by
  intro other hother
  rcases List.mem_cons.mp hother with rfl | hinside
  · exact hword
  · exact hwords other hinside

theorem AllReduced.append {left right : List UInt64} (hleft : AllReduced left)
    (hright : AllReduced right) : AllReduced (left ++ right) := by
  intro word hword
  rcases List.mem_append.mp hword with h | h
  · exact hleft word h
  · exact hright word h

theorem AllReduced.of_subset {words other : List UInt64} (hwords : AllReduced words)
    (hsubset : ∀ word ∈ other, word ∈ words) : AllReduced other :=
  fun word hword => hwords word (hsubset word hword)

theorem butterflyBlock_spec (root : UInt64) {factor : UInt64} {left right : List UInt64}
    (hlength : left.length = right.length) (hleft : AllReduced left) :
    ((butterflyBlock root factor left right).1.map residue,
        (butterflyBlock root factor left right).2.map residue) =
      butterfly (residue root) (residue factor) (left.map residue) (right.map residue) ∧
    AllReduced (butterflyBlock root factor left right).1 ∧
    AllReduced (butterflyBlock root factor left right).2 ∧
    (butterflyBlock root factor left right).1.length = left.length ∧
    (butterflyBlock root factor left right).2.length = left.length := by
  induction left generalizing right factor with
  | nil =>
    obtain rfl := List.length_eq_zero_iff.mp hlength.symm
    refine ⟨rfl, ?_, ?_, rfl, rfl⟩ <;> · intro word hword; exact absurd hword (by simp [butterflyBlock])
  | cons even left ih =>
    obtain ⟨odd, right, rfl⟩ := List.exists_cons_of_length_eq_add_one hlength.symm
    have hvalue := residue_multiply odd factor
    have hnext := residue_multiply factor root
    have heven := hleft even List.mem_cons_self
    obtain ⟨hmapped, hfirst, hsecond, hcount, hcount'⟩ := @ih (multiply factor root) right
      (by simpa using hlength) (hleft.of_subset fun word hword => List.mem_cons_of_mem even hword)
    have hsum := residue_add heven hvalue.2
    have hdifference := residue_subtract heven hvalue.2
    rw [hnext.1] at hmapped
    simp only [butterflyBlock, List.map_cons, butterfly, ← hmapped, List.length_cons]
    refine ⟨?_, hfirst.cons hsum.2, hsecond.cons hdifference.2, by rw [hcount], by rw [hcount']⟩
    rw [hsum.1, hdifference.1, hvalue.1]

/-! ### Stages -/

theorem stageBlocks_append {width : Nat} (hwidth : 0 < width) (root : UInt64)
    {left : List UInt64} (hleft : width ∣ left.length) (right : List UInt64) :
    stageBlocks width root (left ++ right) =
      stageBlocks width root left ++ stageBlocks width root right := by
  obtain ⟨blocks, hblocks⟩ := hleft
  induction blocks generalizing left with
  | zero =>
    obtain rfl : left = [] := List.length_eq_zero_iff.mp (by simpa using hblocks)
    have hnone : stageBlocks width root [] = [] := by
      rw [stageBlocks, if_pos (Or.inr (by simpa using hwidth))]
    simp [hnone]
  | succ blocks ih =>
    rw [Nat.mul_succ] at hblocks
    have hlong : width ≤ left.length := by omega
    have hlonger : width ≤ (left ++ right).length := by
      rw [List.length_append]
      omega
    rw [stageBlocks, if_neg (by omega)]
    conv_rhs => rw [stageBlocks, if_neg (show ¬(width = 0 ∨ left.length < width) by omega)]
    rw [List.take_append_of_le_length hlong, List.drop_append_of_le_length hlong,
      List.take_append_of_le_length (by omega), ih (by rw [List.length_drop]; omega)]
    simp only [List.append_assoc]

theorem butterflyBlock_length (root factor : UInt64) (left right : List UInt64) :
    (butterflyBlock root factor left right).1.length = left.length ∧
      (butterflyBlock root factor left right).2.length = right.length := by
  induction left generalizing right factor with
  | nil => exact ⟨rfl, rfl⟩
  | cons even left ih =>
    cases right with
    | nil => exact ⟨rfl, rfl⟩
    | cons odd right => simp [butterflyBlock, ih]

theorem stageBlocks_length (width : Nat) (root : UInt64) (words : List UInt64) :
    (stageBlocks width root words).length = words.length := by
  fun_induction stageBlocks width root words with
  | case1 words hstop => rfl
  | case2 words hmore block ih =>
    have hblock := butterflyBlock_length root 1 (words.take (width / 2))
      ((words.take width).drop (width / 2))
    simp only [block, List.length_append, ih, hblock.1, hblock.2, List.length_take,
      List.length_drop]
    omega

theorem stagesFrom_length (root : UInt64) (count stage : Nat) (words : List UInt64) :
    (stagesFrom root count stage words).length = words.length := by
  induction count generalizing stage words with
  | zero => rfl
  | succ count ih => rw [stagesFrom, ih, stageBlocks_length]

/-- Stages within the blocks of a width do not see the other blocks. -/
theorem stagesFrom_append (root : UInt64) {count stage : Nat} {left : List UInt64}
    (hleft : ∀ bits < stage + count, 2 ^ bits ∣ left.length) (right : List UInt64) :
    stagesFrom root count stage (left ++ right) =
      stagesFrom root count stage left ++ stagesFrom root count stage right := by
  induction count generalizing stage left right with
  | zero => rfl
  | succ count ih =>
    rw [stagesFrom, stagesFrom, stagesFrom,
      stageBlocks_append (Nat.two_pow_pos stage) _ (hleft stage (by omega)), ih]
    intro bits hbits
    rw [stageBlocks_length]
    exact hleft bits (by omega)

theorem stagesFrom_last (root : UInt64) (count stage : Nat) (words : List UInt64) :
    stagesFrom root (count + 1) stage words =
      stageBlocks (2 ^ (stage + count)) (power root ((modulus.toNat - 1) / 2 ^ (stage + count)))
        (stagesFrom root count stage words) := by
  induction count generalizing stage words with
  | zero => rfl
  | succ count ih =>
    rw [stagesFrom, ih, stagesFrom, Nat.add_assoc, Nat.add_comm 1]

theorem stagesFrom_spec {root : UInt64} (hroot : residue root ^ ((prime - 1) / 2) = -1)
    {bits : Nat} (hbits : bits ≤ 32) (hlength : words.length = 2 ^ bits)
    (hwords : AllReduced words) :
    (stagesFrom root bits 1 (bitReverse bits words)).map residue =
        Fourier.transform (residue root ^ ((prime - 1) / 2 ^ bits)) (2 ^ bits)
          (words.map residue) ∧
      AllReduced (stagesFrom root bits 1 (bitReverse bits words)) := by
  induction bits generalizing words with
  | zero =>
    obtain ⟨word, rfl⟩ := List.length_eq_one_iff.mp hlength
    refine ⟨?_, hwords⟩
    simp [stagesFrom, bitReverse, Fourier.transform]
  | succ bits ih =>
    obtain ⟨heven, hodd⟩ := halves_length hlength
    obtain ⟨hevenValues, hevenReduced⟩ := ih (by omega) heven
      (hwords.of_subset (evens_subset words))
    obtain ⟨hoddValues, hoddReduced⟩ := ih (by omega) hodd
      (hwords.of_subset (odds_subset words))
    have hleft : (stagesFrom root bits 1 (bitReverse bits (evens words))).length = 2 ^ bits := by
      rw [stagesFrom_length, bitReverse_length heven]
    have hright : (stagesFrom root bits 1 (bitReverse bits (odds words))).length = 2 ^ bits := by
      rw [stagesFrom_length, bitReverse_length hodd]
    have hsplit : stagesFrom root bits 1 (bitReverse (bits + 1) words) =
        stagesFrom root bits 1 (bitReverse bits (evens words)) ++
          stagesFrom root bits 1 (bitReverse bits (odds words)) := by
      apply stagesFrom_append
      intro bits' hbits'
      rw [bitReverse_length heven]
      exact Nat.pow_dvd_pow 2 (by omega)
    generalize stagesFrom root bits 1 (bitReverse bits (evens words)) = left at *
    generalize stagesFrom root bits 1 (bitReverse bits (odds words)) = right at *
    have hresidue : residue (power root ((modulus.toNat - 1) / 2 ^ (1 + bits))) =
        residue root ^ ((prime - 1) / 2 ^ (bits + 1)) := by
      rw [residue_power, modulus_toNat, Nat.add_comm 1]
    have hwidth : 2 ^ (1 + bits) / 2 = 2 ^ bits := by
      rw [Nat.add_comm, pow_succ, Nat.mul_div_cancel _ (by decide)]
    have hwhole : (left ++ right).length = 2 ^ (1 + bits) := by
      rw [List.length_append, hleft, hright, Nat.add_comm 1, pow_succ]
      omega
    have hpositive := Nat.two_pow_pos (1 + bits)
    obtain ⟨hmapped, hfirst, hsecond, _, _⟩ :=
      @butterflyBlock_spec (power root ((modulus.toNat - 1) / 2 ^ (1 + bits))) 1 left right
        (hleft.trans hright.symm) hevenReduced
    rw [hresidue, residue_one, hevenValues, hoddValues, ← root_square _ (show bits < 32 by omega)] at hmapped
    have hblocks : stageBlocks (2 ^ (1 + bits))
        (power root ((modulus.toNat - 1) / 2 ^ (1 + bits))) (left ++ right) =
          (butterflyBlock (power root ((modulus.toNat - 1) / 2 ^ (1 + bits))) 1 left right).1 ++
          (butterflyBlock (power root ((modulus.toNat - 1) / 2 ^ (1 + bits))) 1 left right).2 := by
      have hleftTake : (left ++ right).take (2 ^ (1 + bits)) = left ++ right :=
        List.take_of_length_le hwhole.le
      have hnothing : (left ++ right).drop (2 ^ (1 + bits)) = [] :=
        List.drop_eq_nil_of_le hwhole.le
      rw [stageBlocks, if_neg (by omega)]
      simp only [hleftTake, hnothing, hwidth, ← hleft, List.take_left, List.drop_left]
      rw [stageBlocks, if_pos (Or.inr (by simp)), List.append_nil]
    have htransform := transform_butterfly (root_half hroot (show bits < 32 by omega))
      (words.map residue)
    rw [← Nat.pow_succ', evens_map, odds_map, ← hmapped, ← List.map_append] at htransform
    rw [stagesFrom_last, hsplit, hblocks, htransform]
    exact ⟨rfl, hfirst.append hsecond⟩

theorem lowZeros_two_pow {bits limit : Nat} (hbits : bits < limit) :
    lowZeros limit (2 ^ bits) = bits := by
  induction bits generalizing limit with
  | zero =>
    obtain ⟨limit, rfl⟩ := Nat.exists_eq_succ_of_ne_zero (by omega : limit ≠ 0)
    simp [lowZeros]
  | succ bits ih =>
    obtain ⟨limit, rfl⟩ := Nat.exists_eq_succ_of_ne_zero (by omega : limit ≠ 0)
    rw [lowZeros, pow_succ, Nat.mul_mod_left, if_pos rfl, Nat.mul_div_cancel _ (by decide),
      ih (by omega)]

theorem transform_forward {bits : Nat} (hbits : bits ≤ 32) (hlength : words.length = 2 ^ bits)
    (hwords : AllReduced words) :
    ∃ values, transform words false = some values ∧ AllReduced values ∧
      values.map residue = Fourier.transform
        (residue generator ^ ((prime - 1) / 2 ^ bits)) (2 ^ bits) (words.map residue) := by
  obtain ⟨hvalues, hreduced⟩ := stagesFrom_spec generator_half hbits hlength hwords
  refine ⟨_, ?_, hreduced, hvalues⟩
  rw [transform, permuteFrom_bitReverse hlength, hlength, lowZeros_two_pow (by omega)]
  simp

theorem transform_backward {bits : Nat} (hbits : bits ≤ 32) (hlength : words.length = 2 ^ bits)
    (hwords : AllReduced words) :
    ∃ values, transform words true = some values ∧ AllReduced values ∧
      values.map residue = (Fourier.transform
        (residue (power generator (modulus.toNat - 2)) ^ ((prime - 1) / 2 ^ bits)) (2 ^ bits)
        (words.map residue)).map (· * ((2 ^ bits : ZMod prime))⁻¹) := by
  obtain ⟨hvalues, hreduced⟩ := stagesFrom_spec generator_inverse.2 hbits hlength hwords
  have hcount : 2 ^ bits < prime := by
    apply Nat.lt_of_le_of_lt (Nat.pow_le_pow_right (by decide) hbits)
    decide
  have hlengthWord : residue (UInt64.ofNat (2 ^ bits)) = 2 ^ bits := by
    have hword : (UInt64.ofNat (2 ^ bits)).toNat = 2 ^ bits :=
      Limbs.toNat_ofNat_of_lt (hcount.trans (by decide))
    rw [residue, hword, Nat.cast_pow, Nat.cast_ofNat]
  have hnonzero : (2 ^ bits : ZMod prime) ≠ 0 := by
    intro hzero
    have hdvd := (ZMod.natCast_eq_zero_iff (2 ^ bits) prime).mp (by push_cast; exact hzero)
    exact absurd (Nat.le_of_dvd (Nat.two_pow_pos bits) hdvd) (Nat.not_le_of_lt hcount)
  have hreciprocal :
      residue (power (UInt64.ofNat (2 ^ bits)) (modulus.toNat - 2)) = (2 ^ bits)⁻¹ := by
    apply eq_inv_of_mul_eq_one_left
    rw [residue_power, modulus_toNat, hlengthWord, ← pow_succ]
    exact ZMod.pow_card_sub_one_eq_one hnonzero
  refine ⟨_, by
    rw [transform, permuteFrom_bitReverse hlength, hlength, lowZeros_two_pow (by omega)]
    rfl, ?_, ?_⟩
  · intro word hword
    simp only [if_true, List.mem_map] at hword
    obtain ⟨other, _, rfl⟩ := hword
    exact (residue_multiply _ _).2
  · simp only [if_true, ← hvalues, List.map_map]
    apply List.map_congr_left
    intro word _
    simp only [Function.comp_apply, (residue_multiply _ _).1, hreciprocal]

end Purrdf.BigInteger.Ntt
