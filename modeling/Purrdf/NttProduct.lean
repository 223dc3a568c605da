import Mathlib.Tactic.FieldSimp
import Purrdf.MagnitudeShifts
import Purrdf.NttTransform

/-!
# The product of digits

Both factors are read in digits of sixteen bits. Every coefficient of their product is below the
prime, so its residue is the coefficient itself, and carrying the coefficients gives the limbs of
the product.
-/

namespace Purrdf.BigInteger.Ntt

open Limbs Fourier

theorem selectedLength_spec {a b length : Nat} (hselected : selectedLength a b = some length) :
    ∃ bits ≤ 32, length = 2 ^ bits ∧ 4 * (a + b) ≤ length ∧ threshold ≤ a ∧ threshold ≤ b := by
  unfold selectedLength at hselected
  split at hselected
  · exact absurd hselected (by simp)
  · rename_i hlarge
    split at hselected
    · exact absurd hselected (by simp)
    · simp only at hselected
      split at hselected
      · exact absurd hselected (by simp)
      · rename_i hroots
        obtain rfl := Option.some.inj hselected
        have hfits := Nat.le_pow_clog (show 1 < 2 by decide) ((a + b) * 4)
        refine ⟨Nat.clog 2 ((a + b) * 4), ?_, rfl, ?_, by omega, by omega⟩
        · exact (Nat.pow_le_pow_iff_right (by decide)).mp (Nat.le_of_not_lt hroots)
        · unfold nextPowerOfTwo
          omega

/-! ### Digits -/

def digitBase : Nat := 2 ^ 16

theorem radix_digits : radix = digitBase ^ 4 := by
  decide

theorem digit_toNat (word : UInt64) {shift : Nat} (hshift : shift < 64) :
    (word >>> UInt64.ofNat shift &&& 0xFFFF).toNat = word.toNat / 2 ^ shift % digitBase := by
  have hcount : (UInt64.ofNat shift).toNat = shift :=
    toNat_ofNat_of_lt (hshift.trans (by decide))
  rw [UInt64.toNat_and, UInt64.toNat_shiftRight, hcount, Nat.mod_eq_of_lt hshift,
    Nat.shiftRight_eq_div_pow]
  exact Nat.and_two_pow_sub_one_eq_mod _ 16

theorem digitsOf_toNat (word : UInt64) : (digitsOf word).map UInt64.toNat =
    [word.toNat % 2 ^ 16, word.toNat / 2 ^ 16 % 2 ^ 16, word.toNat / 2 ^ 32 % 2 ^ 16,
      word.toNat / 2 ^ 48 % 2 ^ 16] := by
  have hfirst : (word &&& 0xFFFF).toNat = word.toNat % 2 ^ 16 := by
    rw [UInt64.toNat_and]
    exact Nat.and_two_pow_sub_one_eq_mod _ 16
  have hsecond := digit_toNat word (show 16 < 64 by decide)
  have hthird := digit_toNat word (show 32 < 64 by decide)
  have hfourth := digit_toNat word (show 48 < 64 by decide)
  simp only [digitsOf, List.map_cons, List.map_nil, hfirst]
  exact congrArg _ (congrArg₂ _ hsecond (congrArg₂ _ hthird (congrArg₂ _ hfourth rfl)))

theorem evaluate_digitsOf (word : UInt64) :
    evaluate digitBase ((digitsOf word).map UInt64.toNat) = word.toNat := by
  have hword := word.toNat_lt
  rw [digitsOf_toNat]
  simp only [evaluate_cons, evaluate_nil, digitBase]
  omega

def digits (words : Mag) : List Nat :=
  (words.flatMap digitsOf).map UInt64.toNat

@[simp] theorem digits_nil : digits [] = [] :=
  rfl

@[simp] theorem digits_cons (word : UInt64) (words : Mag) :
    digits (word :: words) = (digitsOf word).map UInt64.toNat ++ digits words := by
  simp [digits]

theorem digits_length (words : Mag) : (digits words).length = 4 * words.length := by
  induction words with
  | nil => rfl
  | cons word words ih =>
    rw [digits_cons, List.length_append, ih, List.length_map, List.length_cons]
    simp only [digitsOf, List.length_cons, List.length_nil]
    omega

theorem evaluate_digits (words : Mag) : evaluate digitBase (digits words) = value words := by
  induction words with
  | nil => rfl
  | cons word words ih =>
    have hfour : (digitsOf word).length = 4 := rfl
    rw [digits_cons, evaluate_append, evaluate_digitsOf, ih, List.length_map, hfour,
      ← radix_digits, value_cons]

theorem digits_lt {words : Mag} {digit : Nat} (hdigit : digit ∈ digits words) :
    digit < digitBase := by
  induction words with
  | nil => exact absurd hdigit (by simp)
  | cons word words ih =>
    rw [digits_cons, List.mem_append, digitsOf_toNat] at hdigit
    rcases hdigit with hhere | hlater
    · have hpositive : 0 < 2 ^ 16 := by decide
      simp only [List.mem_cons, List.not_mem_nil, or_false] at hhere
      rcases hhere with rfl | rfl | rfl | rfl <;> exact Nat.mod_lt _ hpositive
    · exact ih hlater

theorem spread_toNat {words : Mag} {length : Nat} (hlength : 4 * words.length ≤ length) :
    (spread words length).map UInt64.toNat =
      digits words ++ List.replicate (length - 4 * words.length) 0 := by
  have hall : words.take (length / 4) = words := List.take_of_length_le (by omega)
  have hcount : (words.flatMap digitsOf).length = 4 * words.length := by
    rw [← digits_length, digits, List.length_map]
  simp only [spread, hall, List.map_append, List.map_replicate, hcount]
  rfl

theorem allReduced_spread {words : Mag} {length : Nat} (hlength : 4 * words.length ≤ length) :
    AllReduced (spread words length) := by
  intro word hword
  have hmem : word.toNat ∈ (spread words length).map UInt64.toNat := List.mem_map_of_mem hword
  rw [spread_toNat hlength, List.mem_append] at hmem
  unfold Reduced
  rcases hmem with hdigit | hzero
  · exact (digits_lt hdigit).trans (by decide)
  · rw [List.eq_of_mem_replicate hzero]
    exact prime_pos

/-- A bound on coefficients under which a carry is added without overflow. -/
def coefficientBound : Nat := 2 ^ 64 - 2 ^ 49

theorem place_digit {word value : UInt64} {part : Nat} (hpart : part < 4)
    (hword : word.toNat < digitBase ^ part) :
    (word ||| (value &&& 0xFFFF) <<< UInt64.ofNat (part * 16)).toNat =
      word.toNat + digitBase ^ part * (value.toNat % digitBase) := by
  have hbase : digitBase ^ part = 2 ^ (part * 16) := by
    rw [digitBase, ← pow_mul, Nat.mul_comm]
  have hdigit : (value &&& 0xFFFF).toNat = value.toNat % digitBase := by
    rw [UInt64.toNat_and]
    exact Nat.and_two_pow_sub_one_eq_mod _ 16
  have hfits : digitBase ^ part * (value.toNat % digitBase) < radix := by
    calc digitBase ^ part * (value.toNat % digitBase) < digitBase ^ part * digitBase :=
          Nat.mul_lt_mul_of_pos_left (Nat.mod_lt _ (by decide)) (Nat.pow_pos (by decide))
      _ = digitBase ^ (part + 1) := (pow_succ _ _).symm
      _ ≤ digitBase ^ 4 := Nat.pow_le_pow_right (by decide) (by omega)
  have hplaced : ((value &&& 0xFFFF) <<< UInt64.ofNat (part * 16)).toNat =
      digitBase ^ part * (value.toNat % digitBase) := by
    rw [toNat_shiftLeft (by omega), hdigit, ← hbase, Nat.mul_comm, Nat.mod_eq_of_lt hfits]
  have haligned : 2 ^ (part * 16) ∣ ((value &&& 0xFFFF) <<< UInt64.ofNat (part * 16)).toNat := by
    rw [hplaced, hbase]
    exact Nat.dvd_mul_right _ _
  rw [hbase] at hword
  rw [UInt64.or_comm, toNat_or_disjoint haligned hword, hplaced, Nat.add_comm]

theorem gatherWord_spec {coefficients : List UInt64} {word carry : UInt64} {part : Nat}
    (hpart : part + coefficients.length ≤ 4) (hword : word.toNat < digitBase ^ part)
    (hcarry : carry.toNat ≤ 2 ^ 48)
    (hbound : ∀ coefficient ∈ coefficients, coefficient.toNat ≤ coefficientBound) :
    ∃ gathered, gatherWord word carry part coefficients = some gathered ∧
      gathered.2.toNat ≤ 2 ^ 48 ∧
      gathered.1.toNat + digitBase ^ (part + coefficients.length) * gathered.2.toNat =
        word.toNat + digitBase ^ part *
          (evaluate digitBase (coefficients.map UInt64.toNat) + carry.toNat) := by
  induction coefficients generalizing word carry part with
  | nil => exact ⟨(word, carry), rfl, hcarry, by simp⟩
  | cons coefficient coefficients ih =>
    have hcoefficient := hbound coefficient List.mem_cons_self
    have hsum : coefficient.toNat + carry.toNat < radix := by
      unfold coefficientBound radix at *
      omega
    have hvalue : (coefficient + carry).toNat = coefficient.toNat + carry.toNat := by
      rw [UInt64.toNat_add]
      exact Nat.mod_eq_of_lt hsum
    have hnext : ((coefficient + carry) >>> 16).toNat =
        (coefficient.toNat + carry.toNat) / digitBase := by
      rw [UInt64.toNat_shiftRight, hvalue, Nat.shiftRight_eq_div_pow]
      rfl
    rw [List.length_cons] at hpart
    have hplaced := @place_digit word (coefficient + carry) part (by omega) hword
    have hdigit : (coefficient + carry).toNat % digitBase < digitBase :=
      Nat.mod_lt _ (by decide)
    have hbelow : (word ||| ((coefficient + carry) &&& 0xFFFF) <<<
        UInt64.ofNat (part * 16)).toNat < digitBase ^ (part + 1) := by
      rw [hplaced, pow_succ]
      calc _ < digitBase ^ part + digitBase ^ part * ((coefficient + carry).toNat % digitBase) :=
            Nat.add_lt_add_right hword _
        _ = digitBase ^ part * ((coefficient + carry).toNat % digitBase + 1) := by ring
        _ ≤ digitBase ^ part * digitBase := Nat.mul_le_mul_left _ hdigit
    obtain ⟨gathered, hgathered, hsmall, htotal⟩ := @ih
      (word ||| ((coefficient + carry) &&& 0xFFFF) <<< UInt64.ofNat (part * 16))
      ((coefficient + carry) >>> 16) (part + 1) (by omega) hbelow (by
        rw [hnext]
        unfold digitBase radix at *
        omega) fun other hother => hbound other (List.mem_cons_of_mem coefficient hother)
    refine ⟨gathered, ?_, hsmall, ?_⟩
    · rw [gatherWord, if_pos hsum]
      exact hgathered
    · have hsplit := Nat.mod_add_div (coefficient.toNat + carry.toNat) digitBase
      rw [hplaced, hnext, hvalue, Nat.add_assoc, Nat.add_comm 1] at htotal
      rw [List.length_cons, htotal, List.map_cons, evaluate_cons]
      linear_combination digitBase ^ part * hsplit

theorem gather_spec {count : Nat} {coefficients : List UInt64} {carry : UInt64}
    (hcount : 4 * count ≤ coefficients.length) (hcarry : carry.toNat ≤ 2 ^ 48)
    (hbound : ∀ coefficient ∈ coefficients, coefficient.toNat ≤ coefficientBound) :
    ∃ gathered, gather count carry coefficients = some gathered ∧ gathered.1.length = count ∧
      value gathered.1 + radix ^ count * gathered.2.toNat =
        evaluate digitBase ((coefficients.take (4 * count)).map UInt64.toNat) + carry.toNat := by
  induction count generalizing coefficients carry with
  | zero => exact ⟨([], carry), rfl, rfl, by simp⟩
  | succ count ih =>
    have hfour : (coefficients.take 4).length = 4 := by
      rw [List.length_take]
      omega
    obtain ⟨gathered, hgathered, hsmall, hword⟩ :=
      @gatherWord_spec (coefficients.take 4) 0 carry 0 (by omega) (by decide) hcarry
        fun coefficient hmem => hbound coefficient (List.mem_of_mem_take hmem)
    obtain ⟨rest, hrest, hlength, htotal⟩ := @ih (coefficients.drop 4) gathered.2
      (by rw [List.length_drop]; omega) hsmall
      fun coefficient hmem => hbound coefficient (List.mem_of_mem_drop hmem)
    refine ⟨(gathered.1 :: rest.1, rest.2), ?_, by simp [hlength], ?_⟩
    · rw [gather, if_neg (by omega), hgathered, Option.bind_some, hrest]
      rfl
    · have hsplit : coefficients.take (4 * (count + 1)) =
          coefficients.take 4 ++ (coefficients.drop 4).take (4 * count) := by
        rw [← List.take_add, Nat.mul_succ, Nat.add_comm 4]
      rw [hfour, Nat.zero_add, ← radix_digits] at hword
      rw [hsplit, List.map_append, evaluate_append, List.length_map, hfour, ← radix_digits,
        value_cons]
      have hzero : (0 : UInt64).toNat = 0 := rfl
      rw [hzero, pow_zero] at hword
      linear_combination hword + radix * htotal

/-! ### The product -/

theorem spread_residue {words : Mag} {length : Nat} (hlength : 4 * words.length ≤ length) :
    (spread words length).map residue = (digits words).map (Nat.castRingHom (ZMod prime)) ++
      List.replicate (length - 4 * words.length) 0 := by
  have hcast : (spread words length).map residue =
      ((spread words length).map UInt64.toNat).map (Nat.castRingHom (ZMod prime)) := by
    simp [residue, Function.comp_def]
  rw [hcast, spread_toNat hlength, List.map_append, List.map_replicate, map_zero]

theorem transform_spread {bits : Nat} (hbits : bits ≤ 32) {words : Mag}
    (hlength : 4 * words.length ≤ 2 ^ bits) :
    ∃ values, transform (spread words (2 ^ bits)) false = some values ∧
      values.length = 2 ^ bits ∧ values.map residue = Fourier.transform
        (residue generator ^ ((prime - 1) / 2 ^ bits)) (2 ^ bits)
        ((digits words).map (Nat.castRingHom (ZMod prime))) := by
  have hspread : (spread words (2 ^ bits)).length = 2 ^ bits := by
    have hcount := congrArg List.length (spread_toNat hlength)
    rw [List.length_map, List.length_append, List.length_replicate, digits_length] at hcount
    omega
  obtain ⟨values, hvalues, _, hmapped⟩ :=
    transform_forward hbits hspread (allReduced_spread hlength)
  rw [spread_residue hlength, transform_append_zeros] at hmapped
  refine ⟨values, hvalues, ?_, hmapped⟩
  simpa using congrArg List.length hmapped

theorem digit_product_le {a b : Mag} {x y : Nat} (hx : x ∈ digits a) (hy : y ∈ digits b) :
    x * y ≤ 65535 * 65535 :=
  Nat.mul_le_mul (Nat.le_of_lt_succ (digits_lt hx)) (Nat.le_of_lt_succ (digits_lt hy))

theorem coefficients_le {a b : Mag} (hfits : 4 * (a.length + b.length) ≤ 2 ^ 32)
    (hb : threshold ≤ b.length) {coefficient : Nat}
    (hmem : coefficient ∈ mulLists (digits a) (digits b)) :
    coefficient ≤ coefficientBound ∧ coefficient < prime := by
  have hle := mulLists_le (fun x hx y hy => @digit_product_le a b x y hx hy) coefficient hmem
  rw [digits_length] at hle
  have hcount : 4 * a.length ≤ 2 ^ 32 - 2 ^ 17 := by
    unfold threshold at hb
    omega
  have hbound := hle.trans (Nat.mul_le_mul_right _ hcount)
  unfold coefficientBound prime
  omega

theorem toNat_of_residue {words : List UInt64} {numbers : List Nat} (hwords : AllReduced words)
    (hnumbers : ∀ number ∈ numbers, number < prime)
    (hsame : words.map residue = numbers.map (Nat.castRingHom (ZMod prime))) :
    words.map UInt64.toNat = numbers := by
  have hvalues := congrArg (List.map ZMod.val) hsame
  rw [List.map_map, List.map_map] at hvalues
  have hleft : words.map (ZMod.val ∘ residue) = words.map UInt64.toNat :=
    List.map_congr_left fun word hword => val_residue (hwords word hword)
  have hright : numbers.map (ZMod.val ∘ Nat.castRingHom (ZMod prime)) = numbers := by
    conv_rhs => rw [← List.map_id numbers]
    exact List.map_congr_left fun number hnumber => ZMod.val_natCast_of_lt (hnumbers number hnumber)
  rw [← hleft, hvalues, hright]

theorem transform_product {bits : Nat} (hbits : bits ≤ 32) {a b : Mag}
    (hfits : 4 * (a.length + b.length) ≤ 2 ^ bits) (hb : threshold ≤ b.length)
    {left right : List UInt64} (hcount : left.length = 2 ^ bits) (hcount' : right.length = 2 ^ bits)
    (hleft : left.map residue = Fourier.transform
      (residue generator ^ ((prime - 1) / 2 ^ bits)) (2 ^ bits)
      ((digits a).map (Nat.castRingHom (ZMod prime))))
    (hright : right.map residue = Fourier.transform
      (residue generator ^ ((prime - 1) / 2 ^ bits)) (2 ^ bits)
      ((digits b).map (Nat.castRingHom (ZMod prime)))) :
    ∃ coefficients, transform (List.zipWith multiply left right) true = some coefficients ∧
      coefficients.map UInt64.toNat = mulLists (digits a) (digits b) ++
        List.replicate (2 ^ bits - (mulLists (digits a) (digits b)).length) 0 := by
  have hpointwise : (List.zipWith multiply left right).map residue =
      List.zipWith (· * ·) (left.map residue) (right.map residue) := by
    rw [List.map_zipWith, List.zipWith_map]
    congr 1
    funext x y
    exact (residue_multiply x y).1
  have hreduced : AllReduced (List.zipWith multiply left right) := by
    intro word hword
    obtain ⟨i, hi, rfl⟩ := List.mem_iff_getElem.mp hword
    rw [List.getElem_zipWith]
    exact (residue_multiply _ _).2
  obtain ⟨coefficients, hcoefficients, hvaluesReduced, hvalues⟩ :=
    transform_backward hbits (by rw [List.length_zipWith, hcount, hcount', Nat.min_self]) hreduced
  refine ⟨coefficients, hcoefficients, toNat_of_residue hvaluesReduced ?_ ?_⟩
  · intro number hnumber
    rcases List.mem_append.mp hnumber with hmem | hzero
    · exact (coefficients_le (hfits.trans (Nat.pow_le_pow_right (by decide) hbits)) hb hmem).2
    · rw [List.eq_of_mem_replicate hzero]
      exact prime_pos
  · have hlength := mulLists_length_le (digits a) (digits b)
    rw [digits_length, digits_length] at hlength
    have hroot := root_primitive generator_half hbits
    have hinverse : residue generator ^ ((prime - 1) / 2 ^ bits) *
        residue (power generator (modulus.toNat - 2)) ^ ((prime - 1) / 2 ^ bits) = 1 := by
      rw [← mul_pow, generator_inverse.1, one_pow]
    have hnonzero : (2 ^ bits : ZMod prime) ≠ 0 := by
      have hcharacteristic : (2 : ZMod prime) ≠ 0 := by decide
      exact pow_ne_zero bits hcharacteristic
    have hpadded : ((mulLists (digits a) (digits b)).map (Nat.castRingHom (ZMod prime)) ++
        List.replicate (2 ^ bits - (mulLists (digits a) (digits b)).length) 0).length =
          2 ^ bits := by
      rw [List.length_append, List.length_map, List.length_replicate]
      omega
    have hback := transform_transform hroot hinverse hpadded
    rw [transform_append_zeros, map_mulLists, ← transform_mulLists, ← hleft, ← hright,
      ← hpointwise] at hback
    rw [hvalues, hback, ← map_mulLists]
    simp only [List.map_append, List.map_map, List.map_replicate, map_zero, mul_zero, zero_mul,
      Function.comp_def, Nat.cast_pow, Nat.cast_ofNat]
    congr 1
    apply List.map_congr_left
    intro number _
    field_simp

theorem product_spec {a b : Mag} {length : Nat}
    (hselected : selectedLength a.length b.length = some length) :
    ∃ product', product a b length = some product' ∧ Trimmed product' ∧
      value product' = value a * value b := by
  obtain ⟨bits, hbits, rfl, hfits, _, hb⟩ := selectedLength_spec hselected
  obtain ⟨left, hleft, hcount, hleftValues⟩ :=
    @transform_spread bits hbits a (by omega)
  obtain ⟨right, hright, hcount', hrightValues⟩ :=
    @transform_spread bits hbits b (by omega)
  obtain ⟨coefficients, hcoefficients, hnumbers⟩ :=
    transform_product hbits hfits hb hcount hcount' hleftValues hrightValues
  have hlength := mulLists_length_le (digits a) (digits b)
  rw [digits_length, digits_length] at hlength
  have htotal : coefficients.length = 2 ^ bits := by
    have hsame := congrArg List.length hnumbers
    rw [List.length_map, List.length_append, List.length_replicate] at hsame
    omega
  have hroom : ∀ coefficient ∈ coefficients, coefficient.toNat ≤ coefficientBound := by
    intro coefficient hmem
    have hnumber : coefficient.toNat ∈ coefficients.map UInt64.toNat := List.mem_map_of_mem hmem
    rw [hnumbers, List.mem_append] at hnumber
    rcases hnumber with hinside | hzero
    · exact (coefficients_le (hfits.trans (Nat.pow_le_pow_right (by decide) hbits)) hb hinside).1
    · rw [List.eq_of_mem_replicate hzero]
      exact Nat.zero_le _
  obtain ⟨gathered, hgathered, hwords, hvalue⟩ :=
    @gather_spec (a.length + b.length) coefficients 0 (by omega) (by decide) hroom
  have htaken : evaluate digitBase
      ((coefficients.take (4 * (a.length + b.length))).map UInt64.toNat) = value a * value b := by
    rw [List.map_take, hnumbers, List.take_append, List.take_of_length_le (by omega),
      List.take_replicate, evaluate_append_zeros, evaluate_mulLists, evaluate_digits,
      evaluate_digits]
  have hfull : value a * value b < radix ^ (a.length + b.length) := by
    rw [pow_add]
    exact Nat.mul_lt_mul'' (value_lt a) (value_lt b)
  have hzero : (0 : UInt64).toNat = 0 := rfl
  rw [htaken, hzero, Nat.add_zero] at hvalue
  have hcarry : gathered.2 = 0 := by
    by_contra hsome
    have hpositive : 1 ≤ gathered.2.toNat :=
      Nat.pos_of_ne_zero fun hnone => hsome (UInt64.toNat_inj.mp hnone)
    have hmore := Nat.mul_le_mul_left (radix ^ (a.length + b.length)) hpositive
    omega
  refine ⟨magTrim gathered.1, ?_, trimmed_trim _, ?_⟩
  · rw [product, hleft, Option.bind_some, hright, Option.bind_some, hcoefficients,
      Option.bind_some, hgathered, Option.bind_some, if_neg (by simp [hcarry])]
  · rw [value_magTrim, ← hvalue, hcarry, hzero, Nat.mul_zero, Nat.add_zero]

end Purrdf.BigInteger.Ntt
