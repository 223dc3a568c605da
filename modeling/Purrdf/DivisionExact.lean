import Mathlib.Tactic.Ring
import Purrdf.Division

/-!
# Trial quotients

A quotient estimated from leading digits. The dividend and the divisor are known through the
values of their leading digits and the weight of the digits left out; an estimate is never too
small, a normalized divisor keeps it at most two too large, and one more digit of each settles
all but one.
-/

namespace Purrdf.TrialQuotient

section

variable {dividend divisor leading top weight : Nat}

theorem quotient_mul_le (hdividend : dividend < (leading + 1) * weight)
    (hdivisor : top * weight ≤ divisor) {quotient : Nat} (hquotient : quotient * divisor ≤ dividend) :
    quotient * top ≤ leading := by
  have hscaled : quotient * top * weight < (leading + 1) * weight := by
    calc quotient * top * weight = quotient * (top * weight) := Nat.mul_assoc _ _ _
      _ ≤ quotient * divisor := Nat.mul_le_mul_left quotient hdivisor
      _ < (leading + 1) * weight := Nat.lt_of_le_of_lt hquotient hdividend
  exact Nat.le_of_lt_succ (Nat.lt_of_mul_lt_mul_right hscaled)

theorem estimate_mul_le {estimate base : Nat} (hestimate : estimate * top ≤ leading)
    (hbase : estimate ≤ base) (hnormalized : base ≤ 2 * top)
    (hdividend : leading * weight ≤ dividend) (hlower : top * weight ≤ divisor)
    (hupper : divisor ≤ (top + 1) * weight) : estimate * divisor ≤ dividend + 2 * divisor := by
  calc estimate * divisor ≤ estimate * ((top + 1) * weight) := Nat.mul_le_mul_left _ hupper
    _ = estimate * top * weight + estimate * weight := by ring
    _ ≤ leading * weight + 2 * top * weight := Nat.add_le_add
        (Nat.mul_le_mul_right _ hestimate) (Nat.mul_le_mul_right _ (hbase.trans hnormalized))
    _ = leading * weight + 2 * (top * weight) := by ring
    _ ≤ dividend + 2 * divisor := Nat.add_le_add hdividend (Nat.mul_le_mul_left 2 hlower)

variable {digit remainder base next low : Nat}

theorem lt_mul_of_next (hsplit : digit * top + remainder = leading)
    (hnext : remainder * base + low < digit * next)
    (hdividend : dividend < (leading * base + low + 1) * weight)
    (hdivisor : (top * base + next) * weight ≤ divisor) : dividend < digit * divisor := by
  have hdigits : leading * base + low + 1 ≤ digit * (top * base + next) := by
    calc leading * base + low + 1 = digit * top * base + (remainder * base + low + 1) := by
          rw [← hsplit]
          ring
      _ ≤ digit * top * base + digit * next := Nat.add_le_add_left hnext _
      _ = digit * (top * base + next) := by ring
  calc dividend < (leading * base + low + 1) * weight := hdividend
    _ ≤ digit * (top * base + next) * weight := Nat.mul_le_mul_right _ hdigits
    _ = digit * ((top * base + next) * weight) := Nat.mul_assoc _ _ _
    _ ≤ digit * divisor := Nat.mul_le_mul_left _ hdivisor

theorem mul_lt_of_next (hsplit : digit * top + remainder = leading)
    (hnext : digit * next ≤ remainder * base + low) (hdigit : digit < base) (htop : 0 < top)
    (hweight : 0 < weight) (hdividend : (leading * base + low) * weight ≤ dividend)
    (hlower : top * base * weight ≤ divisor)
    (hupper : divisor ≤ (top * base + next + 1) * weight) :
    digit * divisor < dividend + divisor := by
  have hdigits : digit * (top * base + next) ≤ leading * base + low := by
    calc digit * (top * base + next) = digit * top * base + digit * next := by ring
      _ ≤ digit * top * base + (remainder * base + low) := Nat.add_le_add_left hnext _
      _ = leading * base + low := by
          rw [← hsplit]
          ring
  have hlast : digit * weight < divisor := by
    calc digit * weight < base * weight := Nat.mul_lt_mul_of_pos_right hdigit hweight
      _ ≤ top * base * weight :=
          Nat.mul_le_mul_right _ (Nat.le_mul_of_pos_left _ htop)
      _ ≤ divisor := hlower
  calc digit * divisor ≤ digit * ((top * base + next + 1) * weight) :=
        Nat.mul_le_mul_left _ hupper
    _ = digit * (top * base + next) * weight + digit * weight := by ring
    _ ≤ (leading * base + low) * weight + digit * weight :=
        Nat.add_le_add_right (Nat.mul_le_mul_right _ hdigits) _
    _ < dividend + divisor := Nat.add_lt_add_of_le_of_lt hdividend hlast

end

end Purrdf.TrialQuotient

/-!
## Normalized division is exact

At every position the estimate is corrected at most twice, and the product that is taken from the
dividend is at most one divisor too large, so one divisor is added back at most. What is left is
below the divisor, which is what the next position starts from.
-/

namespace Purrdf.BigInteger

open Limbs TrialQuotient

theorem value_drop_of_getElem? {words : Mag} {position : Nat} {limb : UInt64}
    (hlimb : words[position]? = some limb) :
    value (words.drop position) = limb.toNat + radix * value (words.drop (position + 1)) := by
  obtain ⟨hposition, rfl⟩ := List.getElem?_eq_some_iff.mp hlimb
  rw [List.drop_eq_getElem_cons hposition, value_cons]

theorem getElem?_of_lt {words : Mag} {position : Nat} (hposition : position < words.length) :
    ∃ limb, words[position]? = some limb :=
  ⟨_, List.getElem?_eq_getElem hposition⟩

theorem value_top_two {v : Mag} (hlength : 2 ≤ v.length) {top next : UInt64}
    (htop : v[v.length - 1]? = some top) (hnext : v[v.length - 2]? = some next) :
    value v = value (v.take (v.length - 2)) +
      radix ^ (v.length - 2) * (next.toNat + radix * top.toNat) := by
  have hend : v.length - 2 + 1 = v.length - 1 := by omega
  have hlast : v.length - 1 + 1 = v.length := by omega
  have hsplit := value_split v (v.length - 2)
  rw [value_drop_of_getElem? hnext, hend, value_drop_of_getElem? htop, hlast, List.drop_length,
    value_nil, Nat.mul_zero, Nat.add_zero] at hsplit
  exact hsplit

theorem value_top_three {n : Nat} (hn : 2 ≤ n) {u : Mag} {j : Nat} {high middle low : UInt64}
    (hhigh : u[j + n]? = some high) (hmiddle : u[j + n - 1]? = some middle)
    (hlow : u[j + n - 2]? = some low) (hrest : value (u.drop (j + n + 1)) = 0) :
    value (u.drop j) = value ((u.drop j).take (n - 2)) +
      radix ^ (n - 2) * (low.toNat + radix * (middle.toNat + radix * high.toNat)) := by
  have hfirst : j + (n - 2) = j + n - 2 := by omega
  have hsecond : j + n - 2 + 1 = j + n - 1 := by omega
  have hthird : j + n - 1 + 1 = j + n := by omega
  have hsplit := value_split (u.drop j) (n - 2)
  rw [List.drop_drop, hfirst, value_drop_of_getElem? hlow, hsecond, value_drop_of_getElem? hmiddle,
    hthird, value_drop_of_getElem? hhigh, hrest, Nat.mul_zero, Nat.add_zero] at hsplit
  exact hsplit

/-- Corrections end within their limit, since each adds a normalized limb to the remainder. -/
theorem correctDigit_spec {dividend divisor leading weight top next low : Nat}
    (htop : 0 < top) (hnextLimb : next < radix) (hweight : 0 < weight)
    (hdividend : (leading * radix + low) * weight ≤ dividend)
    (hdividend' : dividend < (leading * radix + low + 1) * weight)
    (hdivisor : (top * radix + next) * weight ≤ divisor)
    (hdivisor' : divisor ≤ (top * radix + next + 1) * weight)
    {turns digit remainder : Nat} (hsplit : digit * top + remainder = leading)
    (hquotient : dividend / divisor ≤ digit) (hdigit : digit < radix)
    (hturns : radix ≤ remainder + turns * top) :
    ∃ corrected, correctDigit top next low turns digit remainder = some corrected ∧
      dividend / divisor ≤ corrected ∧ corrected * divisor < dividend + divisor ∧
      corrected < radix := by
  have hpositive : 0 < divisor := by
    have hleading : 0 < (top * radix + next) * weight :=
      Nat.mul_pos (Nat.add_pos_left (Nat.mul_pos htop radix_pos) _) hweight
    omega
  have haccept : ∀ {digit remainder}, digit * top + remainder = leading → digit < radix →
      ¬(remainder < radix ∧ remainder * radix + low < digit * next) →
      digit * divisor < dividend + divisor := by
    intro digit remainder hsplit hdigit hstop
    refine mul_lt_of_next hsplit ?_ hdigit htop hweight hdividend ?_ hdivisor'
    · by_cases hsmall : remainder < radix
      · exact Nat.le_of_not_lt fun hmore => hstop ⟨hsmall, hmore⟩
      · calc digit * next ≤ radix * radix := Nat.mul_le_mul hdigit.le hnextLimb.le
          _ ≤ remainder * radix := Nat.mul_le_mul_right _ (Nat.le_of_not_lt hsmall)
          _ ≤ remainder * radix + low := Nat.le_add_right _ _
    · exact (Nat.mul_le_mul_right _ (Nat.le_add_right _ _)).trans hdivisor
  induction turns generalizing digit remainder with
  | zero =>
    have hlarge : ¬(remainder < radix ∧ remainder * radix + low < digit * next) := by omega
    refine ⟨digit, ?_, hquotient, haccept hsplit hdigit hlarge, hdigit⟩
    rw [correctDigit, if_neg hlarge]
  | succ turns ih =>
    by_cases hreduce : remainder < radix ∧ remainder * radix + low < digit * next
    · have hless := lt_mul_of_next hsplit hreduce.2 hdividend' hdivisor
      have hquotientLt : dividend / divisor < digit :=
        (Nat.div_lt_iff_lt_mul hpositive).mpr hless
      obtain ⟨smaller, rfl⟩ := Nat.exists_eq_succ_of_ne_zero (Nat.ne_zero_of_lt hquotientLt)
      have hstep : smaller * top + (remainder + top) = leading := by
        rw [← hsplit, Nat.succ_mul]
        ring
      obtain ⟨corrected, hcorrected, hresult⟩ := ih hstep
        (Nat.le_of_lt_succ hquotientLt) (Nat.lt_of_succ_lt hdigit) (by
        rw [Nat.succ_mul] at hturns
        omega)
      refine ⟨corrected, ?_, hresult⟩
      rw [correctDigit, if_pos hreduce, if_neg (Nat.succ_ne_zero smaller), Nat.succ_sub_one]
      exact hcorrected
    · refine ⟨digit, ?_, hquotient, haccept hsplit hdigit hreduce, hdigit⟩
      rw [correctDigit, if_neg hreduce]

theorem estimateDigit_spec {dividend divisor top high middle weight : Nat} (htop : 0 < top)
    (hmiddle : middle < radix) (hhigh : high ≤ top) (hdivisor : 0 < divisor)
    (hdividend : dividend < (high * radix + middle + 1) * weight)
    (hlower : top * weight ≤ divisor) (hfits : dividend < radix * divisor) :
    (estimateDigit top high middle).1 * top + (estimateDigit top high middle).2 =
        high * radix + middle ∧
      dividend / divisor ≤ (estimateDigit top high middle).1 ∧
      (estimateDigit top high middle).1 < radix := by
  have hquotient : dividend / divisor < radix := (Nat.div_lt_iff_lt_mul hdivisor).mpr hfits
  unfold estimateDigit
  split
  · rename_i hsame
    have hradix : radix - 1 + 1 = radix := Nat.sub_add_cancel radix_pos
    refine ⟨?_, by simp only; omega, by simp only; omega⟩
    calc (radix - 1) * top + (middle + top) = (radix - 1 + 1) * top + middle := by ring
      _ = high * radix + middle := by rw [hradix, hsame, Nat.mul_comm]
  · rename_i hdiffer
    have hle := quotient_mul_le hdividend hlower (Nat.div_mul_le_self dividend divisor)
    refine ⟨?_, (Nat.le_div_iff_mul_le htop).mpr hle, ?_⟩
    · have hsplit := Nat.div_add_mod (high * radix + middle) top
      rw [Nat.mul_comm] at hsplit
      exact hsplit
    · apply (Nat.div_lt_iff_lt_mul htop).mpr
      calc high * radix + middle < (high + 1) * radix := by
            rw [Nat.succ_mul]
            omega
        _ ≤ radix * top := by
            rw [Nat.mul_comm]
            exact Nat.mul_le_mul_left _ (by omega)

/-! ### One position -/

theorem sub_borrow (limb taken : UInt64) :
    (limb - taken).toNat + taken.toNat = limb.toNat + radix * if limb < taken then 1 else 0 := by
  have hlimb := limb.toNat_lt
  have htaken := taken.toNat_lt
  have hdifference := UInt64.toNat_sub limb taken
  unfold radix
  split
  · rename_i hless
    rw [UInt64.lt_iff_toNat_lt] at hless
    omega
  · rename_i hless
    rw [UInt64.lt_iff_toNat_lt] at hless
    omega

theorem mulSubFrom_value (digit : UInt64) {window v : Mag} (hlength : window.length = v.length)
    (carry : Nat) :
    value (mulSubFrom digit carry window v).1 + digit.toNat * value v + carry =
        value window + radix ^ v.length * (mulSubFrom digit carry window v).2 ∧
      (mulSubFrom digit carry window v).1.length = v.length := by
  induction v generalizing window carry with
  | nil =>
    obtain rfl := List.length_eq_zero_iff.mp hlength
    simp [mulSubFrom]
  | cons divisor v ih =>
    obtain ⟨limb, window, rfl⟩ := List.exists_cons_of_length_eq_add_one hlength
    have hsplit := digit_carry (digit.toNat * divisor.toNat + carry)
    have hdifference := sub_borrow limb (UInt64.ofNat (digit.toNat * divisor.toNat + carry))
    simp only [mulSubFrom, value_cons, List.length_cons]
    generalize hproduct : digit.toNat * divisor.toNat + carry = product at hsplit hdifference ⊢
    obtain ⟨hrest, hcount⟩ := @ih window (by simpa using hlength)
      (product / radix + if limb < UInt64.ofNat product then 1 else 0)
    refine ⟨?_, by rw [hcount]⟩
    linear_combination hdifference + radix * hrest + hsplit.symm + hproduct

theorem addBackFrom_value {window v : Mag} (hlength : window.length = v.length) (carry : Nat) :
    value (addBackFrom carry window v).1 + radix ^ v.length * (addBackFrom carry window v).2 =
        value window + value v + carry ∧
      (addBackFrom carry window v).1.length = v.length := by
  induction v generalizing window carry with
  | nil =>
    obtain rfl := List.length_eq_zero_iff.mp hlength
    simp [addBackFrom]
  | cons divisor v ih =>
    obtain ⟨limb, window, rfl⟩ := List.exists_cons_of_length_eq_add_one hlength
    have hsplit := digit_carry (limb.toNat + divisor.toNat + carry)
    obtain ⟨hrest, hcount⟩ := @ih window (by simpa using hlength)
      ((limb.toNat + divisor.toNat + carry) / radix)
    simp only [addBackFrom, value_cons, List.length_cons]
    refine ⟨?_, by rw [hcount]⟩
    linear_combination radix * hrest + hsplit

structure Normalized (v : Mag) : Prop where
  two_le : 2 ≤ v.length
  half_le : radix ^ v.length ≤ 2 * value v

section Position

variable {v u : Mag} {j : Nat}

theorem Normalized.top_half (hnormalized : Normalized v) {top : UInt64}
    (htop : v[v.length - 1]? = some top) : 2 ^ 63 ≤ top.toNat := by
  have htwo := hnormalized.two_le
  have hhalf := hnormalized.half_le
  have hlast : v.length - 1 + 1 = v.length := by omega
  have hsplit := value_split v (v.length - 1)
  have hlow := value_take_lt v (v.length - 1)
  rw [value_drop_of_getElem? htop, hlast, List.drop_length, value_nil, Nat.mul_zero,
    Nat.add_zero] at hsplit
  by_contra hsmall
  have hnext : top.toNat + 1 ≤ 2 ^ 63 := by omega
  have hbound : value v < radix ^ (v.length - 1) * 2 ^ 63 := by
    calc value v < radix ^ (v.length - 1) + radix ^ (v.length - 1) * top.toNat := by
          rw [hsplit]
          exact Nat.add_lt_add_right hlow _
      _ = radix ^ (v.length - 1) * (top.toNat + 1) := by ring
      _ ≤ _ := Nat.mul_le_mul_left _ hnext
  have hpower : radix ^ v.length = radix ^ (v.length - 1) * 2 ^ 63 * 2 := by
    conv_lhs => rw [← hlast, pow_succ]
    rw [Nat.mul_assoc]
    rfl
  omega

theorem Normalized.top_bit (hnormalized : Normalized v) :
    ((v[v.length - 1]?).getD 0) >>> 63 = 1 := by
  have htwo := hnormalized.two_le
  obtain ⟨top, htop⟩ := @getElem?_of_lt v (v.length - 1) (by omega)
  have hhalf := hnormalized.top_half htop
  have hbound := top.toNat_lt
  have hshift := UInt64.toNat_shiftRight top 63
  have hcount : (63 : UInt64).toNat % 64 = 63 := rfl
  have hone : (1 : UInt64).toNat = 1 := rfl
  rw [hcount, Nat.shiftRight_eq_div_pow] at hshift
  rw [htop, Option.getD_some]
  apply UInt64.toNat_inj.mp
  rw [hshift, hone]
  omega

theorem value_beyond_guard (hless : value (u.drop (j + 1)) < value v) :
    value (u.drop (j + v.length + 1)) = 0 := by
  have hsplit := value_split (u.drop (j + 1)) v.length
  have hfits := hless.trans (value_lt v)
  rw [List.drop_drop, Nat.add_right_comm] at hsplit
  by_contra hmore
  have hone := Nat.mul_le_mul_left (radix ^ v.length) (Nat.one_le_iff_ne_zero.mpr hmore)
  omega

theorem value_drop_lt (hj : j < u.length) (hless : value (u.drop (j + 1)) < value v) :
    value (u.drop j) < radix * value v := by
  obtain ⟨limb, hlimb⟩ := getElem?_of_lt hj
  have hbound := limb_lt limb
  rw [value_drop_of_getElem? hlimb]
  calc limb.toNat + radix * value (u.drop (j + 1)) < radix + radix * value (u.drop (j + 1)) :=
        Nat.add_lt_add_right hbound _
    _ = radix * (value (u.drop (j + 1)) + 1) := by ring
    _ ≤ radix * value v := Nat.mul_le_mul_left _ hless

theorem trialDigit_spec (hnormalized : Normalized v) (hj : j + v.length < u.length)
    (hless : value (u.drop (j + 1)) < value v) :
    ∃ digit, trialDigit v u j = some digit ∧ value (u.drop j) / value v ≤ digit ∧
      digit * value v < value (u.drop j) + value v ∧ digit < radix := by
  have htwo := hnormalized.two_le
  obtain ⟨top, htop⟩ := @getElem?_of_lt v (v.length - 1) (by omega)
  obtain ⟨next, hnext⟩ := @getElem?_of_lt v (v.length - 2) (by omega)
  obtain ⟨high, hhigh⟩ := @getElem?_of_lt u (j + v.length) hj
  obtain ⟨middle, hmiddle⟩ := @getElem?_of_lt u (j + v.length - 1) (by omega)
  obtain ⟨low, hlow⟩ := @getElem?_of_lt u (j + v.length - 2) (by omega)
  have hhalf := hnormalized.top_half htop
  have hdivisor := value_top_two htwo htop hnext
  have hdividend := value_top_three htwo hhigh hmiddle hlow (value_beyond_guard hless)
  have hdivisorLow := value_take_lt v (v.length - 2)
  have hdividendLow := value_take_lt (u.drop j) (v.length - 2)
  have hfits := value_drop_lt (by omega) hless
  have hweight := pow_radix_pos (v.length - 2)
  have hpower : radix ^ (v.length - 1) = radix ^ (v.length - 2) * radix := by
    rw [← pow_succ]
    congr 1
    omega
  -- the guard limb is at most the divisor's highest
  have htopLe : high.toNat ≤ top.toNat := by
    by_contra hmore
    have hsplit := value_split (u.drop (j + 1)) (v.length - 1)
    have hplace : j + 1 + (v.length - 1) = j + v.length := by omega
    rw [List.drop_drop, hplace, value_drop_of_getElem? hhigh, value_beyond_guard hless] at hsplit
    simp only [Nat.mul_zero, Nat.add_zero] at hsplit
    have hstep : radix ^ (v.length - 1) * (top.toNat + 1) ≤
        radix ^ (v.length - 1) * high.toNat := Nat.mul_le_mul_left _ (by omega)
    have hupper : value v < radix ^ (v.length - 1) * (top.toNat + 1) := by
      have hlast : v.length - 1 + 1 = v.length := by omega
      have hsplit := value_split v (v.length - 1)
      have hlow := value_take_lt v (v.length - 1)
      rw [value_drop_of_getElem? htop, hlast, List.drop_length, value_nil, Nat.mul_zero,
        Nat.add_zero] at hsplit
      rw [hsplit, Nat.mul_succ]
      omega
    omega
  generalize value (u.drop j) = dividend at *
  generalize value v = divisor at *
  generalize radix ^ (v.length - 2) = weight at *
  generalize value (v.take (v.length - 2)) = divisorLow at *
  generalize value ((u.drop j).take (v.length - 2)) = dividendLow at *
  have hpositive : 0 < divisor := by
    rcases Nat.eq_zero_or_pos divisor with hzero | hpositive
    · rw [hzero] at hless
      exact absurd hless (Nat.not_lt_zero _)
    · exact hpositive
  have hleadingUpper : dividend <
      ((high.toNat * radix + middle.toNat) * radix + low.toNat + 1) * weight := by
    rw [hdividend]
    calc _ < weight + weight * (low.toNat + radix * (middle.toNat + radix * high.toNat)) :=
          Nat.add_lt_add_right hdividendLow _
      _ = _ := by ring
  have hleadingLower : ((high.toNat * radix + middle.toNat) * radix + low.toNat) * weight ≤
      dividend := by
    rw [hdividend]
    calc _ = weight * (low.toNat + radix * (middle.toNat + radix * high.toNat)) := by ring
      _ ≤ _ := Nat.le_add_left _ _
  have hdivisorLower : (top.toNat * radix + next.toNat) * weight ≤ divisor := by
    rw [hdivisor]
    calc _ = weight * (next.toNat + radix * top.toNat) := by ring
      _ ≤ _ := Nat.le_add_left _ _
  have hdivisorUpper : divisor ≤ (top.toNat * radix + next.toNat + 1) * weight := by
    rw [hdivisor]
    calc _ ≤ weight + weight * (next.toNat + radix * top.toNat) :=
          Nat.add_le_add_right hdivisorLow.le _
      _ = _ := by ring
  obtain ⟨hsplit, hquotient, hdigit⟩ := @estimateDigit_spec dividend divisor top.toNat high.toNat
    middle.toNat (radix * weight) (by omega) (limb_lt middle) htopLe hpositive (by
      calc dividend < ((high.toNat * radix + middle.toNat) * radix + low.toNat + 1) * weight :=
            hleadingUpper
        _ ≤ ((high.toNat * radix + middle.toNat) * radix + radix) * weight := by
            apply Nat.mul_le_mul_right
            have hbound := limb_lt low
            omega
        _ = _ := by ring) (by
      calc top.toNat * (radix * weight) ≤ (top.toNat * radix + next.toNat) * weight := by
            rw [← Nat.mul_assoc]
            exact Nat.mul_le_mul_right _ (Nat.le_add_right _ _)
        _ ≤ divisor := hdivisorLower) hfits
  obtain ⟨digit, hcorrected, hresult⟩ := correctDigit_spec (by omega) (limb_lt next) hweight
    hleadingLower hleadingUpper hdivisorLower hdivisorUpper hsplit hquotient hdigit
    (show radix ≤ _ + correctionLimit * top.toNat by
      unfold correctionLimit radix
      omega)
  refine ⟨digit, ?_, hresult⟩
  have hnotAbove : ¬top < high := by
    rw [UInt64.lt_iff_toNat_lt]
    omega
  simp only [trialDigit, htop, hnext, hhigh, hmiddle, hlow, Option.bind_some, if_neg hnotAbove]
  exact hcorrected

/-- What a position leaves is the remainder of the part above it. -/
theorem divideStep_spec (hnormalized : Normalized v) (hj : j + v.length < u.length)
    (hless : value (u.drop (j + 1)) < value v) :
    ∃ step, divideStep v j u = some step ∧ step.2.length = u.length ∧
      step.2.take j = u.take j ∧ value (step.2.drop j) < value v ∧
      value (u.drop j) = step.1.toNat * value v + value (step.2.drop j) := by
  obtain ⟨digit, hdigit, hquotient, hover, hlimb⟩ := trialDigit_spec hnormalized hj hless
  obtain ⟨high, hhigh⟩ := getElem?_of_lt hj
  have hwindow : ((u.drop j).take v.length).length = v.length := by
    rw [List.length_take, List.length_drop]
    omega
  have hfront : (u.take j).length = j := by
    rw [List.length_take]
    omega
  have hbeyond := value_beyond_guard hless
  have hdividend := value_split (u.drop j) v.length
  rw [List.drop_drop, value_drop_of_getElem? hhigh, hbeyond] at hdividend
  simp only [Nat.mul_zero, Nat.add_zero] at hdividend
  obtain ⟨hsubtracted, hcount⟩ := mulSubFrom_value (UInt64.ofNat digit) hwindow 0
  have hbound := value_lt (mulSubFrom (UInt64.ofNat digit) 0 ((u.drop j).take v.length) v).1
  rw [toNat_ofNat_of_lt hlimb, Nat.add_zero] at hsubtracted
  rw [hcount] at hbound
  have hfits := value_lt v
  have hremainder : ∀ {quotient left : Nat}, left < value v →
      value (u.drop j) = quotient * value v + left → value (u.drop j) / value v = quotient := by
    intro quotient left hleft hsum
    rw [hsum, Nat.mul_comm, Nat.mul_add_div (by omega), Nat.div_eq_of_lt hleft, Nat.add_zero]
  simp only [divideStep, hdigit, hhigh, Option.bind_some]
  generalize mulSubFrom (UInt64.ofNat digit) 0 ((u.drop j).take v.length) v = subtracted at *
  -- whatever the window becomes, the guard limb behind it is cleared
  have hplaced : ∀ {written : Mag} {limb : UInt64}, written.length = v.length → limb = 0 →
      (u.take j ++ written ++ limb :: u.drop (j + v.length + 1)).length = u.length ∧
      (u.take j ++ written ++ limb :: u.drop (j + v.length + 1)).take j = u.take j ∧
      value ((u.take j ++ written ++ limb :: u.drop (j + v.length + 1)).drop j) =
        value written := by
    rintro written limb hwritten rfl
    refine ⟨?_, ?_, ?_⟩
    · simp only [List.length_append, List.length_cons, hfront, hwritten, List.length_drop]
      omega
    · rw [List.append_assoc, List.take_append_of_le_length hfront.ge, List.take_take, Nat.min_self]
    · rw [List.append_assoc, List.drop_append, hfront, Nat.sub_self, List.drop_zero,
        List.drop_eq_nil_of_le hfront.le, List.nil_append, value_append, value_cons, hbeyond]
      simp
  by_cases hborrow : high.toNat < subtracted.2
  · -- the product was one divisor too large
    obtain ⟨hadded, haddedCount⟩ := addBackFrom_value hcount 0
    have hbound' := value_lt (addBackFrom 0 subtracted.1 v).1
    rw [haddedCount] at hbound'
    generalize addBackFrom 0 subtracted.1 v = added at *
    have htoomuch : value (u.drop j) < digit * value v := by
      have hmore := Nat.mul_le_mul_left (radix ^ v.length) hborrow
      rw [Nat.mul_succ] at hmore
      omega
    have hpositive : digit ≠ 0 := by
      rintro rfl
      omega
    obtain ⟨smaller, rfl⟩ := Nat.exists_eq_succ_of_ne_zero hpositive
    rw [Nat.succ_mul] at htoomuch hover hsubtracted
    have hsum : value added.1 + radix ^ v.length * (added.2 + high.toNat) +
        smaller * value v = value (u.drop j) + radix ^ v.length * subtracted.2 := by
      rw [Nat.mul_add]
      omega
    have hcarry : added.2 + high.toNat = subtracted.2 := by
      rcases Nat.lt_trichotomy (added.2 + high.toNat) subtracted.2 with hlt | heq | hgt
      · have hmore := Nat.mul_le_mul_left (radix ^ v.length) hlt
        rw [Nat.mul_succ] at hmore
        omega
      · exact heq
      · have hmore := Nat.mul_le_mul_left (radix ^ v.length) hgt
        rw [Nat.mul_succ] at hmore
        omega
    rw [hcarry] at hsum
    have hguard : high - UInt64.ofNat subtracted.2 + UInt64.ofNat added.2 = 0 := by
      rw [← hcarry, UInt64.ofNat_add, UInt64.ofNat_toNat]
      grind
    obtain ⟨hlength, htake, hdrop⟩ := hplaced haddedCount hguard
    rw [if_pos hborrow, if_neg (Nat.succ_ne_zero smaller)]
    refine ⟨_, rfl, hlength, htake, ?_, ?_⟩
    · rw [hdrop]
      omega
    · rw [hdrop, Nat.succ_sub_one, toNat_ofNat_of_lt (by omega)]
      omega
  · have hcarry : subtracted.2 = high.toNat := by
      rcases Nat.lt_trichotomy subtracted.2 high.toNat with hlt | heq | hgt
      · have hmore := Nat.mul_le_mul_left (radix ^ v.length) hlt
        rw [Nat.mul_succ] at hmore
        have hbig : (digit + 1) * value v ≤ value (u.drop j) := by
          rw [Nat.succ_mul]
          omega
        have hquotient' := (Nat.le_div_iff_mul_le (by omega)).mpr hbig
        omega
      · exact heq
      · exact absurd hgt hborrow
    rw [hcarry] at hsubtracted
    have hguard : high - UInt64.ofNat subtracted.2 = 0 := by
      rw [hcarry, UInt64.ofNat_toNat, UInt64.sub_self]
    obtain ⟨hlength, htake, hdrop⟩ := hplaced hcount hguard
    rw [if_neg hborrow]
    refine ⟨_, rfl, hlength, htake, ?_, ?_⟩
    · rw [hdrop]
      by_contra hlarge
      have hbig : (digit + 1) * value v ≤ value (u.drop j) := by
        rw [Nat.succ_mul]
        omega
      have hquotient' := (Nat.le_div_iff_mul_le (by omega)).mpr hbig
      omega
    · rw [hdrop, toNat_ofNat_of_lt hlimb]
      omega

end Position

theorem divideFrom_spec {v : Mag} (hnormalized : Normalized v) {j : Nat} {u : Mag}
    (hlength : j + v.length ≤ u.length) (hless : value (u.drop j) < value v) :
    ∃ divided, divideFrom v j u = some divided ∧ divided.1.length = j ∧
      divided.2.length = u.length ∧ value u = value divided.1 * value v + value divided.2 ∧
      value divided.2 < value v := by
  induction j generalizing u with
  | zero => exact ⟨([], u), rfl, rfl, rfl, by simp, hless⟩
  | succ j ih =>
    obtain ⟨step, hstep, hcount, hfront, hremainder, hvalue⟩ :=
      divideStep_spec hnormalized (show j + v.length < u.length by omega) hless
    obtain ⟨divided, hdivided, hdigits, hsame, htotal, hlast⟩ :=
      @ih step.2 (by omega) hremainder
    refine ⟨(divided.1 ++ [step.1], divided.2), ?_, by simp [hdigits], by rw [hsame, hcount],
      ?_, hlast⟩
    · rw [divideFrom, hstep, Option.bind_some, hdivided]
      rfl
    · have hbefore := value_split u j
      have hafter := value_split step.2 j
      rw [hfront] at hafter
      rw [value_append, hdigits, value_cons, value_nil, hbefore, hvalue]
      linear_combination htotal + hafter.symm

theorem divideNormalized_spec {u v : Mag} (hnormalized : Normalized v) {quotientLength : Nat}
    (hlength : u.length = v.length + quotientLength)
    (hless : value (u.drop quotientLength) < value v) :
    ∃ divided, divideNormalized u v quotientLength = some divided ∧
      divided.1.length = quotientLength ∧ divided.2.length = u.length ∧
      value u = value divided.1 * value v + value divided.2 ∧ value divided.2 < value v := by
  have htwo := hnormalized.two_le
  have hbit := hnormalized.top_bit
  rw [divideNormalized, if_neg]
  · exact divideFrom_spec hnormalized (by omega) hless
  · rw [hbit]
    rintro (hshort | hclear | hother)
    · omega
    · exact hclear rfl
    · exact hother hlength

end Purrdf.BigInteger
