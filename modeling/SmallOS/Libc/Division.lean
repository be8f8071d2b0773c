import Mathlib.Data.Nat.Bitwise
import Mathlib.Data.UInt
import Mathlib.Tactic.Ring

/-! The 64-bit division helpers of the C library. The divisor is shifted up until it reaches the
dividend or the top bit, and taken off at each place on the way back. -/

namespace SmallOS.Libc

def udivAlign (num : UInt64) : (fuel : Nat) → (den bit : UInt64) → UInt64 × UInt64
  | 0, den, bit => (den, bit)
  | fuel + 1, den, bit =>
    if den &&& ((1 : UInt64) <<< 63) = 0 ∧ den < num then udivAlign num fuel (den <<< 1) (bit <<< 1)
    else (den, bit)

def udivSubtract : (fuel : Nat) → (num den bit quot : UInt64) → UInt64 × UInt64
  | 0, num, _, _, quot => (quot, num)
  | fuel + 1, num, den, bit, quot =>
    if bit = 0 then (quot, num)
    else if den ≤ num then udivSubtract fuel (num - den) (den >>> 1) (bit >>> 1) (quot ||| bit)
    else udivSubtract fuel num (den >>> 1) (bit >>> 1) quot

def udivmod64 (num den : UInt64) : UInt64 × UInt64 :=
  if den = 0 then (0, 0)
  else
    let r := udivAlign num 64 den 1
    udivSubtract 65 num r.1 r.2 0

def udivdi3 (num den : UInt64) : UInt64 := (udivmod64 num den).1

def umoddi3 (num den : UInt64) : UInt64 := (udivmod64 num den).2

def udivmoddi4 (num den : UInt64) : UInt64 × UInt64 := udivmod64 num den

def magnitude (x : Int64) : UInt64 := if x < 0 then (-x).toUInt64 else x.toUInt64

def divdi3 (num den : Int64) : Int64 :=
  let q := (udivmod64 (magnitude num) (magnitude den)).1
  if (num < 0) ≠ (den < 0) then -q.toInt64 else q.toInt64

def moddi3 (num den : Int64) : Int64 :=
  let rem := (udivmod64 (magnitude num) (magnitude den)).2
  if num < 0 then -rem.toInt64 else rem.toInt64

theorem topBit_clear_iff (x : UInt64) :
    x &&& ((1 : UInt64) <<< 63) = 0 ↔ x.toNat < 9223372036854775808 := by
  have lt := x.toNat_lt
  rw [← UInt64.toNat_inj, UInt64.toNat_and, show ((1 : UInt64) <<< 63).toNat = 2 ^ 63 by decide,
    Nat.and_two_pow, Nat.testBit_eq_decide_div_mod_eq]
  by_cases top : x.toNat / 2 ^ 63 % 2 = 1
  · simp only [top, decide_true, Bool.toNat_true]
    exact iff_of_false (by decide) (by omega)
  · simp only [top, decide_false, Bool.toNat_false, Nat.zero_mul]
    exact iff_of_true rfl (by omega)

theorem toNat_double {x : UInt64} (h : x.toNat < 9223372036854775808) :
    (x <<< 1).toNat = 2 * x.toNat := by
  simp [UInt64.toNat_shiftLeft, Nat.shiftLeft_eq]
  omega

theorem toNat_half (x : UInt64) : (x >>> 1).toNat = x.toNat / 2 := by
  simp [UInt64.toNat_shiftRight, Nat.shiftRight_eq_div_pow]

theorem udivAlign_ends {den bit : UInt64} {d k fuel : Nat} (num : UInt64) (pos : 0 < d)
    (hden : den.toNat = d * 2 ^ k) (hbit : bit.toNat = 2 ^ k) (enough : 64 ≤ fuel + k) :
    ∃ n, (udivAlign num fuel den bit).1.toNat = d * 2 ^ n ∧
      (udivAlign num fuel den bit).2.toNat = 2 ^ n ∧ n < 64 ∧ num.toNat < 2 * (d * 2 ^ n) := by
  have le : 2 ^ k ≤ d * 2 ^ k := Nat.le_mul_of_pos_left _ pos
  have lt := den.toNat_lt
  have hk : k < 64 := (Nat.pow_lt_pow_iff_right Nat.one_lt_two).mp (by omega)
  induction fuel generalizing den bit k with
  | zero => omega
  | succ fuel ih =>
    unfold udivAlign
    split_ifs with more
    · have small := (topBit_clear_iff den).mp more.1
      have hden' : (den <<< 1).toNat = d * 2 ^ (k + 1) := by
        rw [toNat_double small, hden, Nat.pow_succ]
        ring
      have hbit' : (bit <<< 1).toNat = 2 ^ (k + 1) := by
        rw [toNat_double (by omega), hbit, Nat.pow_succ, Nat.mul_comm]
      have lt' := (den <<< 1).toNat_lt
      have le' : 2 ^ (k + 1) ≤ d * 2 ^ (k + 1) := Nat.le_mul_of_pos_left _ pos
      refine ih hden' hbit' (by omega) le' lt' ?_
      exact (Nat.pow_lt_pow_iff_right Nat.one_lt_two).mp (by omega)
    · refine ⟨k, hden, hbit, hk, ?_⟩
      have := num.toNat_lt
      rw [topBit_clear_iff, UInt64.lt_iff_toNat_lt] at more
      have : 0 < 2 ^ k := Nat.two_pow_pos k
      omega

theorem udivSubtract_round {num den bit quot : UInt64} {d k m : Nat} (hden : den.toNat = d * 2 ^ k)
    (hbit : bit.toNat = 2 ^ k) (hquot : quot.toNat = 2 ^ (k + 1) * m)
    (below : num.toNat < 2 * den.toNat) (fuel : Nat) :
    ∃ num' quot' m', udivSubtract (fuel + 1) num den bit quot =
        udivSubtract fuel num' (den >>> 1) (bit >>> 1) quot' ∧
      quot'.toNat * d + num'.toNat = quot.toNat * d + num.toNat ∧ num'.toNat < den.toNat ∧
      quot'.toNat = 2 ^ k * m' := by
  have nonzero : bit ≠ 0 := by
    rintro rfl
    exact (Nat.two_pow_pos k).ne hbit
  rw [udivSubtract, if_neg nonzero]
  by_cases le : den ≤ num
  · have hle := UInt64.le_iff_toNat_le.mp le
    have hnum := UInt64.toNat_sub_of_le num den le
    have place : (quot ||| bit).toNat = quot.toNat + 2 ^ k := by
      rw [UInt64.toNat_or, hquot, hbit, ← Nat.two_pow_add_eq_or_of_lt (by simp [Nat.pow_succ])]
    refine ⟨num - den, quot ||| bit, 2 * m + 1, if_pos le, ?_, by omega, ?_⟩
    · rw [place, Nat.add_mul, hnum, Nat.mul_comm (2 ^ k), ← hden]
      omega
    · rw [place, hquot, Nat.pow_succ]
      ring
  · have hlt := mt UInt64.le_iff_toNat_le.mpr le
    refine ⟨num, quot, 2 * m, if_neg le, rfl, by omega, ?_⟩
    rw [hquot, Nat.pow_succ, Nat.mul_assoc]

theorem udivSubtract_divides {num den bit quot : UInt64} {d k m fuel : Nat}
    (hden : den.toNat = d * 2 ^ k) (hbit : bit.toNat = 2 ^ k) (hquot : quot.toNat = 2 ^ (k + 1) * m)
    (below : num.toNat < 2 * den.toNat) (enough : k + 1 < fuel) :
    (udivSubtract fuel num den bit quot).1.toNat * d +
        (udivSubtract fuel num den bit quot).2.toNat = quot.toNat * d + num.toNat ∧
      (udivSubtract fuel num den bit quot).2.toNat < d := by
  induction k generalizing num den bit quot m fuel with
  | zero =>
    obtain ⟨fuel, rfl⟩ := Nat.exists_eq_add_of_le' (show 2 ≤ fuel by omega)
    obtain ⟨num', quot', m', run, sum, lt, -⟩ :=
      udivSubtract_round hden hbit hquot below (fuel + 1)
    have last : bit >>> 1 = 0 := UInt64.toNat_inj.mp ((toNat_half bit).trans (by rw [hbit]; rfl))
    rw [run, udivSubtract, if_pos last]
    exact ⟨sum, by simpa [hden] using lt⟩
  | succ k ih =>
    obtain ⟨fuel, rfl⟩ := Nat.exists_eq_add_of_le' (show 1 ≤ fuel by omega)
    obtain ⟨num', quot', m', run, sum, lt, hquot'⟩ :=
      udivSubtract_round hden hbit hquot below fuel
    have half : (den >>> 1).toNat = d * 2 ^ k := by
      rw [toNat_half, hden, Nat.pow_succ, ← Nat.mul_assoc, Nat.mul_div_cancel _ Nat.two_pos]
    have half' : (bit >>> 1).toNat = 2 ^ k := by
      rw [toNat_half, hbit, Nat.pow_succ, Nat.mul_div_cancel _ Nat.two_pos]
    rw [run, ← sum]
    refine ih half half' hquot' ?_ (by omega)
    rw [half]
    rw [hden, Nat.pow_succ, ← Nat.mul_assoc] at lt
    omega

theorem udivmod64_eq {den : UInt64} (pos : den ≠ 0) (num : UInt64) :
    (udivmod64 num den).1.toNat = num.toNat / den.toNat ∧
      (udivmod64 num den).2.toNat = num.toNat % den.toNat := by
  have hpos : 0 < den.toNat := Nat.pos_of_ne_zero fun zero => pos (UInt64.toNat_inj.mp zero)
  obtain ⟨k, hden, hbit, hk, below⟩ :=
    udivAlign_ends num hpos (k := 0) (Nat.mul_one _).symm UInt64.toNat_one (le_refl 64)
  obtain ⟨sum, lt⟩ := udivSubtract_divides hden hbit (show (0 : UInt64).toNat = _ * 0 by simp)
    (hden ▸ below) (show k + 1 < 65 by omega)
  rw [udivmod64, if_neg pos]
  rw [UInt64.toNat_zero, Nat.zero_mul, Nat.zero_add, Nat.add_comm] at sum
  exact (Nat.div_mod_unique hpos).mpr ⟨by rw [Nat.mul_comm]; exact sum, lt⟩ |>.imp Eq.symm Eq.symm

theorem toNat_magnitude (x : Int64) : (magnitude x).toNat = x.toInt.natAbs := by
  have lt := x.toUInt64.toNat_lt
  have value : x.toInt = if 2 * x.toUInt64.toNat < 2 ^ 64 then (x.toUInt64.toNat : Int)
      else x.toUInt64.toNat - (2 ^ 64 : Nat) := BitVec.toInt_eq_toNat_cond x.toBitVec
  have sign : x < 0 ↔ x.toInt < 0 := by rw [Int64.lt_iff_toInt_lt, Int64.toInt_zero]
  unfold magnitude
  by_cases neg : x < 0
  · rw [if_pos neg, Int64.toUInt64_neg, UInt64.toNat_neg, UInt64.size]
    rw [sign] at neg
    split_ifs at value <;> omega
  · rw [if_neg neg]
    rw [sign] at neg
    split_ifs at value <;> omega

theorem toInt64_eq (u : UInt64) : u.toInt64 = Int64.ofInt u.toNat := by
  rw [Int64.ofInt_eq_ofNat, ← UInt64.toInt64_ofNat', UInt64.ofNat_toNat]

theorem magnitude_ne_zero {x : Int64} (h : x ≠ 0) : magnitude x ≠ 0 := by
  intro zero
  have := toNat_magnitude x
  rw [zero, UInt64.toNat_zero] at this
  exact h (Int64.toInt_inj.mp (Int.natAbs_eq_zero.mp this.symm))

/-- The division helpers divide: the unsigned ones as natural numbers, the signed ones as integers
with the quotient cut towards zero, and all of them modulo `2 ^ 64`. -/
theorem division_helpers_correct : (∀ num den : UInt64, den ≠ 0 →
      udivmoddi4 num den = (udivdi3 num den, umoddi3 num den) ∧
      num.toNat = (udivdi3 num den).toNat * den.toNat + (umoddi3 num den).toNat ∧
      (umoddi3 num den).toNat < den.toNat) ∧ ∀ num den : Int64, den ≠ 0 →
      divdi3 num den = Int64.ofInt (num.toInt.tdiv den.toInt) ∧
      moddi3 num den = Int64.ofInt (num.toInt.tmod den.toInt) := by
  refine ⟨fun num den pos => ?_, fun num den pos => ?_⟩
  · obtain ⟨quot, rem⟩ := udivmod64_eq pos num
    have hpos : 0 < den.toNat := Nat.pos_of_ne_zero fun zero => pos (UInt64.toNat_inj.mp zero)
    refine ⟨rfl, ?_, ?_⟩
    · rw [udivdi3, umoddi3, quot, rem, Nat.mul_comm, Nat.div_add_mod]
    · rw [umoddi3, rem]
      exact Nat.mod_lt _ hpos
  · obtain ⟨quot, rem⟩ := udivmod64_eq (magnitude_ne_zero pos) (magnitude num)
    rw [toNat_magnitude, toNat_magnitude] at quot rem
    simp only [divdi3, moddi3, toInt64_eq, quot, rem, Int.ofNat_tdiv, Int.ofNat_tmod,
      Int64.lt_iff_toInt_lt, Int64.toInt_zero, ← Int64.ofInt_neg, Int.natCast_natAbs]
    generalize num.toInt = a, den.toInt = b
    by_cases ha : a < 0 <;> by_cases hb : b < 0 <;>
      simp [ha, hb, abs_of_neg, abs_of_nonneg, not_lt.mp, Int.neg_tdiv, Int.tdiv_neg, Int.neg_tmod,
        Int.tmod_neg]

theorem division_helpers_correct_least : (umoddi3 7 2).toNat < (2 : UInt64).toNat ∧
    divdi3 Int64.minValue (-1) = Int64.ofInt (Int64.minValue.toInt.tdiv (-1 : Int64).toInt) :=
  ⟨(division_helpers_correct.1 7 2 (by decide)).2.2,
    (division_helpers_correct.2 Int64.minValue (-1) (by decide)).1⟩

end SmallOS.Libc
