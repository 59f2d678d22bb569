import Mathlib.Tactic.Ring
import SymbolicAlgebra.Proofs.Doubles
import SymbolicAlgebra.Proofs.Integers

/-! Powers of integers. The size of a power is judged by the bits of the base below the leading one, times
the exponent. That is less than the number of bits of the power, so no power within the bound is refused;
but it can be half of it, and powers with up to twice as many bits as the bound allows are computed. -/

namespace SymbolicAlgebra

/-! ### The check of the exponent -/

/-- On natural numbers below `2 ^ 53` the check against a natural bound is the comparison. -/
theorem Guard.domain_ofNat {value upper : Nat} (hvalue : value.log2 ≤ 52) :
    Guard.domain (Double.ofNat value) 0 (Double.ofNat upper) =
      if value ≤ upper then .ok () else .error (.domain (Double.ofNat value) 0 (Double.ofNat upper)) := by
  have hzero : ¬Double.ofNat value < 0 := fun h =>
    Nat.not_lt_zero value ((Double.ofNat_lt_ofNat (n := 0) (by decide)).mp h)
  have hupper : Double.ofNat value > Double.ofNat upper ↔ ¬value ≤ upper := by
    rw [Nat.not_le]
    exact Double.ofNat_lt_ofNat hvalue
  rw [Guard.domain, Double.isNaN_ofNat, decide_eq_false hzero]
  simp only [hupper, Bool.false_or, decide_eq_true_eq, ite_not]

namespace Number

/-! ### The number of bits -/

theorem bitLength_eq {x : Int} (hx : x ≠ 0) : bitLength x = x.natAbs.log2 + 1 :=
  if_neg hx

theorem bitLength_pow_eq {x : Int} (hx : x ≠ 0) (e : Nat) : bitLength (x ^ e) = (x.natAbs ^ e).log2 + 1 := by
  rw [bitLength_eq (pow_ne_zero e hx), Int.natAbs_pow]

/-- The leading bits alone give a power the bits of the base below the leading one for every factor. -/
theorem lt_bitLength_pow {x : Int} (hx : x ≠ 0) (e : Nat) : (bitLength x - 1) * e < bitLength (x ^ e) := by
  have hbase : x.natAbs ≠ 0 := Int.natAbs_ne_zero.mpr hx
  have hleading : 2 ^ (x.natAbs.log2 * e) ≤ x.natAbs ^ e := by
    rw [pow_mul]
    exact Nat.pow_le_pow_left (Nat.log2_self_le hbase) e
  rw [bitLength_pow_eq hx, bitLength_eq hx, Nat.add_sub_cancel, Nat.lt_succ_iff]
  exact (Nat.le_log2 (pow_ne_zero e hbase)).mpr hleading

/-- A power has at most the bits of the base for every factor. -/
theorem bitLength_pow_le {x : Int} (hx : x ≠ 0) {e : Nat} (he : e ≠ 0) :
    bitLength (x ^ e) ≤ bitLength x * e := by
  have hbase : x.natAbs ≠ 0 := Int.natAbs_ne_zero.mpr hx
  have hpower : x.natAbs ^ e < 2 ^ ((x.natAbs.log2 + 1) * e) := by
    rw [pow_mul]
    exact Nat.pow_lt_pow_left Nat.lt_log2_self he
  rw [bitLength_pow_eq hx, bitLength_eq hx]
  exact (Nat.log2_lt (pow_ne_zero e hbase)).mpr hpower

/-- No power within a bound is judged to be beyond it. -/
theorem width_mul_le_of_bitLength_pow_le {x : Int} {e bound : Nat} (h : bitLength (x ^ e) ≤ bound) :
    (bitLength x - 1) * e ≤ bound := by
  by_cases hx : x = 0
  · rw [hx, show bitLength 0 - 1 = 0 from rfl, Nat.zero_mul]
    exact Nat.zero_le _
  · exact Nat.le_trans (lt_bitLength_pow hx e).le h

theorem bitLength_le_one {x : Int} (hx : x.natAbs ≤ 1) : bitLength x ≤ 1 := by
  obtain rfl | rfl | rfl : x = 0 ∨ x = 1 ∨ x = -1 := by omega
  all_goals decide

/-- A power that is judged to be within a bound has at most twice as many bits. -/
theorem bitLength_pow_le_of_width_mul_le {x : Int} {e bound : Nat} (hbound : 0 < bound)
    (h : (bitLength x - 1) * e ≤ bound) : bitLength (x ^ e) ≤ 2 * bound := by
  by_cases hsmall : x.natAbs ≤ 1
  · have hpower : (x ^ e).natAbs ≤ 1 := by
      rw [Int.natAbs_pow]
      exact pow_le_one' hsmall e
    have hbits := bitLength_le_one hpower
    omega
  have hx : x ≠ 0 := by omega
  by_cases he : e = 0
  · rw [he, pow_zero]
    have hone : bitLength 1 = 1 := by decide
    omega
  · have hwidth : 1 ≤ bitLength x - 1 := by
      rw [bitLength_eq hx, Nat.add_sub_cancel]
      exact (Nat.le_log2 (by omega)).mpr (by omega)
    have hdouble : bitLength x ≤ 2 * (bitLength x - 1) := by omega
    calc bitLength (x ^ e) ≤ bitLength x * e := bitLength_pow_le hx he
      _ ≤ 2 * (bitLength x - 1) * e := Nat.mul_le_mul_right e hdouble
      _ = 2 * ((bitLength x - 1) * e) := Nat.mul_assoc _ _ _
      _ ≤ 2 * bound := Nat.mul_le_mul_left 2 h

/-! ### Exact powers -/

theorem exactPow_eq (x : Int) {e : Nat} (he : e.log2 ≤ 52) :
    exactPow x e = if (bitLength x - 1) * e ≤ maxExactBits then .ok (ofInt (x ^ e))
      else .error (.domain (Double.ofNat e) 0 (Double.ofNat (maxExactBits / (bitLength x - 1)))) := by
  rw [exactPow, intPow_eq_pow, Guard.domain_ofNat he]
  by_cases hwidth : bitLength x - 1 > 0
  · have hfits : e ≤ maxExactBits / (bitLength x - 1) ↔ (bitLength x - 1) * e ≤ maxExactBits := by
      rw [Nat.le_div_iff_mul_le hwidth, Nat.mul_comm]
    rw [if_pos hwidth]
    simp only [hfits]
    split <;> rfl
  · have hnone : bitLength x - 1 = 0 := by omega
    rw [if_neg hwidth, hnone, Nat.zero_mul, if_pos (Nat.zero_le _)]
    rfl

variable {a : Number} {x : Int} {exponent : Int64}

theorem pow_eq (ha : a.toInt? = some x) (hexponent : 0 ≤ exponent.toInt) (hbound : exponent.toInt < 2 ^ 32) :
    a.pow (.small exponent) =
      if (bitLength x - 1) * exponent.toInt.toNat ≤ maxExactBits then .ok (ofInt (x ^ exponent.toInt.toNat))
      else .error (.domain (Double.ofNat exponent.toInt.toNat) 0
        (Double.ofNat (maxExactBits / (bitLength x - 1)))) := by
  have hlog : exponent.toInt.toNat.log2 ≤ 52 := by
    by_cases hzero : exponent.toInt.toNat = 0
    · rw [hzero]
      decide
    · exact Nat.le_of_lt_succ ((Nat.log2_lt hzero).mpr (by omega))
  rw [pow_eq_exactPow ha hexponent hbound, exactPow_eq x hlog]

/-- An integer to a natural number below `2 ^ 32`, held as a word, is exact wherever the power has at most
`maxExactBits` bits. Of the greater powers exactly those fail whose size is judged to be beyond the bound
from the bits of the base below the leading one; the others are exact as well, and have at most
`2 * maxExactBits` bits. -/
theorem pow_exact_iff (ha : a.toInt? = some x) (hexponent : 0 ≤ exponent.toInt)
    (hbound : exponent.toInt < 2 ^ 32) :
    let e := exponent.toInt.toNat
    (bitLength (x ^ e) ≤ maxExactBits → a.pow (.small exponent) = .ok (ofInt (x ^ e))) ∧
    (maxExactBits < bitLength (x ^ e) →
      ((∃ value lower upper, a.pow (.small exponent) = .error (.domain value lower upper)) ↔
        maxExactBits < (bitLength x - 1) * e)) ∧
    ((bitLength x - 1) * e ≤ maxExactBits →
      a.pow (.small exponent) = .ok (ofInt (x ^ e)) ∧ bitLength (x ^ e) ≤ 2 * maxExactBits) := by
  intro e
  have hpow := pow_eq ha hexponent hbound
  refine ⟨fun hbits => ?_, fun _ => ⟨fun ⟨_, _, _, herror⟩ => ?_, fun hwide => ?_⟩, fun hfits => ⟨?_, ?_⟩⟩
  · rw [hpow, if_pos (width_mul_le_of_bitLength_pow_le hbits)]
  · by_contra hfits
    rw [hpow, if_pos (Nat.le_of_not_lt hfits)] at herror
    cases herror
  · rw [hpow, if_neg (Nat.not_le.mpr hwide)]
    exact ⟨_, _, _, rfl⟩
  · rw [hpow, if_pos hfits]
  · exact bitLength_pow_le_of_width_mul_le (by decide) hfits

/-- A negative base that is not held as a word. -/
theorem pow_exact_iff_negative :
    let a : Number := .big (-10)
    let exponent : Int64 := 21
    let e := exponent.toInt.toNat
    a.toInt? = some (-10) ∧ 0 ≤ exponent.toInt ∧ exponent.toInt < 2 ^ 32 ∧
    (bitLength ((-10) ^ e) ≤ maxExactBits → a.pow (.small exponent) = .ok (ofInt ((-10) ^ e))) ∧
    (maxExactBits < bitLength ((-10) ^ e) →
      ((∃ value lower upper, a.pow (.small exponent) = .error (.domain value lower upper)) ↔
        maxExactBits < (bitLength (-10) - 1) * e)) ∧
    ((bitLength (-10) - 1) * e ≤ maxExactBits →
      a.pow (.small exponent) = .ok (ofInt ((-10) ^ e)) ∧ bitLength ((-10) ^ e) ≤ 2 * maxExactBits) := by
  intro a exponent
  have ha : a.toInt? = some (-10) := rfl
  have hexponent : 0 ≤ exponent.toInt := by decide
  have hbound : exponent.toInt < 2 ^ 32 := by decide
  exact ⟨ha, hexponent, hbound, pow_exact_iff ha hexponent hbound⟩

/-- The least power of two with more bits than the bound allows is computed all the same. -/
theorem pow_beyond_bound :
    maxExactBits < bitLength (2 ^ 1048576) ∧
      pow (.small 2) (.small 1048576) = .ok (ofInt (2 ^ 1048576)) := by
  refine ⟨lt_bitLength_pow (x := 2) (by decide) 1048576, ?_⟩
  rw [pow_eq (x := 2) rfl (by decide) (by decide)]
  exact if_pos (by decide)

end Number

end SymbolicAlgebra
