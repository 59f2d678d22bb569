import Mathlib.Algebra.Ring.Int.Parity
import SymbolicAlgebra.Number.Division

/-! Integers are exact. Word arithmetic with the overflow seen gives the word of the exact result or
notices that there is none, so that what is computed with integers is the exact integer in its normal
representation, however the operands are held. -/

namespace SymbolicAlgebra

/-! ### Words -/

namespace Word

theorem ofInt?_eq_some {value : Int} {word : Int64} (h : word.toInt = value) :
    ofInt? value = some word := by
  have hlow := word.le_toInt
  have hhigh := word.toInt_lt
  have hrange : Int64.minValue.toInt ≤ value ∧ value ≤ Int64.maxValue.toInt := by
    rw [Int64.toInt_minValue, Int64.toInt_maxValue]
    omega
  rw [ofInt?, if_pos hrange, ← h, Int64.ofInt_toInt]

theorem ofInt?_eq_none {value : Int} (h : ∀ word : Int64, word.toInt ≠ value) : ofInt? value = none := by
  rw [ofInt?, if_neg]
  rw [Int64.toInt_minValue, Int64.toInt_maxValue]
  intro hrange
  exact h (.ofInt value) (Int64.toInt_ofInt_of_le hrange.1 (by omega))

theorem toInt_of_ofInt? {value : Int} {word : Int64} (h : ofInt? value = some word) : word.toInt = value := by
  rw [ofInt?] at h
  split at h
  · rename_i hrange
    rw [Int64.toInt_minValue, Int64.toInt_maxValue] at hrange
    cases h
    exact Int64.toInt_ofInt_of_le hrange.1 (by omega)
  · cases h

theorem msb_eq (word : Int64) : word.toBitVec.msb = decide (word.toInt < 0) :=
  BitVec.msb_eq_toInt

theorem lt_zero_iff (word : Int64) : word < 0 ↔ word.toBitVec.msb = true := by
  rw [msb_eq, decide_eq_true_iff]
  exact Int64.lt_iff_toInt_lt

/-- The sum overflows exactly when both summands have a sign that the wrapped sum has not. -/
theorem add?_eq_ofInt? (a b : Int64) : add? a b = ofInt? (a.toInt + b.toInt) := by
  have hlowA := a.le_toInt
  have hhighA := a.toInt_lt
  have hlowB := b.le_toInt
  have hhighB := b.toInt_lt
  have hsum : (a + b).toInt = (a.toInt + b.toInt).bmod (2 ^ 64) := Int64.toInt_add a b
  have hoverflow : ((a ^^^ (a + b)) &&& (b ^^^ (a + b))) < 0 ↔
      ¬(a.toInt < 0 ↔ (a + b).toInt < 0) ∧ ¬(b.toInt < 0 ↔ (a + b).toInt < 0) := by
    rw [lt_zero_iff, Int64.toBitVec_and, Int64.toBitVec_xor, Int64.toBitVec_xor, BitVec.msb_and,
      BitVec.msb_xor, BitVec.msb_xor, msb_eq, msb_eq, msb_eq, Bool.and_eq_true]
    simp only [bne_iff_ne, ne_eq, decide_eq_decide]
  rw [add?]
  rw [Int.bmod_eq_emod] at hsum
  split
  · rename_i h
    rw [hoverflow] at h
    refine (ofInt?_eq_none fun word hword => ?_).symm
    have hlow := word.le_toInt
    have hhigh := word.toInt_lt
    split at hsum <;> omega
  · rename_i h
    rw [hoverflow] at h
    refine (ofInt?_eq_some ?_).symm
    split at hsum <;> omega

/-- Only the least word has no opposite. -/
theorem neg?_eq_ofInt? (a : Int64) : neg? a = ofInt? (-a.toInt) := by
  have hlow := a.le_toInt
  have hhigh := a.toInt_lt
  rw [neg?]
  split
  · rename_i hleast
    refine (ofInt?_eq_none fun word hword => ?_).symm
    have hword' := word.toInt_lt
    rw [hleast, Int64.toInt_minValue] at hword
    omega
  · rename_i hleast
    have hsmaller : a.toInt ≠ -2 ^ 63 := fun h =>
      hleast (Int64.toInt_inj.mp (h.trans Int64.toInt_minValue.symm))
    refine (ofInt?_eq_some ?_).symm
    rw [Int64.toInt_neg, Int.bmod_eq_of_le (by omega) (by omega)]

/-- A product that leaves the range of words does not give the other factor back when the wrapped
product is divided by one of them, except for the least word and `-1`. -/
theorem quotient_ne_of_overflow {a b : Int64} (ha : a ≠ 0) (hleast : ¬(a = -1 ∧ b = Int64.minValue))
    (hoverflow : a.toInt * b.toInt < -2 ^ 63 ∨ 2 ^ 63 ≤ a.toInt * b.toInt) : a * b / a ≠ b := by
  intro hquotient
  have hlowA := a.le_toInt
  have hhighA := a.toInt_lt
  have hlowB := b.le_toInt
  have hhighB := b.toInt_lt
  have hlow := (a * b).le_toInt
  have hhigh := (a * b).toInt_lt
  have hnonzero : a.toInt ≠ 0 := fun h => ha (Int64.toInt_inj.mp h)
  have hquotient : ((a * b).toInt.tdiv a.toInt).bmod (2 ^ 64) = b.toInt := by
    rw [← Int64.toInt_div, hquotient]
  have hproduct : (a * b).toInt = (a.toInt * b.toInt).bmod (2 ^ 64) := Int64.toInt_mul a b
  generalize hp : (a * b).toInt = p at hquotient hproduct hlow hhigh
  have hdivision : a.toInt * p.tdiv a.toInt + p.tmod a.toInt = p := Int.mul_tdiv_add_tmod p a.toInt
  have hrest : (p.tmod a.toInt).natAbs < a.toInt.natAbs := by
    rw [Int.natAbs_tmod]
    exact Nat.mod_lt _ (by omega)
  have hsmall : (p.tdiv a.toInt).natAbs ≤ p.natAbs := Int.natAbs_tdiv_le_natAbs p a.toInt
  generalize hq : p.tdiv a.toInt = q at hquotient hdivision hsmall
  by_cases hwrapped : q = 2 ^ 63
  · rw [hwrapped] at hquotient hdivision
    have hb : b.toInt = Int64.minValue.toInt := by
      rw [← hquotient]
      rfl
    refine hleast ⟨Int64.toInt_inj.mp ?_, Int64.toInt_inj.mp hb⟩
    show a.toInt = -1
    omega
  · rw [Int.bmod_eq_of_le (by omega) (by omega)] at hquotient
    rw [hquotient] at hdivision
    rw [Int.bmod_eq_emod] at hproduct
    generalize a.toInt * b.toInt = product at hoverflow hproduct hdivision
    split at hproduct <;> omega

/-- A wrapped product that gives the other factor back when it is divided by one of them is exact. -/
theorem mul?_eq_ofInt? (a b : Int64) : mul? a b = ofInt? (a.toInt * b.toInt) := by
  rw [mul?]
  by_cases hzero : a = 0
  · rw [if_pos hzero, hzero]
    exact (ofInt?_eq_some (by simp)).symm
  rw [if_neg hzero]
  have hproduct : (a * b).toInt = (a.toInt * b.toInt).bmod (2 ^ 64) := Int64.toInt_mul a b
  have hnonzero : a.toInt ≠ 0 := fun h => hzero (Int64.toInt_inj.mp h)
  have hlowB := b.le_toInt
  have hhighB := b.toInt_lt
  by_cases hrange : -2 ^ 63 ≤ a.toInt * b.toInt ∧ a.toInt * b.toInt < 2 ^ 63
  · rw [Int.bmod_eq_of_le (by omega) (by omega)] at hproduct
    have hquotient : a * b / a = b := by
      apply Int64.toInt_inj.mp
      rw [Int64.toInt_div, hproduct, Int.mul_tdiv_cancel_left _ hnonzero,
        Int.bmod_eq_of_le (by omega) (by omega)]
    have hordinary : ¬(a = -1 ∧ b = Int64.minValue) := by
      rintro ⟨rfl, rfl⟩
      exact absurd hrange.2 (by decide)
    rw [if_neg (by simp [hquotient, hordinary])]
    exact (ofInt?_eq_some hproduct).symm
  · have hnone : ofInt? (a.toInt * b.toInt) = none := by
      refine ofInt?_eq_none fun word hword => ?_
      have hlow := word.le_toInt
      have hhigh := word.toInt_lt
      omega
    rw [hnone, if_pos]
    by_cases hleast : a = -1 ∧ b = Int64.minValue
    · exact .inl hleast
    · exact .inr (quotient_ne_of_overflow hzero hleast (by omega))

end Word

/-! ### Numbers -/

namespace Number

theorem toInt?_ofInt (value : Int) : (ofInt value).toInt? = some value := by
  rw [ofInt]
  cases hword : Word.ofInt? value with
  | none => rfl
  | some word => exact congrArg some (Word.toInt_of_ofInt? hword)

theorem ofInt_toInt (word : Int64) : ofInt word.toInt = .small word := by
  rw [ofInt, Word.ofInt?_eq_some rfl]

theorem ofInt_of_ofInt? {value : Int} {word : Int64} (h : Word.ofInt? value = some word) :
    .small word = ofInt value := by
  rw [ofInt, h]

variable {a b : Number} {x y : Int}

/-- An operation that is exact wherever it gives a word is exact on integers. -/
theorem lift_eq_ofInt {onWords : Int64 → Int64 → Option Int64} {onInts : Int → Int → Int}
    (onFloats : Float → Float → Float)
    (hwords : ∀ v w word, onWords v w = some word → word.toInt = onInts v.toInt w.toInt)
    (ha : a.toInt? = some x) (hb : b.toInt? = some y) :
    lift onWords onInts onFloats a b = ofInt (onInts x y) := by
  have hwide (hnot : ∀ v w, a = .small v → b = .small w → False) :
      lift onWords onInts onFloats a b = ofInt (onInts x y) := by
    rw [lift, ha, hb]
    exact hnot
  cases a with
  | small v =>
      cases b with
      | small w =>
          cases ha
          cases hb
          rw [lift]
          cases hword : onWords v w with
          | none => rfl
          | some word =>
              rw [← hwords v w word hword]
              exact (ofInt_toInt word).symm
      | big _ => exact hwide fun _ _ _ h => by cases h
      | real _ => cases hb
  | big _ => exact hwide fun _ _ h _ => by cases h
  | real _ => cases ha

theorem add_eq_ofInt (ha : a.toInt? = some x) (hb : b.toInt? = some y) : a.add b = ofInt (x + y) :=
  lift_eq_ofInt _ (fun v w _ h => Word.toInt_of_ofInt? ((Word.add?_eq_ofInt? v w).symm.trans h)) ha hb

theorem mul_eq_ofInt (ha : a.toInt? = some x) (hb : b.toInt? = some y) : a.mul b = ofInt (x * y) :=
  lift_eq_ofInt _ (fun v w _ h => Word.toInt_of_ofInt? ((Word.mul?_eq_ofInt? v w).symm.trans h)) ha hb

theorem neg_eq_ofInt (ha : a.toInt? = some x) : a.neg = ofInt (-x) := by
  cases a with
  | small word =>
      cases ha
      rw [neg, Word.neg?_eq_ofInt?]
      cases hword : Word.ofInt? (-word.toInt) with
      | none => rfl
      | some opposite => exact ofInt_of_ofInt? hword
  | big value =>
      cases ha
      rfl
  | real _ => cases ha

theorem sub_eq_ofInt (ha : a.toInt? = some x) (hb : b.toInt? = some y) : a.sub b = ofInt (x - y) := by
  rw [sub, neg_eq_ofInt hb, add_eq_ofInt ha (toInt?_ofInt (-y)), Int.sub_eq_add_neg]

theorem isZero_iff (ha : a.toInt? = some x) : a.isZero ↔ x = 0 := by
  cases a with
  | small word =>
      cases ha
      rw [isZero, decide_eq_true_iff]
      exact Int64.toInt_inj.symm
  | big value =>
      cases ha
      rw [isZero, decide_eq_true_iff]
  | real _ => cases ha

theorem isOne_iff (ha : a.toInt? = some x) : a.isOne ↔ x = 1 := by
  cases a with
  | small word =>
      cases ha
      rw [isOne, decide_eq_true_iff]
      exact Int64.toInt_inj.symm
  | big value =>
      cases ha
      rw [isOne, decide_eq_true_iff]
  | real _ => cases ha

theorem isNegative_iff (ha : a.toInt? = some x) : a.isNegative ↔ x < 0 := by
  cases a with
  | small word =>
      cases ha
      rw [isNegative, decide_eq_true_iff]
      exact Int64.lt_iff_toInt_lt
  | big value =>
      cases ha
      rw [isNegative, decide_eq_true_iff]
  | real _ => cases ha

/-- Numbers that are the same are the same integer, if any. -/
theorem toInt?_eq_of_same (h : a.same b) : a.toInt? = b.toInt? := by
  cases a with
  | small v =>
      cases b with
      | small w =>
          rw [same, decide_eq_true_iff] at h
          rw [h]
      | _ => cases h
  | big v =>
      cases b with
      | big w =>
          rw [same, decide_eq_true_iff] at h
          rw [h]
      | _ => cases h
  | real v =>
      cases b with
      | real w => rfl
      | _ => cases h

theorem intPow_eq_pow (base : Int) (exponent : Nat) : intPow base exponent = base ^ exponent := by
  have hpower : ((Nat.pow base.natAbs exponent : Nat) : Int) = (base.natAbs : Int) ^ exponent :=
    Int.natCast_pow _ _
  rw [intPow, hpower]
  rcases Int.le_total 0 base with hsign | hsign
  · have hmagnitude : (base.natAbs : Int) = base := Int.natAbs_of_nonneg hsign
    rw [if_neg (by omega), hmagnitude]
  · have hmagnitude : (base.natAbs : Int) = -base := Int.ofNat_natAbs_of_nonpos hsign
    split
    · rename_i h
      rw [hmagnitude, Odd.neg_pow (Nat.odd_iff.mpr h.2), Int.neg_neg]
    · rename_i h
      rcases Nat.mod_two_eq_zero_or_one exponent with heven | hodd
      · rw [hmagnitude, Even.neg_pow (Nat.even_iff.mpr heven)]
      · have hbase : base = 0 := by omega
        rw [hbase, Int.natAbs_zero]
        rfl

/-- A word that is a natural number below `2 ^ 32` is the exponent of an exact power. -/
theorem pow_eq_exactPow {exponent : Int64} (ha : a.toInt? = some x) (hexponent : 0 ≤ exponent.toInt)
    (hbound : exponent.toInt < 2 ^ 32) : a.pow (.small exponent) = exactPow x exponent.toInt.toNat := by
  have hguard : Guard.exponent exponent = .ok exponent.toInt.toNat := by
    rw [Guard.exponent, if_pos ⟨hexponent, hbound⟩]
  have hpositive : isNegative (.small exponent) = false := by
    rw [Bool.eq_false_iff, ne_eq, isNegative_iff rfl]
    omega
  rw [pow, hpositive, Bool.and_false, ha]
  simp only [Bool.false_eq_true, if_false, hguard]

/-- Such a power is exact wherever it is computed. -/
theorem eq_ofInt_of_pow {exponent : Int64} (ha : a.toInt? = some x) (hexponent : 0 ≤ exponent.toInt)
    (hbound : exponent.toInt < 2 ^ 32) {r : Number} (h : a.pow (.small exponent) = .ok r) :
    r = ofInt (x ^ exponent.toInt.toNat) := by
  rw [pow_eq_exactPow ha hexponent hbound, exactPow, intPow_eq_pow] at h
  split at h
  · cases hdomain : Guard.domain (Double.ofNat exponent.toInt.toNat) 0
        (Double.ofNat (maxExactBits / (bitLength x - 1))) with
    | error failure =>
        rw [hdomain] at h
        cases h
    | ok _ =>
        rw [hdomain] at h
        cases h
        rfl
  · cases h
    rfl

end Number

end SymbolicAlgebra
