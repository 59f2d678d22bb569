import SymbolicAlgebra.Proofs.Integers
import SymbolicAlgebra.Proofs.Order

/-! Integer arithmetic is that of the integers, whatever forms hold the operands. Words and wider integers
are computed with on separate paths, chosen by operations that refuse a zero divisor and a result outside
the words alike. Sums, differences, products, opposites, remainders and comparisons agree on all paths. A
quotient does too, with one exception: the division of words is given up with its remainder, which is
refused for the least word by `-1` although that remainder is zero. -/

namespace SymbolicAlgebra

namespace Word

theorem toInt_of_rem? {a b word : Int64} (h : rem? a b = some word) : word.toInt = a.toInt.tmod b.toInt := by
  rw [rem?] at h
  split at h
  · cases h
    exact Int64.toInt_mod a b
  · cases h

theorem quotientFits_iff {a b : Int64} : quotientFits a b ↔ b ≠ 0 ∧ ¬(a = Int64.minValue ∧ b = -1) := by
  simp [quotientFits, imp_iff_not_or]

theorem toInt_div {a b : Int64} (h : quotientFits a b) : (a / b).toInt = a.toInt.tdiv b.toInt := by
  obtain ⟨-, hfits⟩ := quotientFits_iff.mp h
  by_cases hleast : a = Int64.minValue
  · exact Int64.toInt_div_of_ne_right a b fun hb => hfits ⟨hleast, hb⟩
  · exact Int64.toInt_div_of_ne_left a b hleast

end Word

namespace Number

variable {a b : Number} {x y : Int}

theorem isZero_eq_decide (ha : a.toInt? = some x) : a.isZero = decide (x = 0) := by
  rw [Bool.eq_iff_iff, isZero_iff ha, decide_eq_true_iff]

/-! ### Arithmetic on all forms -/

theorem rem_eq_ofInt (ha : a.toInt? = some x) (hb : b.toInt? = some y) (hy : y ≠ 0) :
    a.rem b = .ok (ofInt (x.tmod y)) := by
  rw [rem, isZero_eq_decide hb, decide_eq_false hy, if_neg Bool.false_ne_true,
    lift_eq_ofInt _ (fun _ _ _ => Word.toInt_of_rem?) ha hb]

/-- A remainder has the sign of the dividend and is smaller than the divisor. -/
theorem tmod_range (hy : y ≠ 0) :
    (0 ≤ x → 0 ≤ x.tmod y) ∧ (x ≤ 0 → x.tmod y ≤ 0) ∧ (x.tmod y).natAbs < y.natAbs := by
  have hsmaller : (x.tmod y).natAbs < y.natAbs := by
    rw [Int.natAbs_tmod]
    exact Nat.mod_lt _ (Int.natAbs_pos.mpr hy)
  refine ⟨Int.tmod_nonneg y, fun hx => ?_, hsmaller⟩
  have hopposite : 0 ≤ (-x).tmod y := Int.tmod_nonneg y (by omega)
  rw [Int.neg_tmod] at hopposite
  omega

/-- However two integers are held, arithmetic gives the exact result in its normal representation, and
their comparison is that of the integers. -/
theorem arithmetic_exact (ha : a.toInt? = some x) (hb : b.toInt? = some y) :
    a.add b = ofInt (x + y) ∧ a.sub b = ofInt (x - y) ∧ a.mul b = ofInt (x * y) ∧ a.neg = ofInt (-x) ∧
      a.compare? b = some (compare x y) ∧
      (y ≠ 0 → ∃ quotient remainder : Int, x = quotient * y + remainder ∧
        (0 ≤ x → 0 ≤ remainder) ∧ (x ≤ 0 → remainder ≤ 0) ∧ remainder.natAbs < y.natAbs ∧
        a.rem b = .ok (ofInt remainder)) := by
  refine ⟨add_eq_ofInt ha hb, sub_eq_ofInt ha hb, mul_eq_ofInt ha hb, neg_eq_ofInt ha, ?_, fun hy => ?_⟩
  · rw [compare?_eq, ha, hb]
  · obtain ⟨hpositive, hnegative, hsmaller⟩ := tmod_range (x := x) hy
    refine ⟨x.tdiv y, x.tmod y, ?_, hpositive, hnegative, hsmaller, rem_eq_ofInt ha hb hy⟩
    rw [Int.mul_comm]
    exact (Int.mul_tdiv_add_tmod x y).symm

/-- The least word and a minus one that is not held as a word, each on its own side. -/
theorem arithmetic_exact_least :
    let a : Number := .small Int64.minValue
    let b : Number := .big (-1)
    a.toInt? = some (-2 ^ 63) ∧ b.toInt? = some (-1) ∧
      a.add b = ofInt (-2 ^ 63 + -1) ∧ a.sub b = ofInt (-2 ^ 63 - -1) ∧ a.mul b = ofInt (-2 ^ 63 * -1) ∧
      a.neg = ofInt (-(-2 ^ 63)) ∧ a.compare? b = some (compare (-2 ^ 63 : Int) (-1)) ∧
      ((-1 : Int) ≠ 0 → ∃ quotient remainder : Int, -2 ^ 63 = quotient * -1 + remainder ∧
        ((0 : Int) ≤ -2 ^ 63 → 0 ≤ remainder) ∧ ((-2 ^ 63 : Int) ≤ 0 → remainder ≤ 0) ∧
        remainder.natAbs < (-1 : Int).natAbs ∧ a.rem b = .ok (ofInt remainder)) := by
  intro a b
  have ha : a.toInt? = some (-2 ^ 63) := rfl
  have hb : b.toInt? = some (-1) := rfl
  exact ⟨ha, hb, arithmetic_exact ha hb⟩

/-! ### Quotients -/

/-- The one pair of words whose quotient is an integer but not a word. -/
def QuotientLeavesWords (a b : Number) : Prop :=
  a = .small Int64.minValue ∧ b = .small (-1)

instance (a b : Number) : Decidable (QuotientLeavesWords a b) :=
  inferInstanceAs (Decidable (_ ∧ _))

theorem div_of_isZero (hb : b.toInt? = some 0) :
    a.div b = .error .divisionByZero ∧ a.rem b = .error .divisionByZero := by
  have hzero : b.isZero := (isZero_iff hb).mpr rfl
  rw [div, rem, if_pos hzero, if_pos hzero]
  exact ⟨rfl, rfl⟩

/-- Words are divided exactly where the remainder is zero and is not refused. -/
theorem div_words {v w : Int64} (hw : w.toInt ≠ 0) :
    div (.small v) (.small w) = .ok (if w.toInt ∣ v.toInt ∧ ¬QuotientLeavesWords (.small v) (.small w)
      then ofInt (v.toInt.tdiv w.toInt) else .real (toFloat (.small v) / toFloat (.small w))) := by
  have hleaves : QuotientLeavesWords (.small v) (.small w) ↔ v = Int64.minValue ∧ w = -1 := by
    simp [QuotientLeavesWords]
  have hne : w ≠ 0 := fun h => hw (congrArg Int64.toInt h)
  rw [div, isZero_eq_decide rfl, decide_eq_false hw, if_neg Bool.false_ne_true]
  simp only [Word.rem?, Word.div?, hleaves]
  by_cases hfits : Word.quotientFits v w
  · have hexact : v % w = 0 ↔ w.toInt ∣ v.toInt := by
      rw [Int.dvd_iff_tmod_eq_zero, ← Int64.toInt_mod, ← Int64.toInt_zero, Int64.toInt_inj]
    rw [if_pos hfits, if_pos hfits, ← Word.toInt_div hfits, ofInt_toInt]
    simp only [hexact, (Word.quotientFits_iff.mp hfits).2, not_false_eq_true, and_true]
  · have hleast : v = Int64.minValue ∧ w = -1 := by
      by_contra hleast
      exact hfits (Word.quotientFits_iff.mpr ⟨hne, hleast⟩)
    rw [if_neg hfits, if_neg hfits, if_neg fun h => h.2 hleast]

/-- A quotient of integers is exact where the divisor divides the dividend, words that leave their range
apart. -/
theorem div_eq (ha : a.toInt? = some x) (hb : b.toInt? = some y) (hy : y ≠ 0) :
    a.div b = .ok (if y ∣ x ∧ ¬QuotientLeavesWords a b then ofInt (x.tdiv y)
      else .real (a.toFloat / b.toFloat)) := by
  have hwide (hnot : ∀ v w, a = .small v → b = .small w → False) :
      a.div b = .ok (if y ∣ x ∧ ¬QuotientLeavesWords a b then ofInt (x.tdiv y)
        else .real (a.toFloat / b.toFloat)) := by
    have hleaves : ¬QuotientLeavesWords a b := fun h => hnot _ _ h.1 h.2
    rw [div, isZero_eq_decide hb, decide_eq_false hy, if_neg Bool.false_ne_true]
    simp only [ha, hb, hleaves, not_false_eq_true, and_true, Int.dvd_iff_tmod_eq_zero]
  cases a with
  | small v =>
      cases b with
      | small w =>
          cases ha
          cases hb
          exact div_words hy
      | big _ => exact hwide fun _ _ _ h => by cases h
      | real _ => cases hb
  | big _ => exact hwide fun _ _ h _ => by cases h
  | real _ => cases ha

theorem ofInt_ne_real (value : Int) (r : Float) : ofInt value ≠ .real r := by
  intro h
  have hinteger := toInt?_ofInt value
  rw [h] at hinteger
  cases hinteger

/-- A quotient of integers is an exact integer in its normal representation exactly where the divisor
divides the dividend, that is, where the remainder is zero, and the operands are not the two words whose
quotient is not a word. Otherwise it is a double. There is no division by zero. -/
theorem div_exact_iff (ha : a.toInt? = some x) (hb : b.toInt? = some y) :
    (y = 0 → a.div b = .error .divisionByZero ∧ a.rem b = .error .divisionByZero) ∧
    (y ≠ 0 →
      (y ∣ x ↔ a.rem b = .ok (ofInt 0)) ∧
      ((∃ quotient, a.div b = .ok (ofInt quotient)) ↔ y ∣ x ∧ ¬QuotientLeavesWords a b) ∧
      (∀ quotient, a.div b = .ok (ofInt quotient) → quotient * y = x) ∧
      ((∃ r, a.div b = .ok (.real r)) ↔ ¬(y ∣ x ∧ ¬QuotientLeavesWords a b))) := by
  refine ⟨fun hzero => div_of_isZero (hzero ▸ hb), fun hy => ?_⟩
  have hrem : y ∣ x ↔ a.rem b = .ok (ofInt 0) := by
    rw [rem_eq_ofInt ha hb hy, Int.dvd_iff_tmod_eq_zero, Except.ok.injEq]
    refine ⟨congrArg ofInt, fun h => ?_⟩
    have hinteger := congrArg toInt? h
    rwa [toInt?_ofInt, toInt?_ofInt, Option.some.injEq] at hinteger
  have hdiv := div_eq ha hb hy
  by_cases hexact : y ∣ x ∧ ¬QuotientLeavesWords a b
  · rw [if_pos hexact] at hdiv
    refine ⟨hrem, ⟨fun _ => hexact, fun _ => ⟨_, hdiv⟩⟩, fun quotient hquotient => ?_, ?_⟩
    · have hinteger := congrArg toInt? (Except.ok.inj (hquotient.symm.trans hdiv))
      rw [toInt?_ofInt, toInt?_ofInt, Option.some.injEq] at hinteger
      rw [hinteger, Int.tdiv_mul_cancel hexact.1]
    · refine ⟨fun ⟨r, hr⟩ => ?_, fun h => (h hexact).elim⟩
      exact (ofInt_ne_real _ _ (Except.ok.inj (hdiv.symm.trans hr))).elim
  · rw [if_neg hexact] at hdiv
    have hinexact (quotient : Int) : a.div b ≠ .ok (ofInt quotient) := fun hquotient =>
      ofInt_ne_real _ _ (Except.ok.inj (hquotient.symm.trans hdiv))
    exact ⟨hrem, ⟨fun ⟨quotient, h⟩ => (hinexact quotient h).elim, fun h => (hexact h).elim⟩,
      fun quotient h => (hinexact quotient h).elim, ⟨fun _ => hexact, fun _ => ⟨_, hdiv⟩⟩⟩

/-- An integer wider than a word by a word that divides it. -/
theorem div_exact_iff_wide :
    let a : Number := .big (-2 ^ 64)
    let b : Number := .small Int64.minValue
    a.toInt? = some (-2 ^ 64) ∧ b.toInt? = some (-2 ^ 63) ∧
      ((-2 ^ 63 : Int) = 0 → a.div b = .error .divisionByZero ∧ a.rem b = .error .divisionByZero) ∧
      ((-2 ^ 63 : Int) ≠ 0 →
        ((-2 ^ 63 : Int) ∣ -2 ^ 64 ↔ a.rem b = .ok (ofInt 0)) ∧
        ((∃ quotient, a.div b = .ok (ofInt quotient)) ↔
          (-2 ^ 63 : Int) ∣ -2 ^ 64 ∧ ¬QuotientLeavesWords a b) ∧
        (∀ quotient, a.div b = .ok (ofInt quotient) → quotient * -2 ^ 63 = -2 ^ 64) ∧
        ((∃ r, a.div b = .ok (.real r)) ↔ ¬((-2 ^ 63 : Int) ∣ -2 ^ 64 ∧ ¬QuotientLeavesWords a b))) := by
  intro a b
  have ha : a.toInt? = some (-2 ^ 64) := rfl
  have hb : b.toInt? = some (-2 ^ 63) := rfl
  exact ⟨ha, hb, div_exact_iff ha hb⟩

/-- `-1` divides the least word, and the remainder says so, but the quotient is a double. The same integers
have an exact quotient as soon as one of them is not held as a word. -/
theorem div_least_inexact :
    (-1 : Int) ∣ Int64.minValue.toInt ∧ rem (.small Int64.minValue) (.small (-1)) = .ok (ofInt 0) ∧
      (∃ r, div (.small Int64.minValue) (.small (-1)) = .ok (.real r)) ∧
      div (.small Int64.minValue) (.big (-1)) = .ok (.big (2 ^ 63)) := by
  refine ⟨by decide, by decide, ⟨_, rfl⟩, by decide⟩

end Number

end SymbolicAlgebra
