import SymbolicAlgebra.Proofs.TotalOrder
import SymbolicAlgebra.Proofs.Vocabulary

/-! What arithmetic makes of numbers is narrow, whatever it is given: every operation that can leave the
words, or come back into them, ends with a choice of the form that holds its result. So integers that have
gone through arithmetic are the same exactly when they are one integer. -/

namespace SymbolicAlgebra

namespace Number

theorem narrow_ofInt (value : Int) : (ofInt value).Narrow := by
  rw [ofInt]
  cases hword : Word.ofInt? value with
  | some word => trivial
  | none => exact hword

/-- Whatever an operation that was lifted to numbers is given, its result is narrow. -/
theorem narrow_lift (onWords : Int64 → Int64 → Option Int64) (onInts : Int → Int → Int)
    (onFloats : Float → Float → Float) (a b : Number) : (lift onWords onInts onFloats a b).Narrow := by
  unfold lift
  split
  · split
    · trivial
    · exact narrow_ofInt _
  · split
    · exact narrow_ofInt _
    · trivial

theorem narrow_add (a b : Number) : (a.add b).Narrow := narrow_lift _ _ _ a b

theorem narrow_mul (a b : Number) : (a.mul b).Narrow := narrow_lift _ _ _ a b

theorem narrow_neg (a : Number) : a.neg.Narrow := by
  unfold neg
  split
  · split
    · trivial
    · exact narrow_ofInt _
  · exact narrow_ofInt _
  · trivial

theorem narrow_sub (a b : Number) : (a.sub b).Narrow := narrow_add a b.neg

theorem narrow_div (a b : Number) : Ensures Narrow (a.div b) := by
  unfold div
  split
  · exact ensures_error _ _
  · dsimp only
    split
    · split
      · refine ensures_ok ?_
        split <;> trivial
      · exact ensures_ok trivial
    · split
      · refine ensures_ok ?_
        split
        · exact narrow_ofInt _
        · trivial
      · exact ensures_ok trivial

theorem narrow_rem (a b : Number) : Ensures Narrow (a.rem b) := by
  unfold rem
  split
  · exact ensures_error _ _
  · exact ensures_ok (narrow_lift _ _ _ a b)

theorem narrow_exactPow (base : Int) (exponent : Nat) : Ensures Narrow (exactPow base exponent) := by
  have hpower : Ensures Narrow (.ok (ofInt (intPow base exponent))) := ensures_ok (narrow_ofInt _)
  unfold exactPow
  dsimp only
  split
  · exact (ensures_any _).bind fun _ _ => hpower
  · exact hpower

theorem narrow_pow (base exponent : Number) : Ensures Narrow (base.pow exponent) := by
  unfold pow
  split
  · exact ensures_error _ _
  · dsimp only
    split
    · split
      · exact narrow_exactPow _ _
      · exact ensures_ok trivial
    · exact ensures_ok trivial

theorem narrow_factorial (a : Number) : Ensures Narrow a.factorial := by
  cases a with
  | small word => exact (ensures_any _).bind fun _ _ => ensures_ok (narrow_ofInt _)
  | _ => exact ensures_error _ _

/-- A narrow number that is an integer is held as the integer is always held. -/
theorem eq_ofInt_of_narrow {a : Number} (ha : a.Narrow) {integer : Int} (hinteger : a.toInt? = some integer) :
    a = ofInt integer := by
  cases a with
  | small word =>
      cases hinteger
      exact (ofInt_toInt word).symm
  | big value =>
      cases hinteger
      have hwide : Word.ofInt? integer = none := ha
      rw [ofInt, hwide]
  | real value => cases hinteger

/-- Narrow numbers that are integers are the same exactly when they are one integer. -/
theorem same_iff_eq_of_toInt? {a b : Number} (ha : a.Narrow) (hb : b.Narrow) {x y : Int}
    (hx : a.toInt? = some x) (hy : b.toInt? = some y) : a.same b ↔ x = y := by
  constructor
  · intro hsame
    have hinteger := toInt?_eq_of_same hsame
    rw [hx, hy] at hinteger
    exact Option.some.inj hinteger
  · rintro rfl
    obtain rfl : a = b := (eq_ofInt_of_narrow ha hx).trans (eq_ofInt_of_narrow hb hy).symm
    cases a with
    | small word => simp [same]
    | big value => simp [same]
    | real value => cases hx

end Number

end SymbolicAlgebra
