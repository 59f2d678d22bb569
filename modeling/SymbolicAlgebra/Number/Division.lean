import SymbolicAlgebra.Number.Basic
import SymbolicAlgebra.Guard

/-!
Operations on numbers that can fail: division, remainder, powers and factorials. Integers stay exact
where the result is an integer; exact results are kept to a size that can still be computed with.
-/

namespace SymbolicAlgebra.Number

/-- Division. The quotient of integers is exact where the divisor divides the dividend, and the
quotient of the nearest doubles otherwise. Words are divided as words, so the one quotient that
leaves their range, the least word by `-1`, is a double as well. -/
def div (a b : Number) : Except Failure Number :=
  if b.isZero then .error .divisionByZero
  else
    let rounded := Number.real (a.toFloat / b.toFloat)
    match a, b with
    | .small x, .small y =>
      match Word.rem? x y, Word.div? x y with
      | some rest, some quotient => .ok (if rest = 0 then .small quotient else rounded)
      | _, _ => .ok rounded
    | a, b =>
      match a.toInt?, b.toInt? with
      | some x, some y => .ok (if x.tmod y = 0 then ofInt (x.tdiv y) else rounded)
      | _, _ => .ok rounded

/-- The remainder of truncated division, with the sign of the dividend. -/
def rem (a b : Number) : Except Failure Number :=
  if b.isZero then .error .divisionByZero
  else .ok (lift Word.rem? Int.tmod Double.remainder a b)

/-- The greatest number of bits meant for an exact power. -/
def maxExactBits : Nat :=
  1 <<< 20

/-- The number of bits of the magnitude, zero for zero. -/
def bitLength (value : Int) : Nat :=
  if value = 0 then 0 else value.natAbs.log2 + 1

/-- The power of an integer, computed on magnitudes. -/
def intPow (base : Int) (exponent : Nat) : Int :=
  let magnitude : Int := Nat.pow base.natAbs exponent
  if base < 0 ∧ exponent % 2 = 1 then -magnitude else magnitude

/-- The exact power of an integer. Its size is judged before it is computed, by the bits of the base
below the leading one: a base without any never grows. -/
def exactPow (base : Int) (exponent : Nat) : Except Failure Number := do
  let width := bitLength base - 1
  if width > 0 then
    Guard.domain (Double.ofNat exponent) 0 (Double.ofNat (maxExactBits / width))
  return ofInt (intPow base exponent)

/-- Exponentiation. It is exact for an integer base and a word below `2 ^ 32` as exponent, and that
of doubles otherwise. Zero has no negative power. -/
def pow (base exponent : Number) : Except Failure Number :=
  if base.isZero && exponent.isNegative then .error .divisionByZero
  else
    let rounded := Number.real (Float.pow base.toFloat exponent.toFloat)
    match base.toInt?, exponent with
    | some b, .small e =>
      match Guard.exponent e with
      | .ok e => exactPow b e
      | .error _ => .ok rounded
    | _, _ => .ok rounded

/-- The greatest argument of a factorial. -/
def maxFactorial : Nat :=
  10000

/-- The product of the numbers from one to `n`. -/
def factorialNat : Nat → Nat
  | 0 => 1
  | n + 1 => (n + 1) * factorialNat n

/-- The factorial of a word from zero to `maxFactorial`; nothing else has one. -/
def factorial : Number → Except Failure Number
  | .small n => do
    Guard.domain (Double.ofInt n.toInt) 0 (Double.ofNat maxFactorial)
    return ofInt (factorialNat n.toInt.toNat)
  | a => .error (.domain a.toFloat 0 (Double.ofNat maxFactorial))

end SymbolicAlgebra.Number
