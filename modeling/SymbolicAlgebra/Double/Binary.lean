/-!
Doubles as whole numbers. Every finite double is a multiple of the least positive one, so its
magnitude is a natural number of those units and exact questions about it (its shortest decimal
form, a remainder) are questions about natural numbers. Here are the fields of the binary form, the
comparison of doubles, and the passage to units and back.
-/

namespace SymbolicAlgebra.Double

/-- The eleven exponent bits. -/
def exponentField (x : Float) : Nat :=
  (x.toBits.toNat >>> 52) % 2048

/-- The fifty-two fraction bits. -/
def fractionField (x : Float) : Nat :=
  x.toBits.toNat % (1 <<< 52)

/-- The sign bit, which a zero carries too. -/
def signBit (x : Float) : Bool :=
  x.toBits.toNat >>> 63 == 1

/-- The distance from a double of exponent field `exponent` to the next larger one, in units of
`2 ^ (-1074)`. -/
def ulp (exponent : Nat) : Nat :=
  1 <<< (exponent - 1)

/-- The magnitude of a finite double in units of `2 ^ (-1074)`, the least positive double. -/
def units (x : Float) : Nat :=
  if exponentField x = 0 then fractionField x
  else (fractionField x + (1 <<< 52)) * ulp (exponentField x)

/-- The double whose magnitude is `magnitude` units. The bits that do not fit in a significand are
dropped, so the result is exact for the magnitudes that `units` yields. -/
def ofUnits (negative : Bool) (magnitude : Nat) : Float :=
  let width := magnitude.log2
  let bits :=
    if width < 52 then magnitude
    else
      let exponent := width - 51
      (exponent <<< 52) + ((magnitude >>> (exponent - 1)) - (1 <<< 52))
  Float.ofBits (UInt64.ofNat (bits + if negative then 1 <<< 63 else 0))

/-- The numeric order; `none` exactly when one side is not a number. -/
def compare? (x y : Float) : Option Ordering :=
  if x < y then some .lt
  else if x == y then some .eq
  else if y < x then some .gt
  else none

/-- The numeric order made total: whatever is not a number comes last and equals itself. -/
def totalOrder (x y : Float) : Ordering :=
  match compare? x y with
  | some order => order
  | none => compare x.isNaN y.isNaN

/-- Equality under `totalOrder`: both zeros are one value, and so is everything that is not a
number. -/
def same (x y : Float) : Bool :=
  if x.isNaN then y.isNaN else x == y

/-- Positive infinity. -/
def infinity : Float :=
  Float.ofBits 0x7FF0000000000000

/-- The largest finite double. -/
def greatest : Float :=
  Float.ofBits 0x7FEFFFFFFFFFFFFF

/-- The value that is not a number. -/
def notANumber : Float :=
  Float.ofBits 0x7FF8000000000000

/-- The double nearest to a natural number. From `2 ^ 1024` on that is infinity, which is answered
without rounding. -/
def ofNat (n : Nat) : Float :=
  if n.log2 < 1024 then Float.ofNat n else infinity

/-- The double nearest to an integer. -/
def ofInt : Int → Float
  | .ofNat n => ofNat n
  | .negSucc n => -ofNat (n + 1)

/-- Negative zero, the value of a sum of no doubles: adding it changes no double at all. -/
def negativeZero : Float :=
  Float.ofBits 0x8000000000000000

/-- The sum of `values` from left to right. -/
def sum (values : List Float) : Float :=
  values.foldl (· + ·) negativeZero

/-- The exact remainder of truncated division; its sign is that of the dividend. -/
def remainder (x y : Float) : Float :=
  if x.isNaN || y.isNaN || x.isInf || y == 0 then notANumber
  else if y.isInf then x
  else ofUnits (signBit x) (units x % units y)

end SymbolicAlgebra.Double
