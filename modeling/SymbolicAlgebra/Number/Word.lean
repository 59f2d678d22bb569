/-!
Arithmetic on machine words with the overflow seen. Each operation gives the exact result, or `none`
where that result is not a word.
-/

namespace SymbolicAlgebra.Word

/-- The sum. It overflows exactly when both summands have a sign that the wrapped sum has not. -/
def add? (a b : Int64) : Option Int64 :=
  let sum := a + b
  if ((a ^^^ sum) &&& (b ^^^ sum)) < 0 then none else some sum

/-- The product. A wrapped product is the exact one when dividing it by a factor gives the other
back; the least word times `-1` is the one product that passes this test wrongly. -/
def mul? (a b : Int64) : Option Int64 :=
  let product := a * b
  if a = 0 then some 0
  else if (a = -1 ∧ b = Int64.minValue) ∨ product / a ≠ b then none
  else some product

/-- The opposite. Only the least word has none. -/
def neg? (a : Int64) : Option Int64 :=
  if a = Int64.minValue then none else some (-a)

/-- Whether truncated division of words goes through: the divisor is not zero and the quotient is a
word. -/
def quotientFits (a b : Int64) : Bool :=
  b ≠ 0 && !(a = Int64.minValue && b = -1)

/-- The truncated quotient. -/
def div? (a b : Int64) : Option Int64 :=
  if quotientFits a b then some (a / b) else none

/-- The remainder of truncated division, refused wherever the quotient is. -/
def rem? (a b : Int64) : Option Int64 :=
  if quotientFits a b then some (a % b) else none

/-- The word an integer is, where it is one. -/
def ofInt? (value : Int) : Option Int64 :=
  if Int64.minValue.toInt ≤ value ∧ value ≤ Int64.maxValue.toInt then some (.ofInt value) else none

end SymbolicAlgebra.Word
