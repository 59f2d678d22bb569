import SymbolicAlgebra.Failure
import SymbolicAlgebra.Number.Word

/-!
Checks on the arguments of operations: each passes, with the checked value where that has a
narrower type, or gives the failure it stands for.
-/

namespace SymbolicAlgebra.Guard

/-- The value lies in the closed interval. What is not a number lies in none. -/
def domain (value lower upper : Float) : Except Failure Unit :=
  if value.isNaN || value < lower || value > upper then .error (.domain value lower upper)
  else .ok ()

def nonNegative (value : Float) : Except Failure Unit :=
  domain value 0 Double.infinity

/-- The bounds are not the wrong way round. A bound that is not a number passes. -/
def range (lower upper : Float) : Except Failure Unit :=
  if lower > upper then .error (.invalidRange lower upper) else .ok ()

/-- The position that an index denotes among `length` elements, counted from zero. -/
def index (index : Int) (length : Nat) : Except Failure Nat :=
  if 0 ≤ index ∧ index < length then .ok index.toNat
  else .error (.indexOutOfBounds length index)

/-- Two collections agree in length. -/
def dimension (left right : Nat) : Except Failure Unit :=
  if left = right then .ok () else .error (.dimensionMismatch left right)

/-- The value of a word that is a natural number below `2 ^ 32`. -/
def exponent (value : Int64) : Except Failure Nat :=
  if 0 ≤ value.toInt ∧ value.toInt < 0x100000000 then .ok value.toInt.toNat
  else .error (.domain (Double.ofInt value.toInt) 0 4294967295)

/-- A length as a word. -/
def length (value : Nat) : Except Failure Int64 :=
  match Word.ofInt? value with
  | some word => .ok word
  | none =>
    .error (.invalidArgument ("length " ++ toString value ++ " does not fit in an integer"))

end SymbolicAlgebra.Guard
