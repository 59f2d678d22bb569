import SymbolicAlgebra.Double.Text
import SymbolicAlgebra.Node.Kind
import SymbolicAlgebra.Operation.Parameter

/-!
Why a simplification fails, and how a failure is worded. That no operation applies is never a
failure: the expression is then left as it is.
-/

namespace SymbolicAlgebra

inductive Failure where
  /-- An expression of another kind was needed. -/
  | typeMismatch (expected : Parameter) (found : Kind)
  /-- A bound variable was needed. -/
  | undefinedVariable (name : String)
  /-- Two collections that must agree in length do not. -/
  | dimensionMismatch (left right : Nat)
  | indexOutOfBounds (length : Nat) (index : Int)
  /-- A value lies outside the closed interval from `lower` to `upper`. -/
  | domain (value lower upper : Float)
  /-- A lower bound exceeds its upper bound. -/
  | invalidRange (lower upper : Float)
  /-- A keyword with this spelling exists already. -/
  | duplicateDefinition (keyword : String)
  | divisionByZero
  /-- A definition has a malformed head or parameter list. -/
  | invalidDefinition (details : String)
  /-- An argument is wrong in a way other than its kind. -/
  | invalidArgument (details : String)
  /-- Simplification nested deeper than the limit. -/
  | recursionLimit (depth : Nat)
deriving DecidableEq

namespace Failure

private def bound (x : Float) : String :=
  Double.text Double.messageLayout x

def message : Failure → String
  | .typeMismatch expected found =>
    "Type mismatch: expected " ++ expected.text ++ ", but found " ++ found.text ++ "."
  | .undefinedVariable name => "Undefined variable '" ++ name ++ "'."
  | .dimensionMismatch left right =>
    "Dimension mismatch: " ++ toString left ++ " and " ++ toString right ++ "."
  | .indexOutOfBounds length index =>
    "Index out of bounds. Length is " ++ toString length ++ ", but found index "
      ++ toString index ++ "."
  | .domain value lower upper =>
    "Domain error: " ++ bound value ++ " is not within [" ++ bound lower ++ ", "
      ++ bound upper ++ "]."
  | .invalidRange lower upper =>
    "Invalid range: lower bound " ++ bound lower ++ " exceeds upper bound " ++ bound upper ++ "."
  | .duplicateDefinition keyword => "Duplicate definition of keyword '" ++ keyword ++ "'."
  | .divisionByZero => "Division by zero."
  | .invalidDefinition details => "Invalid definition: " ++ details ++ "."
  | .invalidArgument details => "Invalid argument: " ++ details ++ "."
  | .recursionLimit depth =>
    "Recursion limit of " ++ toString depth ++ " nested simplifications exceeded."

end Failure

end SymbolicAlgebra
