import SymbolicAlgebra.Operation.Action
import SymbolicAlgebra.Operation.Fixity

/-!
Operations: a name, what it asks of its arguments, how its applications are written, and the handler
that simplifies them.
-/

namespace SymbolicAlgebra

structure Attributes where
  /-- Arguments may be reordered, and nested applications of the same name are one application. -/
  commutative : Bool := false
  /-- The left operand may be of the same operation without parentheses, the right may not. -/
  forwardCommutative : Bool := false
  /-- Arguments reach the handler as they are, not simplified. -/
  preservesArguments : Bool := false
deriving DecidableEq, Repr

/-- The handler gets the arguments and ends with the node that replaces the application, or with
nothing where it declines these arguments. -/
structure Operation where
  name : String
  signature : Signature
  fixity : Fixity := .call
  precedence : Precedence := .lowest
  attributes : Attributes := {}
  handler : List Node → Action Operation (Option Node)

abbrev Handler := List Node → Action Operation (Option Node)

/-- Whether one argument meets the parameter, decided by the form of the node alone. -/
def Parameter.accepts : Parameter → Node → Bool
  | .any, _ => true
  | .number, .number _ => true
  | .integer, .number (.small _) => true
  | .symbol, .symbol _ => true
  | .boolean, .boolean _ => true
  | .application, .application _ _ => true
  | .sequence, .sequence _ => true
  | .pair, .pair _ _ => true
  | _, _ => false

/-- Whether there are as many arguments as parameters and each meets its own. -/
def Signature.accepts : Signature → List Node → Bool
  | [], [] => true
  | parameter :: signature, arg :: args =>
    parameter.accepts arg && Signature.accepts signature args
  | _, _ => false

namespace Operation

def accepts (operation : Operation) (args : List Node) : Bool :=
  Signature.accepts operation.signature args

/-- Whether the operation takes any arguments at all. -/
def isUniversal (operation : Operation) : Bool :=
  operation.signature = [.universal]

/-- An operation without arguments. -/
def nullary (name : String) (handler : Action Operation (Option Node)) : Operation where
  name := name
  signature := []
  handler _ := handler

/-- An operation with one argument. -/
def unary (name : String) (parameter : Parameter)
    (handler : Node → Action Operation (Option Node)) : Operation where
  name := name
  signature := [parameter]
  handler
    | [a] => handler a
    | _ => .done none

/-- An operation with two arguments. -/
def binary (name : String) (first second : Parameter)
    (handler : Node → Node → Action Operation (Option Node)) : Operation where
  name := name
  signature := [first, second]
  handler
    | [a, b] => handler a b
    | _ => .done none

/-- An operation with three arguments. -/
def ternary (name : String) (first second third : Parameter)
    (handler : Node → Node → Node → Action Operation (Option Node)) : Operation where
  name := name
  signature := [first, second, third]
  handler
    | [a, b, c] => handler a b c
    | _ => .done none

/-- An operation that takes any arguments. -/
def universal (name : String) (handler : Handler) : Operation where
  name := name
  signature := [.universal]
  handler := handler

def commutative (operation : Operation) : Operation :=
  { operation with attributes := { operation.attributes with commutative := true } }

def forwardCommutative (operation : Operation) : Operation :=
  { operation with attributes := { operation.attributes with forwardCommutative := true } }

def preservingArguments (operation : Operation) : Operation :=
  { operation with attributes := { operation.attributes with preservesArguments := true } }

end Operation

end SymbolicAlgebra
