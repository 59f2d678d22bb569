import SymbolicAlgebra.Node.Access
import SymbolicAlgebra.Node.Order
import SymbolicAlgebra.Number.Division
import SymbolicAlgebra.Operation.Basic

/-!
Arithmetic: `+`, `*`, `-`, `/`, `%`, `^`, `negate` and `!`. Numbers are computed with; where a side
is symbolic, the identities of the operation apply. The rules for numbers are registered first and
so win over the identities of the same name.
-/

namespace SymbolicAlgebra.Builtin

/-- A handler that computes with two numbers. -/
def onNumbers (compute : Number → Number → Except Failure Number) (a b : Node) :
    Action Operation (Option Node) := do
  let x ← a.asNumber
  let y ← b.asNumber
  let result ← compute x y
  return some (.number result)

def isZero (node : Node) : Bool :=
  node.number?.any Number.isZero

def isOne (node : Node) : Bool :=
  node.number?.any Number.isOne

/-- Adding zero changes nothing. -/
def addIdentity (a b : Node) : Option Node :=
  if isZero a then some b
  else if isZero b then some a
  else none

/-- A product with zero is that zero, and multiplying by one changes nothing. -/
def mulIdentity (a b : Node) : Option Node :=
  if isZero a then some a
  else if isZero b then some b
  else if isOne a then some b
  else if isOne b then some a
  else none

/-- Equal sides cancel, subtracting zero changes nothing, and subtracting from zero negates. -/
def subIdentity (a b : Node) : Option Node :=
  if a == b then some (.integer 0)
  else if isZero b then some a
  else if isZero a then some (.application "negate" [b])
  else none

/-- Dividing by one changes nothing. -/
def divIdentity (a b : Node) : Option Node :=
  if isOne b then some a else none

/-- The first power of anything is itself, and its zeroth power is one. -/
def powIdentity (a b : Node) : Option Node :=
  if isOne b then some a
  else if isZero b then some (.integer 1)
  else none

/-- What `operation` was applied to, where the node is its application to one argument. -/
def unwrap (operation : String) : Node → Option Node
  | .application name [a] => if name = operation then some a else none
  | _ => none

def arithmetic : List Operation :=
  [ (Operation.binary "+" .number .number (onNumbers fun x y => .ok (x.add y))).commutative,
    (Operation.binary "+" .any .any fun a b => .done (addIdentity a b)).commutative,
    (Operation.binary "*" .number .number (onNumbers fun x y => .ok (x.mul y))).commutative,
    (Operation.binary "*" .any .any fun a b => .done (mulIdentity a b)).commutative,
    (Operation.binary "-" .number .number
      (onNumbers fun x y => .ok (x.sub y))).forwardCommutative,
    (Operation.binary "-" .any .any fun a b => .done (subIdentity a b)).forwardCommutative,
    Operation.binary "/" .number .number (onNumbers Number.div),
    Operation.binary "/" .any .any fun a b => .done (divIdentity a b),
    Operation.binary "%" .number .number (onNumbers Number.rem),
    Operation.binary "^" .number .number (onNumbers Number.pow),
    Operation.binary "^" .any .any fun a b => .done (powIdentity a b),
    Operation.unary "negate" .number fun a => do
      let x ← a.asNumber
      return some (.number x.neg),
    Operation.unary "negate" .application fun a => .done (unwrap "negate" a),
    Operation.unary "!" .number fun a => do
      let x ← a.asNumber
      let result ← x.factorial
      return some (.number result) ]

end SymbolicAlgebra.Builtin
