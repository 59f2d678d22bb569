import SymbolicAlgebra.Builtin.Arithmetic
import SymbolicAlgebra.Node.Access

/-!
Connectives: `and`, `or`, `xor` and `not`. One boolean operand can be enough: it decides the result
or leaves the other operand.
-/

namespace SymbolicAlgebra.Builtin

/-- A handler that computes with two booleans. -/
def onBooleans (compute : Bool → Bool → Bool) (a b : Node) : Action Operation (Option Node) := do
  let p ← a.asBoolean
  let q ← b.asBoolean
  return some (.boolean (compute p q))

/-- A connective with one boolean operand: `absorbing` decides the result on its own, and the other
value leaves the other operand. -/
def shortCircuit (absorbing : Bool) (a b : Node) : Option Node :=
  match a, b with
  | .boolean p, .boolean q => some (.boolean (if p = absorbing then absorbing else q))
  | .boolean p, other => some (if p = absorbing then .boolean absorbing else other)
  | other, .boolean q => some (if q = absorbing then .boolean absorbing else other)
  | _, _ => none

/-- Exclusive disjunction with false leaves the other operand, with true it negates it. -/
def xorIdentity (a b : Node) : Option Node :=
  match a, b with
  | .boolean false, other => some other
  | other, .boolean false => some other
  | .boolean true, other => some (.application "not" [other])
  | other, .boolean true => some (.application "not" [other])
  | _, _ => none

def logic : List Operation :=
  [ (Operation.binary "and" .boolean .boolean (onBooleans (· && ·))).commutative,
    (Operation.binary "and" .any .any fun a b => .done (shortCircuit false a b)).commutative,
    (Operation.binary "or" .boolean .boolean (onBooleans (· || ·))).commutative,
    (Operation.binary "or" .any .any fun a b => .done (shortCircuit true a b)).commutative,
    Operation.binary "xor" .boolean .boolean (onBooleans (· ^^ ·)),
    Operation.binary "xor" .any .any fun a b => .done (xorIdentity a b),
    Operation.unary "not" .boolean fun a => do
      let p ← a.asBoolean
      return some (.boolean !p),
    Operation.unary "not" .application fun a => .done (unwrap "not" a) ]

end SymbolicAlgebra.Builtin
