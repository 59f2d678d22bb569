import SymbolicAlgebra.Node.Order
import SymbolicAlgebra.Node.Access
import SymbolicAlgebra.Operation.Basic

/-!
Comparisons: `<`, `>`, `<=`, `>=`, `==` and `!=`. A comparison that is still open is left as it is.
-/

namespace SymbolicAlgebra.Builtin

/-- A handler for numbers that tells whether their order passes `test`. What is not a number has no
order. -/
def ordering (test : Ordering → Bool) (a b : Node) : Action Operation (Option Node) := do
  let x ← a.asNumber
  let y ← b.asNumber
  return (x.compare? y).map fun order => .boolean (test order)

/-- Whether two nodes are equal, where that is decided. Structurally equal nodes are. Numbers are
compared by value. Nodes without symbols and applications are equal only structurally. -/
def decideEquality (a b : Node) : Option Bool :=
  if a == b then some true
  else
    match a.number?, b.number? with
    | some x, some y => (x.compare? y).map (· == .eq)
    | _, _ => if a.isGround && b.isGround then some false else none

def comparison : List Operation :=
  [ Operation.binary "<" .number .number (ordering Ordering.isLT),
    Operation.binary ">" .number .number (ordering Ordering.isGT),
    Operation.binary "<=" .number .number (ordering Ordering.isLE),
    Operation.binary ">=" .number .number (ordering Ordering.isGE),
    Operation.binary "==" .any .any fun a b => .done ((decideEquality a b).map Node.boolean),
    Operation.binary "!=" .any .any fun a b =>
      .done ((decideEquality a b).map fun equal => .boolean !equal) ]

end SymbolicAlgebra.Builtin
