import SymbolicAlgebra.Guard
import SymbolicAlgebra.Node.Access
import SymbolicAlgebra.Node.Order
import SymbolicAlgebra.Operation.Basic

/-!
Sequences and pairs: `list`, `tuple`, `get`, `size`, `append`, `contains`, `reverse`, `zip`, `first`
and `rest`.
-/

namespace SymbolicAlgebra.Builtin

/-- The element at an index, counted from zero. -/
def elementAt (elements : List Node) (index : Int) : Except Failure (Option Node) := do
  let position ← Guard.index index elements.length
  return elements[position]?

/-- The call `get(list, i)`. -/
def getElement (list index : Node) : Except Failure (Option Node) := do
  let elements ← list.asSequence
  let index ← index.asInteger
  elementAt elements index.toInt

/-- The call `get(pair, i)`, where `i` is zero or one. -/
def getHalf (pair index : Node) : Except Failure (Option Node) := do
  let (first, second) ← pair.asPair
  let index ← index.asInteger
  elementAt [first, second] index.toInt

/-- The call `zip(xs, ys)` pairs the elements of two sequences of one length. -/
def zipped (xs ys : Node) : Except Failure (Option Node) := do
  let xs ← xs.asSequence
  let ys ← ys.asSequence
  Guard.dimension xs.length ys.length
  return some (.sequence (List.zipWith Node.pair xs ys))

/-- The call `first(list)`. -/
def firstElement (list : Node) : Except Failure (Option Node) := do
  elementAt (← list.asSequence) 0

/-- The call `rest(list)` gives the list without its first element, which it has to have. -/
def restOf (list : Node) : Except Failure (Option Node) := do
  let elements ← list.asSequence
  let _ ← Guard.index 0 elements.length
  return some (.sequence (elements.drop 1))

def collection : List Operation :=
  [ Operation.universal "list" fun args => .done (some (.sequence args)),
    Operation.binary "tuple" .any .any fun a b => .done (some (.pair a b)),
    Operation.binary "get" .sequence .integer fun list index => getElement list index,
    Operation.binary "get" .pair .integer fun pair index => getHalf pair index,
    Operation.unary "size" .sequence fun list => do
      let elements ← list.asSequence
      let count ← Guard.length elements.length
      return some (.number (.small count)),
    Operation.binary "append" .sequence .any fun list element => do
      let elements ← list.asSequence
      return some (.sequence (elements ++ [element])),
    Operation.binary "contains" .sequence .any fun list element => do
      let elements ← list.asSequence
      return some (.boolean (elements.any (· == element))),
    Operation.unary "reverse" .sequence fun list => do
      let elements ← list.asSequence
      return some (.sequence elements.reverse),
    Operation.binary "zip" .sequence .sequence fun xs ys => zipped xs ys,
    Operation.unary "first" .sequence fun list => firstElement list,
    Operation.unary "rest" .sequence fun list => restOf list ]

end SymbolicAlgebra.Builtin
