import SymbolicAlgebra.Node.Basic
import SymbolicAlgebra.Failure

/-!
Taking expressions apart where one form is needed. Each accessor gives the content of the form it
is named for, or the mismatch between the parameter it stands for and the kind that was found.
-/

namespace SymbolicAlgebra.Node

/-- The failure of a node that does not meet `expected`. -/
def mismatch (node : Node) (expected : Parameter) : Failure :=
  .typeMismatch expected node.kind

def asNumber : Node → Except Failure Number
  | .number value => .ok value
  | node => .error (node.mismatch .number)

/-- The nearest double of a number. -/
def asReal (node : Node) : Except Failure Float :=
  node.asNumber.map Number.toFloat

/-- The word of an integer that is held as one. -/
def asInteger : Node → Except Failure Int64
  | .number (.small value) => .ok value
  | node => .error (node.mismatch .integer)

def asBoolean : Node → Except Failure Bool
  | .boolean value => .ok value
  | node => .error (node.mismatch .boolean)

def asSymbol : Node → Except Failure String
  | .symbol name => .ok name
  | node => .error (node.mismatch .symbol)

def asSequence : Node → Except Failure (List Node)
  | .sequence elements => .ok elements
  | node => .error (node.mismatch .sequence)

def asPair : Node → Except Failure (Node × Node)
  | .pair first second => .ok (first, second)
  | node => .error (node.mismatch .pair)

def asApplication : Node → Except Failure (String × List Node)
  | .application name args => .ok (name, args)
  | node => .error (node.mismatch .application)

/-- The nearest doubles of a sequence of numbers. -/
def asReals (node : Node) : Except Failure (List Float) := do
  (← node.asSequence).mapM asReal

end SymbolicAlgebra.Node
