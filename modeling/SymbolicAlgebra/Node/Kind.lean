/-!
The kinds of expressions, as error messages name them.
-/

namespace SymbolicAlgebra

inductive Kind where
  | integer
  | real
  | symbol
  | boolean
  | application
  | pair
  | sequence
deriving DecidableEq, Repr

def Kind.text : Kind → String
  | .integer => "integer"
  | .real => "real"
  | .symbol => "symbol"
  | .boolean => "boolean"
  | .application => "application"
  | .pair => "pair"
  | .sequence => "sequence"

end SymbolicAlgebra
