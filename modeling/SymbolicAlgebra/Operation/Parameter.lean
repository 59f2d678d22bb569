/-!
Parameters: what an operation asks of one argument.
-/

namespace SymbolicAlgebra

inductive Parameter where
  /-- Any number. -/
  | number
  /-- An integer held as a machine word. -/
  | integer
  | symbol
  | boolean
  | application
  | sequence
  | pair
  /-- Any single expression. -/
  | any
  /-- Any number of arguments of any kind, where it is the only entry of a signature. No single
  argument meets it. -/
  | universal
deriving DecidableEq, Repr

/-- What an operation asks of its arguments, one entry each. -/
abbrev Signature := List Parameter

def Parameter.text : Parameter → String
  | .number => "number"
  | .integer => "integer"
  | .symbol => "symbol"
  | .boolean => "boolean"
  | .application => "application"
  | .sequence => "sequence"
  | .pair => "pair"
  | .any => "any"
  | .universal => "any arguments"

end SymbolicAlgebra
