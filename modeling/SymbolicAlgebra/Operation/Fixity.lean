/-!
How applications of an operation are written, and how tightly they bind. Neither has an effect on
simplification.
-/

namespace SymbolicAlgebra

inductive Fixity where
  /-- As in `name(a, b)`. -/
  | call
  /-- As in `name a`, for one argument. -/
  | before
  /-- As in `a name b`, for two arguments, or more if the operation is commutative. -/
  | between
  /-- As in `a name`, for one argument. -/
  | after
deriving DecidableEq, Repr

/-- Binding strength, from the loosest to the tightest. -/
inductive Precedence where
  /-- Definitions and whatever else reads as a statement. -/
  | lowest
  | disjunction
  | conjunction
  | comparison
  /-- Sums and differences. -/
  | additive
  /-- Products, quotients and remainders. -/
  | multiplicative
  | exponent
  /-- Operators in front of one operand. -/
  | before
  /-- Operators behind one operand. -/
  | after
deriving DecidableEq, Repr

namespace Precedence

def strength : Precedence → Nat
  | .lowest => 0
  | .disjunction => 1
  | .conjunction => 2
  | .comparison => 3
  | .additive => 4
  | .multiplicative => 5
  | .exponent => 6
  | .before => 7
  | .after => 8

instance : LT Precedence := ⟨fun a b => a.strength < b.strength⟩

instance (a b : Precedence) : Decidable (a < b) :=
  inferInstanceAs (Decidable (a.strength < b.strength))

end Precedence

/-- The spelling of an operation by a front end and by the renderer. -/
structure Keyword where
  /-- The operator or word as it is written. -/
  symbol : String
  /-- The name of the operation that it stands for. -/
  operation : String
  fixity : Fixity
  precedence : Precedence
deriving DecidableEq, Repr

end SymbolicAlgebra
