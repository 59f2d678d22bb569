import SymbolicAlgebra.Guard
import SymbolicAlgebra.Node.Access
import SymbolicAlgebra.Operation.Basic

/-!
Vectors: `dot`, `cross` and `magnitude`. The products are built as expressions, so that symbolic
components stay symbolic and numbers are folded when the result is simplified.
-/

namespace SymbolicAlgebra.Builtin

def product (a b : Node) : Node :=
  .application "*" [a, b]

def difference (a b : Node) : Node :=
  .application "-" [a, b]

/-- The scalar product, as a sum of products. -/
def dotProduct (a b : List Node) : Except Failure Node := do
  Guard.dimension a.length b.length
  return .application "sum" [.sequence (List.zipWith product a b)]

/-- The minor of the columns `a` over `b` and `c` over `d`. -/
def minor (a b c d : Node) : Node :=
  difference (product a d) (product c b)

/-- The vector product: a scalar in the plane, a vector in space. -/
def crossProduct (a b : List Node) : Except Failure Node := do
  Guard.dimension a.length b.length
  match a, b with
  | [a₀, a₁], [b₀, b₁] => return minor a₀ b₀ a₁ b₁
  | [a₀, a₁, a₂], [b₀, b₁, b₂] =>
    return .sequence [minor a₁ b₁ a₂ b₂, minor a₂ b₂ a₀ b₀, minor a₀ b₀ a₁ b₁]
  | _, _ => .error (.dimensionMismatch a.length 3)

/-- The length of a vector: a double if all components are numbers, and otherwise the square root of
its product with itself. -/
def magnitude (v : Node) : Except Failure (Option Node) :=
  match v.asReals with
  | .ok values => .ok (some (.real (Double.sum (values.map fun x => x * x)).sqrt))
  | .error _ => do
    let elements ← v.asSequence
    let squares ← dotProduct elements elements
    return some (.application "^" [squares, .real 0.5])

def vector : List Operation :=
  [ Operation.binary "dot" .sequence .sequence fun a b => do
      let result ← dotProduct (← a.asSequence) (← b.asSequence)
      return some result,
    Operation.binary "cross" .sequence .sequence fun a b => do
      let result ← crossProduct (← a.asSequence) (← b.asSequence)
      return some result,
    Operation.unary "magnitude" .sequence fun v => magnitude v ]

end SymbolicAlgebra.Builtin
