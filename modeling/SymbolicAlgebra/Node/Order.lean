import SymbolicAlgebra.Node.Basic

/-!
Equality and order of expressions. Equality is structural, with numbers equal when they have the
same representation and value. The order ranks nodes by their form, then compares values, names and
parts from left to right; it is the order in which the arguments of commutative applications stand.
-/

namespace SymbolicAlgebra.Node

/-- The place of a form among the others. -/
def rank : Node → Nat
  | .number _ => 0
  | .boolean _ => 1
  | .symbol _ => 2
  | .pair _ _ => 3
  | .sequence _ => 4
  | .application _ _ => 5

mutual

/-- Structural equality. -/
def same : Node → Node → Bool
  | .number a, .number b => a.same b
  | .symbol a, .symbol b => a == b
  | .boolean a, .boolean b => a == b
  | .application f xs, .application g ys => f == g && allSame xs ys
  | .pair a b, .pair c d => a.same c && b.same d
  | .sequence xs, .sequence ys => allSame xs ys
  | _, _ => false

def allSame : List Node → List Node → Bool
  | [], [] => true
  | x :: xs, y :: ys => x.same y && allSame xs ys
  | _, _ => false

end

instance : BEq Node := ⟨same⟩

mutual

/-- The canonical order. -/
def order : Node → Node → Ordering
  | .number a, .number b => a.order b
  | .boolean a, .boolean b => compare a b
  | .symbol a, .symbol b => compare a b
  | .pair a b, .pair c d => (a.order c).then (b.order d)
  | .sequence xs, .sequence ys => orderAll xs ys
  | .application f xs, .application g ys => (compare f g).then (orderAll xs ys)
  | a, b => compare a.rank b.rank

/-- Lists compare by their first difference; a proper beginning of a list comes before it. -/
def orderAll : List Node → List Node → Ordering
  | [], [] => .eq
  | [], _ :: _ => .lt
  | _ :: _, [] => .gt
  | x :: xs, y :: ys => (x.order y).then (orderAll xs ys)

end

/-- Puts `node` before the first of `nodes` that is not smaller. -/
def insertOrdered (node : Node) : List Node → List Node
  | [] => [node]
  | other :: rest =>
    if (node.order other).isLE then node :: other :: rest else other :: insertOrdered node rest

/-- Sorts nodes by the canonical order; equal nodes keep their places. -/
def sort : List Node → List Node
  | [] => []
  | node :: rest => insertOrdered node (sort rest)

theorem insertOrdered_perm (node : Node) (nodes : List Node) :
    (insertOrdered node nodes).Perm (node :: nodes) := by
  induction nodes with
  | nil => exact .refl _
  | cons other rest ih =>
    rw [insertOrdered]
    split
    · exact .refl _
    · exact (ih.cons other).trans (.swap node other rest)

theorem sort_perm (nodes : List Node) : (sort nodes).Perm nodes := by
  induction nodes with
  | nil => exact .refl _
  | cons node rest ih => exact (insertOrdered_perm node (sort rest)).trans (ih.cons node)

end SymbolicAlgebra.Node
