import SymbolicAlgebra.Node.Order
import SymbolicAlgebra.Operation.Registry

/-!
Canonical argument lists. The arguments of a commutative application have no order and no nesting of
their own: applications of the same name are inlined, pass by pass, and the result is sorted. Each
pass that changes the list makes it lighter, so the passes end.
-/

namespace SymbolicAlgebra

/-- The arguments that `node` contributes to an application of `name`: its own arguments if it is
such an application, and itself otherwise. -/
def inlined (name : String) : Node → List Node
  | .application inner args => if inner = name then args else [.application inner args]
  | node => [node]

/-- One pass of inlining: every argument that is an application of `name` gives way to its
arguments. -/
def flatten (name : String) (args : List Node) : List Node :=
  args.flatMap (inlined name)

/-- Whether `node` is an application of `name`. -/
def isApplicationOf (name : String) (node : Node) : Bool :=
  node.applied? == some name

/-- Whether a pass of inlining changes the list. -/
def canFlatten (name : String) (args : List Node) : Bool :=
  args.any (isApplicationOf name)

theorem weight_inlined (name : String) (node : Node) :
    Node.weight (inlined name node) + (if isApplicationOf name node then 1 else 0)
      = node.complexity := by
  cases node with
  | application inner args =>
    by_cases hnamed : inner = name
    · simp [inlined, isApplicationOf, Node.applied?, hnamed, Node.complexity, Nat.add_comm]
    · simp [inlined, isApplicationOf, Node.applied?, hnamed, Node.complexity, Node.weight]
  | _ => simp [inlined, isApplicationOf, Node.applied?, Node.weight]

/-- A pass takes away one unit of weight for every application that it inlines. -/
theorem weight_flatten (name : String) (args : List Node) :
    Node.weight (flatten name args) + args.countP (isApplicationOf name) = Node.weight args := by
  induction args with
  | nil => simp [flatten, Node.weight]
  | cons node rest ih =>
    have hhead := weight_inlined name node
    rw [flatten, List.flatMap_cons, Node.weight_append, ← flatten, List.countP_cons, Node.weight]
    omega

theorem weight_flatten_lt {name : String} {args : List Node} (hmore : canFlatten name args) :
    Node.weight (flatten name args) < Node.weight args := by
  have htotal := weight_flatten name args
  have : 0 < args.countP (isApplicationOf name) := by
    rw [List.countP_pos_iff]
    simpa [canFlatten] using hmore
  omega

/-- Inlines applications of `name` until none is left among the arguments. -/
def flattenFully (name : String) (args : List Node) : List Node :=
  if _ : canFlatten name args then flattenFully name (flatten name args) else args
termination_by Node.weight args
decreasing_by exact weight_flatten_lt (by assumption)

/-- The canonical argument list of an application of `name`. Only commutative names have their
arguments rearranged. -/
def arrange (registry : Registry) (name : String) (args : List Node) : List Node :=
  if registry.isCommutative name then Node.sort (flattenFully name args) else args

theorem arrange_of_ordered {registry : Registry} {name : String} (h : ¬registry.isCommutative name)
    (args : List Node) : arrange registry name args = args :=
  if_neg h

/-- The canonical application of `name` to `args`. -/
def construct (registry : Registry) (name : String) (args : List Node) : Node :=
  .application name (arrange registry name args)

/-- Inlining to the end leaves a list as it is or makes it lighter. -/
theorem flattenFully_eq_or_lt (name : String) (args : List Node) :
    flattenFully name args = args ∨ Node.weight (flattenFully name args) < Node.weight args := by
  induction args using flattenFully.induct name with
  | case1 args hmore ih =>
    rw [flattenFully, dif_pos hmore]
    have hlighter := weight_flatten_lt hmore
    rcases ih with hsame | hless
    · right
      rw [hsame]
      exact hlighter
    · right
      exact Nat.lt_trans hless hlighter
  | case2 args hdone =>
    left
    rw [flattenFully, dif_neg hdone]

theorem weight_perm {xs ys : List Node} (hperm : xs.Perm ys) : Node.weight xs = Node.weight ys := by
  induction hperm with
  | nil => rfl
  | cons node _ ih => simp [Node.weight, ih]
  | swap a b rest =>
    simp only [Node.weight]
    omega
  | trans _ _ ihfirst ihsecond => exact ihfirst.trans ihsecond

/-- Arranging a list keeps its weight and length or makes it lighter. -/
theorem arrange_weight (registry : Registry) (name : String) (args : List Node) :
    (Node.weight (arrange registry name args) = Node.weight args ∧
      (arrange registry name args).length = args.length) ∨
    Node.weight (arrange registry name args) < Node.weight args := by
  rw [arrange]
  split
  · have hsorted := Node.sort_perm (flattenFully name args)
    rw [weight_perm hsorted, hsorted.length_eq]
    rcases flattenFully_eq_or_lt name args with hsame | hless
    · left
      rw [hsame]
      exact ⟨rfl, rfl⟩
    · right
      exact hless
  · left
    exact ⟨rfl, rfl⟩

end SymbolicAlgebra
