import SymbolicAlgebra.Evaluation

/-!
Simplification. One step of it is written relative to the simplifier for whatever lies one level
deeper; `simplifyWithin` ties the knot by the room that is left below the nesting limit.

An application has its arguments simplified and put into canonical form, and goes to the operation
that accepts them; what the handler returns is simplified in turn. A commutative application of more
than two arguments that no handler took is regrouped: pairs of its arguments are folded as long as
that makes them simpler.
-/

namespace SymbolicAlgebra

/-- The character in front of a name that puts off one pass of simplification. -/
def deferMarker : Char := '$'

/-- The name behind a defer marker, where there is one. -/
def deferred? (name : String) : Option String :=
  match name.toList with
  | [] => none
  | c :: rest => if c = deferMarker then some (String.ofList rest) else none

section Step

variable (recur : Simplifier)

/-- Simplifies nodes from left to right, up to the first failure. -/
def simplifyEach : List Node → Evaluation (List Node)
  | [] => return []
  | node :: rest => do
    let simplified ← recur node
    let others ← simplifyEach rest
    return simplified :: others

/-- Runs the operation that a call goes to. There is no result where no operation takes the call or
its handler declines. -/
def invokeWith (name : String) (args : List Node) : Evaluation (Option Node) := do
  match (← Evaluation.registry).resolve name args with
  | some operation => (operation.handler args).run recur
  | none => return none

/-- Two arguments of a list folded into one node that is simpler than their application: the node,
and the other arguments in their order. -/
structure Fold (args : List Node) where
  folded : Node
  others : List Node
  weight_le : folded.complexity + Node.weight others ≤ Node.weight args
  length_eq : others.length + 2 = args.length

theorem Fold.weight_beside {args : List Node} (node : Node) (fold : Fold args) :
    fold.folded.complexity + Node.weight (node :: fold.others) ≤ Node.weight (node :: args) := by
  have := fold.weight_le
  simp only [Node.weight]
  omega

theorem Fold.length_beside {args : List Node} (node : Node) (fold : Fold args) :
    (node :: fold.others).length + 2 = (node :: args).length := by
  rw [List.length_cons, List.length_cons, ← fold.length_eq]

/-- A fold of a list is a fold of the list with one more argument. -/
def Fold.beside {args : List Node} (node : Node) (fold : Fold args) : Fold (node :: args) where
  folded := fold.folded
  others := node :: fold.others
  weight_le := fold.weight_beside node
  length_eq := fold.length_beside node

theorem Fold.weight_besideSecond {first : Node} {args : List Node} (node : Node)
    (fold : Fold (first :: args)) :
    fold.folded.complexity + Node.weight (node :: fold.others) ≤ Node.weight (first :: node :: args) := by
  have := fold.weight_le
  simp only [Node.weight] at this ⊢
  omega

/-- A fold that takes the first argument still does so when one more argument stands behind it. -/
def Fold.besideSecond {first : Node} {args : List Node} (node : Node)
    (fold : Fold (first :: args)) : Fold (first :: node :: args) where
  folded := fold.folded
  others := node :: fold.others
  weight_le := fold.weight_besideSecond node
  length_eq := fold.length_beside node

theorem Fold.weight_ofPair {name : String} {first second folded : Node} (rest : List Node)
    (hlighter : folded.complexity < (Node.application name [first, second]).complexity) :
    folded.complexity + Node.weight rest ≤ Node.weight (first :: second :: rest) := by
  simp only [Node.complexity, Node.weight] at hlighter ⊢
  omega

theorem Fold.length_ofPair (first second : Node) (rest : List Node) :
    rest.length + 2 = (first :: second :: rest).length :=
  rfl

/-- The fold of the first two arguments. -/
def Fold.ofPair {name : String} {first second folded : Node} (rest : List Node)
    (hlighter : folded.complexity < (Node.application name [first, second]).complexity) :
    Fold (first :: second :: rest) where
  folded := folded
  others := rest
  weight_le := Fold.weight_ofPair rest hlighter
  length_eq := Fold.length_ofPair first second rest

/-- Folds `first` with the first of the arguments behind it that makes something simpler. -/
def foldWith (name : String) (first : Node) :
    (args : List Node) → Evaluation (Option (Fold (first :: args)))
  | [] => return none
  | second :: rest => do
    let folded ← recur (.application name [first, second])
    if hlighter : folded.complexity < (Node.application name [first, second]).complexity then
      return some (Fold.ofPair rest hlighter)
    else
      return (← foldWith name first rest).map (Fold.besideSecond second)

/-- Folds the first two arguments, by the place of the former and then of the latter, whose
application simplifies to something simpler. -/
def foldPair (name : String) : (args : List Node) → Evaluation (Option (Fold args))
  | [] => return none
  | first :: rest => do
    match ← foldWith recur name first rest with
    | some fold => return some fold
    | none => return (← foldPair name rest).map (Fold.beside first)

/-- A number that every accepted fold makes smaller: it orders lists by their weight, and lists of
one weight by their length. -/
def regroupMeasure (args : List Node) : Nat :=
  Node.weight args * (Node.weight args + 1) + args.length

theorem regroupMeasure_lt {xs ys : List Node}
    (hless : Node.weight xs < Node.weight ys ∨
      (Node.weight xs ≤ Node.weight ys ∧ xs.length < ys.length)) :
    regroupMeasure xs < regroupMeasure ys := by
  have hbounded := Node.length_le_weight xs
  unfold regroupMeasure
  rcases hless with hlighter | ⟨hheavier, hshorter⟩
  · have hgrown : (Node.weight xs + 1) * (Node.weight xs + 1 + 1)
        ≤ Node.weight ys * (Node.weight ys + 1) :=
      Nat.mul_le_mul hlighter (Nat.succ_le_succ hlighter)
    have hexpanded : (Node.weight xs + 1) * (Node.weight xs + 1 + 1)
        = Node.weight xs * (Node.weight xs + 1) + 2 * (Node.weight xs + 1) := by
      rw [Nat.add_mul, Nat.mul_add]
      omega
    omega
  · have : Node.weight xs * (Node.weight xs + 1) ≤ Node.weight ys * (Node.weight ys + 1) :=
      Nat.mul_le_mul hheavier (Nat.succ_le_succ hheavier)
    omega

/-- The arguments after a fold, in canonical form, are lighter than before, or no heavier and
fewer. -/
theorem Fold.arrange_decreases {args : List Node} (fold : Fold args) (registry : Registry)
    (name : String) :
    let next := arrange registry name (fold.others ++ [fold.folded])
    Node.weight next < Node.weight args ∨
      (Node.weight next ≤ Node.weight args ∧ next.length < args.length) := by
  have hweight := fold.weight_le
  have hlength := fold.length_eq
  have htotal : Node.weight (fold.others ++ [fold.folded])
      = Node.weight fold.others + fold.folded.complexity := by
    simp [Node.weight_append, Node.weight]
  have hcount : (fold.others ++ [fold.folded]).length = fold.others.length + 1 := by simp
  rcases arrange_weight registry name (fold.others ++ [fold.folded]) with ⟨hsame, hkept⟩ | hless
  · right
    constructor <;> omega
  · left
    omega

/-- Folds arguments of a commutative application pair by pair until no pair folds. A single node
that is left is the result. If the list has become shorter than `arity`, the application is offered
to the registry once more, since there may be an operation for its new number of arguments. -/
def regroup (name : String) (arity : Nat) (args : List Node) : Evaluation Node := do
  match ← foldPair recur name args with
  | some fold =>
    if fold.others.isEmpty then return fold.folded
    else
      let registry ← Evaluation.registry
      regroup name arity (arrange registry name (fold.others ++ [fold.folded]))
  | none =>
    if args.length < arity then
      if let some result ← invokeWith recur name args then
        return ← recur result
    return construct (← Evaluation.registry) name args
termination_by regroupMeasure args
decreasing_by exact regroupMeasure_lt (fold.arrange_decreases _ _)

/-- Simplifies an application to arguments that are in the form in which its handler gets them, up to
their order and nesting. -/
def simplifyPrepared (name : String) (args : List Node) : Evaluation Node := do
  let args := arrange (← Evaluation.registry) name args
  if let some result ← invokeWith recur name args then
    return ← recur result
  let node := Node.application name args
  if args.length > 2 && (← Evaluation.registry).isCommutative name then
    let regrouped ← regroup recur name args.length args
    return if regrouped.complexity < node.complexity then regrouped else node
  return node

/-- Simplifies an application. -/
def simplifyApplication (name : String) (args : List Node) : Evaluation Node := do
  if let some unmarked := deferred? name then
    return .application unmarked args
  if (← Evaluation.registry).preservesArguments name then simplifyPrepared recur name args
  else simplifyPrepared recur name (← simplifyEach recur args)

/-- One step of simplification. Numbers, booleans and unbound symbols stay; a bound symbol gives way
to its value; pairs and sequences are simplified part by part. -/
def simplifyStep : Simplifier
  | .number value => return .number value
  | .boolean value => return .boolean value
  | .symbol name => do
    match (← get).get? name with
    | some value => recur value
    | none => return .symbol name
  | .pair first second => do
    let first ← recur first
    let second ← recur second
    return .pair first second
  | .sequence elements => return .sequence (← simplifyEach recur elements)
  | .application name args => simplifyApplication recur name args

end Step

/-- Simplifies a node where `room` more levels of nesting are allowed. -/
def simplifyWithin : (room : Nat) → Simplifier
  | 0, _ => do throw (.recursionLimit (← get).depth)
  | room + 1, node => Evaluation.nested (simplifyStep (simplifyWithin room) node)

/-- Brings a node into its simplest form. -/
def simplify : Simplifier := fun node env =>
  simplifyWithin (env.maxDepth - env.depth) node env

/-- Simplifies nodes from left to right, up to the first failure. -/
def simplifyAll (nodes : List Node) : Evaluation (List Node) :=
  simplifyEach simplify nodes

/-- Runs the operation that a call goes to, if there is one. -/
def invoke (name : String) (args : List Node) : Evaluation (Option Node) :=
  invokeWith simplify name args

/-- Performs an action on the environment. -/
def perform {α : Type} (action : Action Operation α) : Evaluation α :=
  action.run simplify

end SymbolicAlgebra
