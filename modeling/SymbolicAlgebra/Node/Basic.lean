import SymbolicAlgebra.Number.Basic
import SymbolicAlgebra.Node.Kind

/-!
Expressions. A node is a leaf (a number, a symbol, a boolean) or holds further nodes: an application
of a named operation, a pair, or a sequence. Here are its measures, its subterms, and the ways of
building one node from another. Functions on nodes come with their counterpart on lists of nodes.
-/

namespace SymbolicAlgebra

inductive Node where
  | number (value : Number)
  | symbol (name : String)
  | boolean (value : Bool)
  | application (name : String) (args : List Node)
  | pair (first second : Node)
  | sequence (elements : List Node)

instance : Inhabited Node := ⟨.sequence []⟩

namespace Node

/-- The node of an integer of any size. -/
def integer (value : Int) : Node :=
  .number (.ofInt value)

def real (value : Float) : Node :=
  .number (.real value)

def kind : Node → Kind
  | .number (.real _) => .real
  | .number _ => .integer
  | .symbol _ => .symbol
  | .boolean _ => .boolean
  | .application _ _ => .application
  | .pair _ _ => .pair
  | .sequence _ => .sequence

/-- The number that a node is. -/
def number? : Node → Option Number
  | .number value => some value
  | _ => none

/-- The name that an application carries. -/
def applied? : Node → Option String
  | .application name _ => some name
  | _ => none

mutual

/-- The number of nodes in the tree: one for a leaf, and one more than its parts for the rest. -/
def complexity : Node → Nat
  | .number _ => 1
  | .symbol _ => 1
  | .boolean _ => 1
  | .application _ args => 1 + weight args
  | .pair first second => 1 + first.complexity + second.complexity
  | .sequence elements => 1 + weight elements

/-- The complexity of all nodes of a list together. -/
def weight : List Node → Nat
  | [] => 0
  | node :: rest => node.complexity + weight rest

end

mutual

/-- Whether no symbol and no application occurs in the node. -/
def isGround : Node → Bool
  | .number _ => true
  | .boolean _ => true
  | .symbol _ => false
  | .application _ _ => false
  | .pair first second => first.isGround && second.isGround
  | .sequence elements => allGround elements

def allGround : List Node → Bool
  | [] => true
  | node :: rest => node.isGround && allGround rest

end

mutual

/-- The node and then all its descendants, each before its own parts, from left to right. -/
def subterms : Node → List Node
  | .application name args => .application name args :: allSubterms args
  | .pair first second => .pair first second :: (first.subterms ++ second.subterms)
  | .sequence elements => .sequence elements :: allSubterms elements
  | leaf => [leaf]

def allSubterms : List Node → List Node
  | [] => []
  | node :: rest => node.subterms ++ allSubterms rest

end

mutual

/-- Rebuilds the tree from the leaves up, handing every node to `replace` after its parts have been
rebuilt. What `replace` returns is not looked into again. -/
def replacingM {m : Type → Type} [Monad m] (replace : Node → m Node) : Node → m Node
  | .application name args => do
    let args ← replacingAllM replace args
    replace (.application name args)
  | .pair first second => do
    let first ← first.replacingM replace
    let second ← second.replacingM replace
    replace (.pair first second)
  | .sequence elements => do
    let elements ← replacingAllM replace elements
    replace (.sequence elements)
  | leaf => replace leaf

def replacingAllM {m : Type → Type} [Monad m] (replace : Node → m Node) :
    List Node → m (List Node)
  | [] => return []
  | node :: rest => do
    let node ← node.replacingM replace
    let rest ← replacingAllM replace rest
    return node :: rest

end

mutual

/-- Replaces all symbols at once by the nodes that `image` gives for them; a symbol without an image
stays. Nothing inside an image is replaced. -/
def substitute (image : String → Option Node) : Node → Node
  | .number value => .number value
  | .symbol name => (image name).getD (.symbol name)
  | .boolean value => .boolean value
  | .application name args => .application name (substituteAll image args)
  | .pair first second => .pair (first.substitute image) (second.substitute image)
  | .sequence elements => .sequence (substituteAll image elements)

def substituteAll (image : String → Option Node) : List Node → List Node
  | [] => []
  | node :: rest => node.substitute image :: substituteAll image rest

end

mutual

/-- Whether the symbol `name` occurs in the node. Names of applications are not symbols. -/
def mentions (name : String) : Node → Bool
  | .number _ => false
  | .symbol other => other == name
  | .boolean _ => false
  | .application _ args => anyMentions name args
  | .pair first second => first.mentions name || second.mentions name
  | .sequence elements => anyMentions name elements

def anyMentions (name : String) : List Node → Bool
  | [] => false
  | node :: rest => node.mentions name || anyMentions name rest

end

theorem weight_append (xs ys : List Node) : weight (xs ++ ys) = weight xs + weight ys := by
  induction xs with
  | nil => simp [weight]
  | cons x xs ih => simp [weight, ih, Nat.add_assoc]

theorem complexity_pos (node : Node) : 0 < node.complexity := by
  cases node <;> (rw [complexity]; omega)

theorem length_le_weight (nodes : List Node) : nodes.length ≤ weight nodes := by
  induction nodes with
  | nil => simp [weight]
  | cons node rest ih =>
    have := node.complexity_pos
    simp only [List.length_cons, weight]
    omega

end Node

end SymbolicAlgebra
