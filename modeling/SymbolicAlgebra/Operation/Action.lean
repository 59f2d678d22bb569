import SymbolicAlgebra.Node.Basic
import SymbolicAlgebra.Failure

/-!
What a handler does, as data. An action ends with a result or a failure, or asks for one step of the
interpreter and goes on with its answer. Handlers touch the interpreter through these steps alone:
they simplify, look up and change variables and operations, and draw numbers. A handler that saves or
restores a scope, forgets a saved one, goes back to the base scope, changes the nesting limit or defines
a keyword is left out; what is said of every environment, or of arbitrary operations, is not said of one
with such a handler.
-/

namespace SymbolicAlgebra

/-- Actions with results in `α`, where `Op` is the type of the operations that they register. -/
inductive Action (Op α : Type) where
  | done (result : α)
  | fail (failure : Failure)
  /-- Simplify `node`. A failure is handed on too, so that it can be survived. -/
  | simplify (node : Node) (next : Except Failure Node → Action Op α)
  /-- The node that a variable is bound to. -/
  | lookup (name : String) (next : Option Node → Action Op α)
  /-- Bind a variable. -/
  | assign (name : String) (value : Node) (next : Action Op α)
  /-- Unbind a variable; the answer is what it was bound to. -/
  | release (name : String) (next : Option Node → Action Op α)
  | register (operation : Op) (next : Action Op α)
  /-- Remove the operation with this name and signature; the answer is whether there was one. -/
  | remove (name : String) (signature : Signature) (next : Bool → Action Op α)
  /-- Remove all operations of a name; the answer is their number. -/
  | removeAll (name : String) (next : Nat → Action Op α)
  /-- A counter value that was never handed out before. -/
  | fresh (next : Nat → Action Op α)
  /-- A double drawn from zero (included) to one (excluded). -/
  | draw (next : Float → Action Op α)

namespace Action

variable {Op α β : Type}

/-- Runs `first` and goes on with its result. -/
def andThen (first : Action Op α) (next : α → Action Op β) : Action Op β :=
  match first with
  | done result => next result
  | fail failure => fail failure
  | simplify node k => simplify node fun answer => (k answer).andThen next
  | lookup name k => lookup name fun answer => (k answer).andThen next
  | assign name value k => assign name value (k.andThen next)
  | release name k => release name fun answer => (k answer).andThen next
  | register operation k => register operation (k.andThen next)
  | remove name signature k => remove name signature fun answer => (k answer).andThen next
  | removeAll name k => removeAll name fun answer => (k answer).andThen next
  | fresh k => fresh fun answer => (k answer).andThen next
  | draw k => draw fun answer => (k answer).andThen next

instance : Monad (Action Op) where
  pure := done
  bind := andThen

/-- A computation without effects, as an action. -/
def ofExcept : Except Failure α → Action Op α
  | .ok result => done result
  | .error failure => fail failure

instance : MonadLift (Except Failure) (Action Op) := ⟨ofExcept⟩

/-- Simplifies `node` and fails where that fails. -/
def simplified (node : Node) : Action Op Node :=
  simplify node ofExcept

end Action

end SymbolicAlgebra
