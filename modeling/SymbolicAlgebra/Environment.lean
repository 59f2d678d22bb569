import SymbolicAlgebra.Environment.Bindings
import SymbolicAlgebra.Environment.Entropy
import SymbolicAlgebra.Operation.Registry

/-!
The state of the interpreter: the current scope, the scopes saved to come back to, the scope it was
built with, and the nesting of simplification with its limit. Variables and operations are saved and
restored together.
-/

namespace SymbolicAlgebra

/-- What can be defined: variables and operations. -/
structure Scope where
  bindings : Bindings := {}
  registry : Registry := {}

structure Environment where
  current : Scope
  /-- Saved scopes, the most recent first. -/
  snapshots : List Scope := []
  /-- The scope that the environment was built with. -/
  base : Scope
  /-- How many simplifications are under way, one inside the other. -/
  depth : Nat := 0
  /-- How many simplifications may be under way at once. -/
  maxDepth : Nat := 256
  /-- The last counter value that was handed out. The counter has no upper end: the overflow of a 64-bit
  counter is left out. -/
  issued : Nat := 0
  entropy : Entropy := {}

namespace Environment

/-- The environment whose base scope has these operations and no variables. -/
def ofRegistry (registry : Registry) : Environment where
  current := { registry }
  base := { registry }

def registry (env : Environment) : Registry :=
  env.current.registry

def bindings (env : Environment) : Bindings :=
  env.current.bindings

def setRegistry (env : Environment) (registry : Registry) : Environment :=
  { env with current := { env.current with registry } }

def setBindings (env : Environment) (bindings : Bindings) : Environment :=
  { env with current := { env.current with bindings } }

/-- The node that a variable is bound to. -/
def get? (env : Environment) (name : String) : Option Node :=
  env.bindings.get? name

/-- Binds a variable anew. -/
def set (env : Environment) (name : String) (value : Node) : Environment :=
  env.setBindings (env.bindings.set name value)

/-- Unbinds a variable; it has to be bound. -/
def delete (env : Environment) (name : String) : Except Failure (Node × Environment) :=
  match env.get? name with
  | some value => .ok (value, env.setBindings (env.bindings.erase name))
  | none => .error (.undefinedVariable name)

def register (env : Environment) (operation : Operation) : Environment :=
  env.setRegistry (env.registry.register operation)

/-- Saves the current scope. -/
def save (env : Environment) : Environment :=
  { env with snapshots := env.current :: env.snapshots }

/-- Goes back to the scope saved last and forgets it; there may be none. -/
def restore (env : Environment) : Option Environment :=
  match env.snapshots with
  | [] => none
  | scope :: rest => some { env with current := scope, snapshots := rest }

/-- Forgets the scope saved last and keeps the current one; there may be none to forget. -/
def commit (env : Environment) : Option Environment :=
  match env.snapshots with
  | [] => none
  | _ :: rest => some { env with snapshots := rest }

/-- Goes back to the base scope and leaves the saved scopes alone. -/
def restoreToBase (env : Environment) : Environment :=
  { env with current := env.base }

/-- Hands out a counter value that was not handed out before. -/
def fresh (env : Environment) : Nat × Environment :=
  (env.issued + 1, { env with issued := env.issued + 1 })

end Environment

end SymbolicAlgebra
