import SymbolicAlgebra.Node.Text
import SymbolicAlgebra.Operation.Basic

/-!
Definitions made by the user: variables, and operations given by a template with parameters. The
template is stored with its parameters renamed to aliases that carry a fresh number, and a call
replaces the aliases by its arguments all at once.
-/

namespace SymbolicAlgebra.Definition

/-- Binds `name` to the simplified `value`. What still mentions `name` after simplification does not
define it. -/
def bindVariable (name : String) (value : Node) : Action Operation Node := do
  let value ← Action.simplified value
  if value.mentions name then
    .fail (.invalidDefinition ("'" ++ name ++ "' is defined in terms of itself"))
  else
    .assign name value (.done value)

/-- The names of a parameter list, all symbols and no two the same; `seen` are those before. -/
def parameterNames (operation : String) (seen : List String) :
    List Node → Except Failure (List String)
  | [] => .ok seen
  | .symbol name :: rest =>
    if seen.contains name then
      .error (.invalidDefinition
        ("parameter '" ++ name ++ "' of '" ++ operation ++ "' is repeated"))
    else parameterNames operation (seen ++ [name]) rest
  | parameter :: _ =>
    .error (.invalidDefinition
      ("parameter '" ++ parameter.text ++ "' of '" ++ operation ++ "' is not a symbol"))

/-- The alias of a parameter with a number of its own. -/
def aliasOf (name : String) (index : Nat) : String :=
  name ++ "#" ++ toString index

/-- A fresh alias for every name, in order. -/
def aliases : List String → Action Operation (List String)
  | [] => .done []
  | name :: rest => .fresh fun index => do
    let others ← aliases rest
    return aliasOf name index :: others

/-- The template with its parameters renamed. -/
def rename (names aliases : List String) (template : Node) : Node :=
  template.substitute fun name => ((names.zip aliases).lookup name).map Node.symbol

/-- The body with its aliases replaced by arguments. -/
def instantiate (aliases : List String) (body : Node) (args : List Node) : Node :=
  body.substitute fun name => (aliases.zip args).lookup name

/-- The operation that replaces a call of `name` by the body on its arguments. -/
def templateOperation (name : String) (aliases : List String) (body : Node) : Operation where
  name := name
  signature := List.replicate aliases.length .any
  handler args := .done (some (instantiate aliases body args))

/-- Defines the operation `name` by a template. It replaces an earlier definition of the same name
and number of parameters. -/
def installOperation (name : String) (parameters : List Node) (template : Node) :
    Action Operation Unit := do
  let names ← parameterNames name [] parameters
  let aliases ← aliases names
  .register (templateOperation name aliases (rename names aliases template)) (.done ())

end SymbolicAlgebra.Definition
