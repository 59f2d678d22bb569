import SymbolicAlgebra.Canonical
import SymbolicAlgebra.Environment

/-!
Computations in an environment. They change the environment also when they fail: what was defined
before a failure stays defined. Handlers are run here, relative to the simplifier that they call.
-/

namespace SymbolicAlgebra

/-- A computation that reads and changes the environment and may fail. -/
abbrev Evaluation (α : Type) := ExceptT Failure (StateM Environment) α

/-- A simplifier: what a node becomes. -/
abbrev Simplifier := Node → Evaluation Node

namespace Evaluation

/-- Runs a computation: its outcome and the environment after it. -/
def runIn {α : Type} (computation : Evaluation α) (env : Environment) :
    Except Failure α × Environment :=
  computation env

/-- Runs `inner` one level deeper and comes back up whatever its outcome. -/
def nested {α : Type} (inner : Evaluation α) : Evaluation α := fun env =>
  let (outcome, after) := inner { env with depth := env.depth + 1 }
  (outcome, { after with depth := after.depth - 1 })

def registry : Evaluation Registry :=
  return (← get).registry

end Evaluation

/-- Runs the action of a handler, with `recur` as the simplifier that it calls. -/
def Action.run {α : Type} (recur : Simplifier) : Action Operation α → Evaluation α
  | .done result => pure result
  | .fail failure => throw failure
  | .simplify node next => fun env =>
    match recur node env with
    | (answer, after) => (next answer).run recur after
  | .lookup name next => do
    (next ((← get).get? name)).run recur
  | .assign name value next => do
    modify (·.set name value)
    next.run recur
  | .release name next => fun env =>
    match env.delete name with
    | .ok (value, after) => (next (some value)).run recur after
    | .error _ => (next none).run recur env
  | .register operation next => do
    modify (·.register operation)
    next.run recur
  | .remove name signature next => fun env =>
    let (removed, registry) := env.registry.remove name signature
    (next removed).run recur (env.setRegistry registry)
  | .removeAll name next => fun env =>
    let (count, registry) := env.registry.removeAll name
    (next count).run recur (env.setRegistry registry)
  | .fresh next => fun env =>
    let (index, after) := env.fresh
    (next index).run recur after
  | .draw next => fun env =>
    let (value, entropy) := env.entropy.draw
    (next value).run recur { env with entropy }

end SymbolicAlgebra
