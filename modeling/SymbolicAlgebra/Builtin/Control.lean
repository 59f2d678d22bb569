import SymbolicAlgebra.Definition
import SymbolicAlgebra.Node.Access
import SymbolicAlgebra.Guard

/-!
Definitions, control and reductions: `define`, `del`, `if`, `exec`, `repeat`, `random`, `set`,
`sum`, `mean` and `avg`.
-/

namespace SymbolicAlgebra.Builtin

/-- The call `define(f(x, ...), template)` installs an operation and gives the symbol `f`. -/
def defineOperation (head template : Node) : Action Operation (Option Node) := do
  let (name, parameters) ← head.asApplication
  Definition.installOperation name parameters template
  return some (.symbol name)

/-- The call `define(x, value)` binds `x` and gives the value bound. -/
def defineVariable (head value : Node) : Action Operation (Option Node) := do
  let name ← head.asSymbol
  return some (← Definition.bindVariable name value)

/-- The call `del(x)` removes the binding of `x` and all operations named `x`, and gives the symbol.
There has to be one or the other. -/
def delete (head : Node) : Action Operation (Option Node) := do
  let name ← head.asSymbol
  .removeAll name fun removed => .release name fun value =>
    if value.isNone && removed == 0 then .fail (.undefinedVariable name)
    else .done (some (.symbol name))

/-- The call `if(condition, then, else)` chooses a branch once the condition has become a boolean.
The branches are left as they are. -/
def branch (condition ifTrue ifFalse : Node) : Action Operation (Option Node) := do
  match ← Action.simplified condition with
  | .boolean true => return some ifTrue
  | .boolean false => return some ifFalse
  | _ => return none

/-- The call `repeat(node, n)` gives a sequence of `n` copies. -/
def repeated (node times : Node) : Action Operation (Option Node) := do
  let times ← times.asInteger
  if times < 0 then
    .fail (.invalidArgument ("cannot repeat " ++ toString times.toInt ++ " times"))
  else return some (.sequence (List.replicate times.toInt.toNat node))

/-- The call `random()` draws from zero to one. -/
def random : Action Operation (Option Node) :=
  .draw fun value => .done (some (.real value))

/-- The point of the interval from `lower` to `upper` that a draw from zero to one stands for. -/
def scaleDraw (lower upper value : Float) : Float :=
  let point := value * (upper - lower) + lower
  if point > upper then upper else point

/-- The call `random(lower, upper)` draws from the closed interval between two finite bounds. -/
def randomBetween (lower upper : Node) : Action Operation (Option Node) := do
  let lower ← lower.asReal
  let upper ← upper.asReal
  Guard.domain lower (-Double.greatest) Double.greatest
  Guard.domain upper (-Double.greatest) Double.greatest
  Guard.range lower upper
  .draw fun value => .done (some (.real (scaleDraw lower upper value)))

/-- The call `set(xs, i, value)` replaces an element of the sequence bound to `xs` and gives the
sequence, which is looked up after the index and the value have been simplified. -/
def setElement (head index value : Node) : Action Operation (Option Node) := do
  let name ← head.asSymbol
  let index ← Action.simplified index
  let index ← index.asInteger
  let value ← Action.simplified value
  .lookup name fun
    | none => .fail (.undefinedVariable name)
    | some bound => do
      let bound ← Action.simplified bound
      let elements ← bound.asSequence
      let position ← Guard.index index.toInt elements.length
      let updated := Node.sequence (elements.set position value)
      .assign name updated (.done (some updated))

/-- The sum of terms as an application of `+`, where there is more than one. -/
def sum : List Node → Node
  | [] => .integer 0
  | [term] => term
  | terms => .application "+" terms

/-- The mean of terms as their sum divided by their number. -/
def mean (terms : List Node) : Except Failure Node :=
  if terms.isEmpty then .error (.invalidArgument "mean of an empty list")
  else do
    let count ← Guard.length terms.length
    return .application "/" [sum terms, .number (.small count)]

/-- The two operations of a reduction: on the elements of one sequence, and on any arguments. -/
def reduction (name : String) (reduce : List Node → Except Failure (Option Node)) :
    List Operation :=
  [ Operation.unary name .sequence fun list => do
      let elements ← list.asSequence
      reduce elements,
    Operation.universal name fun args => reduce args ]

def control : List Operation :=
  [ (Operation.binary "define" .application .any defineOperation).preservingArguments,
    (Operation.binary "define" .symbol .any defineVariable).preservingArguments,
    (Operation.universal "define" fun args =>
      .fail (.invalidDefinition
        ("cannot define " ++ toString args.length ++ " argument(s)"))).preservingArguments,
    (Operation.unary "del" .symbol delete).preservingArguments,
    (Operation.ternary "if" .any .any .any branch).preservingArguments,
    Operation.universal "exec" fun args => .done (some (.sequence args)),
    Operation.binary "repeat" .any .integer repeated,
    Operation.nullary "random" random,
    Operation.binary "random" .number .number randomBetween,
    (Operation.ternary "set" .symbol .any .any setElement).preservingArguments ]
  ++ reduction "sum" (fun terms => .ok (some (sum terms)))
  ++ reduction "mean" (fun terms => (mean terms).map some)
  ++ reduction "avg" (fun terms => (mean terms).map some)

end SymbolicAlgebra.Builtin
