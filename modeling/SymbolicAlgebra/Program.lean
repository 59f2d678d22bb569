import SymbolicAlgebra.Builtin.Standard
import SymbolicAlgebra.Message
import SymbolicAlgebra.Render
import SymbolicAlgebra.Simplify

/-!
Programs: statements run one after the other as a transaction. A run saves the current scope, starts
from it or from the base scope, simplifies every statement up to the first failure, and then treats
the definitions that were made as the program's retention asks, also after a failure.

Applications named `print` and `println` are output: no operation has these names, and each that is
found in a result adds its arguments to the printed text.
-/

namespace SymbolicAlgebra

/-- The scope that a program starts from. -/
inductive ScopePolicy where
  | useCurrent
  | useBase
deriving DecidableEq, Repr

/-- What becomes of the definitions that a program makes. -/
inductive RetentionPolicy where
  /-- They are dropped, and the scope is again what it was before. -/
  | restore
  /-- Everything is dropped, and the scope is the base scope. -/
  | restoreToBase
  /-- They are kept. -/
  | preserveAll
deriving DecidableEq, Repr

structure Configuration where
  /-- Whether statements and output are reported as messages. -/
  verbose : Bool := false
  scope : ScopePolicy := .useCurrent
  retention : RetentionPolicy := .restore
  /-- The nesting limit during the run. -/
  maxDepth : Nat := 256
deriving DecidableEq, Repr

/-- A statement that was run, and what it simplified to. -/
structure Log where
  input : Node
  output : Node

def Log.text (log : Log) : String :=
  ">>> " ++ log.input.text ++ "\n    " ++ log.output.text

/-- What a run has brought about: the statements that were completed, what they printed, and the
failure that ended the run, if one did. -/
structure Execution where
  logs : List Log := []
  printed : String := ""
  failure : Option Failure := none

structure Program where
  statements : List Node
  configuration : Configuration := {}

namespace Program

/-- The text that one node prints by itself. -/
def printedBy (registry : Registry) : Node → String
  | .application name args =>
    if name = "print" then String.join (renderAll registry args)
    else if name = "println" then
      String.join ((renderAll registry args).map (· ++ "\n"))
    else ""
  | _ => ""

/-- The text that a result prints, all its parts included. -/
def printedText (registry : Registry) (node : Node) : String :=
  String.join (node.subterms.map (printedBy registry))

/-- Runs statements up to the first failure. Output is rendered with the operators that are defined
right after its statement. -/
def execute : List Node → Environment → Execution × Environment
  | [], env => ({}, env)
  | statement :: rest, env =>
    match simplify statement env with
    | (.error failure, after) => ({ failure := some failure }, after)
    | (.ok output, after) =>
      let (others, final) := execute rest after
      ({ others with
          logs := ⟨statement, output⟩ :: others.logs
          printed := printedText after.registry output ++ others.printed }, final)

/-- The environment in which the statements start. -/
def enter (configuration : Configuration) (env : Environment) : Environment :=
  let saved := { env with maxDepth := configuration.maxDepth }.save
  match configuration.scope with
  | .useCurrent => saved
  | .useBase => saved.restoreToBase

/-- The environment after the run, from the one in which the statements ended. -/
def leave (configuration : Configuration) (maxDepth : Nat) (env : Environment) : Environment :=
  let settled := match configuration.retention with
    | .restore => env.restore.getD env
    | .restoreToBase => (env.commit.getD env).restoreToBase
    | .preserveAll => env.commit.getD env
  { settled with maxDepth }

/-- Runs a program. -/
def run (program : Program) (env : Environment) : Execution × Environment :=
  let configuration := program.configuration
  let (execution, ended) := execute program.statements (enter configuration env)
  (execution, leave configuration env.maxDepth ended)

/-- The messages of a run: with a verbose configuration one for every completed statement and, unless
the run failed, one for the printed text. -/
def messages (program : Program) (execution : Execution) : List Message :=
  if program.configuration.verbose then
    execution.logs.map (fun log => ⟨.info, log.text⟩)
      ++ if execution.failure.isNone then
          [⟨.info, "program output:\n" ++ execution.printed⟩]
        else []
  else []

end Program

/-- Runs statements as one program in a fresh standard environment. -/
def evaluate (statements : List Node) : Execution :=
  (Program.run { statements } Environment.standard).1

end SymbolicAlgebra
