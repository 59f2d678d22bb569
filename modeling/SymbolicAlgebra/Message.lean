/-!
Messages to whoever runs the interpreter.
-/

namespace SymbolicAlgebra

inductive Severity where
  | info
  | warning
deriving DecidableEq, Repr

structure Message where
  severity : Severity
  text : String
deriving DecidableEq, Repr

namespace Message

/-- A scope was to be restored where none was saved. -/
def nothingToRestore : Message :=
  ⟨.warning, "restore called without a saved scope"⟩

def line (message : Message) : String :=
  match message.severity with
  | .info => "INFO: " ++ message.text
  | .warning => "WARN: " ++ message.text

end Message

end SymbolicAlgebra
