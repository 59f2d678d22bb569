import SymbolicAlgebra.Node.Basic

/-!
The plain text of expressions: every application is written as a call, whatever its operation.
-/

namespace SymbolicAlgebra.Node

mutual

def text : Node → String
  | .number value => value.text
  | .symbol name => name
  | .boolean value => if value then "true" else "false"
  | .application name args => name ++ "(" ++ ", ".intercalate (texts args) ++ ")"
  | .pair first second => "(" ++ first.text ++ " : " ++ second.text ++ ")"
  | .sequence elements => "\x7b" ++ ", ".intercalate (texts elements) ++ "\x7d"

def texts : List Node → List String
  | [] => []
  | node :: rest => node.text :: texts rest

end

end SymbolicAlgebra.Node
