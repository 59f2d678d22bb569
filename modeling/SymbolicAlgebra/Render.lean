import SymbolicAlgebra.Environment
import SymbolicAlgebra.Node.Text
import SymbolicAlgebra.Text.Alphanumeric

/-!
Rendering: the text of expressions with the operators of a registry, and parentheses only where
precedence asks for them. An application without an operator is written as a call.
-/

namespace SymbolicAlgebra

namespace Render

/-- Whether the operand at `position` of an application of `parent` stands in parentheses. It does
when it binds looser than its parent. Where both bind alike it does when it has one operand itself,
and, right of the first position, under a parent that is not commutative in both directions or has
another name. -/
def needsParentheses (registry : Registry) (parent : String) (position : Nat) : Node → Bool
  | .application name args =>
    match registry.writing? name, registry.writing? parent with
    | some inner, some outer =>
      if inner.precedence ≠ outer.precedence then inner.precedence < outer.precedence
      else if args.length = 1 then true
      else if position = 0 then false
      else if registry.isForwardCommutative parent then true
      else if registry.isCommutative parent then name ≠ parent
      else true
    | _, _ => false
  | _ => false

/-- The operands of an application of `parent`, from the texts of the arguments at the positions from
`position` on. -/
def operands (registry : Registry) (parent : String) (position : Nat) :
    List Node → List String → List String
  | arg :: args, text :: texts =>
    (if needsParentheses registry parent position arg then "(" ++ text ++ ")" else text)
      :: operands registry parent (position + 1) args texts
  | _, _ => []

/-- An application written as a call. -/
def call (name : String) (texts : List String) : String :=
  name ++ "(" ++ ", ".intercalate texts ++ ")"

/-- The text of an application, from the texts of its arguments. A space stands around an operator
between operands, and between an operator that is a word and the one operand that it is declared to
stand before or after. An operator that is declared to stand between operands is written right in front
of a single one, also where it is a word. -/
def application (registry : Registry) (name : String) (args : List Node) (texts : List String) :
    String :=
  match registry.writing? name with
  | none => call name texts
  | some keyword =>
    let symbol := keyword.symbol
    let space := if symbol.toList.all Text.isAlphanumeric then " " else ""
    match keyword.fixity, operands registry name 0 args texts with
    | .between, [operand] => symbol ++ operand
    | .between, first :: second :: rest =>
      if rest.isEmpty || registry.isCommutative name then
        (" " ++ symbol ++ " ").intercalate (first :: second :: rest)
      else call name texts
    | .before, [operand] => symbol ++ space ++ operand
    | .after, [operand] => operand ++ space ++ symbol
    | _, _ => call name texts

end Render

mutual

/-- The text of a node, written as the registry declares. -/
def render (registry : Registry) : Node → String
  | .pair first second => "(" ++ render registry first ++ " : " ++ render registry second ++ ")"
  | .sequence elements => "\x7b" ++ ", ".intercalate (renderAll registry elements) ++ "\x7d"
  | .application name args => Render.application registry name args (renderAll registry args)
  | leaf => leaf.text

def renderAll (registry : Registry) : List Node → List String
  | [] => []
  | node :: rest => render registry node :: renderAll registry rest

end

section Forms

variable (registry : Registry)

theorem render_pair (first second : Node) : render registry (.pair first second) =
    "(" ++ render registry first ++ " : " ++ render registry second ++ ")" :=
  rfl

theorem render_sequence (elements : List Node) : render registry (.sequence elements) =
    "\x7b" ++ ", ".intercalate (renderAll registry elements) ++ "\x7d" :=
  rfl

theorem render_application (name : String) (args : List Node) : render registry (.application name args) =
    Render.application registry name args (renderAll registry args) :=
  rfl

theorem renderAll_eq_map (nodes : List Node) : renderAll registry nodes = nodes.map (render registry) := by
  induction nodes with
  | nil => rfl
  | cons node rest ih => rw [renderAll, ih, List.map_cons]

end Forms

/-- The text of a node, written as the current registry declares. -/
def Environment.render (env : Environment) (node : Node) : String :=
  SymbolicAlgebra.render env.registry node

end SymbolicAlgebra
