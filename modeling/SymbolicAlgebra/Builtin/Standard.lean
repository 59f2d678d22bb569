import SymbolicAlgebra.Builtin.Arithmetic
import SymbolicAlgebra.Builtin.Collection
import SymbolicAlgebra.Builtin.Comparison
import SymbolicAlgebra.Builtin.Logic
import SymbolicAlgebra.Builtin.Statistics
import SymbolicAlgebra.Builtin.Vector
import SymbolicAlgebra.Environment

/-!
The standard operations and keywords, and the environment that has them.
-/

namespace SymbolicAlgebra

namespace Builtin

/-- The keywords of the standard operations, in order. -/
def keywords : List Keyword :=
  [ ⟨":=", "define", .between, .lowest⟩,
    ⟨"del", "del", .before, .lowest⟩,
    ⟨"or", "or", .between, .disjunction⟩,
    ⟨"xor", "xor", .between, .disjunction⟩,
    ⟨"and", "and", .between, .conjunction⟩,
    ⟨"not", "not", .before, .before⟩,
    ⟨"==", "==", .between, .comparison⟩,
    ⟨"!=", "!=", .between, .comparison⟩,
    ⟨"<", "<", .between, .comparison⟩,
    ⟨">", ">", .between, .comparison⟩,
    ⟨"<=", "<=", .between, .comparison⟩,
    ⟨">=", ">=", .between, .comparison⟩,
    ⟨"+", "+", .between, .additive⟩,
    ⟨"-", "-", .between, .additive⟩,
    ⟨"*", "*", .between, .multiplicative⟩,
    ⟨"/", "/", .between, .multiplicative⟩,
    ⟨"%", "%", .between, .multiplicative⟩,
    ⟨"^", "^", .between, .exponent⟩,
    ⟨"!", "!", .after, .after⟩ ]

/-- Adds the core operations, then the keywords whose spelling is new. -/
def installCore (registry : Registry) : Registry :=
  (registry.registerAll (arithmetic ++ comparison ++ logic ++ control)).defineNewKeywords keywords

/-- The registry of all standard operations and keywords. -/
def standard : Registry :=
  (installCore {}).registerAll (collection ++ statistics ++ vector)

end Builtin

/-- The environment with all standard operations. -/
def Environment.standard : Environment :=
  .ofRegistry Builtin.standard

end SymbolicAlgebra
