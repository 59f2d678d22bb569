import SymbolicAlgebra.Proofs.Vocabulary
import SymbolicAlgebra.Simplify

/-! Expressions without effects. Only a few operations touch the environment, and a defer marker puts
simplification off. An expression in which no such name is applied is effect-free, and an action that
asks for nothing but the simplification of effect-free nodes, and survives no failure of it, is quiet.
The effect-free expressions are those of a vocabulary. -/

namespace SymbolicAlgebra

/-- The operations whose handlers change the environment. -/
def effectfulNames : List String :=
  ["define", "del", "set", "random"]

/-- The name has no defer marker and its operations do not change the environment. -/
def EffectFreeName (name : String) : Prop :=
  deferred? name = none ∧ name ∉ effectfulNames

instance (name : String) : Decidable (EffectFreeName name) :=
  inferInstanceAs (Decidable (_ ∧ _))

/-- All symbols, and the names without effects. -/
def Vocabulary.effectFree : Vocabulary where
  symbol _ := True
  name := EffectFreeName

theorem Vocabulary.suits_effectFree : Vocabulary.effectFree.Suits where
  written := by
    show ∀ name ∈ Builtin.writtenNames, EffectFreeName name
    decide
  labels _ _ _ _ _ := trivial

/-- The names of the vocabulary are effect-free, and the standard operations on them keep it. -/
structure Vocabulary.Quiet (V : Vocabulary) : Prop where
  suits : V.Suits
  effectFree : ∀ name, V.name name → EffectFreeName name

namespace Node

/-- Every name that is applied in the node is effect-free. -/
def EffectFree (node : Node) : Prop :=
  ∀ name args, .application name args ∈ node.subterms → EffectFreeName name

theorem effectFree_iff_within {node : Node} : node.EffectFree ↔ node.Within .effectFree := by
  constructor
  · intro h part hpart
    cases part with
    | application name args => exact h name args hpart
    | _ => trivial
  · exact fun h name args hpart => h _ hpart

theorem effectFree_number (value : Number) : (number value).EffectFree :=
  effectFree_iff_within.mpr (within_number value)

theorem effectFree_boolean (value : Bool) : (boolean value).EffectFree :=
  effectFree_iff_within.mpr (within_boolean value)

theorem effectFree_symbol (name : String) : (symbol name).EffectFree :=
  effectFree_iff_within.mpr (within_symbol.mpr trivial)

theorem effectFree_application {name : String} {args : List Node} :
    (application name args).EffectFree ↔ EffectFreeName name ∧ ∀ arg ∈ args, arg.EffectFree := by
  simp only [effectFree_iff_within]
  exact within_application

theorem effectFree_sequence {elements : List Node} :
    (sequence elements).EffectFree ↔ ∀ element ∈ elements, element.EffectFree := by
  simp only [effectFree_iff_within]
  exact within_sequence

theorem effectFree_eq_within : EffectFree = Within .effectFree :=
  funext fun _ => propext effectFree_iff_within

/-- The effect-free nodes are a kind. -/
theorem Kind.effectFree : Kind EffectFree := by
  rw [effectFree_eq_within]
  exact Vocabulary.effectFree.kind

end Node

/-- From effect-free arguments the handler makes effect-free nodes, and it changes nothing. -/
abbrev Operation.Quiet (operation : Operation) : Prop :=
  operation.QuietOn Node.EffectFree

theorem Operation.QuietOn.quiet {operation : Operation} (h : operation.QuietIn .effectFree) :
    operation.Quiet := by
  rw [Quiet, Node.effectFree_eq_within]
  exact h

end SymbolicAlgebra
