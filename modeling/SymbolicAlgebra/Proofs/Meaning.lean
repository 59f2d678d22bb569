import Mathlib.Algebra.BigOperators.Group.List.Basic
import Mathlib.Data.List.Forall2
import SymbolicAlgebra.Proofs.Integers
import SymbolicAlgebra.Proofs.Order

/-! Integer and boolean expressions and what they mean. Under an assignment of integers and booleans to
the symbols every typed expression has a value, computed with exact integers. The operators of one
argument list without an order of its own are chains: their value does not change when arguments are
exchanged or an inner application of the same operator is inlined. -/

namespace SymbolicAlgebra

inductive ValueType where
  | integer
  | boolean
deriving DecidableEq

inductive Value where
  | integer (value : Int)
  | boolean (value : Bool)
deriving DecidableEq

namespace Value

def type : Value → ValueType
  | .integer _ => .integer
  | .boolean _ => .boolean

/-- The integer that a value is; zero stands in for a boolean. -/
def toInt : Value → Int
  | .integer value => value
  | .boolean _ => 0

/-- The boolean that a value is; false stands in for an integer. -/
def toBool : Value → Bool
  | .integer _ => false
  | .boolean value => value

/-- The value of an operator, with zero where the operator or its number of arguments is unknown. -/
def apply (name : String) (values : List Value) : Value :=
  match name, values with
  | "+", values => .integer (values.map toInt).sum
  | "*", values => .integer (values.map toInt).prod
  | "and", values => .boolean (values.all toBool)
  | "or", values => .boolean (values.any toBool)
  | "-", [a, b] => .integer (a.toInt - b.toInt)
  | "negate", [a] => .integer (-a.toInt)
  | "^", [a, b] => .integer (a.toInt ^ b.toInt.toNat)
  | "xor", [a, b] => .boolean (a.toBool ^^ b.toBool)
  | "not", [a] => .boolean !a.toBool
  | "<", [a, b] => .boolean (a.toInt < b.toInt)
  | ">", [a, b] => .boolean (b.toInt < a.toInt)
  | "<=", [a, b] => .boolean (a.toInt ≤ b.toInt)
  | ">=", [a, b] => .boolean (b.toInt ≤ a.toInt)
  | "==", [a, b] => .boolean (a = b)
  | "!=", [a, b] => .boolean (a ≠ b)
  | _, _ => .integer 0

end Value

mutual

/-- The value of an expression. -/
def meaning (ρ : String → Value) : Node → Value
  | .number a => .integer (a.toInt?.getD 0)
  | .boolean p => .boolean p
  | .symbol name => ρ name
  | .application name args => .apply name (meanings ρ args)
  | .pair _ _ => .integer 0
  | .sequence _ => .integer 0

def meanings (ρ : String → Value) : List Node → List Value
  | [] => []
  | node :: rest => meaning ρ node :: meanings ρ rest

end

theorem meanings_eq_map (ρ : String → Value) (nodes : List Node) :
    meanings ρ nodes = nodes.map (meaning ρ) := by
  induction nodes with
  | nil => rfl
  | cons node rest ih => rw [meanings, ih, List.map_cons]

theorem meaning_application (ρ : String → Value) (name : String) (args : List Node) :
    meaning ρ (.application name args) = .apply name (args.map (meaning ρ)) := by
  rw [meaning, meanings_eq_map]

/-! ### Typed expressions -/

/-- The operators of two or more arguments, each with the type of its arguments and its value. -/
def chainTypes : List (String × ValueType) :=
  [("+", .integer), ("*", .integer), ("and", .boolean), ("or", .boolean)]

/-- The operators of one argument, each with the type of its argument and its value. -/
def unaryTypes : List (String × ValueType) :=
  [("negate", .integer), ("not", .boolean)]

/-- The operators of two arguments, each with the type of both arguments and that of its value. -/
def binaryTypes : List (String × ValueType × ValueType) :=
  [("-", .integer, .integer), ("xor", .boolean, .boolean),
    ("<", .integer, .boolean), (">", .integer, .boolean), ("<=", .integer, .boolean),
    (">=", .integer, .boolean), ("==", .integer, .boolean), ("==", .boolean, .boolean),
    ("!=", .integer, .boolean), ("!=", .boolean, .boolean)]

/-- Typed expressions, where `Γ` gives the types of the symbols. With `normal`, integer literals are in
their normal representation. -/
inductive Typed (normal : Bool) (Γ : String → ValueType) : Node → ValueType → Prop
  | integer {a : Number} {x : Int} : a.toInt? = some x → (normal → a = .ofInt x) →
      Typed normal Γ (.number a) .integer
  | boolean (p : Bool) : Typed normal Γ (.boolean p) .boolean
  | symbol {name : String} {τ : ValueType} : Γ name = τ → Typed normal Γ (.symbol name) τ
  | chain {name : String} {args : List Node} {τ : ValueType} : (name, τ) ∈ chainTypes →
      2 ≤ args.length → (∀ arg ∈ args, Typed normal Γ arg τ) → Typed normal Γ (.application name args) τ
  | unary {name : String} {arg : Node} {τ : ValueType} : (name, τ) ∈ unaryTypes →
      Typed normal Γ arg τ → Typed normal Γ (.application name [arg]) τ
  | binary {name : String} {a b : Node} {σ τ : ValueType} : (name, σ, τ) ∈ binaryTypes →
      Typed normal Γ a σ → Typed normal Γ b σ → Typed normal Γ (.application name [a, b]) τ
  | power {name : String} {base : Node} {exponent : Int64} : name = "^" →
      Typed normal Γ base .integer → 0 ≤ exponent.toInt → exponent.toInt < 2 ^ 32 →
      Typed normal Γ (.application name [base, .number (.small exponent)]) .integer

/-- The node is a number or a boolean. -/
def Node.IsValue (node : Node) : Prop :=
  (∃ a, node = .number a) ∨ ∃ p, node = .boolean p

/-- The literals of a value. -/
inductive IsLiteral (normal : Bool) : Node → Value → Prop
  | integer {a : Number} {x : Int} : a.toInt? = some x → (normal → a = .ofInt x) →
      IsLiteral normal (.number a) (.integer x)
  | boolean (p : Bool) : IsLiteral normal (.boolean p) (.boolean p)

/-! ### Chains -/

section Chain

variable {name : String} {τ : ValueType} (hchain : (name, τ) ∈ chainTypes)
include hchain

theorem chain_cases :
    name = "+" ∧ τ = .integer ∨ name = "*" ∧ τ = .integer ∨ name = "and" ∧ τ = .boolean ∨
      name = "or" ∧ τ = .boolean := by
  simpa [chainTypes] using hchain

namespace Value

/-- The arguments of a chain may be taken together in two groups. -/
theorem apply_append (us vs : List Value) :
    apply name (us ++ vs) = apply name [apply name us, apply name vs] := by
  rcases chain_cases hchain with ⟨rfl, rfl⟩ | ⟨rfl, rfl⟩ | ⟨rfl, rfl⟩ | ⟨rfl, rfl⟩
  · simp [apply, toInt]
  · simp [apply, toInt]
  · simp [apply, toBool]
  · simp [apply, toBool]

theorem apply_apply (us : List Value) : apply name [apply name us] = apply name us := by
  rcases chain_cases hchain with ⟨rfl, rfl⟩ | ⟨rfl, rfl⟩ | ⟨rfl, rfl⟩ | ⟨rfl, rfl⟩
  · simp [apply, toInt]
  · simp [apply, toInt]
  · simp [apply, toBool]
  · simp [apply, toBool]

theorem apply_perm {us vs : List Value} (hperm : us.Perm vs) : apply name us = apply name vs := by
  rcases chain_cases hchain with ⟨rfl, rfl⟩ | ⟨rfl, rfl⟩ | ⟨rfl, rfl⟩ | ⟨rfl, rfl⟩
  · exact congrArg integer (hperm.map toInt).sum_eq
  · exact congrArg integer (hperm.map toInt).prod_eq
  · exact congrArg boolean hperm.all_eq
  · exact congrArg boolean hperm.any_eq

end Value

variable (ρ : String → Value)

theorem apply_inlined (node : Node) :
    Value.apply name ((inlined name node).map (meaning ρ)) = Value.apply name [meaning ρ node] := by
  rcases inlined_cases name node with ⟨args, rfl, hinlined⟩ | ⟨_, hinlined⟩
  · rw [hinlined, meaning_application, Value.apply_apply hchain]
  · rw [hinlined, List.map_singleton]

/-- Inlining changes no value. -/
theorem meaning_flatten (args : List Node) :
    meaning ρ (.application name (flatten name args)) = meaning ρ (.application name args) := by
  rw [meaning_application, meaning_application]
  induction args with
  | nil => rfl
  | cons node rest ih =>
      calc
        Value.apply name ((flatten name (node :: rest)).map (meaning ρ))
        _ = Value.apply name ((inlined name node).map (meaning ρ) ++ (flatten name rest).map (meaning ρ)) := by
          rw [flatten, List.flatMap_cons, List.map_append]
          rfl
        _ = Value.apply name [Value.apply name [meaning ρ node], Value.apply name (rest.map (meaning ρ))] := by
          rw [Value.apply_append hchain, apply_inlined hchain, ih]
        _ = Value.apply name ([meaning ρ node] ++ rest.map (meaning ρ)) :=
          (Value.apply_append hchain _ _).symm

theorem meaning_flattenFully (args : List Node) :
    meaning ρ (.application name (flattenFully name args)) = meaning ρ (.application name args) := by
  induction args using flattenFully.induct name with
  | case1 args more ih => rw [flattenFully, dif_pos more, ih, meaning_flatten hchain]
  | case2 args done => rw [flattenFully, dif_neg done]

/-- The order of arguments changes no value. -/
theorem meaning_perm {xs ys : List Node} (hperm : xs.Perm ys) :
    meaning ρ (.application name xs) = meaning ρ (.application name ys) := by
  rw [meaning_application, meaning_application]
  exact Value.apply_perm hchain (hperm.map _)

/-- Two arguments may give way to one that has the value of their application. -/
theorem meaning_fold {first second folded : Node} {args others : List Node}
    (hperm : args.Perm (first :: second :: others))
    (hfolded : meaning ρ folded = meaning ρ (.application name [first, second])) :
    meaning ρ (.application name (others ++ [folded])) = meaning ρ (.application name args) := by
  have hpair : Value.apply name [meaning ρ folded] =
      Value.apply name ([first, second].map (meaning ρ)) := by
    rw [hfolded, meaning_application, Value.apply_apply hchain]
  calc
    meaning ρ (.application name (others ++ [folded]))
    _ = meaning ρ (.application name ([folded] ++ others)) := meaning_perm hchain ρ List.perm_append_comm
    _ = Value.apply name [Value.apply name [meaning ρ folded], Value.apply name (others.map (meaning ρ))] := by
      rw [meaning_application, List.map_append, Value.apply_append hchain]
      rfl
    _ = Value.apply name ([first, second].map (meaning ρ) ++ others.map (meaning ρ)) := by
      rw [hpair, ← Value.apply_append hchain]
    _ = meaning ρ (.application name args) := by
      rw [meaning_perm hchain ρ hperm, meaning_application]
      rfl

variable {normal : Bool} {Γ : String → ValueType}

theorem Typed.of_chain {args : List Node} {σ : ValueType}
    (h : Typed normal Γ (.application name args) σ) :
    σ = τ ∧ 2 ≤ args.length ∧ ∀ arg ∈ args, Typed normal Γ arg τ := by
  cases h with
  | chain hname hlength hargs =>
      have hsame : σ = τ := by
        rcases chain_cases hchain with ⟨rfl, rfl⟩ | ⟨rfl, rfl⟩ | ⟨rfl, rfl⟩ | ⟨rfl, rfl⟩ <;>
          simpa [chainTypes] using hname
      exact ⟨hsame, hlength, hsame ▸ hargs⟩
  | unary hname _ =>
      rcases chain_cases hchain with ⟨rfl, rfl⟩ | ⟨rfl, rfl⟩ | ⟨rfl, rfl⟩ | ⟨rfl, rfl⟩ <;>
        simp [unaryTypes] at hname
  | binary hname _ _ =>
      rcases chain_cases hchain with ⟨rfl, rfl⟩ | ⟨rfl, rfl⟩ | ⟨rfl, rfl⟩ | ⟨rfl, rfl⟩ <;>
        simp [binaryTypes] at hname
  | power hname _ _ _ =>
      rcases chain_cases hchain with ⟨rfl, rfl⟩ | ⟨rfl, rfl⟩ | ⟨rfl, rfl⟩ | ⟨rfl, rfl⟩ <;>
        simp at hname

/-- Inlining keeps a chain typed: an argument that is inlined has arguments of the same type itself. -/
theorem typed_flatten {args : List Node} (hargs : ∀ arg ∈ args, Typed normal Γ arg τ) :
    args.length ≤ (flatten name args).length ∧ ∀ arg ∈ flatten name args, Typed normal Γ arg τ := by
  have hinlined {node : Node} (hnode : Typed normal Γ node τ) :
      1 ≤ (inlined name node).length ∧ ∀ arg ∈ inlined name node, Typed normal Γ arg τ := by
    rcases inlined_cases name node with ⟨args, rfl, hinlined⟩ | ⟨_, hinlined⟩
    · obtain ⟨_, hlength, hparts⟩ := Typed.of_chain hchain hnode
      rw [hinlined]
      exact ⟨by omega, hparts⟩
    · rw [hinlined]
      exact ⟨Nat.le_refl 1, List.forall_mem_singleton.mpr hnode⟩
  induction args with
  | nil => exact ⟨Nat.le_refl 0, hargs⟩
  | cons node rest ih =>
      rw [List.forall_mem_cons] at hargs
      obtain ⟨hlength, hnode⟩ := hinlined hargs.1
      obtain ⟨hlengths, hrest⟩ := ih hargs.2
      rw [flatten, List.flatMap_cons, ← flatten, List.length_append, List.length_cons,
        List.forall_mem_append]
      exact ⟨by omega, hnode, hrest⟩

theorem typed_flattenFully {args : List Node} (hargs : ∀ arg ∈ args, Typed normal Γ arg τ) :
    args.length ≤ (flattenFully name args).length ∧
      ∀ arg ∈ flattenFully name args, Typed normal Γ arg τ := by
  induction args using flattenFully.induct name with
  | case1 args more ih =>
      obtain ⟨hlength, hflat⟩ := typed_flatten hchain hargs
      rw [flattenFully, dif_pos more]
      exact ⟨Nat.le_trans hlength (ih hflat).1, (ih hflat).2⟩
  | case2 args done =>
      rw [flattenFully, dif_neg done]
      exact ⟨Nat.le_refl _, hargs⟩

end Chain

end SymbolicAlgebra
