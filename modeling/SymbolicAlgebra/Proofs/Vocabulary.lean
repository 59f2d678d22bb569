import SymbolicAlgebra.Operation.Basic
import SymbolicAlgebra.Proofs.Order

/-! Kinds of nodes, and vocabularies: which symbols an expression may use, and which names it may apply. The
expressions of a vocabulary are a kind. An action that asks for nothing but the simplification of nodes of
a kind, and survives no failure of it, is quiet on the kind. What the standard operations write into their
results on their own account is named here; a vocabulary that has it is kept by them. -/

namespace SymbolicAlgebra

/-! ### Kinds -/

/-- A kind of node that is decided part by part: nodes of it are made up of such nodes, and what they make
up is of it. Which names may be applied, and which numbers, booleans and symbols are of the kind, is left
open. -/
structure Node.Kind (K : Node → Prop) : Prop where
  pair {first second : Node} : K (.pair first second) ↔ K first ∧ K second
  sequence {elements : List Node} : K (.sequence elements) ↔ ∀ element ∈ elements, K element
  args {name : String} {args : List Node} : K (.application name args) → ∀ arg ∈ args, K arg
  /-- What a name may be applied to once, it may be applied to with other arguments. -/
  applied {name : String} {args others : List Node} :
    K (.application name args) → (∀ arg ∈ others, K arg) → K (.application name others)

/-- The node that is offered, if there is one, is of the kind. -/
def Offered (K : Node → Prop) (outcome : Option Node) : Prop :=
  ∀ node ∈ outcome, K node

/-- All nodes are of one kind. -/
theorem Node.Kind.all : Kind fun _ => True where
  pair := and_self_iff.symm
  sequence := iff_of_true trivial fun _ _ => trivial
  args _ _ _ := trivial
  applied _ _ := trivial

section Kind

variable {K : Node → Prop}

theorem offered_none : Offered K none := nofun

theorem offered_some {node : Node} (h : K node) : Offered K (some node) := by
  rintro _ ⟨⟩
  exact h

namespace Node.Kind

variable (hK : Kind K)
include hK

theorem arranged (registry : Registry) {name : String} {args : List Node} (hargs : ∀ arg ∈ args, K arg) :
    ∀ arg ∈ arrange registry name args, K arg :=
  forall_mem_arrange registry (fun _ => hK.args) hargs

/-- The name applied to some of the arguments. -/
theorem of_subset {name : String} {args others : List Node} (h : K (.application name args))
    (hothers : others ⊆ args) : K (.application name others) :=
  hK.applied h fun arg harg => hK.args h arg (hothers harg)

/-- A sequence with one element replaced. -/
theorem set {elements : List Node} (helements : ∀ element ∈ elements, K element) (position : Nat)
    {replacement : Node} (hreplacement : K replacement) : K (.sequence (elements.set position replacement)) := by
  refine hK.sequence.mpr fun element helement => ?_
  rcases List.mem_or_eq_of_mem_set helement with hmem | rfl
  · exact helements element hmem
  · exact hreplacement

theorem offered_sequence {elements : List Node} (h : ∀ element ∈ elements, K element) :
    Offered K (some (.sequence elements)) :=
  offered_some (hK.sequence.mpr h)

end Node.Kind

end Kind

/-! ### Vocabularies -/

/-- The symbols that may be used and the names that may be applied. -/
structure Vocabulary where
  symbol : String → Prop
  name : String → Prop

/-- What the vocabulary says of the outermost form of a node. -/
def Vocabulary.Admits (vocabulary : Vocabulary) : Node → Prop
  | .symbol name => vocabulary.symbol name
  | .application name _ => vocabulary.name name
  | _ => True

instance (vocabulary : Vocabulary) [DecidablePred vocabulary.symbol] [DecidablePred vocabulary.name]
    (node : Node) : Decidable (vocabulary.Admits node) :=
  match node with
  | .symbol name => inferInstanceAs (Decidable (vocabulary.symbol name))
  | .application name _ => inferInstanceAs (Decidable (vocabulary.name name))
  | .number _ | .boolean _ | .pair _ _ | .sequence _ => .isTrue trivial

namespace Node

/-- The node uses no other symbols and applies no other names than those of the vocabulary. -/
def Within (vocabulary : Vocabulary) (node : Node) : Prop :=
  node.Everywhere vocabulary.Admits

instance (vocabulary : Vocabulary) [DecidablePred vocabulary.symbol] [DecidablePred vocabulary.name]
    (node : Node) : Decidable (node.Within vocabulary) :=
  inferInstanceAs (Decidable (∀ part ∈ node.subterms, vocabulary.Admits part))

section Within

variable {V : Vocabulary}

theorem within_number (value : Number) : (number value).Within V := everywhere_number.mpr trivial

theorem within_boolean (value : Bool) : (boolean value).Within V := everywhere_boolean.mpr trivial

theorem within_symbol {name : String} : (symbol name).Within V ↔ V.symbol name := everywhere_symbol

theorem within_application {name : String} {args : List Node} :
    (application name args).Within V ↔ V.name name ∧ ∀ arg ∈ args, arg.Within V :=
  everywhere_application

theorem within_pair {first second : Node} :
    (pair first second).Within V ↔ first.Within V ∧ second.Within V :=
  everywhere_pair.trans (and_iff_right trivial)

theorem within_sequence {elements : List Node} :
    (sequence elements).Within V ↔ ∀ element ∈ elements, element.Within V :=
  everywhere_sequence.trans (and_iff_right trivial)

/-- An application to two nodes of the vocabulary. -/
theorem within_call {name : String} (hname : V.name name) {first second : Node}
    (hfirst : first.Within V) (hsecond : second.Within V) :
    (application name [first, second]).Within V := by
  refine within_application.mpr ⟨hname, ?_⟩
  rw [List.forall_mem_cons, List.forall_mem_singleton]
  exact ⟨hfirst, hsecond⟩

/-- A node of a vocabulary is one of a larger vocabulary. -/
theorem Within.mono {W : Vocabulary} {node : Node} (h : node.Within V)
    (hsymbols : ∀ name, V.symbol name → W.symbol name) (hnames : ∀ name, V.name name → W.name name) :
    node.Within W := by
  intro part hpart
  have hadmits := h part hpart
  cases part with
  | symbol name => exact hsymbols name hadmits
  | application name args => exact hnames name hadmits
  | _ => trivial

end Within

end Node

/-- The expressions of a vocabulary are a kind of nodes. -/
theorem Vocabulary.kind (vocabulary : Vocabulary) : Node.Kind (Node.Within vocabulary) where
  pair := Node.within_pair
  sequence := Node.within_sequence
  args hnode := (Node.within_application.mp hnode).2
  applied hnode hothers := Node.within_application.mpr ⟨(Node.within_application.mp hnode).1, hothers⟩

/-- All symbols and all names. -/
def Vocabulary.all : Vocabulary where
  symbol _ := True
  name _ := True

theorem Node.within_all (node : Node) : node.Within .all := by
  intro part _
  cases part <;> trivial

/-- The node that is offered, if there is one, stays within the vocabulary. -/
abbrev Offers (vocabulary : Vocabulary) : Option Node → Prop :=
  Offered (Node.Within vocabulary)

/-! ### Outcomes of computations that read nothing -/

/-- Every result that the computation can have is in `P`. -/
def Ensures {α : Type} (P : α → Prop) (computation : Except Failure α) : Prop :=
  ∀ result, computation = .ok result → P result

theorem ensures_ok {α : Type} {P : α → Prop} {result : α} (h : P result) :
    Ensures P (.ok result) := by
  rintro _ ⟨⟩
  exact h

theorem ensures_error {α : Type} (P : α → Prop) (failure : Failure) : Ensures P (.error failure) :=
  nofun

theorem ensures_any {α : Type} (computation : Except Failure α) : Ensures (fun _ => True) computation :=
  fun _ _ => trivial

theorem Ensures.bind {α β : Type} {P : α → Prop} {Q : β → Prop} {first : Except Failure α}
    {next : α → Except Failure β} (hfirst : Ensures P first) (hnext : ∀ a, P a → Ensures Q (next a)) :
    Ensures Q (first >>= next) := by
  intro result h
  cases first with
  | error failure => cases h
  | ok a => exact hnext a (hfirst a rfl) result h

/-! ### Quiet actions -/

/-- The action changes nothing, simplifies nodes of the kind alone, fails where a simplification fails, and
ends with a result in `P`. -/
inductive Action.QuietOn {α : Type} (K : Node → Prop) (P : α → Prop) : Action Operation α → Prop
  | done {result : α} : P result → QuietOn K P (.done result)
  | fail (failure : Failure) : QuietOn K P (.fail failure)
  | simplify {node : Node} {next : Except Failure Node → Action Operation α} :
      K node → (∀ answer, K answer → QuietOn K P (next (.ok answer))) →
      (∀ failure, next (.error failure) = .fail failure) → QuietOn K P (.simplify node next)

/-- The action is quiet on the expressions of the vocabulary. -/
abbrev Action.QuietIn {α : Type} (V : Vocabulary) (P : α → Prop) (action : Action Operation α) : Prop :=
  action.QuietOn (Node.Within V) P

namespace Action

variable {α β : Type} {K : Node → Prop} {P : α → Prop} {Q : β → Prop}

theorem QuietOn.bind {first : Action Operation α} {next : α → Action Operation β}
    (hfirst : first.QuietOn K P) (hnext : ∀ a, P a → (next a).QuietOn K Q) :
    (first >>= next).QuietOn K Q := by
  show (first.andThen next).QuietOn K Q
  induction hfirst with
  | done hresult => exact hnext _ hresult
  | fail failure => exact .fail failure
  | simplify hnode _ herror ih =>
      refine .simplify hnode ih fun failure => ?_
      rw [herror]
      rfl

theorem quiet_ofExcept {computation : Except Failure α} (h : Ensures P computation) :
    (ofExcept computation).QuietOn K P := by
  cases computation with
  | ok result => exact .done (h result rfl)
  | error failure => exact .fail failure

theorem quiet_simplified {node : Node} (h : K node) : (simplified node).QuietOn K K :=
  .simplify h (fun _ hanswer => .done hanswer) fun _ => rfl

end Action

/-- From arguments of the kind the handler makes nodes of the kind, and it changes nothing. -/
def Operation.QuietOn (K : Node → Prop) (operation : Operation) : Prop :=
  ∀ args : List Node, (∀ arg ∈ args, K arg) → (operation.handler args).QuietOn K (Offered K)

/-- From arguments of the vocabulary the handler makes nodes of the vocabulary, and it changes
nothing. -/
abbrev Operation.QuietIn (vocabulary : Vocabulary) (operation : Operation) : Prop :=
  operation.QuietOn (Node.Within vocabulary)

/-! ### What the standard operations write -/

namespace Builtin

/-- The names that standard operations apply in their results. -/
def writtenNames : List String :=
  ["+", "*", "-", "/", "^", "negate", "not", "sum"]

/-- The operations that label the values of their result. -/
def labellingNames : List String :=
  ["variance", "stdev"]

/-- The symbols that they use for it. -/
def labels : List String :=
  ["sample", "population"]

end Builtin

/-- The vocabulary has what the standard operations on its names write into their results. -/
structure Vocabulary.Suits (vocabulary : Vocabulary) : Prop where
  written : ∀ name ∈ Builtin.writtenNames, vocabulary.name name
  labels : ∀ name ∈ Builtin.labellingNames, vocabulary.name name →
    ∀ label ∈ Builtin.labels, vocabulary.symbol label

end SymbolicAlgebra
