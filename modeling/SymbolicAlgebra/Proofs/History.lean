import SymbolicAlgebra.Proofs.Session
import SymbolicAlgebra.Proofs.Unchanged

/-! Programs on the base scope do not see history. Of what has happened before, a run that starts from the
base scope finds only the counter, which numbers the aliases of the operations that it defines. Two runs
with different counters define different operations under one name; on arguments and templates without
symbols that are spelled like aliases they come to the same, and so do the runs. -/

namespace SymbolicAlgebra

/-- Symbols that are spelled like no alias, and names that draw nothing. -/
def Vocabulary.deterministic : Vocabulary where
  symbol name := '#' ∉ name.toList
  name name := bareName name ≠ "random"

/-- The same where, in addition, either no name is spelled like an alias, or nothing is defined: a
definition answers with the name that it defines, as a symbol. -/
def Vocabulary.reproducible (defines : Bool) : Vocabulary where
  symbol name := '#' ∉ name.toList
  name name := bareName name ≠ "random" ∧ if defines then '#' ∉ name.toList else bareName name ≠ "define"

instance : DecidablePred Vocabulary.deterministic.symbol := fun name =>
  inferInstanceAs (Decidable ('#' ∉ name.toList))

instance : DecidablePred Vocabulary.deterministic.name := fun name =>
  inferInstanceAs (Decidable (bareName name ≠ "random"))

instance (defines : Bool) : DecidablePred (Vocabulary.reproducible defines).symbol := fun name =>
  inferInstanceAs (Decidable ('#' ∉ name.toList))

instance (defines : Bool) : DecidablePred (Vocabulary.reproducible defines).name := fun name =>
  inferInstanceAs (Decidable (bareName name ≠ "random" ∧
    if defines then '#' ∉ name.toList else bareName name ≠ "define"))

section Vocabulary

variable {defines : Bool}

theorem Vocabulary.suits_reproducible : (Vocabulary.reproducible defines).Suits where
  written name hname := by
    have hwritten : ∀ defines : Bool, ∀ name ∈ Builtin.writtenNames,
        bareName name ≠ "random" ∧ if defines then '#' ∉ name.toList else bareName name ≠ "define" := by
      decide
    exact hwritten defines name hname
  labels _ _ _ label hlabel := by
    have hlabels : ∀ label ∈ Builtin.labels, '#' ∉ label.toList := by decide
    exact hlabels label hlabel

theorem mem_of_deferred {name bare : String} (h : deferred? name = some bare) {c : Char}
    (hc : c ∈ bare.toList) : c ∈ name.toList := by
  rw [toList_of_deferred h]
  exact List.mem_cons_of_mem _ hc

theorem Vocabulary.reproducible_unmarked {name bare : String}
    (hname : (Vocabulary.reproducible defines).name name) (hmarked : deferred? name = some bare) :
    (Vocabulary.reproducible defines).name bare := by
  have hbare := bareName_of_deferred hmarked
  obtain ⟨hdraws, hdefined⟩ := hname
  refine ⟨hbare ▸ hdraws, ?_⟩
  cases defines with
  | true => exact fun hmem => hdefined (mem_of_deferred hmarked hmem)
  | false => exact hbare ▸ hdefined

/-- A name that can be defined is spelled like no alias. -/
theorem Vocabulary.reproducible_defined (hdefine : (Vocabulary.reproducible defines).name "define")
    {name : String} (hname : (Vocabulary.reproducible defines).name name) :
    (Vocabulary.reproducible defines).symbol name := by
  cases defines with
  | true => exact hname.2
  | false => exact absurd rfl hdefine.2

end Vocabulary

/-! ### Rendering -/

namespace Registry

/-- Applications are written in the same way in both registries. -/
structure WrittenAlike (registry other : Registry) : Prop where
  alike : registry.Alike other
  writing? : ∀ name, registry.writing? name = other.writing? name

theorem Matched.writtenAlike {M : Operation → Operation → Prop} {registry other : Registry}
    (h : registry.Matched M other) (hkeywords : registry.keywords = other.keywords) :
    registry.WrittenAlike other := by
  refine ⟨h.alike, fun name => ?_⟩
  have hfound := find?_matched (p := (·.fixity != .call)) (fun one another halike => by rw [halike.fixity])
    (h.overloads name)
  rw [Registry.writing?, Registry.writing?, keywordFor?, keywordFor?, ← hkeywords]
  generalize (registry.overloads name).find? (·.fixity != .call) = first at hfound ⊢
  generalize (other.overloads name).find? (·.fixity != .call) = second at hfound ⊢
  cases hfound with
  | none => rfl
  | some hmatched => simp only [hmatched.2.fixity, hmatched.2.precedence]

end Registry

theorem renderAll_congr {registry other : Registry} {nodes : List Node}
    (hnodes : ∀ node ∈ nodes, render registry node = render other node) :
    renderAll registry nodes = renderAll other nodes := by
  induction nodes with
  | nil => rfl
  | cons node rest ih =>
      rw [List.forall_mem_cons] at hnodes
      rw [renderAll, renderAll, hnodes.1, ih hnodes.2]

section Render

variable {registry other : Registry} (h : registry.WrittenAlike other)
include h

theorem Render.needsParentheses_congr (parent : String) (position : Nat) (node : Node) :
    needsParentheses registry parent position node = needsParentheses other parent position node := by
  cases node with
  | application name args =>
      have hforward : registry.isForwardCommutative parent = other.isForwardCommutative parent := h.alike _ _
      have hcommutative : registry.isCommutative parent = other.isCommutative parent := h.alike _ _
      rw [needsParentheses, needsParentheses, h.writing?, h.writing?, hforward, hcommutative]
  | _ => rfl

theorem Render.operands_congr (parent : String) (position : Nat) (args : List Node) (texts : List String) :
    operands registry parent position args texts = operands other parent position args texts := by
  induction args generalizing position texts with
  | nil => rfl
  | cons arg args ih =>
      cases texts with
      | nil => rfl
      | cons text texts => rw [operands, operands, needsParentheses_congr h, ih]

theorem Render.application_congr (name : String) (args : List Node) (texts : List String) :
    application registry name args texts = application other name args texts := by
  have hcommutative : registry.isCommutative name = other.isCommutative name := h.alike _ _
  rw [application, application, h.writing?, operands_congr h, hcommutative]

theorem render_congr (node : Node) : render registry node = render other node := by
  induction node using Node.inductionOn with
  | application name args ih => rw [render_application, render_application, Render.application_congr h, renderAll_congr ih]
  | pair first second ihfirst ihsecond => rw [render_pair, render_pair, ihfirst, ihsecond]
  | sequence elements ih => rw [render_sequence, render_sequence, renderAll_congr ih]
  | _ => rfl

theorem Program.printedText_congr (node : Node) :
    printedText registry node = printedText other node := by
  have hprinted (part : Node) : printedBy registry part = printedBy other part := by
    cases part with
    | application name args =>
        simp only [printedBy, renderAll_congr fun node _ => render_congr h node]
    | _ => rfl
  rw [printedText, printedText, funext hprinted]

end Render

/-! ### Environments with the same definitions -/

/-- One standard operation, or what one equation with a template of the vocabulary installs at two values
of the counter. -/
def Operation.Counterpart (V : Vocabulary) (operation other : Operation) : Prop :=
  (operation = other ∧ operation ∈ Builtin.standard.operations) ∨
    ∃ (equation : Equation) (issued issued' : Nat), equation.parameters.Nodup ∧ equation.template.Within V ∧
      operation = equation.operation issued ∧ other = equation.operation issued'

/-- The environments have the same variables, with values of the vocabulary, and the same operations up to
aliases, at the same depth and under the same limit. They may differ in the counter, and in all that lies
outside the current scope. -/
structure Environment.SameDefinitions (V : Vocabulary) (left right : Environment) : Prop where
  depth : left.depth = right.depth
  maxDepth : left.maxDepth = right.maxDepth
  bindings : left.bindings = right.bindings
  keywords : left.registry.keywords = right.registry.keywords
  operations : left.registry.Matched (Operation.Counterpart V) right.registry
  values : ∀ name value, left.get? name = some value → value.Within V

namespace Registry

variable {M : Operation → Operation → Prop} {registry other : Registry}

theorem Matched.register (h : registry.Matched M other) {operation counterpart : Operation}
    (hmatched : M operation counterpart) (halike : operation.Alike counterpart) :
    (registry.register operation).Matched M (other.register counterpart) := by
  have hdenotes (one another : Operation) (h : one.Alike another) :
      denotes operation.name operation.signature one =
        denotes counterpart.name counterpart.signature another := by
    rw [denotes, denotes, halike.name, halike.signature, h.name, h.signature]
  have hlists : List.Forall₂ (fun one another => M one another ∧ one.Alike another)
      (enter operation registry.operations) (enter counterpart other.operations) := by
    rw [Matched] at h
    generalize registry.operations = ones at h
    generalize other.operations = others at h
    induction h with
    | nil => exact .cons ⟨hmatched, halike⟩ .nil
    | @cons one another ones others hfirst hrest ih =>
        rw [enter, enter, hdenotes one another hfirst.2]
        split
        · exact .cons ⟨hmatched, halike⟩ hrest
        · exact .cons hfirst ih
  exact hlists

theorem Matched.removeAll (h : registry.Matched M other) (name : String) :
    (registry.removeAll name).1 = (other.removeAll name).1 ∧
      (registry.removeAll name).2.Matched M (other.removeAll name).2 := by
  refine ⟨(h.overloads name).length_eq, List.rel_filter (fun one another hmatched => ?_) h⟩
  show (one.name != name) = true ↔ (another.name != name) = true
  rw [hmatched.2.name]

end Registry

namespace Environment.SameDefinitions

variable {V : Vocabulary} {left right : Environment}

theorem get? (h : SameDefinitions V left right) (name : String) : left.get? name = right.get? name :=
  congrArg (Bindings.get? · name) h.bindings

theorem atDepth (h : SameDefinitions V left right) (depth : Nat) :
    SameDefinitions V { left with depth } { right with depth } :=
  ⟨rfl, h.maxDepth, h.bindings, h.keywords, h.operations, h.values⟩

theorem set (h : SameDefinitions V left right) (name : String) {value : Node} (hvalue : value.Within V) :
    SameDefinitions V (left.set name value) (right.set name value) :=
  ⟨h.depth, h.maxDepth, congrArg (Bindings.set · name value) h.bindings, h.keywords, h.operations,
    Bindings.forall_get?_set hvalue h.values⟩

theorem erase (h : SameDefinitions V left right) (name : String) :
    SameDefinitions V (left.setBindings (left.bindings.erase name))
      (right.setBindings (right.bindings.erase name)) :=
  ⟨h.depth, h.maxDepth, congrArg (Bindings.erase · name) h.bindings, h.keywords, h.operations,
    fun other value hvalue => h.values other value (Bindings.get?_of_get?_erase hvalue)⟩

theorem removeAll (h : SameDefinitions V left right) (name : String) :
    SameDefinitions V (left.setRegistry (left.registry.removeAll name).2)
      (right.setRegistry (right.registry.removeAll name).2) :=
  ⟨h.depth, h.maxDepth, h.bindings, h.keywords, (h.operations.removeAll name).2, h.values⟩

/-- Installing one equation at two values of the counter. -/
theorem install (h : SameDefinitions V left right) {equation : Equation} (hdistinct : equation.parameters.Nodup)
    (htemplate : equation.template.Within V) :
    SameDefinitions V (left.install equation) (right.install equation) := by
  have hcounterpart : (equation.operation left.issued).Counterpart V (equation.operation right.issued) :=
    .inr ⟨equation, left.issued, right.issued, hdistinct, htemplate, rfl, rfl⟩
  have halike : (equation.operation left.issued).Alike (equation.operation right.issued) :=
    ⟨rfl, by rw [Equation.signature_operation, Equation.signature_operation], rfl, rfl, rfl⟩
  exact ⟨h.depth, h.maxDepth, h.bindings, h.keywords, h.operations.register hcounterpart halike, h.values⟩

end Environment.SameDefinitions

/-! ### Handlers -/

open Evaluation

section Handlers

variable {V : Vocabulary} {recur : Simplifier} {α : Type} {P : α → Prop}

namespace Action

theorem coupled_assign {name : String} {value : Node} {next : Action Operation α} (hvalue : value.Within V)
    (hnext : Coupled (Environment.SameDefinitions V) P (next.run recur)) :
    Coupled (Environment.SameDefinitions V) P ((Action.assign name value next).run recur) :=
  fun _ _ hsame => hnext _ _ (hsame.set name hvalue)

theorem coupled_lookup {name : String} {next : Option Node → Action Operation α}
    (hnext : ∀ outcome, Offers V outcome →
      Coupled (Environment.SameDefinitions V) P ((next outcome).run recur)) :
    Coupled (Environment.SameDefinitions V) P ((Action.lookup name next).run recur) := by
  intro left right hsame
  rw [Action.run_lookup, Action.run_lookup, ← hsame.get? name]
  exact hnext _ (hsame.values name) left right hsame

theorem coupled_release {name : String} {next : Option Node → Action Operation α}
    (hnext : ∀ outcome, Coupled (Environment.SameDefinitions V) P ((next outcome).run recur)) :
    Coupled (Environment.SameDefinitions V) P ((Action.release name next).run recur) := by
  intro left right hsame
  rw [Action.run_release, Action.run_release, ← hsame.get? name]
  cases left.get? name with
  | none => exact hnext none left right hsame
  | some value => exact hnext (some value) _ _ (hsame.erase name)

theorem coupled_removeAll {name : String} {next : Nat → Action Operation α}
    (hnext : ∀ count, Coupled (Environment.SameDefinitions V) P ((next count).run recur)) :
    Coupled (Environment.SameDefinitions V) P ((Action.removeAll name next).run recur) := by
  intro left right hsame
  rw [Action.run_removeAll, Action.run_removeAll, ← (hsame.operations.removeAll name).1]
  exact hnext _ _ _ (hsame.removeAll name)

end Action

namespace Operation

variable {Related : Environment → Environment → Prop} {args : List Node}

theorem coupled_unary (name : String) (parameter : Parameter) {handler : Node → Action Operation (Option Node)}
    (h : ∀ a, a.Within V → Coupled Related (Offers V) ((handler a).run recur))
    (hargs : ∀ arg ∈ args, arg.Within V) :
    Coupled Related (Offers V) (((unary name parameter handler).handler args).run recur) :=
  unary_cases (motive := fun args action => (∀ arg ∈ args, arg.Within V) →
      Coupled Related (Offers V) (action.run recur))
    (fun _ _ => coupled_pure offered_none) name parameter (fun a hargs => h a (hargs a (by simp))) args hargs

theorem coupled_binary (name : String) (first second : Parameter)
    {handler : Node → Node → Action Operation (Option Node)}
    (h : ∀ a b, a.Within V → b.Within V → Coupled Related (Offers V) ((handler a b).run recur))
    (hargs : ∀ arg ∈ args, arg.Within V) :
    Coupled Related (Offers V) (((binary name first second handler).handler args).run recur) :=
  binary_cases (motive := fun args action => (∀ arg ∈ args, arg.Within V) →
      Coupled Related (Offers V) (action.run recur))
    (fun _ _ => coupled_pure offered_none) name first second
    (fun a b hargs => h a b (hargs a (by simp)) (hargs b (by simp))) args hargs

theorem coupled_ternary (name : String) (first second third : Parameter)
    {handler : Node → Node → Node → Action Operation (Option Node)}
    (h : ∀ a b c, a.Within V → b.Within V → c.Within V →
      Coupled Related (Offers V) ((handler a b c).run recur))
    (hargs : ∀ arg ∈ args, arg.Within V) :
    Coupled Related (Offers V) (((ternary name first second third handler).handler args).run recur) :=
  ternary_cases (motive := fun args action => (∀ arg ∈ args, arg.Within V) →
      Coupled Related (Offers V) (action.run recur))
    (fun _ _ => coupled_pure offered_none) name first second third
    (fun a b c hargs => h a b c (hargs a (by simp)) (hargs b (by simp)) (hargs c (by simp))) args hargs

end Operation

open SymbolicAlgebra.Action

theorem Definition.coupled_installOperation (name : String) (parameters : List Node) {template : Node}
    (htemplate : template.Within V) :
    Coupled (Environment.SameDefinitions V) (fun _ => True)
      ((installOperation name parameters template).run recur) := by
  cases hnames : parameterNames name [] parameters with
  | error failure =>
      rw [installOperation, hnames]
      exact coupled_throw failure
  | ok names =>
      obtain ⟨_, _, _, hdistinct⟩ := eq_of_parameterNames List.nodup_nil hnames
      intro left right hsame
      rw [run_installOperation recur hnames, run_installOperation recur hnames]
      have hinstalled := hsame.install (show (Equation.mk name names template).parameters.Nodup from hdistinct)
        htemplate
      exact ⟨rfl, ensures_any _, hinstalled⟩

namespace Builtin

theorem coupled_defineOperation (hdefined : ∀ name, V.name name → V.symbol name) {head template : Node}
    (hhead : head.Within V) (htemplate : template.Within V) :
    Coupled (Environment.SameDefinitions V) (Offers V) ((defineOperation head template).run recur) := by
  refine coupled_bind (coupled_ofExcept (ensures_asApplication hhead)) fun parts hparts => ?_
  refine coupled_bind (Definition.coupled_installOperation parts.1 parts.2 htemplate) fun _ _ => ?_
  exact coupled_pure (offered_some (Node.within_symbol.mpr (hdefined _ (Node.within_application.mp hparts).1)))

theorem coupled_delete {head : Node} (hhead : head.Within V) :
    Coupled (Environment.SameDefinitions V) (Offers V) ((delete head).run recur) := by
  refine coupled_bind (coupled_ofExcept (ensures_asSymbol hhead)) fun name hname => ?_
  refine coupled_removeAll fun count => coupled_release fun value => ?_
  split
  · exact coupled_throw _
  · exact coupled_pure (offered_some hname)

variable (hrecur : ∀ node, node.Within V →
  Coupled (Environment.SameDefinitions V) (Node.Within V) (recur node))
include hrecur

theorem coupled_simplified {node : Node} (hnode : node.Within V) :
    Coupled (Environment.SameDefinitions V) (Node.Within V) ((simplified node).run recur) := by
  rw [run_simplified]
  exact hrecur node hnode

theorem coupled_defineVariable {head value : Node} (hhead : head.Within V) (hvalue : value.Within V) :
    Coupled (Environment.SameDefinitions V) (Offers V) ((defineVariable head value).run recur) := by
  refine coupled_bind (coupled_ofExcept (ensures_asSymbol hhead)) fun name _ => ?_
  refine coupled_bind (P := Node.Within V) ?_ fun bound hbound => coupled_pure (offered_some hbound)
  refine coupled_bind (coupled_simplified hrecur hvalue) fun value hvalue => ?_
  split
  · exact coupled_throw _
  · exact coupled_assign hvalue (coupled_pure hvalue)

theorem coupled_setElement {head index value : Node} (hhead : head.Within V) (hindex : index.Within V)
    (hvalue : value.Within V) :
    Coupled (Environment.SameDefinitions V) (Offers V) ((setElement head index value).run recur) := by
  refine coupled_bind (coupled_ofExcept (ensures_asSymbol hhead)) fun name _ => ?_
  refine coupled_bind (coupled_simplified hrecur hindex) fun index _ => ?_
  refine coupled_bind (coupled_ofExcept (ensures_any index.asInteger)) fun place _ => ?_
  refine coupled_bind (coupled_simplified hrecur hvalue) fun value hvalue => coupled_lookup ?_
  intro outcome houtcome
  cases outcome with
  | none => exact coupled_throw _
  | some bound =>
      refine coupled_bind (coupled_simplified hrecur (houtcome bound rfl)) fun bound hbound => ?_
      refine coupled_bind (coupled_ofExcept (ensures_asSequence V.kind hbound)) fun elements helements => ?_
      refine coupled_bind (coupled_ofExcept (ensures_any (Guard.index place.toInt elements.length)))
        fun position _ => ?_
      have hupdated := V.kind.set helements position hvalue
      exact coupled_assign hupdated (coupled_pure (offered_some hupdated))

/-- The standard operations make no difference between environments with the same definitions. -/
theorem coupled_standard (hV : V.Suits) (hdraws : ¬V.name "random")
    (hdefined : V.name "define" → ∀ name, V.name name → V.symbol name) {operation : Operation}
    (hmem : operation ∈ standard.operations) (hname : V.name operation.name) {args : List Node}
    (hargs : ∀ arg ∈ args, arg.Within V) :
    Coupled (Environment.SameDefinitions V) (Offers V) ((operation.handler args).run recur) := by
  by_cases heffects : operation.name ∈ effectfulNames
  · refine effectful_cases (motive := fun operation => V.name operation.name →
      Coupled (Environment.SameDefinitions V) (Offers V) ((operation.handler args).run recur)) hmem heffects
      (fun hdefine => ?_) (fun _ => ?_) (fun _ => coupled_throw _) (fun _ => ?_) (fun hdraw => (hdraws hdraw).elim)
      (fun hdraw => (hdraws hdraw).elim) (fun _ => ?_) hname
    · exact Operation.coupled_binary "define" .application .any
        (fun head template => coupled_defineOperation (hdefined hdefine)) hargs
    · exact Operation.coupled_binary "define" .symbol .any
        (fun head value => coupled_defineVariable hrecur) hargs
    · exact Operation.coupled_unary "del" .symbol (fun head => coupled_delete) hargs
    · exact Operation.coupled_ternary "set" .symbol .any .any
        (fun head index value => coupled_setElement hrecur) hargs
  · exact (quietIn_standard hV hmem hname heffects args hargs).coupled hrecur

end Builtin

end Handlers

/-! ### Runs -/

section Runs

variable {defines : Bool}

/-- The operations of one equation come to the same instance of its template, whatever their aliases. -/
theorem Equation.shadowed_operation {Related : Environment → Environment → Prop} {recur : Simplifier}
    {equation : Equation} (hdistinct : equation.parameters.Nodup)
    (htemplate : equation.template.Within (.reproducible defines)) (issued issued' : Nat) {args : List Node}
    (htakes : (equation.operation issued).accepts args ∨ (equation.operation issued).isUniversal)
    (hargs : ∀ arg ∈ args, arg.Within (.reproducible defines)) :
    Shadowed (fun _ => False) Related (Offers (.reproducible defines))
      (((equation.operation issued).handler args).run recur)
      (((equation.operation issued').handler args).run recur) := by
  have hlength := accepts_operation_iff.mp
    (htakes.resolve_right (Definition.not_isUniversal_templateOperation _ _ _))
  have hinstance := instantiate_eq (V := .reproducible defines) (fun _ => id) htemplate hdistinct issued hlength
  have hinstance' := instantiate_eq (V := .reproducible defines) (fun _ => id) htemplate hdistinct issued' hlength
  have hoffers : Offers (.reproducible defines)
      (some (equation.template.substitute (positional equation.parameters args))) := by
    have hwithin := Definition.kind_templateOperation (Vocabulary.kind _) equation.name htemplate htakes hargs
    have hsame : some _ = some _ := Action.done.inj hinstance
    rw [← hsame]
    exact offered_some hwithin
  rw [hinstance, hinstance']
  exact shadowed_pure hoffers

/-- Simplification makes no difference between environments with the same definitions. -/
theorem coupling_sameDefinitions :
    Coupling (Node.Within (.reproducible defines)) (Environment.SameDefinitions (.reproducible defines)) where
  kind := Vocabulary.kind _
  unmarked := Node.within_unmarked fun _ _ => Vocabulary.reproducible_unmarked
  sameDepth := Environment.SameDefinitions.depth
  sameMaxDepth := Environment.SameDefinitions.maxDepth
  alike hsame := hsame.operations.alike
  sameValue hsame _ := hsame.get? _
  bound hsame _ := hsame.values _ _
  deeper hsame := by
    rw [← hsame.depth]
    exact hsame.atDepth _
  shallower hsame := by
    rw [← hsame.depth]
    exact hsame.atDepth _
  invoked {_ args _} hnode hrecur := by
    obtain ⟨hname, hargs⟩ := Node.within_application.mp hnode
    refine coupled_iff_shadowed.mpr (shadowed_invokeWith offered_none (·.operations) ?_)
    rintro _ _ operation counterpart _ _ hcounterpart rfl htakes
    rcases hcounterpart with ⟨rfl, hstandard⟩ | ⟨equation, issued, issued', hdistinct, htemplate, rfl, rfl⟩
    · exact coupled_iff_shadowed.mp (Builtin.coupled_standard hrecur Vocabulary.suits_reproducible
        (fun hdraws => hdraws.1 rfl) (fun hdefine _ => Vocabulary.reproducible_defined hdefine) hstandard hname
        hargs)
    · exact equation.shadowed_operation hdistinct htemplate issued issued' htakes hargs

namespace Program

/-- Statements bring about the same in environments with the same definitions. -/
theorem execute_sameDefinitions {statements : List Node}
    (hstatements : ∀ statement ∈ statements, statement.Within (.reproducible defines)) {left right : Environment}
    (hsame : left.SameDefinitions (.reproducible defines) right) :
    (execute statements left).1 = (execute statements right).1 := by
  induction statements generalizing left right with
  | nil => rfl
  | cons statement rest ih =>
      rw [List.forall_mem_cons] at hstatements
      have hcoupled := coupled_simplify coupling_sameDefinitions hstatements.1 left right hsame
      rcases hleft : simplify statement left with ⟨outcome, leftMid⟩
      rcases hright : simplify statement right with ⟨other, rightMid⟩
      rw [hleft, hright] at hcoupled
      obtain ⟨rfl, _, hmid⟩ := hcoupled
      cases outcome with
      | error failure => simp only [execute, hleft, hright]
      | ok output =>
          have hprinted := printedText_congr (hmid.operations.writtenAlike hmid.keywords) output
          simp only [execute, hleft, hright, hprinted, ih hstatements.2 hmid]

/-- On the base scope, statements start with the same definitions. -/
theorem sameDefinitions_enter {V : Vocabulary} {configuration : Configuration} {left right : Environment}
    (hleft : left.base = Environment.standard.base) (hright : right.base = Environment.standard.base)
    (hdepth : left.depth = right.depth) (hscope : configuration.scope = .useBase) :
    (enter configuration left).SameDefinitions V (enter configuration right) := by
  have hentered {env : Environment} (hbase : env.base = Environment.standard.base) :
      (enter configuration env).current = Environment.standard.base := by
    rw [enter_current, hscope]
    exact hbase
  have hcurrent := (hentered hleft).trans (hentered hright).symm
  refine ⟨?_, ?_, congrArg Scope.bindings hcurrent, congrArg (·.registry.keywords) hcurrent, ?_, ?_⟩
  · rw [enter_depth, enter_depth, hdepth]
  · rw [enter, enter, hscope]
    rfl
  · have hregistry : (enter configuration left).registry = Builtin.standard :=
      congrArg Scope.registry (hentered hleft)
    have hregistry' : (enter configuration right).registry = Builtin.standard :=
      congrArg Scope.registry (hentered hright)
    rw [hregistry, hregistry']
    exact List.forall₂_same.mpr fun operation hmem => ⟨.inl ⟨rfl, hmem⟩, .refl operation⟩
  · intro name value hvalue
    rw [Environment.get?, Environment.bindings, hentered hleft] at hvalue
    cases hvalue

/-- **Programs on the base scope do not see history.** Let two environments have the standard base scope, as
all do that have started with it, and one nesting depth. A program on the base scope that draws no random
numbers brings about the same in both, whatever else they hold and however many aliases they have given
out, provided that no symbol and, if it defines anything, no name of it is spelled like an alias. -/
theorem run_useBase_eq {program : Program} {left right : Environment}
    (hleft : left.base = Environment.standard.base) (hright : right.base = Environment.standard.base)
    (hdepth : left.depth = right.depth) (hscope : program.configuration.scope = .useBase)
    (hstatements : ∀ statement ∈ program.statements, statement.Within (.reproducible defines)) :
    (program.run left).1 = (program.run right).1 :=
  execute_sameDefinitions hstatements (sameDefinitions_enter hleft hright hdepth hscope)

/-- A recursive definition and a call of it, after two histories of which one has left a scope saved. -/
theorem run_useBase_eq_product :
    let n := Node.symbol "n"
    let factor := Node.application "product" [.application "-" [n, .integer 1]]
    let program : Program :=
      { statements := [
          .application "define" [.application "product" [n], .application "if" [
            .application "==" [n, .integer 0], .integer 1, .application "*" [n, factor]]],
          .application "print" [.application "product" [.integer 3]]]
        configuration := { scope := .useBase, retention := .preserveAll } }
    let left := Environment.standard.after [.edit (.set "n" (.integer 5)),
      .edit (.defineOperation "product" [.symbol "n"] (.integer 0))]
    let right := Environment.standard.after [.save, .edit (.run program), .edit (.run program),
      .edit (.removeAll "*")]
    left.base = Environment.standard.base ∧ right.base = Environment.standard.base ∧
      left.issued ≠ right.issued ∧ (program.run left).1.printed = "6" ∧
      (program.run left).1 = (program.run right).1 := by
  intro n factor program left right
  have hleft : left.base = Environment.standard.base := base_after _ _
  have hright : right.base = Environment.standard.base := base_after _ _
  have hstatements : ∀ statement ∈ program.statements, statement.Within (.reproducible true) := by decide
  exact ⟨hleft, hright, by decide +kernel, by decide +kernel,
    run_useBase_eq hleft hright (by decide +kernel) rfl hstatements⟩

/-- An operation may be named like an alias. Its definition answers with that symbol, and in a template the
symbol is captured by the alias of a parameter if the counter stands at that number. The second of two runs
of one program differs from the first. -/
theorem run_useBase_depends_on_counter :
    let x := Node.symbol "x"
    let t := Node.symbol "t"
    let program : Program :=
      { statements := [
          .application "define" [.application "mk" [t],
            .application "define" [.application "h" [x], .application "list" [x, t]]],
          .application "mk" [.application "define" [.application "x#2" [], .integer 0]],
          .application "h" [.integer 7]]
        configuration := { scope := .useBase } }
    let later := (program.run Environment.standard).2
    (∀ statement ∈ program.statements, statement.Within .deterministic) ∧
      later.base = Environment.standard.base ∧ later.depth = 0 ∧
      (program.run Environment.standard).1 ≠ (program.run later).1 := by
  intro x t program later
  have hstatements : ∀ statement ∈ program.statements, statement.Within .deterministic := by decide
  have hframe := sameFrame_run program Environment.standard
  refine ⟨hstatements, hframe.base, hframe.depth, fun hsame => ?_⟩
  have hfirst : (program.run Environment.standard).1.logs.map (·.output.mentions "x#2") =
      [false, false, false] := by
    decide +kernel
  have hsecond : (program.run later).1.logs.map (·.output.mentions "x#2") = [false, false, true] := by
    decide +kernel
  rw [hsame, hsecond] at hfirst
  cases hfirst

end Program

end Runs

end SymbolicAlgebra
