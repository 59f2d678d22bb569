import SymbolicAlgebra.Proofs.Idempotence
import SymbolicAlgebra.Proofs.Locality
import SymbolicAlgebra.Proofs.Template

/-! Operations that are defined by equations. A call simplifies its arguments before the template is
looked at. In the right-hand side of the equation, with the arguments in the place of the parameters, they
are simplified wherever they have come to stand, once for each occurrence. Both come to the same: what a
node becomes depends on its symbols only through what their images become, and what an argument has become
is in its simplest form. -/

namespace SymbolicAlgebra

open Node

/-- Symbols that are spelled like no alias, and names without effects that have their arguments
simplified. -/
def Vocabulary.unreserved : Vocabulary where
  symbol name := '#' ∉ name.toList
  name name := EffectFreeName name ∧ name ≠ "if"

/-! ### Substitutions with the same results -/

/-- Where both nodes become something, they become the same. -/
def Scope.SameResult (scope : Scope) (e e' : Node) : Prop :=
  ∀ room r s, Reduces scope room e r → Reduces scope room e' s → r = s

theorem Scope.sameResult_self (scope : Scope) (e : Node) : scope.SameResult e e :=
  fun _ _ _ hr hs => hr.unique hs

/-- It makes no difference how much room either of them has. -/
theorem Scope.SameResult.eq {scope : Scope} {e e' : Node} (h : scope.SameResult e e') {room more : Nat}
    {r s : Node} (hr : Reduces scope room e r) (hs : Reduces scope more e' s) : r = s :=
  h (max room more) r s (hr.of_le (Nat.le_max_left _ _)) (hs.of_le (Nat.le_max_right _ _))

/-- Lists that come from the same nodes along relations that agree on their results. -/
theorem eq_of_forall₂_map {R S : Node → Node → Prop} {f g : Node → Node} {nodes xs ys : List Node}
    (hxs : List.Forall₂ R (nodes.map f) xs) (hys : List.Forall₂ S (nodes.map g) ys)
    (hsame : ∀ node ∈ nodes, ∀ x y, R (f node) x → S (g node) y → x = y) : xs = ys := by
  induction nodes generalizing xs ys with
  | nil =>
      cases hxs
      cases hys
      rfl
  | cons node rest ih =>
      rw [List.forall_mem_cons] at hsame
      cases hxs with
      | cons hx hxs =>
          cases hys with
          | cons hy hys => rw [hsame.1 _ _ hx hy, ih hxs hys hsame.2]

/-- A step on an application depends on its arguments only through the prepared ones. -/
theorem Step.exists_prepares {scope : Scope} {R : Node → Node → Prop} {name : String} {args : List Node}
    {r : Node} (h : Step scope R (.application name args) r) :
    ∃ prepared, Prepares scope.registry R name args prepared ∧
      ∀ args', Prepares scope.registry R name args' prepared → Step scope R (.application name args') r := by
  cases h with
  | rewritten hname hprepares hoffer hresult =>
      exact ⟨_, hprepares, fun _ hprepares' => .rewritten hname hprepares' hoffer hresult⟩
  | undecided hname hprepares hnone hsmall =>
      exact ⟨_, hprepares, fun _ hprepares' => .undecided hname hprepares' hnone hsmall⟩
  | regrouped hname hprepares hnone hlong hcommutative hgrouped =>
      exact ⟨_, hprepares, fun _ hprepares' => .regrouped hname hprepares' hnone hlong hcommutative hgrouped⟩

section Substitution

variable {scope : Scope} {V : Vocabulary}
  (hsimplifies : ∀ name, V.name name → ¬scope.registry.preservesArguments name)
include hsimplifies

theorem Scope.sameResult_application {name : String} (hname : V.name name) {args args' : List Node}
    (hargs : ∀ room xs ys, List.Forall₂ (Reduces scope room) args xs →
      List.Forall₂ (Reduces scope room) args' ys → xs = ys) :
    scope.SameResult (.application name args) (.application name args') := by
  intro room r s hr hs
  cases room with
  | zero => exact hr.elim
  | succ room =>
      obtain ⟨prepared, hprepares, hagain⟩ := Step.exists_prepares hr
      obtain ⟨prepared', hprepares', _⟩ := Step.exists_prepares hs
      cases hprepares with
      | preserved hpreserves => exact (hsimplifies name hname hpreserves).elim
      | simplified hpreserves hxs =>
          cases hprepares' with
          | preserved hpreserves => exact (hsimplifies name hname hpreserves).elim
          | simplified _ hys =>
              rw [hargs room _ _ hxs hys] at hagain
              have hr : Reduces scope (room + 1) (.application name args') r :=
                hagain args' (.simplified hpreserves hys)
              exact hr.unique hs

/-- Substitutions whose images become the same make a node become the same. -/
theorem Scope.sameResult_substitute {σ τ : String → Option Node} {node : Node} (hnode : node.Within V)
    (himages : ∀ name, V.symbol name → scope.SameResult (imageOf σ name) (imageOf τ name)) :
    scope.SameResult (node.substitute σ) (node.substitute τ) := by
  induction node using Node.inductionOn with
  | number value => exact scope.sameResult_self _
  | boolean value => exact scope.sameResult_self _
  | symbol name =>
      rw [substitute_symbol, substitute_symbol]
      exact himages name (within_symbol.mp hnode)
  | application name args ih =>
      obtain ⟨hname, hargs⟩ := within_application.mp hnode
      rw [substitute, substitute, substituteAll_eq_map, substituteAll_eq_map]
      refine Scope.sameResult_application hsimplifies hname fun room xs ys hxs hys => ?_
      exact eq_of_forall₂_map hxs hys fun arg harg => ih arg harg (hargs arg harg) room
  | pair first second ihfirst ihsecond =>
      obtain ⟨hfirst, hsecond⟩ := within_pair.mp hnode
      intro room r s hr hs
      cases room with
      | zero => exact hr.elim
      | succ room =>
          rw [substitute] at hr hs
          cases hr with
          | pair hr hr' =>
              cases hs with
              | pair hs hs' => rw [ihfirst hfirst _ _ _ hr hs, ihsecond hsecond _ _ _ hr' hs']
  | sequence elements ih =>
      have helements := within_sequence.mp hnode
      intro room r s hr hs
      cases room with
      | zero => exact hr.elim
      | succ room =>
          rw [substitute, substituteAll_eq_map] at hr hs
          cases hr with
          | sequence hxs =>
              cases hs with
              | sequence hys =>
                  rw [eq_of_forall₂_map hxs hys fun element helement =>
                    ih element helement (helements element helement) room]

end Substitution

/-- Replacing parameters by arguments and by what these have become. -/
theorem Scope.sameResult_positional {scope : Scope} (hpairs : scope.registry.FoldsByPairs) {room : Nat}
    (parameters : List String) {args values : List Node}
    (hvalues : List.Forall₂ (Reduces scope room) args values) (name : String) :
    scope.SameResult (imageOf (positional parameters args) name)
      (imageOf (positional parameters values) name) := by
  induction hvalues generalizing parameters with
  | nil => exact scope.sameResult_self _
  | @cons arg value args values hvalue _ ih =>
      cases parameters with
      | nil => exact scope.sameResult_self _
      | cons parameter parameters =>
          rw [imageOf, imageOf, positional_cons, positional_cons]
          by_cases hname : name = parameter
          · rw [if_pos hname, if_pos hname]
            intro more r s hr hs
            have hsettled := (hvalue.settled hpairs).same
            exact (hr.unique hvalue).trans (hsettled.unique hs)
          · rw [if_neg hname, if_neg hname]
            exact ih parameters

theorem effectFree_substitute {node : Node} (hnode : node.EffectFree) {image : String → Option Node}
    (himage : ∀ name, (imageOf image name).EffectFree) : (node.substitute image).EffectFree :=
  effectFree_iff_within.mpr (Vocabulary.effectFree.kind.substitute (effectFree_iff_within.mp hnode)
    fun name _ => effectFree_iff_within.mp (himage name))

theorem effectFree_substitute_positional {node : Node} (hnode : node.EffectFree) (names : List String)
    {args : List Node} (hargs : ∀ arg ∈ args, arg.EffectFree) :
    (node.substitute (positional names args)).EffectFree := by
  refine effectFree_substitute hnode fun name => ?_
  rw [imageOf]
  cases himage : positional names args name with
  | none => exact effectFree_symbol name
  | some arg => exact hargs arg (mem_of_positional himage)

/-! ### Equations -/

/-- An operation that is defined by an equation `name(parameters) = template`. -/
structure Equation where
  name : String
  parameters : List String
  template : Node

namespace Equation

open Definition

/-- The equation is none for a standard name, and its template has no effects. -/
structure Admissible (equation : Equation) : Prop where
  unregistered : Builtin.standard.contains equation.name = false
  effectFree : equation.template.EffectFree

/-- Whether the equation is one for so many arguments of the name. -/
def takes (equation : Equation) (name : String) (arity : Nat) : Bool :=
  equation.name == name && equation.parameters.length == arity

/-- The operation that the equation installs where `issued` numbers have been handed out before. -/
def operation (equation : Equation) (issued : Nat) : Operation :=
  issuedOperation issued equation.name equation.parameters equation.template

variable {equation : Equation} {issued : Nat} {args : List Node}

theorem signature_operation :
    (equation.operation issued).signature = List.replicate equation.parameters.length .any := by
  rw [← length_issuedAliases issued equation.parameters]
  rfl

theorem accepts_operation_iff :
    (equation.operation issued).accepts args ↔ args.length = equation.parameters.length := by
  rw [Operation.accepts, signature_operation]
  constructor
  · intro haccepts
    rw [← Signature.length_eq_of_accepts haccepts, List.length_replicate]
  · intro hlength
    rw [← hlength]
    exact Signature.accepts_replicate_any args

theorem quiet_operation (h : equation.template.EffectFree) : (equation.operation issued).Quiet := by
  intro args hargs
  refine .done ?_
  rintro _ ⟨⟩
  refine effectFree_substitute_positional (effectFree_substitute h fun name => ?_) _ hargs
  rw [imageOf]
  cases (equation.parameters.zip (issuedAliases issued equation.parameters)).lookup name with
  | none => exact effectFree_symbol name
  | some replacement => exact effectFree_symbol replacement

end Equation

/-- Standard operations, operations of admissible equations, and values without effects. -/
structure Scope.Equational (scope : Scope) : Prop where
  operations : ∀ operation ∈ scope.registry.operations, operation ∈ Builtin.standard.operations ∨
    ∃ (equation : Equation) (issued : Nat), equation.Admissible ∧ operation = equation.operation issued
  values : ∀ name value, scope.bindings.get? name = some value → value.EffectFree

namespace Scope.Equational

variable {scope : Scope} (h : scope.Equational)
include h

theorem quiet : scope.Quiet := by
  refine Scope.quiet_of_forall (fun operation hmem hname => ?_) h.values
  rcases h.operations operation hmem with hstandard | ⟨equation, issued, hadmissible, rfl⟩
  · exact Builtin.quiet_standard hstandard hname
  · exact Equation.quiet_operation hadmissible.effectFree

/-- What has a standard name is a standard operation. -/
theorem mem_standard_of_contains {operation : Operation} (hmem : operation ∈ scope.registry.operations)
    (hcontains : Builtin.standard.contains operation.name) : operation ∈ Builtin.standard.operations := by
  refine (h.operations operation hmem).resolve_right ?_
  rintro ⟨equation, issued, hadmissible, rfl⟩
  rw [show (equation.operation issued).name = equation.name from rfl, hadmissible.unregistered] at hcontains
  cases hcontains

/-- What has an attribute is a standard operation. -/
theorem hasAttribute_standard {selected : Attributes → Bool} (hselected : selected {} = false) {name : String}
    (hattribute : scope.registry.hasAttribute selected name) : Builtin.standard.hasAttribute selected name := by
  obtain ⟨operation, hmem, rfl, hown⟩ := Registry.exists_of_hasAttribute hattribute
  rcases h.operations operation hmem with hstandard | ⟨equation, issued, _, rfl⟩
  · exact Registry.hasAttribute_of_mem hstandard hown
  · rw [show (equation.operation issued).attributes = {} from rfl, hselected] at hown
    cases hown

/-- What an equation is for has no attribute. -/
theorem not_hasAttribute {selected : Attributes → Bool} (hselected : selected {} = false)
    {equation : Equation} (hadmissible : equation.Admissible) :
    ¬scope.registry.hasAttribute selected equation.name := by
  intro hattribute
  obtain ⟨operation, hmem, hname, _⟩ :=
    Registry.exists_of_hasAttribute (h.hasAttribute_standard hselected hattribute)
  have hcontains := Registry.contains_of_mem hmem
  rw [hname, hadmissible.unregistered] at hcontains
  cases hcontains

theorem foldsByPairs : scope.registry.FoldsByPairs := by
  intro name hcommutative
  have hcommutative := h.hasAttribute_standard rfl hcommutative
  obtain ⟨hpreserves, hresolve⟩ := Builtin.foldsByPairs_standard name hcommutative
  refine ⟨fun hpreserved => hpreserves (h.hasAttribute_standard rfl hpreserved), fun args hlong => ?_⟩
  obtain ⟨first, hfirst, rfl, _⟩ := Registry.exists_of_hasAttribute hcommutative
  refine Registry.resolve_eq_none_iff.mpr fun operation hmem hname => ?_
  have hcontains : Builtin.standard.contains operation.name := hname ▸ Registry.contains_of_mem hfirst
  exact Registry.resolve_eq_none_iff.mp (hresolve args hlong) operation
    (h.mem_standard_of_contains hmem hcontains) hname

/-- Among the names without effects, only `if` has its arguments preserved. -/
theorem not_preservesArguments {name : String} (hname : EffectFreeName name) (hif : name ≠ "if") :
    ¬scope.registry.preservesArguments name := by
  have hpreserving : ∀ operation ∈ Builtin.standard.operations, operation.attributes.preservesArguments →
      operation.name = "if" ∨ operation.name ∈ effectfulNames := by
    decide +kernel
  intro hpreserves
  obtain ⟨operation, hmem, rfl, hown⟩ := Registry.exists_of_hasAttribute (h.hasAttribute_standard rfl hpreserves)
  exact (hpreserving operation hmem hown).elim hif hname.2

end Scope.Equational

/-! ### Environments with equations -/

/-- The environment has the standard operations, values of variables, and operations that were defined by
the equations, the last one first. -/
inductive Environment.DefinedBy : Environment → List Equation → Prop
  | standard {env : Environment} : env.current = Environment.standard.current → DefinedBy env []
  | bind {env : Environment} {equations : List Equation} (name : String) {value : Node} :
      DefinedBy env equations → value.EffectFree → DefinedBy (env.set name value) equations
  | define {env after : Environment} {equations : List Equation} {equation : Equation} :
      DefinedBy env equations → equation.Admissible →
      perform (Definition.installOperation equation.name (equation.parameters.map .symbol) equation.template)
        env = (.ok (), after) →
      DefinedBy after (equation :: equations)

/-- The environment in which the equation has been installed. -/
def Environment.install (env : Environment) (equation : Equation) : Environment :=
  { env with issued := env.issued + equation.parameters.length }.register (equation.operation env.issued)

/-- Equations with distinct parameters can be installed, and no others. -/
theorem Equation.perform_installOperation_iff {equation : Equation} {env after : Environment} :
    perform (Definition.installOperation equation.name (equation.parameters.map .symbol) equation.template)
      env = (.ok (), after) ↔ equation.parameters.Nodup ∧ after = env.install equation := by
  constructor
  · intro h
    have hdistinct : equation.parameters.Nodup := by
      rw [perform, Definition.installOperation] at h
      cases hnames : Definition.parameterNames equation.name [] (equation.parameters.map Node.symbol) with
      | error failure =>
          rw [hnames] at h
          cases h
      | ok names =>
          obtain ⟨_, hsame, rfl, hdistinct⟩ := Definition.eq_of_parameterNames List.nodup_nil hnames
          rwa [List.map_injective_iff.mpr (fun _ _ => Node.symbol.inj) hsame]
    have hinstalled := Definition.perform_installOperation equation.name hdistinct equation.template env
    rw [h] at hinstalled
    exact ⟨hdistinct, congrArg Prod.snd hinstalled⟩
  · rintro ⟨hdistinct, rfl⟩
    exact Definition.perform_installOperation equation.name hdistinct equation.template env

namespace Environment.DefinedBy

variable {env : Environment} {equations : List Equation}

theorem equational (h : env.DefinedBy equations) : env.current.Equational := by
  induction h with
  | standard hcurrent =>
      rw [hcurrent]
      exact ⟨fun operation hmem => .inl hmem, nofun⟩
  | @bind env _ name value _ hvalue ih =>
      exact ⟨ih.operations, Bindings.forall_get?_set hvalue ih.values⟩
  | @define env _ _ equation _ hadmissible hinstalled ih =>
      obtain ⟨_, rfl⟩ := Equation.perform_installOperation_iff.mp hinstalled
      refine ⟨fun operation hmem => ?_, ih.values⟩
      rcases Registry.mem_enter hmem with rfl | hmem
      · exact .inr ⟨equation, env.issued, hadmissible, rfl⟩
      · exact ih.operations operation hmem

theorem admissible (h : env.DefinedBy equations) : ∀ equation ∈ equations, equation.Admissible := by
  induction h with
  | standard _ => nofun
  | bind _ _ _ ih => exact ih
  | define _ hadmissible _ ih => exact List.forall_mem_cons.mpr ⟨hadmissible, ih⟩

/-- A call goes to the equation that was installed last for its name and its number of arguments. -/
theorem resolve (h : env.DefinedBy equations) {name : String} {args : List Node} {equation : Equation}
    (hcurrent : equations.find? (·.takes name args.length) = some equation) :
    ∃ issued, equation.parameters.Nodup ∧
      env.registry.resolve name args = some (equation.operation issued) := by
  induction h with
  | standard _ => cases hcurrent
  | bind _ _ _ ih => exact ih hcurrent
  | @define env _ equations newest hdefined hadmissible hinstalled ih =>
      obtain ⟨hdistinct, rfl⟩ := Equation.perform_installOperation_iff.mp hinstalled
      rw [List.find?_cons] at hcurrent
      cases htakes : newest.takes name args.length with
      | true =>
          rw [htakes] at hcurrent
          cases hcurrent
          rw [Equation.takes, Bool.and_eq_true, beq_iff_eq, beq_iff_eq] at htakes
          obtain ⟨rfl, hlength⟩ := htakes
          refine ⟨env.issued, hdistinct, Registry.resolve_register ?_ fun other hother haccepts => ?_⟩
          · exact Equation.accepts_operation_iff.mpr hlength.symm
          · obtain ⟨hmem, hname⟩ := List.mem_filter.mp hother
            rw [beq_iff_eq] at hname
            rcases hdefined.equational.operations other hmem with hstandard | ⟨older, issued, _, rfl⟩
            · have hcontains := Registry.contains_of_mem hstandard
              rw [hname, show (equation.operation env.issued).name = equation.name from rfl,
                hadmissible.unregistered] at hcontains
              cases hcontains
            · have hsame := Equation.accepts_operation_iff.mp haccepts
              rw [Equation.signature_operation, Equation.signature_operation, hlength, hsame]
      | false =>
          rw [htakes] at hcurrent
          obtain ⟨issued, hdistinct, hresolve⟩ := ih hcurrent
          refine ⟨issued, hdistinct, Eq.trans (Registry.resolve_register_of_not_takes ?_) hresolve⟩
          rintro rfl (haccepts | huniversal)
          · have hlength := Equation.accepts_operation_iff.mp haccepts
            rw [Equation.takes, hlength] at htakes
            simp [Equation.operation, Definition.issuedOperation, Definition.templateOperation] at htakes
          · exact Definition.not_isUniversal_templateOperation _ _ _ huniversal

end Environment.DefinedBy

/-! ### Calls and instances of the template -/

/-- No symbol of a template is captured if none is spelled like an alias. -/
theorem Equation.instantiate_eq {equation : Equation} {V : Vocabulary}
    (hsymbols : ∀ name, V.symbol name → '#' ∉ name.toList) (htemplate : equation.template.Within V)
    (hdistinct : equation.parameters.Nodup) (issued : Nat) {values : List Node}
    (hlength : values.length = equation.parameters.length) :
    (equation.operation issued).handler values =
      .done (some (equation.template.substitute (positional equation.parameters values))) := by
  have huncaptured : Uncaptured issued equation.parameters values equation.template := by
    intro index parameter arg _ _ hmentions _
    have hsymbol : '#' ∉ (Definition.aliasOf parameter (issued + index + 1)).toList :=
      hsymbols _ (htemplate _ (mem_subterms_of_mentions hmentions))
    simp [Definition.aliasOf] at hsymbol
  have hinstance :=
    (instantiate_rename_eq_iff issued equation.parameters values hdistinct hlength equation.template).mpr
      huncaptured
  exact congrArg (fun node => Action.done (some node)) hinstance

/-- A call becomes what the template becomes with the values of its arguments in the place of the
parameters. -/
theorem Environment.DefinedBy.reduces_call {env : Environment} {equations : List Equation}
    (hdefined : env.DefinedBy equations) {equation : Equation} {args : List Node}
    (hcurrent : equations.find? (·.takes equation.name args.length) = some equation)
    (htemplate : equation.template.Within .unreserved) {room : Nat} {r : Node}
    (hcall : Reduces env.current (room + 1) (.application equation.name args) r) :
    ∃ values, List.Forall₂ (Reduces env.current room) args values ∧
      Reduces env.current room (equation.template.substitute (positional equation.parameters values)) r := by
  have hadmissible := hdefined.admissible equation (List.mem_of_find?_eq_some hcurrent)
  have hunordered : ¬env.current.registry.isCommutative equation.name :=
    hdefined.equational.not_hasAttribute rfl hadmissible
  have hprepared {prepared : List Node}
      (h : Prepares env.current.registry (Reduces env.current room) equation.name args prepared) :
      List.Forall₂ (Reduces env.current room) args prepared := by
    cases h with
    | preserved hpreserves => exact (hdefined.equational.not_hasAttribute rfl hadmissible hpreserves).elim
    | simplified _ hvalues => rwa [arrange, if_neg hunordered]
  have hoffered {values : List Node} (hvalues : List.Forall₂ (Reduces env.current room) args values)
      {outcome : Option Node}
      (h : Invokes env.current.registry (Reduces env.current room) equation.name values outcome) :
      outcome = some (equation.template.substitute (positional equation.parameters values)) := by
    rw [hvalues.length_eq] at hcurrent
    obtain ⟨issued, hdistinct, hresolve⟩ := hdefined.resolve hcurrent
    have hlength : values.length = equation.parameters.length := by
      have htakes := List.find?_some hcurrent
      rw [Equation.takes, Bool.and_eq_true, beq_iff_eq, beq_iff_eq] at htakes
      exact htakes.2.symm
    have hanswers := h.of_resolve hresolve
    rw [Equation.instantiate_eq (fun _ => id) htemplate hdistinct issued hlength] at hanswers
    exact hanswers.of_done
  cases hcall with
  | rewritten _ hprepares hinvokes hresult =>
      have hvalues := hprepared hprepares
      cases hoffered hvalues hinvokes
      exact ⟨_, hvalues, hresult⟩
  | undecided _ hprepares hinvokes _ => cases hoffered (hprepared hprepares) hinvokes
  | regrouped _ hprepares hinvokes _ _ _ => cases hoffered (hprepared hprepares) hinvokes

/-- **A call comes to the same as the instance of its template.** Whatever operations are defined by
equations, in terms of themselves and of one another, simplifying a call, which simplifies the arguments
first, and simplifying the template with the arguments in the place of the parameters have the same result
if both have one. -/
theorem simplify_call_eq_simplify_instance {env : Environment} {equations : List Equation}
    (hdefined : env.DefinedBy equations) {equation : Equation} {args : List Node}
    (hcurrent : equations.find? (·.takes equation.name args.length) = some equation)
    (hmarked : deferred? equation.name = none) (htemplate : equation.template.Within .unreserved)
    (hargs : ∀ arg ∈ args, arg.EffectFree) {r s : Node} {after after' : Environment}
    (hcall : simplify (.application equation.name args) env = (.ok r, after))
    (hinstance : simplify (equation.template.substitute (positional equation.parameters args)) env =
      (.ok s, after')) : r = s := by
  have hequational := hdefined.equational
  have hadmissible := hdefined.admissible equation (List.mem_of_find?_eq_some hcurrent)
  have hname : EffectFreeName equation.name := by
    have hregistered : ∀ name ∈ effectfulNames, Builtin.standard.contains name := by decide +kernel
    refine ⟨hmarked, fun hmem => ?_⟩
    have hcontains := hregistered equation.name hmem
    rw [hadmissible.unregistered] at hcontains
    cases hcontains
  have hsimplifies (name : String) (h : Vocabulary.unreserved.name name) :
      ¬env.current.registry.preservesArguments name :=
    hequational.not_preservesArguments h.1 h.2
  obtain ⟨_, hcall, _⟩ := (simplify_eq_ok_iff hequational.quiet
    (effectFree_application.mpr ⟨hname, hargs⟩)).mp hcall
  obtain ⟨_, hinstance, _⟩ := (simplify_eq_ok_iff hequational.quiet
    (effectFree_substitute_positional hadmissible.effectFree equation.parameters hargs)).mp hinstance
  cases hroom : env.maxDepth - env.depth with
  | zero =>
      rw [hroom] at hcall
      exact hcall.elim
  | succ room =>
      rw [hroom] at hcall
      obtain ⟨values, hvalues, hvalue⟩ := hdefined.reduces_call hcurrent htemplate hcall
      have hsame := Scope.sameResult_substitute hsimplifies htemplate fun name _ =>
        Scope.sameResult_positional hequational.foldsByPairs equation.parameters hvalues name
      exact (hsame.eq hinstance hvalue).symm

/-- A square and a sum with one, called with the name of a parameter and with a bound variable. -/
theorem call_eq_instance_square :
    let x := Node.symbol "x"
    let y := Node.symbol "y"
    let square : Equation := ⟨"square", ["x"], .application "*" [x, x]⟩
    let f : Equation := ⟨"f", ["x", "y"], .application "+" [x, .application "square" [y]]⟩
    let env := ((Environment.standard.set "a" (.integer 10)).install square).install f
    let args := [y, .application "+" [.symbol "a", .integer 2]]
    ∃ r, env.DefinedBy [f, square] ∧ (simplify (.application "f" args) env).1 = .ok r ∧
      (simplify (f.template.substitute (positional ["x", "y"] args)) env).1 = .ok r ∧
      r == .application "+" [.integer 144, y] := by
  intro x y square f env args
  have hfree {name : String} (hname : EffectFreeName name) {args : List Node}
      (hargs : ∀ arg ∈ args, arg.EffectFree) : (Node.application name args).EffectFree :=
    effectFree_application.mpr ⟨hname, hargs⟩
  have hcall : (Node.application "square" [y]).EffectFree :=
    hfree (by decide) (List.forall_mem_singleton.mpr (effectFree_symbol "y"))
  have hdefined : env.DefinedBy [f, square] := by
    have hsquare : square.Admissible := by
      refine ⟨by decide +kernel, hfree (by decide) ?_⟩
      simpa using effectFree_symbol "x"
    have hf : f.Admissible := by
      refine ⟨by decide +kernel, hfree (by decide) ?_⟩
      simpa using ⟨effectFree_symbol "x", hcall⟩
    have hbound := (Environment.DefinedBy.standard rfl).bind "a" (effectFree_number (.ofInt 10))
    exact (hbound.define hsquare (Equation.perform_installOperation_iff.mpr ⟨by decide, rfl⟩)).define hf
      (Equation.perform_installOperation_iff.mpr ⟨by decide, rfl⟩)
  have htemplate : f.template.Within .unreserved := by
    have hx : x.Within .unreserved := within_symbol.mpr (by decide : '#' ∉ "x".toList)
    have hy : y.Within .unreserved := within_symbol.mpr (by decide : '#' ∉ "y".toList)
    have hname : ∀ name ∈ ["+", "square"], EffectFreeName name ∧ name ≠ "if" := by decide
    refine within_call (hname "+" (by decide)) hx (within_application.mpr ⟨hname "square" (by decide), ?_⟩)
    exact List.forall_mem_singleton.mpr hy
  have hargs : ∀ arg ∈ args, arg.EffectFree := by
    have hsum : (Node.application "+" [.symbol "a", .integer 2]).EffectFree := by
      refine hfree (by decide) ?_
      simpa using ⟨effectFree_symbol "a", effectFree_number (.ofInt 2)⟩
    simpa [args] using ⟨effectFree_symbol "y", hsum⟩
  have hcalled : (simplify (.application "f" args) env).1.toOption.any
      (· == .application "+" [.integer 144, y]) := by
    decide +kernel
  have hinstantiated :
      (simplify (f.template.substitute (positional ["x", "y"] args)) env).1.toOption.isSome := by
    decide +kernel
  rcases hcall : simplify (.application "f" args) env with ⟨failure | r, after⟩
  · rw [hcall] at hcalled
    cases hcalled
  rcases hinstance : simplify (f.template.substitute (positional ["x", "y"] args)) env with
    ⟨failure | s, after'⟩
  · rw [hinstance] at hinstantiated
    cases hinstantiated
  have hcurrent : [f, square].find? (·.takes "f" args.length) = some f := rfl
  have hsame : r = s :=
    simplify_call_eq_simplify_instance hdefined hcurrent (by decide) htemplate hargs hcall hinstance
  rw [hcall] at hcalled
  exact ⟨r, hdefined, rfl, congrArg Except.ok hsame.symm, hcalled⟩

end SymbolicAlgebra
