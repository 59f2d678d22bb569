import SymbolicAlgebra.Proofs.Locality
import SymbolicAlgebra.Proofs.Stillness
import SymbolicAlgebra.Proofs.Template

/-! Statements: applications of `define`, `del` and `set` to expressions that define nothing. Their
handlers are atomic: one that fails has changed nothing, and one that succeeds has made the one change
that it is there for. The answer of a handler is simplified once more, however, after the change has
been made, and a failure of that does not take the change back. -/

namespace SymbolicAlgebra

/-- In the scope, the node can become the result where `room` more levels of nesting are allowed. -/
def Scope.Becomes (scope : Scope) (room : Nat) (node result : Node) : Prop :=
  ∃ env after, env.current = scope ∧ simplifyWithin room node env = (.ok result, after)

namespace Scope

def bind (scope : Scope) (name : String) (value : Node) : Scope :=
  { scope with bindings := scope.bindings.set name value }

def register (scope : Scope) (operation : Operation) : Scope :=
  { scope with registry := scope.registry.register operation }

/-- Without the variable and the operations of the name. -/
def remove (scope : Scope) (name : String) : Scope :=
  ⟨scope.bindings.erase name, (scope.registry.removeAll name).2⟩

end Scope

/-- The one change that a statement makes, and its answer, where `Becomes` says what its expressions
come to and `issued` numbers have been handed out before. -/
inductive Scope.Updates (Becomes : Node → Node → Prop) (before : Scope) (issued : Nat) :
    String → List Node → Scope → Node → Prop
  /-- A variable is bound to a value that does not mention it. -/
  | binds {name : String} {value answer : Node} :
      Becomes value answer → ¬answer.mentions name →
      Updates Becomes before issued "define" [.symbol name, value] (before.bind name answer) answer
  /-- The operation is registered that the template defines with distinct parameters. -/
  | registers {name : String} {parameters : List String} {template : Node} :
      parameters.Nodup →
      Updates Becomes before issued "define" [.application name (parameters.map .symbol), template]
        (before.register (Definition.issuedOperation issued name parameters template)) (.symbol name)
  /-- A variable and the operations of its name are removed. -/
  | removes {name : String} :
      Updates Becomes before issued "del" [.symbol name] (before.remove name) (.symbol name)
  /-- A variable that is bound to a sequence has one element of it replaced. -/
  | replaces {name : String} {index value bound replacement : Node} {place : Int64} {position : Nat}
      {elements : List Node} :
      Becomes index (.number (.small place)) → Becomes value replacement →
      before.bindings.get? name = some bound → Becomes bound (.sequence elements) →
      Guard.index place.toInt elements.length = .ok position →
      Updates Becomes before issued "set" [.symbol name, index, value]
        (before.bind name (.sequence (elements.set position replacement)))
        (.sequence (elements.set position replacement))

/-- What a handler of a statement ends with: it declines and changes nothing, or it makes its change. -/
def Scope.Ends (Becomes : Node → Node → Prop) (before : Scope) (issued : Nat) (name : String)
    (args : List Node) (outcome : Option Node) (after : Scope) : Prop :=
  match outcome with
  | none => after = before
  | some answer => before.Updates Becomes issued name args after answer

/-- In this scope the simplifier makes of nodes of the vocabulary what `Becomes` says, and changes
nothing. -/
def Simplifier.Finds (recur : Simplifier) (V : Vocabulary) (scope : Scope) (Becomes : Node → Node → Prop) :
    Prop :=
  ∀ node, node.Within V → Evaluation.Atomic scope (fun result after => Becomes node result ∧ after = scope)
    (recur node)

namespace Evaluation

/-- Run in this environment, the computation either fails and leaves the scope as it is, or ends with a
result and a scope in `Q`. -/
def AtomicFrom {β : Type} (env : Environment) (Q : β → Scope → Prop) (computation : Evaluation β) : Prop :=
  match computation env with
  | (.ok result, after) => Q result after.current
  | (.error _, after) => after.current = env.current

theorem Atomic.atomicFrom {β : Type} {env : Environment} {Q : β → Scope → Prop} {x : Evaluation β}
    (h : Atomic env.current Q x) : AtomicFrom env Q x :=
  h env rfl

end Evaluation

open Evaluation

/-! ### The handlers are atomic -/

namespace Action

variable {α β : Type} {recur : Simplifier} {scope : Scope} {P : α → Prop} {Q : β → Scope → Prop}

theorem atomic_bind {first : Action Operation α} {next : α → Action Operation β}
    (hfirst : Atomic scope (fun a after => P a ∧ after = scope) (first.run recur))
    (hnext : ∀ a, P a → Atomic scope Q ((next a).run recur)) :
    Atomic scope Q ((first >>= next).run recur) := by
  show Atomic scope Q ((first.andThen next).run recur)
  rw [run_andThen]
  exact hfirst.bind hnext

theorem atomic_ofExcept (computation : Except Failure α) :
    Atomic scope (fun a after => computation = .ok a ∧ after = scope) ((ofExcept computation).run recur) := by
  cases computation with
  | ok a => exact atomic_pure ⟨rfl, rfl⟩
  | error failure => exact atomic_throw failure

theorem atomic_simplified {V : Vocabulary} {Becomes : Node → Node → Prop}
    (hfinds : recur.Finds V scope Becomes) {node : Node} (hnode : node.Within V) :
    Atomic scope (fun result after => Becomes node result ∧ after = scope) ((simplified node).run recur) := by
  rw [run_simplified]
  exact hfinds node hnode

theorem atomic_lookup {name : String} {next : Option Node → Action Operation β}
    (h : Atomic scope Q ((next (scope.bindings.get? name)).run recur)) :
    Atomic scope Q ((Action.lookup name next).run recur) := by
  rintro env rfl
  exact h env rfl

end Action

theorem Node.eq_symbol_of_asSymbol {node : Node} {name : String} (h : node.asSymbol = .ok name) :
    node = .symbol name := by
  cases node <;> cases h
  rfl

theorem Node.eq_sequence_of_asSequence {node : Node} {elements : List Node}
    (h : node.asSequence = .ok elements) : node = .sequence elements := by
  cases node <;> cases h
  rfl

theorem Node.eq_small_of_asInteger {node : Node} {value : Int64} (h : node.asInteger = .ok value) :
    node = .number (.small value) := by
  unfold asInteger at h
  split at h <;> cases h
  rfl

namespace Registry

/-- Without operations of a name there is none to remove. -/
theorem removeAll_of_none {registry : Registry} {name : String} (h : (registry.removeAll name).1 = 0) :
    (registry.removeAll name).2 = registry := by
  have hnone : ∀ operation ∈ registry.operations, operation.name ≠ name := by
    intro operation hmem hname
    have hlisted : operation ∈ registry.overloads name :=
      List.mem_filter.mpr ⟨hmem, beq_iff_eq.mpr hname⟩
    rw [List.eq_nil_of_length_eq_zero h] at hlisted
    exact (List.not_mem_nil hlisted).elim
  have hkept : registry.operations.filter (·.name != name) = registry.operations :=
    List.filter_eq_self.mpr fun operation hmem => bne_iff_ne.mpr (hnone operation hmem)
  simp only [removeAll, hkept]

end Registry

/-- A name that is not bound has no entry to erase. -/
theorem Bindings.erase_of_get?_none {bindings : Bindings} {name : String}
    (h : bindings.get? name = none) : bindings.erase name = bindings := by
  have hkept : bindings.entries.filter (·.1 != name) = bindings.entries := by
    refine List.filter_eq_self.mpr fun entry hmem => ?_
    have hother := List.lookup_eq_none_iff.mp h entry hmem
    rw [bne_iff_ne]
    exact fun hsame => bne_iff_ne.mp hother hsame.symm
  rw [erase, hkept]

namespace Builtin

variable {V : Vocabulary} {recur : Simplifier} {scope : Scope} {Becomes : Node → Node → Prop}

/-- The aliases of the operation that is registered are those that the counter gives in this environment. -/
theorem atomicFrom_defineOperation (env : Environment) (head template : Node) :
    ((defineOperation head template).run recur).AtomicFrom env
      (env.current.Ends Becomes env.issued "define" [head, template]) := by
  cases head with
  | application name parameters =>
      show (((Definition.installOperation name parameters template).andThen _).run recur).AtomicFrom env _
      rw [Action.run_andThen, AtomicFrom]
      cases hnames : Definition.parameterNames name [] parameters with
      | error failure =>
          rw [bind_run_error (Definition.run_installOperation_of_error recur hnames template env)]
      | ok names =>
          rw [bind_run_ok (Definition.run_installOperation recur hnames template env)]
          obtain ⟨_, rfl, rfl, hdistinct⟩ := Definition.eq_of_parameterNames List.nodup_nil hnames
          exact Scope.Updates.registers hdistinct
  | _ => exact rfl

variable (issued : Nat)

theorem atomic_defineVariable (hfinds : recur.Finds V scope Becomes) (head : Node) {value : Node}
    (hvalue : value.Within V) :
    Atomic scope (scope.Ends Becomes issued "define" [head, value]) ((defineVariable head value).run recur) := by
  refine Action.atomic_bind (Action.atomic_ofExcept _) fun name hname => ?_
  rw [Node.eq_symbol_of_asSymbol hname]
  show Atomic scope _ (((Definition.bindVariable name value).andThen _).run recur)
  rw [Action.run_andThen]
  show Atomic scope _ (((Action.simplified value).andThen _).run recur >>= _)
  rw [Action.run_andThen, Action.run_simplified, bind_assoc]
  refine (hfinds value hvalue).bind fun answer hanswer => ?_
  split
  · exact atomic_throw _
  · rename_i hmentions
    rintro env rfl
    exact Scope.Updates.binds hanswer hmentions

theorem atomic_delete (head : Node) :
    Atomic scope (scope.Ends Becomes issued "del" [head]) ((delete head).run recur) := by
  refine Action.atomic_bind (Action.atomic_ofExcept _) fun name hname => ?_
  rw [Node.eq_symbol_of_asSymbol hname]
  rintro env rfl
  have hset : (env.setRegistry (env.registry.removeAll name).2).get? name = env.get? name := rfl
  rw [Action.run_removeAll, Action.run_release, hset]
  cases hvalue : env.get? name with
  | some value => exact Scope.Updates.removes
  | none =>
      have hbindings : env.bindings.erase name = env.bindings := Bindings.erase_of_get?_none hvalue
      by_cases hcount : (env.registry.removeAll name).1 = 0
      · have hregistry : (env.registry.removeAll name).2 = env.registry := Registry.removeAll_of_none hcount
        simp only [hcount, hregistry]
        rfl
      · have hremove : (env.setRegistry (env.registry.removeAll name).2).current = env.current.remove name := by
          rw [Scope.remove]
          show Scope.mk env.bindings _ = Scope.mk (env.bindings.erase name) _
          rw [hbindings]
          rfl
        have hanswer : ((none : Option Node).isNone && (env.registry.removeAll name).1 == 0) = false := by
          simp [hcount]
        simp only [hanswer]
        show env.current.Updates Becomes issued "del" [.symbol name] _ (.symbol name)
        rw [hremove]
        exact .removes

theorem atomic_setElement (hfinds : recur.Finds V scope Becomes) {head index value : Node}
    (hhead : head.Within V) (hindex : index.Within V) (hvalue : value.Within V)
    (hvalues : ∀ name value, V.symbol name → scope.bindings.get? name = some value → value.Within V) :
    Atomic scope (scope.Ends Becomes issued "set" [head, index, value])
      ((setElement head index value).run recur) := by
  refine Action.atomic_bind (Action.atomic_ofExcept _) fun name hname => ?_
  rw [Node.eq_symbol_of_asSymbol hname] at hhead ⊢
  refine Action.atomic_bind (Action.atomic_simplified hfinds hindex) fun index' hindex' => ?_
  refine Action.atomic_bind (Action.atomic_ofExcept _) fun place hplace => ?_
  rw [Node.eq_small_of_asInteger hplace] at hindex'
  refine Action.atomic_bind (Action.atomic_simplified hfinds hvalue) fun replacement hreplacement => ?_
  refine Action.atomic_lookup ?_
  cases hheld : scope.bindings.get? name with
  | none => exact atomic_throw _
  | some bound =>
      have hbound := hvalues name bound (Node.within_symbol.mp hhead) hheld
      refine Action.atomic_bind (Action.atomic_simplified hfinds hbound) fun list hlist => ?_
      refine Action.atomic_bind (Action.atomic_ofExcept _) fun elements helements => ?_
      rw [Node.eq_sequence_of_asSequence helements] at hlist
      refine Action.atomic_bind (Action.atomic_ofExcept _) fun position hposition => ?_
      rintro env rfl
      exact Scope.Updates.replaces hindex' hreplacement hheld hlist hposition

/-- The handler of every statement is atomic. -/
theorem atomicFrom_statement (env : Environment) (hfinds : recur.Finds V env.current Becomes)
    (hvalues : ∀ name value, V.symbol name → env.get? name = some value → value.Within V)
    {operation : Operation} (hmem : operation ∈ standard.operations)
    (hdefining : operation.name ∈ definingNames) {args : List Node} (hargs : ∀ arg ∈ args, arg.Within V) :
    ((operation.handler args).run recur).AtomicFrom env
      (env.current.Ends Becomes env.issued operation.name args) := by
  have heffects : operation.name ∈ effectfulNames := by
    have hsubset : ∀ name ∈ definingNames, name ∈ effectfulNames := by decide
    exact hsubset _ hdefining
  refine effectful_cases (motive := fun operation => operation.name ∈ definingNames →
    ((operation.handler args).run recur).AtomicFrom env
      (env.current.Ends Becomes env.issued operation.name args))
    hmem heffects (fun _ => ?_) (fun _ => ?_) (fun _ => ?_) (fun _ => ?_)
    (fun hname => absurd hname (by decide)) (fun hname => absurd hname (by decide)) (fun _ => ?_) hdefining
  · match args with
    | [head, template] => exact atomicFrom_defineOperation env head template
    | [] => exact (atomic_pure rfl).atomicFrom
    | [_] => exact (atomic_pure rfl).atomicFrom
    | _ :: _ :: _ :: _ => exact (atomic_pure rfl).atomicFrom
  · match args with
    | [head, value] => exact (atomic_defineVariable env.issued hfinds head (hargs value (by simp))).atomicFrom
    | [] => exact (atomic_pure rfl).atomicFrom
    | [_] => exact (atomic_pure rfl).atomicFrom
    | _ :: _ :: _ :: _ => exact (atomic_pure rfl).atomicFrom
  · exact (atomic_throw _).atomicFrom
  · match args with
    | [head] => exact (atomic_delete env.issued head).atomicFrom
    | [] => exact (atomic_pure rfl).atomicFrom
    | _ :: _ :: _ => exact (atomic_pure rfl).atomicFrom
  · match args with
    | [head, index, value] =>
        exact (atomic_setElement env.issued hfinds (hargs head (by simp)) (hargs index (by simp))
          (hargs value (by simp)) hvalues).atomicFrom
    | [] => exact (atomic_pure rfl).atomicFrom
    | [_] => exact (atomic_pure rfl).atomicFrom
    | [_, _] => exact (atomic_pure rfl).atomicFrom
    | _ :: _ :: _ :: _ :: _ => exact (atomic_pure rfl).atomicFrom

end Builtin

/-! ### After a change -/

section Updates

variable {V : Vocabulary} {scope : Scope}

theorem Definition.calm_templateOperation (name : String) (names aliases : List String) {template : Node}
    (h : template.Within V) : (templateOperation name aliases (rename names aliases template)).CalmIn V :=
  fun _ htakes hargs => .done (offered_some (kind_templateOperation V.kind name h htakes hargs))

/-- The values of the symbols of the vocabulary stay within it where a variable is bound to a node of the
vocabulary. -/
theorem Scope.values_bind
    (hvalues : ∀ name value, V.symbol name → scope.bindings.get? name = some value → value.Within V) (name : String)
    {value : Node} (hvalue : value.Within V) :
    ∀ other held, V.symbol other → (scope.bind name value).bindings.get? other = some held → held.Within V := by
  intro other held hother hheld
  change (scope.bindings.set name value).get? other = some held at hheld
  rw [Bindings.get?_set] at hheld
  split at hheld
  · cases hheld
    exact hvalue
  · exact hvalues other held hother hheld

theorem Scope.CalmIn.bind (h : scope.CalmIn V) (name : String) {value : Node} (hvalue : value.Within V) :
    (scope.bind name value).CalmIn V :=
  ⟨h.unmarked, h.operations, Scope.values_bind h.values name hvalue⟩

theorem Scope.CalmIn.register (h : scope.CalmIn V) {operation : Operation} (hcalm : operation.CalmIn V) :
    (scope.register operation).CalmIn V := by
  refine ⟨h.unmarked, fun other hmem hname => ?_, h.values⟩
  rcases Registry.mem_enter hmem with rfl | hmem
  · exact hcalm
  · exact h.operations other hmem hname

theorem Scope.CalmIn.remove (h : scope.CalmIn V) (name : String) : (scope.remove name).CalmIn V := by
  refine ⟨h.unmarked, fun other hmem => h.operations other (List.mem_of_mem_filter hmem),
    fun other held hother hheld => ?_⟩
  exact h.values other held hother (Bindings.get?_of_get?_erase hheld)

variable {Becomes : Node → Node → Prop} {issued : Nat} {name : String} {args : List Node} {after : Scope}
  {answer : Node} (hcalm : scope.CalmIn V)
  (hbecomes : ∀ node result, node.Within V → Becomes node result → result.Within V)
  (hargs : ∀ arg ∈ args, arg.Within V) (h : scope.Updates Becomes issued name args after answer)
include hcalm hbecomes hargs h

/-- A calm scope is calm after a change. -/
theorem Scope.Updates.calm : after.CalmIn V := by
  cases h with
  | binds hanswer _ => exact hcalm.bind _ (hbecomes _ _ (hargs _ (by simp)) hanswer)
  | registers _ => exact hcalm.register (Definition.calm_templateOperation _ _ _ (hargs _ (by simp)))
  | removes => exact hcalm.remove _
  | @replaces name _ _ bound _ _ _ elements _ hreplacement hheld hlist _ =>
      have hbound := hcalm.values name bound (Node.within_symbol.mp (hargs _ (by simp))) hheld
      have helements := Node.within_sequence.mp (hbecomes _ _ hbound hlist)
      exact hcalm.bind _ (V.kind.set helements _ (hbecomes _ _ (hargs _ (by simp)) hreplacement))

/-- The answer of a statement is within the vocabulary, provided that the name of an operation that it
defines is a symbol. -/
theorem Scope.Updates.answer_within
    (hhead : ∀ defined parameters, args.head? = some (.application defined parameters) → V.symbol defined) :
    answer.Within V := by
  cases h with
  | binds hanswer _ => exact hbecomes _ _ (hargs _ (by simp)) hanswer
  | registers _ => exact Node.within_symbol.mpr (hhead _ _ rfl)
  | removes => exact hargs _ (by simp)
  | @replaces name _ _ bound _ _ _ elements _ hreplacement hheld hlist _ =>
      have hbound := hcalm.values name bound (Node.within_symbol.mp (hargs _ (by simp))) hheld
      have helements := Node.within_sequence.mp (hbecomes _ _ hbound hlist)
      exact V.kind.set helements _ (hbecomes _ _ (hargs _ (by simp)) hreplacement)

end Updates

/-! ### Statements that fail -/

theorem Scope.CalmIn.finds {V : Vocabulary} {scope : Scope} (h : scope.CalmIn V) (room : Nat) :
    (simplifyWithin room).Finds V scope (scope.Becomes room) := by
  intro node hnode env hcurrent
  have hstill := h.still room node hnode env hcurrent
  rcases hrun : simplifyWithin room node env with ⟨failure | result, after⟩
  · rw [hrun] at hstill
    exact hstill
  · rw [hrun] at hstill
    exact ⟨⟨env, after, hcurrent, hrun⟩, hstill.2⟩

theorem atomic_simplifyEach {V : Vocabulary} {scope : Scope} {recur : Simplifier}
    {Becomes : Node → Node → Prop} (hfinds : recur.Finds V scope Becomes) {nodes : List Node}
    (hnodes : ∀ node ∈ nodes, node.Within V) :
    Atomic scope (fun results after => List.Forall₂ Becomes nodes results ∧ after = scope)
      (simplifyEach recur nodes) := by
  induction nodes with
  | nil => exact atomic_pure ⟨.nil, rfl⟩
  | cons node rest ih =>
      rw [List.forall_mem_cons] at hnodes
      rw [simplifyEach]
      refine (hfinds node hnodes.1).bind fun result hresult => ?_
      exact (ih hnodes.2).bind fun others hothers => atomic_pure ⟨.cons hresult hothers, rfl⟩

namespace Builtin

/-- The arguments of statements reach their handlers as they are. -/
theorem preserves_statement {registry : Registry} {operation : Operation}
    (hstandard : operation ∈ standard.operations) (hdefining : operation.name ∈ definingNames)
    (hmem : operation ∈ registry.operations) : registry.preservesArguments operation.name := by
  have hpreserving : ∀ operation ∈ standard.operations, operation.name ∈ definingNames →
      operation.attributes.preservesArguments := by
    decide +kernel
  refine List.any_eq_true.mpr ⟨operation, ?_, hpreserving operation hstandard hdefining⟩
  exact List.mem_filter.mpr ⟨hmem, beq_self_eq_true _⟩

/-- The arguments of statements keep their order. -/
theorem ordered_statement {registry : Registry}
    (hstandard : ∀ operation ∈ registry.operations, operation.name ∈ definingNames →
      operation ∈ standard.operations)
    {name : String} (hname : name ∈ definingNames) : ¬registry.isCommutative name := by
  intro hcommutative
  have hordered : ∀ operation ∈ standard.operations, operation.attributes.commutative →
      operation.name ∉ definingNames := by
    decide +kernel
  obtain ⟨operation, hmem, rfl, hselected⟩ := Registry.exists_of_hasAttribute hcommutative
  exact hordered operation (hstandard operation hmem hname) hselected hname

end Builtin

section Run

variable {V : Vocabulary} {scope : Scope} {recur : Simplifier} {Becomes : Node → Node → Prop}
  (hfinds : recur.Finds V scope Becomes)
  (hvalues : ∀ name value, V.symbol name → scope.bindings.get? name = some value → value.Within V)
  (hstandard : ∀ operation ∈ scope.registry.operations, operation.name ∈ definingNames →
    operation ∈ Builtin.standard.operations)
  {name : String} (hname : name ∈ definingNames) {args : List Node} (hargs : ∀ arg ∈ args, arg.Within V)
  {env after : Environment} {outcome : Except Failure Node} (hcurrent : env.current = scope)
include hfinds hvalues hstandard hname hargs

include hcurrent

theorem atomicFrom_invokeStatement :
    (invokeWith recur name args).AtomicFrom env (scope.Ends Becomes env.issued name args) := by
  subst hcurrent
  rw [AtomicFrom, invokeWith_run]
  cases hresolve : env.registry.resolve name args with
  | none => exact rfl
  | some operation =>
      obtain ⟨hmem, rfl, _⟩ := Registry.mem_of_resolve hresolve
      exact Builtin.atomicFrom_statement env hfinds hvalues (hstandard operation hmem hname) hname hargs

/-- A statement that is prepared changes nothing, or makes its change and has its answer simplified. -/
theorem run_preparedStatement (hrun : simplifyPrepared recur name args env = (outcome, after)) :
    after.current = scope ∨ ∃ answer mid, scope.Updates Becomes env.issued name args mid.current answer ∧
      recur answer mid = (outcome, after) := by
  have hordered := Builtin.ordered_statement hstandard hname
  have hregistry : env.registry = scope.registry := congrArg Scope.registry hcurrent
  have harranged : arrange env.registry name args = args := by
    rw [hregistry, arrange_of_ordered hordered]
  have hatomic := atomicFrom_invokeStatement hfinds hvalues hstandard hname hargs hcurrent
  rw [AtomicFrom, hcurrent] at hatomic
  rcases hinvoke : invokeWith recur name args env with ⟨other | (_ | answer), mid⟩
  · rw [hinvoke] at hatomic
    rw [simplifyPrepared_of_error harranged hinvoke] at hrun
    cases hrun
    exact .inl hatomic
  · rw [hinvoke] at hatomic
    have hmid : mid.registry = scope.registry := congrArg Scope.registry hatomic
    rw [simplifyPrepared_of_ordered harranged (hmid ▸ hordered) hinvoke] at hrun
    cases hrun
    exact .inl hatomic
  · rw [hinvoke] at hatomic
    rw [simplifyPrepared_of_offer harranged hinvoke] at hrun
    exact .inr ⟨answer, mid, hatomic, hrun⟩

/-- The same for a statement as it is written. Without an operation of its name it is left as it is, once its
arguments have been simplified. -/
theorem run_statement (hrun : simplifyApplication recur name args env = (outcome, after)) :
    after.current = scope ∨ ∃ answer mid, scope.Updates Becomes env.issued name args mid.current answer ∧
      recur answer mid = (outcome, after) := by
  have hplain : ∀ name ∈ definingNames, deferred? name = none := by decide
  have hregistry : env.registry = scope.registry := congrArg Scope.registry hcurrent
  by_cases hpreserves : env.registry.preservesArguments name
  · rw [simplifyApplication_of_preserves (hplain name hname) hpreserves] at hrun
    exact run_preparedStatement hfinds hvalues hstandard hname hargs hcurrent hrun
  · rw [simplifyApplication_of_not_preserves (hplain name hname) hpreserves] at hrun
    rw [hregistry] at hpreserves
    have heach := atomic_simplifyEach hfinds hargs env hcurrent
    rcases hreduced : simplifyEach recur args env with ⟨other | reduced, mid⟩
    · rw [hreduced] at heach
      rw [bind_run_error hreduced] at hrun
      cases hrun
      exact .inl heach
    · rw [hreduced] at heach
      have hmid : mid.registry = scope.registry := congrArg Scope.registry heach.2
      have hunresolved : scope.registry.resolve name reduced = none := by
        cases hresolve : scope.registry.resolve name reduced with
        | none => rfl
        | some operation =>
            obtain ⟨hmem, rfl, _⟩ := Registry.mem_of_resolve hresolve
            exact (hpreserves (Builtin.preserves_statement (hstandard operation hmem hname) hname hmem)).elim
      have hordered := Builtin.ordered_statement hstandard hname
      have hinvoke : invokeWith recur name reduced mid = (.ok none, mid) := by
        rw [invokeWith_run, hmid, hunresolved]
      rw [← hmid] at hordered
      rw [bind_run_ok hreduced, simplifyPrepared_of_ordered (arrange_of_ordered hordered _) hordered hinvoke] at hrun
      cases hrun
      exact .inl heach.2

end Run

end SymbolicAlgebra
