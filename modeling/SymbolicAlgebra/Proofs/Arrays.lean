import SymbolicAlgebra.Proofs.Acyclicity
import SymbolicAlgebra.Proofs.Stored

/-! Sequences as arrays. A statement `set` looks its sequence up after it has simplified the new element, and
this may be a `set` on the same sequence. Where the sequence comes to itself when it is simplified again, such
statements do to it what the updates do to a functional array, one after the other, the inner ones first. -/

namespace SymbolicAlgebra

open Evaluation

/-- A number of levels deeper. -/
def Environment.below (env : Environment) (levels : Nat) : Environment :=
  { env with depth := env.depth + levels }

theorem Environment.below_below (env : Environment) (upper lower : Nat) :
    (env.below upper).below lower = env.below (upper + lower) := by
  rw [below, below, below, Nat.add_assoc]

/-- A variable that is bound twice has the second value, at whatever depth. -/
theorem Environment.set_set_at (env : Environment) (name : String) (first second : Node) (depth : Nat) :
    { env.set name first with depth }.set name second = { env with depth }.set name second := by
  simp only [set, setBindings, bindings, Bindings.set_set]

/-- A statement that puts an element into the sequence of a variable: the element is what an expression comes
to, or a statement of this form. -/
inductive Put where
  | value (index : Int64) (node : Node)
  | nested (index : Int64) (inner : Put)

/-- The statement that puts what `value` comes to. -/
def setting (name : String) (index : Int64) (value : Node) : Node :=
  .application "set" [.symbol name, .number (.small index), value]

namespace Put

/-- The statement as it is written, for a variable. -/
def node (name : String) : Put → Node
  | value index node => setting name index node
  | nested index inner => setting name index (inner.node name)

/-- The expression inside all the statements. -/
def innermost : Put → Node
  | value _ node => node
  | nested _ inner => inner.innermost

/-- The number of the statements. -/
def nesting : Put → Nat
  | value _ _ => 1
  | nested _ inner => inner.nesting + 1

/-! ### The functional array -/

/-- The update of an array at an index, by what a new element has come to: the answer, and the array after it.
An index outside the array is a failure, which leaves the array as it is, as does the failure of an element. -/
def update (index : Int64) (outcome : Except Failure Node) (array : List Node) :
    Except Failure Node × List Node :=
  match outcome with
  | .error failure => (.error failure, array)
  | .ok element =>
    if 0 ≤ index.toInt ∧ index.toInt < array.length then
      let updated := array.set index.toInt.toNat element
      (.ok (.sequence updated), updated)
    else (.error (.indexOutOfBounds array.length index.toInt), array)

/-- The updates of all the statements, the inner ones first, by what the innermost expression has come to. -/
def perform (outcome : Except Failure Node) : Put → List Node → Except Failure Node × List Node
  | value index _, array => update index outcome array
  | nested index inner, array =>
    let (answer, updated) := inner.perform outcome array
    update index answer updated

/-- What statements on an array come to: their outcomes, and the array and the environment after them. -/
structure Result where
  outcomes : List (Except Failure Node)
  array : List Node
  env : Environment

/-- Statements on a functional array, one after the other. The interpreter is asked for nothing but what the
innermost expressions come to while the variable has the array; the updates are made on the array. -/
def performAll (name : String) : List Put → Environment → List Node → Result
  | [], env, array => ⟨[], array, env⟩
  | put :: rest, env, array =>
    let (outcome, mid) := simplify put.innermost (env.below put.nesting)
    let (answer, updated) := put.perform outcome array
    let others := performAll name rest ({ mid with depth := env.depth }.set name (.sequence updated)) updated
    { others with outcomes := answer :: others.outcomes }

theorem eq_of_update_ok {index : Int64} {outcome : Except Failure Node} {array : List Node} {answer : Node}
    (h : (update index outcome array).1 = .ok answer) : answer = .sequence (update index outcome array).2 := by
  cases outcome with
  | error failure => cases h
  | ok element =>
      rw [update] at h ⊢
      split at h
      · rename_i hinside
        rw [if_pos hinside]
        cases h
        rfl
      · cases h

theorem length_update (index : Int64) (outcome : Except Failure Node) (array : List Node) :
    (update index outcome array).2.length = array.length := by
  cases outcome with
  | error failure => rfl
  | ok element =>
      rw [update]
      split
      · exact List.length_set
      · rfl

theorem length_perform (outcome : Except Failure Node) (put : Put) (array : List Node) :
    (put.perform outcome array).2.length = array.length := by
  induction put with
  | value index node => exact length_update index outcome array
  | nested index inner ih => exact (length_update index _ _).trans ih

theorem length_performAll (name : String) (puts : List Put) (env : Environment) (array : List Node) :
    (performAll name puts env array).array.length = array.length := by
  induction puts generalizing env array with
  | nil => rfl
  | cons put rest ih => exact (ih _ _).trans (length_perform _ put array)

end Put

/-- The failure that an outcome is, if it is one. -/
def failure? : Except Failure Node → Option Failure
  | .ok _ => none
  | .error failure => some failure

/-- Simplifies statements one after the other, whether they fail or not. -/
def simplifyInOrder : List Node → Environment → List (Except Failure Node) × Environment
  | [], env => ([], env)
  | node :: rest, env =>
    let (outcome, after) := simplify node env
    let (outcomes, last) := simplifyInOrder rest after
    (outcome :: outcomes, last)

/-! ### A variable that has an array -/

/-- The operations are standard ones, and `set` is among them. -/
structure Registry.SetsElements (registry : Registry) : Prop where
  standard : ∀ operation ∈ registry.operations, operation ∈ Builtin.standard.operations
  contains : registry.contains "set"

/-- The node can be stored: it is within the vocabulary, and it is simple but for the variable. -/
def Scope.Storable (V : Vocabulary) (name : String) (scope : Scope) (node : Node) : Prop :=
  node.Within V ∧ scope.SimpleBut name node

/-- With standard operations, and variables that define nothing, the elements are stored in one of these. They are
within a vocabulary without effects, and so are the values of its symbols. -/
structure Scope.Stores (V : Vocabulary) (name : String) (elements : List Node) (scope : Scope) : Prop where
  vocabulary : V.Quiet
  operations : scope.registry.SetsElements
  plain : ∀ symbol value, scope.bindings.get? symbol = some value → value.Within .plain
  values : ∀ symbol value, V.symbol symbol → scope.bindings.get? symbol = some value → value.Within V
  bound : scope.bindings.get? name = some (.sequence elements)
  within : ∀ element ∈ elements, element.Within V
  simple : ∀ element ∈ elements, scope.SimpleBut name element

/-- What has no effects defines nothing. -/
theorem Vocabulary.Quiet.plain {V : Vocabulary} (hV : V.Quiet) {node : Node} (h : node.Within V) :
    node.Within .plain := by
  have hsubset : ∀ name ∈ definingNames, name ∈ effectfulNames := by decide
  refine h.mono (fun _ _ => trivial) fun name hname => ?_
  obtain ⟨hunmarked, heffects⟩ := hV.effectFree name hname
  exact ⟨hunmarked, fun hdefining => heffects (hsubset name hdefining)⟩

/-- Standard operations keep the vocabulary, where the values of its symbols are within it. -/
theorem Vocabulary.Quiet.quietOn {V : Vocabulary} (hV : V.Quiet) {scope : Scope}
    (hstandard : ∀ operation ∈ scope.registry.operations, operation ∈ Builtin.standard.operations)
    (hvalues : ∀ symbol value, V.symbol symbol → scope.bindings.get? symbol = some value → value.Within V) :
    scope.QuietOn (Node.Within V) := by
  refine Scope.quietOn_within (fun name hname => (hV.effectFree name hname).1) ?_ hvalues
  intro operation hmem hname
  exact Builtin.quietIn_standard hV.suits (hstandard operation hmem) hname (hV.effectFree _ hname).2

theorem Scope.alikeBut_bind (name : String) (value : Node) (scope : Scope) :
    (scope.bind name value).AlikeBut name scope :=
  ⟨rfl, fun _ hother => Bindings.get?_set_of_ne scope.bindings value hother⟩

theorem Scope.SimpleBut.of_alikeBut {name : String} {scope other : Scope} {node : Node}
    (h : scope.SimpleBut name node) (halike : other.AlikeBut name scope) : other.SimpleBut name node := by
  obtain ⟨origin, room, hscope, hreduces⟩ := h
  exact ⟨origin, room, halike.trans hscope, hreduces⟩

namespace Scope.Stores

variable {V : Vocabulary} {name : String} {elements : List Node} {scope : Scope} (h : scope.Stores V name elements)
include h

theorem quiet : scope.QuietOn (Node.Within V) :=
  h.vocabulary.quietOn h.operations.standard h.values

theorem yields (room : Nat) : (simplifyWithin room (.sequence elements)).Yields scope (.sequence elements) :=
  yields_stored (fun operation hmem => Builtin.candid_standard (h.operations.standard operation hmem)) h.quiet
    (Node.within_sequence.mpr h.within) h.bound h.simple room

/-- The variable is bound to an array with one element that is new. -/
theorem bind_set (position : Nat) {element : Node} (helement : scope.Storable V name element) :
    (scope.bind name (.sequence (elements.set position element))).Stores V name (elements.set position element) := by
  have hnew {P : Node → Prop} (hold : ∀ other ∈ elements, P other) (hP : P element) :
      ∀ other ∈ elements.set position element, P other := fun other hmem =>
    (List.mem_or_eq_of_mem_set hmem).elim (hold other) fun hequal => hequal ▸ hP
  have helements := hnew h.within helement.1
  have hlist : (Node.sequence (elements.set position element)).Within V := Node.within_sequence.mpr helements
  refine ⟨h.vocabulary, h.operations, Bindings.forall_get?_set (h.vocabulary.plain hlist) h.plain,
    Scope.values_bind h.values name hlist, Bindings.get?_set_self _ _ _, helements, ?_⟩
  exact hnew (fun other hmem => (h.simple other hmem).of_alikeBut (alikeBut_bind name _ scope))
    (helement.2.of_alikeBut (alikeBut_bind name _ scope))

/-- Without a new element nothing changes, for the array and for the variable. -/
theorem bind_self : scope.bind name (.sequence elements) = scope := by
  rw [bind, Bindings.set_of_get? h.bound]

/-- After an update, the variable has the array after it. -/
theorem update (index : Int64) {outcome : Except Failure Node} (houtcome : Ensures (scope.Storable V name) outcome) :
    (scope.bind name (.sequence (Put.update index outcome elements).2)).Stores V name
      (Put.update index outcome elements).2 := by
  cases outcome with
  | error failure => rwa [Put.update, h.bind_self]
  | ok element =>
      rw [Put.update]
      split
      · exact h.bind_set _ (houtcome element rfl)
      · rwa [h.bind_self]

/-- What the sequence comes to can be stored in turn. -/
theorem storable {room : Nat} {env : Environment} (henv : env.current = scope)
    (hrun : simplifyWithin room (.sequence elements) env = (.ok (.sequence elements), env)) :
    scope.Storable V name (.sequence elements) := by
  have hlist := Node.within_sequence.mpr h.within
  obtain ⟨_, hreduces, _⟩ := simplifyWithin_obeys h.quiet room _ _ env env hlist henv hrun
  exact ⟨hlist, scope, room, .refl name scope, hreduces⟩

end Scope.Stores

/-! ### One statement -/

theorem Action.run_simplified_then {β : Type} (recur : Simplifier) (node : Node)
    (next : Node → Action Operation β) :
    (Action.simplified node >>= next).run recur = recur node >>= fun answer => (next answer).run recur := by
  show ((Action.simplified node).andThen next).run recur = _
  rw [run_andThen, run_simplified]

section Setting

variable {V : Vocabulary} {recur : Simplifier} {name : String} {index : Int64} {value : Node} {env mid : Environment}
  {outcome : Except Failure Node} {elements : List Node}

open Builtin (setElement)

/-- The handler makes the update by what the new element has come to, unless one of its simplifications fails at
the nesting limit. The sequence is looked up behind the simplification of the new element, which may be a
statement on the same sequence. -/
theorem run_setElement
    (hindex : (recur (.number (.small index))).Exhausts env ∨
      recur (.number (.small index)) env = (.ok (.number (.small index)), env))
    (hvalue : recur value env = (outcome, mid)) (hbound : mid.get? name = some (.sequence elements))
    (hlist : (recur (.sequence elements)).Exhausts mid ∨
      recur (.sequence elements) mid = (.ok (.sequence elements), mid)) :
    ((setElement (.symbol name) (.number (.small index)) value).run recur).Exhausts env ∨
      (setElement (.symbol name) (.number (.small index)) value).run recur env =
        ((Put.update index outcome elements).1.map some,
          mid.set name (.sequence (Put.update index outcome elements).2)) := by
  have hsame : mid.set name (.sequence elements) = mid := by
    rw [Environment.set, Bindings.set_of_get? hbound]
    rfl
  show ((Action.simplified (.number (.small index)) >>= _).run recur).Exhausts env ∨
    (Action.simplified (.number (.small index)) >>= _).run recur env = _
  rw [Action.run_simplified_then]
  rcases hindex with hindex | hindex
  · exact .inl (hindex.bind _)
  rw [Exhausts, bind_run_ok hindex]
  show ((Action.simplified value >>= _).run recur).Exhausts env ∨
    (Action.simplified value >>= _).run recur env = _
  rw [Action.run_simplified_then]
  cases outcome with
  | error failure =>
      rw [bind_run_error hvalue, Put.update, hsame]
      exact .inr rfl
  | ok element =>
      rw [Exhausts, bind_run_ok hvalue, Action.run_lookup, hbound]
      show ((Action.simplified (.sequence elements) >>= _).run recur).Exhausts mid ∨
        (Action.simplified (.sequence elements) >>= _).run recur mid = _
      rw [Action.run_simplified_then]
      rcases hlist with hlist | hlist
      · exact .inl (hlist.bind _)
      rw [Exhausts, bind_run_ok hlist, Put.update]
      refine .inr ?_
      show ((Action.ofExcept (Guard.index index.toInt elements.length)).andThen _).run recur mid = _
      rw [Guard.index]
      split
      · rfl
      · rw [hsame]
        rfl

/-- The statement goes to the one operation of its name. -/
theorem Registry.SetsElements.resolve {registry : Registry} (h : registry.SetsElements) (name : String)
    (index : Int64) (value : Node) :
    registry.resolve "set" [.symbol name, .number (.small index), value] =
      some (Operation.ternary "set" .symbol .any .any setElement).preservingArguments := by
  have hsole (operation : Operation) (hmem : operation ∈ registry.operations) (hname : operation.name = "set") :
      operation = (Operation.ternary "set" .symbol .any .any setElement).preservingArguments := by
    have hlisted : operation ∈ Builtin.standard.overloads "set" :=
      List.mem_filter.mpr ⟨h.standard operation hmem, beq_iff_eq.mpr hname⟩
    exact List.mem_singleton.mp hlisted
  cases hresolve : registry.resolve "set" [.symbol name, .number (.small index), value] with
  | none =>
      obtain ⟨operation, hmem, hname⟩ := Registry.exists_of_contains h.contains
      refine (Registry.resolve_eq_none_iff.mp hresolve operation hmem hname (.inl ?_)).elim
      rw [hsole operation hmem hname]
      rfl
  | some operation =>
      obtain ⟨hmem, hname, _⟩ := Registry.mem_of_resolve hresolve
      rw [hsole operation hmem hname]

/-- The statement goes to its handler as it is written, and the answer is simplified. -/
theorem run_setting (hsets : env.registry.SetsElements) {outcome : Except Failure (Option Node)}
    (hrun : (setElement (.symbol name) (.number (.small index)) value).run recur env = (outcome, mid)) :
    (∀ failure, outcome = .error failure →
      simplifyStep recur (setting name index value) env = (.error failure, mid)) ∧
    (∀ answer, outcome = .ok (some answer) →
      simplifyStep recur (setting name index value) env = recur answer mid) := by
  have hpreserves : env.registry.preservesArguments "set" := by
    obtain ⟨operation, hmem, hname⟩ := Registry.exists_of_contains hsets.contains
    have hdefining : operation.name ∈ definingNames := by
      rw [hname]
      decide
    rw [← hname]
    exact Builtin.preserves_statement (hsets.standard operation hmem) hdefining hmem
  have hordered : ¬env.registry.isCommutative "set" :=
    Builtin.ordered_statement (fun operation hmem _ => hsets.standard operation hmem) (by decide)
  have hinvoke : invokeWith recur "set" [.symbol name, .number (.small index), value] env = (outcome, mid) := by
    rw [invokeWith_run, hsets.resolve]
    exact hrun
  rw [setting, simplifyStep_application, simplifyApplication_of_preserves (by decide) hpreserves]
  constructor
  · rintro failure rfl
    exact simplifyPrepared_of_error (arrange_of_ordered hordered _) hinvoke
  · rintro answer rfl
    exact simplifyPrepared_of_offer (arrange_of_ordered hordered _) hinvoke

theorem exhausts_setting (hsets : env.registry.SetsElements)
    (h : ((setElement (.symbol name) (.number (.small index)) value).run recur).Exhausts env) :
    (simplifyStep recur (setting name index value)).Exhausts env := by
  obtain ⟨failure, hfails, hlimit⟩ := h
  rcases hrun : (setElement (.symbol name) (.number (.small index)) value).run recur env with ⟨outcome, mid⟩
  rw [hrun] at hfails
  exact ⟨failure, by rw [(run_setting hsets hrun).1 failure hfails], hlimit⟩

/-- The computation fails at the nesting limit, or it does what is said: it has this answer, and it leaves `mid`
behind with this array in the variable. -/
def Evaluation.Performs (V : Vocabulary) (name : String) (result : Except Failure Node × List Node)
    (env mid : Environment) (computation : Evaluation Node) : Prop :=
  computation.Exhausts env ∨
    (computation env = (result.1, mid.set name (.sequence result.2)) ∧
      (mid.set name (.sequence result.2)).current.Stores V name result.2 ∧
      Ensures ((mid.set name (.sequence result.2)).current.Storable V name) result.1)

/-- What the variable was bound to makes no difference. -/
theorem Evaluation.Performs.of_set {result : Except Failure Node × List Node} {computation : Evaluation Node}
    {bound : Node} {depth : Nat} (h : computation.Performs V name result env { mid.set name bound with depth }) :
    computation.Performs V name result env { mid with depth } := by
  rw [Performs, Environment.set_set_at] at h
  exact h

/-- A number comes to itself wherever there is room. -/
theorem yields_number (room : Nat) (number : Number) (scope : Scope) :
    (simplifyWithin room (.number number)).Yields scope (.number number) := by
  cases room with
  | zero => exact fun env _ => .inl ⟨_, rfl, env.depth, rfl⟩
  | succ room => exact Yields.nested (yields_pure _)

/-- A new element that fails at the limit makes the statement do so. -/
theorem exhausts_of_value (index : Int64) {room : Nat} (hsets : env.registry.SetsElements)
    (hvalue : (simplifyWithin room value).Exhausts (env.below 1)) :
    (simplifyWithin (room + 1) (setting name index value)).Exhausts env := by
  refine Exhausts.nested (exhausts_setting hsets ?_)
  show ((Action.simplified (.number (.small index)) >>= _).run _).Exhausts (env.below 1)
  rw [Action.run_simplified_then]
  rcases yields_number room (.small index) _ (env.below 1) rfl with hindex | hindex
  · exact hindex.bind _
  rw [Exhausts, bind_run_ok hindex]
  show ((Action.simplified value >>= _).run _).Exhausts (env.below 1)
  rw [Action.run_simplified_then]
  exact hvalue.bind _

theorem Evaluation.Performs.nested {result : Except Failure Node × List Node} {inner : Evaluation Node}
    (h : inner.Performs V name result (env.below 1) mid) :
    (nested inner).Performs V name result env { mid with depth := mid.depth - 1 } := by
  refine h.imp Exhausts.nested fun ⟨hrun, hstores⟩ => ⟨?_, hstores⟩
  have hrun : inner { env with depth := env.depth + 1 } = (result.1, mid.set name (.sequence result.2)) := hrun
  rw [nested_run, hrun]
  rfl

/-- One statement makes one update, by what the new element has come to. -/
theorem performs_setting (index : Int64) {room : Nat} (hsets : env.registry.SetsElements)
    (hvalue : simplifyWithin room value (env.below 1) = (outcome, mid)) (hstores : mid.current.Stores V name elements)
    (hstorable : Ensures (mid.current.Storable V name) outcome) :
    (simplifyWithin (room + 1) (setting name index value)).Performs V name (Put.update index outcome elements) env
      { mid with depth := mid.depth - 1 } := by
  have hsets : (env.below 1).registry.SetsElements := hsets
  have hafter := hstores.update index hstorable
  have hindex := yields_number room (.small index) (env.below 1).current (env.below 1) rfl
  have hhandler := run_setElement hindex hvalue hstores.bound (hstores.yields room mid rfl)
  rw [simplifyWithin]
  refine Performs.nested ?_
  rcases hhandler with hexhausts | hrun
  · exact .inl (exhausts_setting hsets hexhausts)
  have hstep := run_setting hsets hrun
  cases hanswer : (Put.update index outcome elements).1 with
  | error failure =>
      refine .inr ⟨?_, hafter, ?_⟩
      · rw [hstep.1 failure (by rw [hanswer]; rfl), hanswer]
      · rw [hanswer]
        exact ensures_error _ failure
  | ok answer =>
      obtain rfl := Put.eq_of_update_ok hanswer
      have hstep := hstep.2 _ (by rw [hanswer]; rfl)
      rw [Performs, Exhausts, hstep, hanswer]
      refine (hafter.yields room _ rfl).imp id fun hrun => ⟨hrun, hafter, ensures_ok ?_⟩
      exact hafter.storable rfl hrun

end Setting

/-! ### Statements inside one another -/

namespace Put

/-- Statements inside one another make their updates, the inner ones first, by what the innermost expression has
come to. -/
theorem performs {V : Vocabulary} {name : String} {scope : Scope} {elements : List Node}
    (hstores : scope.Stores V name elements) (put : Put) {room : Nat} {env mid : Environment}
    {outcome : Except Failure Node} (henv : env.current = scope)
    (hvalue : simplifyWithin (room - put.nesting) put.innermost (env.below put.nesting) = (outcome, mid))
    (hmid : mid.current = scope) (hstorable : Ensures (scope.Storable V name) outcome) :
    (simplifyWithin room (put.node name)).Performs V name (put.perform outcome elements) env
      { mid with depth := mid.depth - put.nesting } := by
  subst hmid
  have hsets {env : Environment} (henv : env.current = mid.current) : env.registry.SetsElements := by
    rw [Environment.registry, henv]
    exact hstores.operations
  induction put generalizing room env with
  | value index node =>
      cases room with
      | zero => exact .inl ⟨_, rfl, env.depth, rfl⟩
      | succ room => exact performs_setting index (hsets henv) hvalue hstores hstorable
  | nested index inner ih =>
      cases room with
      | zero => exact .inl ⟨_, rfl, env.depth, rfl⟩
      | succ room =>
          have hlevels : env.below (inner.nesting + 1) = (env.below 1).below inner.nesting := by
            rw [Environment.below_below, Nat.add_comm]
          rw [nesting, Nat.add_sub_add_right, hlevels] at hvalue
          rcases ih hvalue henv with hexhausts | ⟨hrun, hinner, hanswer⟩
          · exact .inl (exhausts_of_value index (hsets henv) hexhausts)
          rw [nesting, ← Nat.sub_sub]
          exact (performs_setting index (hsets henv) hrun hinner hanswer).of_set

/-- What is asked of a statement where it is its turn. The innermost expression defines nothing. It is within the
vocabulary, or it comes to a node that is, and that is in its simplest form. And the statement does not fail at the
nesting limit. -/
structure Ready (V : Vocabulary) (name : String) (put : Put) (env : Environment) : Prop where
  plain : put.innermost.Within .plain
  settles : put.innermost.Within V ∨ ∀ value after,
    simplify put.innermost (env.below put.nesting) = (.ok value, after) →
      value.Within V ∧ (simplify value after).1 = .ok value
  within : ∀ depth, (simplify (put.node name) env).1 ≠ .error (.recursionLimit depth)

/-- All statements are ready when it is their turn. -/
def AllReady (V : Vocabulary) (name : String) : List Put → Environment → Prop
  | [], _ => True
  | put :: rest, env => put.Ready V name env ∧ AllReady V name rest (simplify (put.node name) env).2

end Put

/-- A node of a vocabulary without effects that is in its simplest form can be stored. -/
theorem storable_of_simplify {V : Vocabulary} {name : String} {env : Environment}
    (hquiet : env.current.QuietOn (Node.Within V)) {node : Node} (hnode : node.Within V)
    (hsimple : (simplify node env).1 = .ok node) : env.current.Storable V name node := by
  rcases hrun : simplify node env with ⟨outcome, after⟩
  rw [hrun] at hsimple
  cases hsimple
  obtain ⟨_, hreduces, _⟩ := (simplify_eq_ok_iff hquiet hnode).mp hrun
  exact ⟨hnode, _, _, .refl name _, hreduces⟩

namespace Scope.Stores

variable {V : Vocabulary} {name : String} {elements : List Node} {env : Environment}
  (h : env.current.Stores V name elements)
include h

theorem tidy : env.current.Tidy :=
  ⟨fun operation hmem => Builtin.tidy_standard (h.operations.standard operation hmem), h.plain⟩

/-- The innermost expression of a statement leaves the variable as it is, and comes to something that can be
stored in it. -/
theorem storable_innermost {put : Put} (hready : put.Ready V name env) {outcome : Except Failure Node}
    {mid : Environment} (hrun : simplify put.innermost (env.below put.nesting) = (outcome, mid)) :
    mid.current = env.current ∧ Ensures (env.current.Storable V name) outcome := by
  have hcurrent : (simplify put.innermost (env.below put.nesting)).2.current = env.current :=
    (h.tidy.calm.still _ _ hready.plain).current_eq rfl
  rw [hrun] at hcurrent
  refine ⟨hcurrent, ?_⟩
  rintro value rfl
  rcases hready.settles with hinnermost | hsettles
  · have hquiet : (env.below put.nesting).current.QuietOn (Node.Within V) := h.quiet
    obtain ⟨_, hreduces, hresult⟩ := (simplify_eq_ok_iff hquiet hinnermost).mp hrun
    have hpairs := Builtin.foldsByPairs_standard.of_operations h.operations.standard
    exact ⟨hresult, env.current, _, .refl name _, (hreduces.settled hpairs).same⟩
  · obtain ⟨hresult, hsimple⟩ := hsettles value mid hrun
    rw [← hcurrent] at h ⊢
    exact storable_of_simplify h.quiet hresult hsimple

/-- A statement that is ready makes its updates. -/
theorem simplify_put {put : Put} (hready : put.Ready V name env) {outcome : Except Failure Node} {mid : Environment}
    (hrun : simplify put.innermost (env.below put.nesting) = (outcome, mid)) :
    simplify (put.node name) env = ((put.perform outcome elements).1,
        { mid with depth := env.depth }.set name (.sequence (put.perform outcome elements).2)) ∧
      ({ mid with depth := env.depth }.set name (.sequence (put.perform outcome elements).2)).current.Stores V name
        (put.perform outcome elements).2 := by
  obtain ⟨hcurrent, hstorable⟩ := h.storable_innermost hready hrun
  have hdepth : mid.depth - put.nesting = env.depth := by
    have hframe := (keepsFrame_simplify put.innermost (env.below put.nesting)).depth
    rw [hrun] at hframe
    exact Nat.sub_eq_of_eq_add hframe
  have hvalue : simplifyWithin (env.maxDepth - env.depth - put.nesting) put.innermost (env.below put.nesting) =
      (outcome, mid) := by
    rw [Nat.sub_sub]
    exact hrun
  have hperforms := put.performs h rfl hvalue hcurrent hstorable
  rw [hdepth] at hperforms
  refine hperforms.elim (fun hexhausts => ?_) fun ⟨hanswer, hstores, _⟩ => ⟨hanswer, hstores⟩
  obtain ⟨_, hfails, depth, rfl⟩ := hexhausts
  exact (hready.within depth hfails).elim

end Scope.Stores

/-- So do statements one after the other. -/
theorem Put.simplifyInOrder_puts {V : Vocabulary} {name : String} {elements : List Node} {env : Environment}
    (hstores : env.current.Stores V name elements) {puts : List Put} (hready : AllReady V name puts env) :
    let result := performAll name puts env elements
    simplifyInOrder (puts.map (node name)) env = (result.outcomes, result.env) ∧
      result.env.current.Stores V name result.array := by
  induction puts generalizing env elements with
  | nil => exact ⟨rfl, hstores⟩
  | cons put rest ih =>
      obtain ⟨hput, hrest⟩ := hready
      rcases hrun : simplify put.innermost (env.below put.nesting) with ⟨outcome, mid⟩
      obtain ⟨hnode, hafter⟩ := hstores.simplify_put hput hrun
      rw [hnode] at hrest
      obtain ⟨hothers, hlast⟩ := ih hafter hrest
      rw [List.map_cons, simplifyInOrder, hnode, performAll, hrun]
      dsimp only
      rw [hothers]
      exact ⟨rfl, hlast⟩

/-- **Updates of elements are not lost.** With standard operations, and variables that define nothing, let a
variable be bound to a sequence of elements that are in their simplest form. They are within a vocabulary that has
no effects, and so are the values of its symbols; what else is bound may draw random numbers. Statements that put
elements into the sequence, inside one another as well as one after the other, do to it what the updates do to a
functional array of these elements, the inner ones first: they have the same outcomes, among them the failures for
indices outside the array, and leave the array in the variable, and the environment is otherwise as the innermost
expressions have left it. -/
theorem simplify_puts {V : Vocabulary} (hV : V.Quiet) (env : Environment)
    (hstandard : ∀ operation ∈ env.registry.operations, operation ∈ Builtin.standard.operations)
    (hset : env.registry.contains "set")
    (hplain : ∀ symbol value, env.get? symbol = some value → value.Within .plain)
    (hvalues : ∀ symbol value, V.symbol symbol → env.get? symbol = some value → value.Within V) {name : String}
    {elements : List Node} (hbound : env.get? name = some (.sequence elements))
    (helements : ∀ element ∈ elements, element.Within V)
    (hsimple : ∀ element ∈ elements, (simplify element env).1 = .ok element) (puts : List Put)
    (hready : Put.AllReady V name puts env) :
    let result := Put.performAll name puts env elements
    simplifyInOrder (puts.map (Put.node name)) env = (result.outcomes, result.env) ∧
      result.env.get? name = some (.sequence result.array) ∧ result.array.length = elements.length := by
  have hquiet : env.current.QuietOn (Node.Within V) := hV.quietOn hstandard hvalues
  have hstores : env.current.Stores V name elements :=
    ⟨hV, ⟨hstandard, hset⟩, hplain, hvalues, hbound, helements, fun element hmem =>
      (storable_of_simplify hquiet (helements element hmem) (hsimple element hmem)).2⟩
  obtain ⟨hrun, hlast⟩ := Put.simplifyInOrder_puts hstores hready
  exact ⟨hrun, hlast.bound, Put.length_performAll name puts env elements⟩

/-- A number that is drawn, a statement inside another one, one outside the array, and one inside such a one, on an
array of three. The value that draws is not in the vocabulary of the elements. -/
theorem simplify_puts_nested :
    let V : Vocabulary := ⟨(· ≠ "r"), EffectFreeName⟩
    let array := [Node.integer 1, .integer 2, .integer 3]
    let env := (Environment.standard.set "r" (.application "random" [])).set "xs" (.sequence array)
    let get := fun index => Node.application "get" [.symbol "xs", .integer index]
    let puts : List Put := [.value 2 (.symbol "r"),
      .nested 0 (.value 2 (.application "+" [get 0, get 1, .integer 5])), .value 3 (.symbol "y"),
      .nested (-1) (.value 1 (.boolean true))]
    let final := [Node.sequence [.integer 1, .integer 2, .integer 8], .boolean true, .integer 8]
    V.Quiet ∧ ∃ outcomes last, simplifyInOrder (puts.map (Put.node "xs")) env = (outcomes, last) ∧
      outcomes.map failure? = [none, none, some (.indexOutOfBounds 3 3), some (.indexOutOfBounds 3 (-1))] ∧
      (last.get? "xs").any (· == .sequence final) := by
  intro V array env get puts final
  have hV : V.Quiet := by
    refine ⟨⟨Vocabulary.suits_effectFree.written, fun _ _ _ label hlabel => ?_⟩, fun _ hname => hname⟩
    have hlabels : ∀ label ∈ Builtin.labels, label ≠ "r" := by decide
    exact hlabels label hlabel
  have helements : ∀ element ∈ array, element.Within V := by
    simp [array, Node.integer, Node.within_number]
  have hplain : ∀ symbol value, env.get? symbol = some value → value.Within .plain := by
    have hdraw : (Node.application "random" []).Within .plain := by decide
    refine Bindings.forall_get?_set (hV.plain (Node.within_sequence.mpr helements)) ?_
    exact Bindings.forall_get?_set hdraw fun _ _ hbound => by cases hbound
  have hvalues : ∀ symbol value, V.symbol symbol → env.get? symbol = some value → value.Within V := by
    refine Scope.values_bind (fun symbol value hsymbol hbound => ?_) "xs" (Node.within_sequence.mpr helements)
    change (Bindings.set _ "r" _).get? symbol = some value at hbound
    rw [Bindings.get?_set_of_ne _ _ hsymbol] at hbound
    cases hbound
  have hsimple : ∀ element ∈ array, (simplify element env).1 = .ok element := by
    simp only [array, List.forall_mem_cons]
    exact ⟨rfl, rfl, rfl, List.forall_mem_nil _⟩
  have hdrawn : ∀ value after, simplify (.symbol "r") (env.below 1) = (.ok value, after) →
      value.Within V ∧ (simplify value after).1 = .ok value := by
    intro value after hrun
    have hnumber : (simplify (.symbol "r") (env.below 1)).1.toOption.any (·.asNumber.toOption.isSome) := by
      decide +kernel
    have hframe := keepsFrame_simplify (.symbol "r") (env.below 1)
    rw [hrun] at hnumber hframe
    have hdepth : after.depth = 1 := hframe.depth
    have hlimit : after.maxDepth = 256 := hframe.maxDepth
    cases value with
    | number number =>
        refine ⟨Node.within_number number, ?_⟩
        rw [simplify, hdepth, hlimit]
        rfl
    | _ => cases hnumber
  have hready : Put.AllReady V "xs" puts env := by
    have hexpression : (Node.application "+" [get 0, get 1, .integer 5]).Within V := by
      have hnames : EffectFreeName "+" ∧ EffectFreeName "get" := by decide
      simp [V, get, Node.integer, Node.within_application, Node.within_symbol, Node.within_number, hnames]
    have hsymbol : (Node.symbol "y").Within V := Node.within_symbol.mpr (by decide)
    have htrue : (Node.boolean true).Within V := Node.within_boolean true
    have hwithin (outcome : Option Failure) {node : Node} {env : Environment}
        (h : failure? (simplify node env).1 = outcome) (hother : ∀ depth, outcome ≠ some (.recursionLimit depth))
        (depth : Nat) : (simplify node env).1 ≠ .error (.recursionLimit depth) := by
      intro hfails
      rw [hfails] at h
      exact hother depth h.symm
    refine ⟨⟨Node.within_symbol.mpr trivial, .inr hdrawn, hwithin none ?_ (by simp)⟩,
      ⟨hV.plain hexpression, .inl hexpression, hwithin none ?_ (by simp)⟩,
      ⟨hV.plain hsymbol, .inl hsymbol, hwithin (some (.indexOutOfBounds 3 3)) ?_ (by simp)⟩,
      ⟨hV.plain htrue, .inl htrue, hwithin (some (.indexOutOfBounds 3 (-1))) ?_ (by simp)⟩, trivial⟩
    all_goals decide +kernel
  have hcomputed : (Put.performAll "xs" puts env array).outcomes.map failure? =
        [none, none, some (.indexOutOfBounds 3 3), some (.indexOutOfBounds 3 (-1))] ∧
      Node.sequence (Put.performAll "xs" puts env array).array == .sequence final := by
    decide +kernel
  have hbound : env.get? "xs" = some (.sequence array) := rfl
  have hset : env.registry.contains "set" := by decide +kernel
  obtain ⟨hrun, hlast, _⟩ :=
    simplify_puts hV env (fun _ hmem => hmem) hset hplain hvalues hbound helements hsimple puts hready
  refine ⟨hV, _, _, hrun, ?_⟩
  rw [hlast]
  exact hcomputed

/-- Updates that are lost. At a limit of two levels, a list in a list cannot be simplified inside the statement: it
fails, and nothing has changed. And an element that draws came to itself, since its first draw was low. It draws
again when the sequence is simplified to put another element beside it, and is replaced by what it comes to then. -/
theorem set_loses_elements :
    let list := Node.sequence [.integer 1]
    let low := { Environment.standard.set "xs" (.sequence [list]) with maxDepth := 2 }
    let draw := Node.application "random" []
    let drawing := Node.application "if"
      [.application "if" [.application "<" [draw, .real 0.5], .symbol "c", .boolean true], .integer 1, .integer 2]
    let env := { Environment.standard.set "xs" (.sequence [drawing, .integer 0]) with entropy := ⟨3⟩ }
    ((simplify list low).1.toOption.any (· == list) ∧
      (simplify (.integer 5) (low.below 1)).1.toOption.any (· == .integer 5) ∧
      (simplify (setting "xs" 0 (.integer 5)) low).1.toOption.isNone ∧
      ((simplify (setting "xs" 0 (.integer 5)) low).2.get? "xs").any (· == .sequence [list])) ∧
    drawing.Within .plain ∧ draw.Within .plain ∧
      (simplify drawing env).1.toOption.any (· == drawing) ∧
      (simplify draw (env.below 1)).1.toOption.isSome ∧
      (simplify (setting "xs" 1 draw) env).1.toOption.isSome ∧
      ((((simplify (setting "xs" 1 draw) env).2.get? "xs").bind (·.asSequence.toOption)).bind List.head?).any
        (· == .integer 1) := by
  decide +kernel

end SymbolicAlgebra
