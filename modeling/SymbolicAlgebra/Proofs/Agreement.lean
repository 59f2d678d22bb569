import SymbolicAlgebra.Proofs.Coupling

/-! Local actions, and environments that agree on a vocabulary. A local action stays within a kind of nodes:
it uses no other symbols, and gives values and operations to those alone. Environments that agree on a
vocabulary have the same operations, and the same values for its symbols, which are themselves within it;
they still agree behind an action that is local to it. If the operations under the names of a vocabulary
are local, simplification of its expressions cannot tell environments apart that agree on it. -/

namespace SymbolicAlgebra

/-- The action simplifies nodes of the kind alone, reads and writes symbols of the kind, gives them values
of it, registers local operations, and ends with a result in `P`. -/
inductive Action.LocalOn (K : Node → Prop) : {α : Type} → (α → Prop) → Action Operation α → Prop
  | done {α : Type} {P : α → Prop} {result : α} : P result → LocalOn K P (.done result)
  | fail {α : Type} {P : α → Prop} (failure : Failure) : LocalOn K P (.fail failure)
  | simplify {α : Type} {P : α → Prop} {node : Node} {next : Except Failure Node → Action Operation α} :
      K node → (∀ answer, Ensures K answer → LocalOn K P (next answer)) → LocalOn K P (.simplify node next)
  | lookup {α : Type} {P : α → Prop} {name : String} {next : Option Node → Action Operation α} :
      K (.symbol name) → (∀ outcome, Offered K outcome → LocalOn K P (next outcome)) →
      LocalOn K P (.lookup name next)
  | assign {α : Type} {P : α → Prop} {name : String} {value : Node} {next : Action Operation α} :
      K (.symbol name) → K value → LocalOn K P next → LocalOn K P (.assign name value next)
  | release {α : Type} {P : α → Prop} {name : String} {next : Option Node → Action Operation α} :
      K (.symbol name) → (∀ outcome, LocalOn K P (next outcome)) → LocalOn K P (.release name next)
  | register {α : Type} {P : α → Prop} {operation : Operation} {next : Action Operation α} :
      (∀ args, operation.accepts args ∨ operation.isUniversal → (∀ arg ∈ args, K arg) →
        LocalOn K (Offered K) (operation.handler args)) →
      LocalOn K P next → LocalOn K P (.register operation next)
  | remove {α : Type} {P : α → Prop} {name : String} {signature : Signature}
      {next : Bool → Action Operation α} :
      (∀ removed, LocalOn K P (next removed)) → LocalOn K P (.remove name signature next)
  | removeAll {α : Type} {P : α → Prop} {name : String} {next : Nat → Action Operation α} :
      (∀ count, LocalOn K P (next count)) → LocalOn K P (.removeAll name next)
  | fresh {α : Type} {P : α → Prop} {next : Nat → Action Operation α} :
      (∀ index, LocalOn K P (next index)) → LocalOn K P (.fresh next)
  | draw {α : Type} {P : α → Prop} {next : Float → Action Operation α} :
      (∀ value, LocalOn K P (next value)) → LocalOn K P (.draw next)

/-- On arguments that it takes and that are of the kind, the handler is local. -/
def Operation.LocalOn (K : Node → Prop) (operation : Operation) : Prop :=
  ∀ args, operation.accepts args ∨ operation.isUniversal → (∀ arg ∈ args, K arg) →
    (operation.handler args).LocalOn K (Offered K)

/-- The action is local to the expressions of the vocabulary. -/
abbrev Action.LocalIn {α : Type} (V : Vocabulary) (P : α → Prop) (action : Action Operation α) : Prop :=
  action.LocalOn (Node.Within V) P

abbrev Operation.LocalIn (V : Vocabulary) (operation : Operation) : Prop :=
  operation.LocalOn (Node.Within V)

namespace Action

variable {α β : Type} {K : Node → Prop} {P : α → Prop} {Q : β → Prop}

theorem LocalOn.bind {first : Action Operation α} {next : α → Action Operation β}
    (hfirst : first.LocalOn K P) (hnext : ∀ a, P a → (next a).LocalOn K Q) :
    (first >>= next).LocalOn K Q := by
  show (first.andThen next).LocalOn K Q
  induction first with
  | done result =>
      cases hfirst with
      | done hresult => exact hnext result hresult
  | fail failure => exact .fail failure
  | simplify node k ih =>
      cases hfirst with
      | simplify hnode hk => exact .simplify hnode fun answer hanswer => ih answer (hk answer hanswer)
  | lookup name k ih =>
      cases hfirst with
      | lookup hname hk => exact .lookup hname fun outcome houtcome => ih outcome (hk outcome houtcome)
  | assign name value k ih =>
      cases hfirst with
      | assign hname hvalue hk => exact .assign hname hvalue (ih hk)
  | release name k ih =>
      cases hfirst with
      | release hname hk => exact .release hname fun outcome => ih outcome (hk outcome)
  | register operation k ih =>
      cases hfirst with
      | register hoperation hk => exact .register hoperation (ih hk)
  | remove name signature k ih =>
      cases hfirst with
      | remove hk => exact .remove fun removed => ih removed (hk removed)
  | removeAll name k ih =>
      cases hfirst with
      | removeAll hk => exact .removeAll fun count => ih count (hk count)
  | fresh k ih =>
      cases hfirst with
      | fresh hk => exact .fresh fun index => ih index (hk index)
  | draw k ih =>
      cases hfirst with
      | draw hk => exact .draw fun value => ih value (hk value)

theorem local_ofExcept {computation : Except Failure α} (h : Ensures P computation) :
    (ofExcept computation).LocalOn K P := by
  cases computation with
  | ok result => exact .done (h result rfl)
  | error failure => exact .fail failure

theorem local_simplified {node : Node} (h : K node) : (simplified node).LocalOn K K :=
  .simplify h fun _ hanswer => local_ofExcept hanswer

/-- A quiet action touches nothing but what it simplifies. -/
theorem QuietOn.localOn {action : Action Operation α} (h : action.QuietOn K P) : action.LocalOn K P := by
  induction h with
  | done hresult => exact .done hresult
  | fail failure => exact .fail failure
  | simplify hnode _ herror ih =>
      refine .simplify hnode fun answer hanswer => ?_
      cases answer with
      | ok result => exact ih result (hanswer result rfl)
      | error failure =>
          rw [herror]
          exact .fail failure

end Action

theorem Operation.QuietOn.localOn {K : Node → Prop} {operation : Operation} (h : operation.QuietOn K) :
    operation.LocalOn K :=
  fun args _ hargs => (h args hargs).localOn

/-! ### Runs of local actions -/

/-- The action with every operation that it registers changed. -/
def Action.mapped {Op Op' α : Type} (change : Op → Op') : Action Op α → Action Op' α
  | .done result => .done result
  | .fail failure => .fail failure
  | .simplify node next => .simplify node fun answer => (next answer).mapped change
  | .lookup name next => .lookup name fun outcome => (next outcome).mapped change
  | .assign name value next => .assign name value (next.mapped change)
  | .release name next => .release name fun outcome => (next outcome).mapped change
  | .register operation next => .register (change operation) (next.mapped change)
  | .remove name signature next => .remove name signature fun removed => (next removed).mapped change
  | .removeAll name next => .removeAll name fun count => (next count).mapped change
  | .fresh next => .fresh fun index => (next index).mapped change
  | .draw next => .draw fun value => (next value).mapped change

theorem Action.mapped_id {Op α : Type} (action : Action Op α) : action.mapped id = action := by
  induction action with
  | done result => rfl
  | fail failure => rfl
  | simplify node next ih => rw [mapped, funext ih]
  | lookup name next ih => rw [mapped, funext ih]
  | assign name value next ih => rw [mapped, ih]
  | release name next ih => rw [mapped, funext ih]
  | register operation next ih => rw [mapped, ih, id]
  | remove name signature next ih => rw [mapped, funext ih]
  | removeAll name next ih => rw [mapped, funext ih]
  | fresh next ih => rw [mapped, funext ih]
  | draw next ih => rw [mapped, funext ih]

/-- A relation on environments that agree in what local actions ask for, kept by each of their steps. What the
first environment registers, the second registers changed. -/
structure LocalSteps (K : Node → Prop) (change : Operation → Operation)
    (Related : Environment → Environment → Prop) : Prop where
  sameValue {left right : Environment} {name : String} :
    Related left right → K (.symbol name) → left.get? name = right.get? name
  bound {left right : Environment} {name : String} {value : Node} :
    Related left right → K (.symbol name) → left.get? name = some value → K value
  set {left right : Environment} {value : Node} (name : String) :
    Related left right → K value → Related (left.set name value) (right.set name value)
  erase {left right : Environment} (name : String) : Related left right →
    Related (left.setBindings (left.bindings.erase name)) (right.setBindings (right.bindings.erase name))
  register {left right : Environment} {operation : Operation} : Related left right → operation.LocalOn K →
    Related (left.register operation) (right.register (change operation))
  remove {left right : Environment} (name : String) (signature : Signature) : Related left right →
    (left.registry.remove name signature).1 = (right.registry.remove name signature).1 ∧
      Related (left.setRegistry (left.registry.remove name signature).2)
        (right.setRegistry (right.registry.remove name signature).2)
  removeAll {left right : Environment} (name : String) : Related left right →
    (left.registry.removeAll name).1 = (right.registry.removeAll name).1 ∧
      Related (left.setRegistry (left.registry.removeAll name).2)
        (right.setRegistry (right.registry.removeAll name).2)
  fresh {left right : Environment} : Related left right →
    left.issued = right.issued ∧ Related left.fresh.2 right.fresh.2
  draw {left right : Environment} : Related left right →
    left.entropy = right.entropy ∧ ∀ entropy, Related { left with entropy } { right with entropy }

open Evaluation

section Steps

variable {K : Node → Prop} {change : Operation → Operation} {Related : Environment → Environment → Prop}
  {α : Type} {P : α → Prop} {action : Action Operation α} {recur : Simplifier}

/-- A local action and the one that registers changed operations have one outcome. -/
theorem Action.LocalOn.shadowed (h : action.LocalOn K P) (hsteps : LocalSteps K change Related)
    (hrecur : ∀ node, K node → Coupled Related K (recur node)) :
    Shadowed (fun _ => False) Related P (action.run recur) ((action.mapped change).run recur) := by
  induction action with
  | done result =>
      cases h with
      | done hresult => exact shadowed_pure hresult
  | fail failure => exact shadowed_throw failure
  | simplify node next ih =>
      cases h with
      | simplify hnode hnext =>
          intro left right hrelated
          have hcoupled := hrecur node hnode left right hrelated
          simp only [Action.mapped, Action.run]
          rcases hleft : recur node left with ⟨answer, leftMid⟩
          rcases hright : recur node right with ⟨other, rightMid⟩
          rw [hleft, hright] at hcoupled
          obtain ⟨rfl, hanswer, hmid⟩ := hcoupled
          exact ih answer (hnext answer hanswer) leftMid rightMid hmid
  | lookup name next ih =>
      cases h with
      | lookup hname hnext =>
          intro left right hrelated
          rw [Action.mapped, Action.run_lookup, Action.run_lookup, ← hsteps.sameValue hrelated hname]
          exact ih _ (hnext _ fun value => hsteps.bound hrelated hname) left right hrelated
  | assign name value next ih =>
      cases h with
      | assign hname hvalue hnext =>
          intro left right hrelated
          exact ih hnext _ _ (hsteps.set name hrelated hvalue)
  | release name next ih =>
      cases h with
      | release hname hnext =>
          intro left right hrelated
          rw [Action.mapped, Action.run_release, Action.run_release, ← hsteps.sameValue hrelated hname]
          cases left.get? name with
          | none => exact ih none (hnext none) left right hrelated
          | some value => exact ih (some value) (hnext _) _ _ (hsteps.erase name hrelated)
  | register operation next ih =>
      cases h with
      | register hoperation hnext =>
          intro left right hrelated
          exact ih hnext _ _ (hsteps.register hrelated hoperation)
  | remove name signature next ih =>
      cases h with
      | remove hnext =>
          intro left right hrelated
          obtain ⟨hsame, hafter⟩ := hsteps.remove name signature hrelated
          rw [Action.mapped, Action.run_remove, Action.run_remove, ← hsame]
          exact ih _ (hnext _) _ _ hafter
  | removeAll name next ih =>
      cases h with
      | removeAll hnext =>
          intro left right hrelated
          obtain ⟨hsame, hafter⟩ := hsteps.removeAll name hrelated
          rw [Action.mapped, Action.run_removeAll, Action.run_removeAll, ← hsame]
          exact ih _ (hnext _) _ _ hafter
  | fresh next ih =>
      cases h with
      | fresh hnext =>
          intro left right hrelated
          obtain ⟨hsame, hafter⟩ := hsteps.fresh hrelated
          rw [Action.mapped, Action.run_fresh, Action.run_fresh, ← hsame]
          exact ih _ (hnext _) _ _ hafter
  | draw next ih =>
      cases h with
      | draw hnext =>
          intro left right hrelated
          obtain ⟨hsame, hafter⟩ := hsteps.draw hrelated
          rw [Action.mapped, Action.run_draw, Action.run_draw, ← hsame]
          generalize left.entropy.draw = drawn
          exact ih drawn.1 (hnext _) _ _ (hafter drawn.2)

theorem Action.LocalOn.coupled (h : action.LocalOn K P) (hsteps : LocalSteps K id Related)
    (hrecur : ∀ node, K node → Coupled Related K (recur node)) : Coupled Related P (action.run recur) := by
  have hshadowed := h.shadowed hsteps hrecur
  rw [mapped_id] at hshadowed
  exact coupled_iff_shadowed.mpr hshadowed

end Steps

/-! ### Environments that agree -/

/-- The environments have the same operations, local under the names of the vocabulary, and the same
values, of the vocabulary, for its symbols. They may differ in all other values. -/
structure Environment.AgreeOn (V : Vocabulary) (left right : Environment) : Prop where
  depth : left.depth = right.depth
  maxDepth : left.maxDepth = right.maxDepth
  issued : left.issued = right.issued
  entropy : left.entropy = right.entropy
  registry : left.registry = right.registry
  get? : ∀ name, V.symbol name → left.get? name = right.get? name
  values : ∀ name value, V.symbol name → left.get? name = some value → value.Within V
  operations : ∀ operation ∈ left.registry.operations, V.name operation.name → operation.LocalIn V

namespace Environment.AgreeOn

variable {V : Vocabulary} {left right : Environment}

theorem atDepth (h : AgreeOn V left right) (depth : Nat) :
    AgreeOn V { left with depth } { right with depth } :=
  ⟨rfl, h.maxDepth, h.issued, h.entropy, h.registry, h.get?, h.values, h.operations⟩

theorem withIssued (h : AgreeOn V left right) (issued : Nat) :
    AgreeOn V { left with issued } { right with issued } :=
  ⟨h.depth, h.maxDepth, rfl, h.entropy, h.registry, h.get?, h.values, h.operations⟩

theorem withEntropy (h : AgreeOn V left right) (entropy : Entropy) :
    AgreeOn V { left with entropy } { right with entropy } :=
  ⟨h.depth, h.maxDepth, h.issued, rfl, h.registry, h.get?, h.values, h.operations⟩

/-- Environments that agree still do so with other operations, if these are local. -/
theorem setRegistry (h : AgreeOn V left right) {registry : Registry}
    (hlocal : ∀ operation ∈ registry.operations, V.name operation.name → operation.LocalIn V) :
    AgreeOn V (left.setRegistry registry) (right.setRegistry registry) :=
  ⟨h.depth, h.maxDepth, h.issued, h.entropy, rfl, h.get?, h.values, hlocal⟩

theorem register (h : AgreeOn V left right) {operation : Operation} (hlocal : operation.LocalIn V) :
    AgreeOn V (left.register operation) (right.register operation) := by
  rw [Environment.register, Environment.register, ← h.registry]
  refine h.setRegistry fun other hmem hname => ?_
  rcases Registry.mem_enter hmem with rfl | hmem
  · exact hlocal
  · exact h.operations other hmem hname

/-- Environments that agree still do so when one name is given the same outcome of a look-up in
both. -/
theorem rebind (h : AgreeOn V left right) {leftBindings rightBindings : Bindings} {name : String}
    {outcome : Option Node} (houtcome : Offers V outcome)
    (hleft : ∀ other, leftBindings.get? other = if other = name then outcome else left.get? other)
    (hright : ∀ other, rightBindings.get? other = if other = name then outcome else right.get? other) :
    AgreeOn V (left.setBindings leftBindings) (right.setBindings rightBindings) := by
  refine ⟨h.depth, h.maxDepth, h.issued, h.entropy, h.registry, fun other hother => ?_,
    fun other held hother hheld => ?_, h.operations⟩
  · show leftBindings.get? other = rightBindings.get? other
    rw [hleft, hright, h.get? other hother]
  · change leftBindings.get? other = some held at hheld
    rw [hleft] at hheld
    split at hheld
    · exact houtcome held hheld
    · exact h.values other held hother hheld

theorem set (h : AgreeOn V left right) (name : String) {value : Node} (hvalue : value.Within V) :
    AgreeOn V (left.set name value) (right.set name value) :=
  h.rebind (offered_some hvalue) (Bindings.get?_set left.bindings name value)
    (Bindings.get?_set right.bindings name value)

theorem erase (h : AgreeOn V left right) (name : String) :
    AgreeOn V (left.setBindings (left.bindings.erase name))
      (right.setBindings (right.bindings.erase name)) :=
  h.rebind offered_none (Bindings.get?_erase left.bindings name)
    (Bindings.get?_erase right.bindings name)

end Environment.AgreeOn

/-- Environments that agree on a vocabulary still agree on it behind each step of a local action. -/
theorem Environment.AgreeOn.steps {V : Vocabulary} :
    LocalSteps (Node.Within V) id (Environment.AgreeOn V) where
  sameValue hagree hname := hagree.get? _ (Node.within_symbol.mp hname)
  bound hagree hname := hagree.values _ _ (Node.within_symbol.mp hname)
  set name hagree := hagree.set name
  erase name hagree := hagree.erase name
  register hagree := hagree.register
  remove name signature hagree := by
    rw [← hagree.registry]
    refine ⟨rfl, hagree.setRegistry fun operation hmem => ?_⟩
    exact hagree.operations operation (List.mem_of_mem_filter hmem)
  removeAll name hagree := by
    rw [← hagree.registry]
    refine ⟨rfl, hagree.setRegistry fun operation hmem => ?_⟩
    exact hagree.operations operation (List.mem_of_mem_filter hmem)
  fresh {left right} hagree := by
    refine ⟨hagree.issued, ?_⟩
    rw [Environment.fresh, Environment.fresh, ← hagree.issued]
    exact hagree.withIssued _
  draw hagree := ⟨hagree.entropy, hagree.withEntropy⟩

/-- Agreement on a vocabulary, as a relation that simplification respects. -/
theorem coupling_agreeOn {V : Vocabulary}
    (hunmarked : ∀ name bare, V.name name → deferred? name = some bare → V.name bare) :
    Coupling (Node.Within V) (Environment.AgreeOn V) where
  kind := V.kind
  unmarked := Node.within_unmarked hunmarked
  sameDepth hagree := hagree.depth
  sameMaxDepth hagree := hagree.maxDepth
  alike hagree := Registry.alike_of_eq hagree.registry
  sameValue := Environment.AgreeOn.steps.sameValue
  bound := Environment.AgreeOn.steps.bound
  deeper hagree := by
    rw [← hagree.depth]
    exact hagree.atDepth _
  shallower hagree := by
    rw [← hagree.depth]
    exact hagree.atDepth _
  invoked hnode hrecur := by
    obtain ⟨hname, hargs⟩ := Node.within_application.mp hnode
    exact coupled_invokeWith Environment.AgreeOn.registry fun hagree hmem hcalled htakes =>
      (hagree.operations _ hmem (hcalled ▸ hname) _ htakes hargs).coupled
        Environment.AgreeOn.steps hrecur

end SymbolicAlgebra
