import SymbolicAlgebra.Proofs.Agreement

/-! Guarded handlers. Behind a guard, a handler sees no argument lists but those of a kind: on any other,
something else is carried out in its place. Operations that a handler registers are put behind the guard,
too. Where operations are local to the kind, simplification of its nodes never trips the guard, whatever
would be carried out then: the run behind the guard is the run without it. -/

namespace SymbolicAlgebra

section Guard

variable (K : Node → Prop) [DecidablePred K] (refuse : Handler)

mutual

/-- The operation behind a guard that carries out `refuse` on arguments that are not all of the kind. -/
def Operation.guarded : Operation → Operation
  | ⟨name, signature, fixity, precedence, attributes, handler⟩ =>
    ⟨name, signature, fixity, precedence, attributes, fun args =>
      if ∀ arg ∈ args, K arg then Action.guarded (handler args) else refuse args⟩

/-- The action with every operation that it registers behind the guard. -/
-- an instance of `Action.mapped`, written out because the recursion has to reach the handlers inside
def Action.guarded : Action Operation (Option Node) → Action Operation (Option Node)
  | .done result => .done result
  | .fail failure => .fail failure
  | .simplify node next => .simplify node fun answer => Action.guarded (next answer)
  | .lookup name next => .lookup name fun outcome => Action.guarded (next outcome)
  | .assign name value next => .assign name value (Action.guarded next)
  | .release name next => .release name fun outcome => Action.guarded (next outcome)
  | .register operation next => .register (Operation.guarded operation) (Action.guarded next)
  | .remove name signature next => .remove name signature fun removed => Action.guarded (next removed)
  | .removeAll name next => .removeAll name fun count => Action.guarded (next count)
  | .fresh next => .fresh fun index => Action.guarded (next index)
  | .draw next => .draw fun value => Action.guarded (next value)

end

theorem Operation.alike_guarded (operation : Operation) : operation.Alike (operation.guarded K refuse) := by
  cases operation
  rw [Operation.guarded]
  exact ⟨rfl, rfl, rfl, rfl, rfl⟩

theorem Action.guarded_eq_mapped (action : Action Operation (Option Node)) :
    action.guarded K refuse = action.mapped (Operation.guarded K refuse) := by
  induction action with
  | done result => rfl
  | fail failure => rfl
  | simplify node next ih => rw [guarded, mapped, funext ih]
  | lookup name next ih => rw [guarded, mapped, funext ih]
  | assign name value next ih => rw [guarded, mapped, ih]
  | release name next ih => rw [guarded, mapped, funext ih]
  | register operation next ih => rw [guarded, mapped, ih]
  | remove name signature next ih => rw [guarded, mapped, funext ih]
  | removeAll name next ih => rw [guarded, mapped, funext ih]
  | fresh next ih => rw [guarded, mapped, funext ih]
  | draw next ih => rw [guarded, mapped, funext ih]

theorem Operation.handler_guarded (operation : Operation) {args : List Node} (hargs : ∀ arg ∈ args, K arg) :
    (operation.guarded K refuse).handler args =
      (operation.handler args).mapped (Operation.guarded K refuse) := by
  rw [← Action.guarded_eq_mapped]
  cases operation
  rw [Operation.guarded]
  exact if_pos hargs

/-- The environment with every operation of the current scope behind the guard. -/
def Environment.guarded (env : Environment) : Environment :=
  env.setRegistry (env.registry.mapped (Operation.guarded K refuse))

end Guard

/-! ### Environments that are local to a kind -/

/-- All values are of the kind, and all operations are local to it. -/
structure Environment.LocalOn (K : Node → Prop) (env : Environment) : Prop where
  values : ∀ name value, env.get? name = some value → K value
  operations : ∀ operation ∈ env.registry.operations, operation.LocalOn K

namespace Environment.LocalOn

variable {K : Node → Prop} {env : Environment}

theorem set (h : env.LocalOn K) (name : String) {value : Node} (hvalue : K value) :
    (env.set name value).LocalOn K :=
  ⟨Bindings.forall_get?_set hvalue h.values, h.operations⟩

theorem erase (h : env.LocalOn K) (name : String) :
    (env.setBindings (env.bindings.erase name)).LocalOn K :=
  ⟨fun other value hvalue => h.values other value (Bindings.get?_of_get?_erase hvalue), h.operations⟩

theorem register (h : env.LocalOn K) {operation : Operation} (hlocal : operation.LocalOn K) :
    (env.register operation).LocalOn K := by
  refine ⟨h.values, fun other hmem => ?_⟩
  rcases Registry.mem_enter hmem with rfl | hmem
  · exact hlocal
  · exact h.operations other hmem

/-- Some operations are left out. -/
theorem setRegistry (h : env.LocalOn K) {registry : Registry}
    (hsub : ∀ operation ∈ registry.operations, operation ∈ env.registry.operations) :
    (env.setRegistry registry).LocalOn K :=
  ⟨h.values, fun operation hmem => h.operations operation (hsub operation hmem)⟩

end Environment.LocalOn

/-! ### Runs behind the guard -/

section Runs

variable {K : Node → Prop} [DecidablePred K] {refuse : Handler} {left right : Environment}

/-- The second environment is the first behind the guard, and that one is local to the kind. -/
def Environment.GuardedBy (K : Node → Prop) [DecidablePred K] (refuse : Handler)
    (left right : Environment) : Prop :=
  right = left.guarded K refuse ∧ left.LocalOn K

/-- Each step of a local action is the same behind the guard. -/
theorem Environment.GuardedBy.steps :
    LocalSteps K (Operation.guarded K refuse) (Environment.GuardedBy K refuse) where
  sameValue := by
    rintro left _ name ⟨rfl, _⟩ _
    rfl
  bound hrelated _ := hrelated.2.values _ _
  set := by
    rintro left _ value name ⟨rfl, hlocal⟩ hvalue
    exact ⟨rfl, hlocal.set name hvalue⟩
  erase := by
    rintro left _ name ⟨rfl, hlocal⟩
    exact ⟨rfl, hlocal.erase name⟩
  register := by
    rintro left _ operation ⟨rfl, hlocal⟩ hoperation
    have hregistered := Registry.mapped_register (Operation.alike_guarded K refuse) left.registry operation
    exact ⟨congrArg left.setRegistry hregistered.symm, hlocal.register hoperation⟩
  remove := by
    rintro left _ name signature ⟨rfl, hlocal⟩
    have hremoved := Registry.mapped_remove (Operation.alike_guarded K refuse) left.registry name signature
    refine ⟨(congrArg Prod.fst hremoved).symm, congrArg left.setRegistry (congrArg Prod.snd hremoved), ?_⟩
    exact hlocal.setRegistry fun operation => List.mem_of_mem_filter
  removeAll := by
    rintro left _ name ⟨rfl, hlocal⟩
    have hremoved := Registry.mapped_removeAll (Operation.alike_guarded K refuse) left.registry name
    refine ⟨(congrArg Prod.fst hremoved).symm, congrArg left.setRegistry (congrArg Prod.snd hremoved), ?_⟩
    exact hlocal.setRegistry fun operation => List.mem_of_mem_filter
  fresh := by
    rintro left _ ⟨rfl, hlocal⟩
    exact ⟨rfl, rfl, hlocal.values, hlocal.operations⟩
  draw := by
    rintro left _ ⟨rfl, hlocal⟩
    exact ⟨rfl, fun _ => ⟨rfl, hlocal.values, hlocal.operations⟩⟩

open Evaluation

variable (hK : Node.Kind K)
  (hunmarked : ∀ {name bare : String} {args : List Node}, K (.application name args) →
    deferred? name = some bare → K (.application bare args))
include hK hunmarked

/-- The guard makes no difference to nodes of the kind. -/
theorem coupling_guardedBy (refuse : Handler) : Coupling K (Environment.GuardedBy K refuse) where
  kind := hK
  unmarked := hunmarked
  sameDepth := by
    rintro left _ ⟨rfl, _⟩
    rfl
  sameMaxDepth := by
    rintro left _ ⟨rfl, _⟩
    rfl
  alike := by
    rintro left _ ⟨rfl, _⟩
    exact (Registry.matched_mapped (Operation.alike_guarded K refuse) left.registry).alike
  sameValue := Environment.GuardedBy.steps.sameValue
  bound := Environment.GuardedBy.steps.bound
  deeper := by
    rintro left _ ⟨rfl, hlocal⟩
    exact ⟨rfl, hlocal.values, hlocal.operations⟩
  shallower := by
    rintro left _ ⟨rfl, hlocal⟩
    exact ⟨rfl, hlocal.values, hlocal.operations⟩
  invoked {_ args _} hnode hrecur := by
    have hargs := hK.args hnode
    refine coupled_iff_shadowed.mpr (shadowed_invokeWith (M := fun one another =>
      another = one.guarded K refuse) offered_none ?_ ?_)
    · rintro left _ ⟨rfl, _⟩
      exact Registry.matched_mapped (Operation.alike_guarded K refuse) left.registry
    · rintro _ _ operation _ hrelated hmem rfl rfl htakes
      rw [Operation.handler_guarded K refuse operation hargs]
      exact (hrelated.2.operations operation hmem args htakes hargs).shadowed Environment.GuardedBy.steps hrecur

/-- **No guard is tripped.** In an environment that is local to the kind, the simplification of a node of the
kind comes to a node of the kind, leaves an environment that is local to it, and does the same behind the
guard, whatever the guard would carry out. -/
theorem simplify_guarded {env : Environment} (henv : env.LocalOn K) {node : Node} (hnode : K node)
    (refuse : Handler) :
    Ensures K (simplify node env).1 ∧ (simplify node env).2.LocalOn K ∧
      simplify node (env.guarded K refuse) =
        ((simplify node env).1, (simplify node env).2.guarded K refuse) := by
  obtain ⟨hsame, hresult, hafter, hlocal⟩ :=
    coupled_simplify (coupling_guardedBy hK hunmarked refuse) hnode env _ ⟨rfl, henv⟩
  exact ⟨hresult, hlocal, Prod.ext hsame.symm hafter⟩

/-- What a local action leaves behind is local again. -/
theorem Environment.LocalOn.perform {env : Environment} (henv : env.LocalOn K) {α : Type} {P : α → Prop}
    {action : Action Operation α} (haction : action.LocalOn K P) :
    (SymbolicAlgebra.perform action env).2.LocalOn K := by
  have hrun := haction.shadowed Environment.GuardedBy.steps fun node hnode =>
    coupled_simplify (coupling_guardedBy hK hunmarked fun _ => .done none) hnode
  rcases hrun env _ ⟨rfl, henv⟩ with ⟨_, _, hfalse⟩ | ⟨_, _, _, hlocal⟩
  · exact hfalse.elim
  · exact hlocal

end Runs

end SymbolicAlgebra
