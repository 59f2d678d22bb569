import SymbolicAlgebra.Simplify

/-! Running computations in an environment: what the parts of a computation do, and how a computation
that succeeds comes apart into computations that succeed. -/

namespace SymbolicAlgebra

namespace Evaluation

variable {α β : Type}

theorem pure_run (a : α) (env : Environment) : (pure a : Evaluation α) env = (.ok a, env) := rfl

theorem get_run (env : Environment) : (get : Evaluation Environment) env = (.ok env, env) := rfl

theorem registry_run (env : Environment) : registry env = (.ok env.registry, env) := rfl

theorem bind_run (x : Evaluation α) (f : α → Evaluation β) (env : Environment) :
    (x >>= f) env = match x env with
      | (.ok a, mid) => f a mid
      | (.error failure, mid) => (.error failure, mid) := by
  change (ExceptT.bindCont f (x env).1) (x env).2 = _
  rcases x env with ⟨_ | _, _⟩ <;> rfl

theorem bind_run_ok {x : Evaluation α} {env mid : Environment} {a : α} (hx : x env = (.ok a, mid))
    (f : α → Evaluation β) : (x >>= f) env = f a mid := by
  rw [bind_run, hx]

theorem bind_run_error {x : Evaluation α} {env mid : Environment} {failure : Failure}
    (hx : x env = (.error failure, mid)) (f : α → Evaluation β) :
    (x >>= f) env = (.error failure, mid) := by
  rw [bind_run, hx]

/-- What goes on after a first part succeeds only where the first part does. -/
theorem of_bind_ok {x : Evaluation α} {f : α → Evaluation β} {env after : Environment} {b : β}
    (h : (x >>= f) env = (.ok b, after)) :
    ∃ a mid, x env = (.ok a, mid) ∧ f a mid = (.ok b, after) := by
  rcases hx : x env with ⟨failure | a, mid⟩
  · rw [bind_run_error hx] at h
    cases h
  · rw [bind_run_ok hx] at h
    exact ⟨a, mid, rfl, h⟩

theorem nested_run (inner : Evaluation α) (env : Environment) :
    nested inner env =
      ((inner { env with depth := env.depth + 1 }).1,
        { (inner { env with depth := env.depth + 1 }).2 with
          depth := (inner { env with depth := env.depth + 1 }).2.depth - 1 }) := rfl

end Evaluation

/-! ### Steps of an action -/

namespace Action

variable {α : Type} (recur : Simplifier) (env : Environment)

theorem run_lookup (name : String) (next : Option Node → Action Operation α) :
    (Action.lookup name next).run recur env = (next (env.get? name)).run recur env := rfl

/-- A release hands on the value that is let go, if there is one. -/
theorem run_release (name : String) (next : Option Node → Action Operation α) :
    (Action.release name next).run recur env =
      match env.get? name with
      | some value => (next (some value)).run recur (env.setBindings (env.bindings.erase name))
      | none => (next none).run recur env := by
  simp only [Action.run, Environment.delete]
  cases env.get? name <;> rfl

theorem run_remove (name : String) (signature : Signature) (next : Bool → Action Operation α) :
    (Action.remove name signature next).run recur env =
      (next (env.registry.remove name signature).1).run recur
        (env.setRegistry (env.registry.remove name signature).2) := rfl

theorem run_removeAll (name : String) (next : Nat → Action Operation α) :
    (Action.removeAll name next).run recur env =
      (next (env.registry.removeAll name).1).run recur (env.setRegistry (env.registry.removeAll name).2) := rfl

theorem run_fresh (next : Nat → Action Operation α) :
    (Action.fresh next).run recur env = (next (env.issued + 1)).run recur env.fresh.2 := rfl

/-- A draw hands on a double and keeps the source that is left. -/
theorem run_draw (next : Float → Action Operation α) :
    (Action.draw next).run recur env
      = (next env.entropy.draw.1).run recur { env with entropy := env.entropy.draw.2 } := by
  rw [Action.run]

end Action

open Evaluation in
/-- Running an action and going on with its result is running both one after the other. -/
theorem Action.run_andThen {α β : Type} (recur : Simplifier) (first : Action Operation α)
    (next : α → Action Operation β) :
    (first.andThen next).run recur = first.run recur >>= fun result => (next result).run recur := by
  induction first with
  | done result => rfl
  | fail failure => rfl
  | simplify node k ih =>
      funext env
      simp only [Action.andThen, Action.run, ih, bind_run]
      rcases recur node env with ⟨answer, after⟩
      rfl
  | lookup name k ih =>
      funext env
      show ((k (env.get? name)).andThen next).run recur env = _
      rw [ih, bind_run, bind_run]
      rfl
  | assign name value k ih =>
      funext env
      show (k.andThen next).run recur (env.set name value) = _
      rw [ih, bind_run, bind_run]
      rfl
  | release name k ih =>
      funext env
      cases hdelete : env.delete name with
      | ok held =>
          simp only [Action.andThen, Action.run, hdelete, ih, bind_run]
      | error failure =>
          simp only [Action.andThen, Action.run, hdelete, ih, bind_run]
  | register operation k ih =>
      funext env
      show (k.andThen next).run recur (env.register operation) = _
      rw [ih, bind_run, bind_run]
      rfl
  | remove name signature k ih =>
      funext env
      simp only [Action.andThen, Action.run, ih, bind_run]
  | removeAll name k ih =>
      funext env
      simp only [Action.andThen, Action.run, ih, bind_run]
  | fresh k ih =>
      funext env
      simp only [Action.andThen, Action.run, ih, bind_run]
  | draw k ih =>
      funext env
      rw [Action.andThen, Action.run_draw, ih, bind_run, bind_run, Action.run_draw]

theorem Action.run_simplified (recur : Simplifier) (node : Node) :
    (Action.simplified node).run recur = recur node := by
  funext env
  rcases hrun : recur node env with ⟨failure | answer, after⟩
  all_goals
    simp only [Action.simplified, Action.run, hrun]
    rfl

/-! ### Steps of the simplifier -/

section Simplifier

open Evaluation

variable (recur : Simplifier) {name : String} {args : List Node} {env mid : Environment}

theorem invokeWith_run (name : String) (args : List Node) (env : Environment) :
    invokeWith recur name args env =
      match env.registry.resolve name args with
      | some operation => (operation.handler args).run recur env
      | none => (.ok none, env) := by
  rw [invokeWith, bind_run_ok (registry_run env)]
  cases env.registry.resolve name args <;> rfl

section Prepared

variable {recur} {prepared : List Node} (hprepared : arrange env.registry name args = prepared)

include hprepared

theorem simplifyPrepared_of_error {failure : Failure}
    (h : invokeWith recur name prepared env = (.error failure, mid)) :
    simplifyPrepared recur name args env = (.error failure, mid) := by
  rw [simplifyPrepared, bind_run_ok (registry_run env), hprepared]
  exact bind_run_error h _

/-- An offer is simplified in its turn. -/
theorem simplifyPrepared_of_offer {offer : Node}
    (h : invokeWith recur name prepared env = (.ok (some offer), mid)) :
    simplifyPrepared recur name args env = recur offer mid := by
  rw [simplifyPrepared, bind_run_ok (registry_run env), hprepared]
  exact bind_run_ok h _

/-- An application that no operation decides is regrouped if it is a chain, and stays as it is otherwise. -/
theorem simplifyPrepared_of_none (h : invokeWith recur name prepared env = (.ok none, mid)) :
    simplifyPrepared recur name args env =
      (if prepared.length > 2 && mid.registry.isCommutative name then do
        let regrouped ← regroup recur name prepared.length prepared
        return if regrouped.complexity < (Node.application name prepared).complexity then regrouped
          else .application name prepared
      else pure (.application name prepared) : Evaluation Node) mid := by
  rw [simplifyPrepared, bind_run_ok (registry_run env), hprepared]
  dsimp only
  rw [bind_run_ok h]
  dsimp only
  rw [bind_run_ok (registry_run mid)]

/-- An application comes to what an offer comes to, to what regrouping leaves of it where that is simpler, or to
itself with its arguments arranged. -/
theorem of_simplifyPrepared_ok {result : Node} {after : Environment}
    (hrun : simplifyPrepared recur name args env = (.ok result, after)) :
    (∃ offer mid, invokeWith recur name prepared env = (.ok (some offer), mid) ∧
      recur offer mid = (.ok result, after)) ∨
    ∃ mid, invokeWith recur name prepared env = (.ok none, mid) ∧
      ((2 < prepared.length ∧ mid.registry.isCommutative name ∧
        ∃ regrouped, regroup recur name prepared.length prepared mid = (.ok regrouped, after) ∧
          result = if regrouped.complexity < (Node.application name prepared).complexity then regrouped
            else .application name prepared) ∨
      ¬(2 < prepared.length ∧ mid.registry.isCommutative name) ∧ result = .application name prepared ∧
        after = mid) := by
  rcases hinvoke : invokeWith recur name prepared env with ⟨failure | (_ | offer), mid⟩
  · rw [simplifyPrepared_of_error hprepared hinvoke] at hrun
    cases hrun
  · refine .inr ⟨mid, rfl, ?_⟩
    rw [simplifyPrepared_of_none hprepared hinvoke] at hrun
    split at hrun
    · rename_i hchain
      rw [Bool.and_eq_true, decide_eq_true_iff] at hchain
      obtain ⟨regrouped, last, hregroup, hdone⟩ := of_bind_ok hrun
      cases hdone
      exact .inl ⟨hchain.1, hchain.2, regrouped, hregroup, rfl⟩
    · rename_i hsmall
      rw [Bool.and_eq_true, decide_eq_true_iff] at hsmall
      cases hrun
      exact .inr ⟨hsmall, rfl, rfl⟩
  · rw [simplifyPrepared_of_offer hprepared hinvoke] at hrun
    exact .inl ⟨offer, mid, rfl, hrun⟩

/-- Arguments that keep their order are not regrouped. -/
theorem simplifyPrepared_of_ordered (hordered : ¬mid.registry.isCommutative name)
    (h : invokeWith recur name prepared env = (.ok none, mid)) :
    simplifyPrepared recur name args env = (.ok (.application name prepared), mid) := by
  rw [simplifyPrepared_of_none hprepared h, if_neg (by simp [hordered])]
  rfl

end Prepared

variable {recur}

theorem simplifyApplication_of_deferred {bare : String} (h : deferred? name = some bare) :
    simplifyApplication recur name args env = (.ok (.application bare args), env) := by
  rw [simplifyApplication, h]
  rfl

theorem simplifyApplication_of_preserves (hname : deferred? name = none)
    (h : env.registry.preservesArguments name) :
    simplifyApplication recur name args env = simplifyPrepared recur name args env := by
  rw [simplifyApplication, hname]
  dsimp only
  rw [bind_run_ok (registry_run env), if_pos h]

theorem simplifyApplication_of_not_preserves (hname : deferred? name = none)
    (h : ¬env.registry.preservesArguments name) :
    simplifyApplication recur name args env = (simplifyEach recur args >>= simplifyPrepared recur name) env := by
  rw [simplifyApplication, hname]
  dsimp only
  rw [bind_run_ok (registry_run env), if_neg h]

/-- An application loses a marker, or its arguments, which are simplified unless they are preserved, are prepared
for its operations. -/
theorem of_simplifyApplication_ok {result : Node} {after : Environment}
    (hrun : simplifyApplication recur name args env = (.ok result, after)) :
    (∃ bare, deferred? name = some bare ∧ result = .application bare args ∧ after = env) ∨
    deferred? name = none ∧
      (env.registry.preservesArguments name ∧ simplifyPrepared recur name args env = (.ok result, after) ∨
      ¬env.registry.preservesArguments name ∧ ∃ reduced mid, simplifyEach recur args env = (.ok reduced, mid) ∧
        simplifyPrepared recur name reduced mid = (.ok result, after)) := by
  cases hname : deferred? name with
  | some bare =>
      rw [simplifyApplication_of_deferred hname] at hrun
      cases hrun
      exact .inl ⟨bare, rfl, rfl, rfl⟩
  | none =>
      refine .inr ⟨rfl, ?_⟩
      by_cases hpreserves : env.registry.preservesArguments name
      · rw [simplifyApplication_of_preserves hname hpreserves] at hrun
        exact .inl ⟨hpreserves, hrun⟩
      · rw [simplifyApplication_of_not_preserves hname hpreserves] at hrun
        exact .inr ⟨hpreserves, of_bind_ok hrun⟩

theorem simplifyStep_symbol (recur : Simplifier) (name : String) (env : Environment) :
    simplifyStep recur (.symbol name) env =
      match env.get? name with
      | some value => recur value env
      | none => (.ok (.symbol name), env) := by
  rw [simplifyStep, bind_run_ok (get_run env)]
  cases env.get? name <;> rfl

theorem simplifyStep_application (recur : Simplifier) (name : String) (args : List Node) :
    simplifyStep recur (.application name args) = simplifyApplication recur name args := by
  rw [simplifyStep]

end Simplifier

end SymbolicAlgebra
