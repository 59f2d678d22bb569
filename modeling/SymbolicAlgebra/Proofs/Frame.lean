import SymbolicAlgebra.Proofs.Evaluation

/-! What simplification leaves alone. Handlers reach the environment through the steps of their
actions and through nothing else, and every nested simplification comes back up. The saved scopes, the
base scope, the limit and the nesting depth are therefore after a simplification what they were before
it, whether it succeeds or fails. -/

namespace SymbolicAlgebra

/-- The environments differ at most in the current scope, the counter and the source of random
doubles. -/
structure Environment.SameFrame (before after : Environment) : Prop where
  snapshots : after.snapshots = before.snapshots
  base : after.base = before.base
  maxDepth : after.maxDepth = before.maxDepth
  depth : after.depth = before.depth

namespace Environment.SameFrame

variable {a b c : Environment}

theorem refl (env : Environment) : SameFrame env env := ⟨rfl, rfl, rfl, rfl⟩

theorem trans (h₁ : SameFrame a b) (h₂ : SameFrame b c) : SameFrame a c :=
  ⟨h₂.snapshots.trans h₁.snapshots, h₂.base.trans h₁.base, h₂.maxDepth.trans h₁.maxDepth,
    h₂.depth.trans h₁.depth⟩

theorem scope (env : Environment) (scope : Scope) : SameFrame env { env with current := scope } :=
  ⟨rfl, rfl, rfl, rfl⟩

theorem counter (env : Environment) (issued : Nat) : SameFrame env { env with issued } :=
  ⟨rfl, rfl, rfl, rfl⟩

theorem entropy (env : Environment) (entropy : Entropy) : SameFrame env { env with entropy } :=
  ⟨rfl, rfl, rfl, rfl⟩

end Environment.SameFrame

namespace Evaluation

variable {α β : Type}

/-- The computation leaves the frame of every environment alone, also where it fails. -/
def KeepsFrame (computation : Evaluation α) : Prop :=
  ∀ env, Environment.SameFrame env (computation env).2

theorem keepsFrame_pure (a : α) : KeepsFrame (pure a) := fun env => .refl env

theorem keepsFrame_throw (failure : Failure) : KeepsFrame (throw failure : Evaluation α) :=
  fun env => .refl env

theorem keepsFrame_get : KeepsFrame (get : Evaluation Environment) := fun env => .refl env

theorem keepsFrame_registry : KeepsFrame registry := fun env => .refl env

theorem KeepsFrame.bind {x : Evaluation α} {f : α → Evaluation β} (hx : KeepsFrame x)
    (hf : ∀ a, KeepsFrame (f a)) : KeepsFrame (x >>= f) := by
  intro env
  have hfirst := hx env
  rcases hrun : x env with ⟨failure | a, mid⟩
  · rw [hrun] at hfirst
    rw [bind_run_error hrun]
    exact hfirst
  · rw [hrun] at hfirst
    rw [bind_run_ok hrun]
    exact hfirst.trans (hf a mid)

theorem KeepsFrame.nested {x : Evaluation α} (hx : KeepsFrame x) : KeepsFrame (nested x) := by
  intro env
  have h := hx { env with depth := env.depth + 1 }
  exact ⟨h.snapshots, h.base, h.maxDepth, by
    show ((x { env with depth := env.depth + 1 }).2.depth - 1) = env.depth
    rw [h.depth, Nat.add_sub_cancel]⟩

end Evaluation

open Evaluation

/-- Every step of an action leaves the frame alone, provided that the simplifier does. -/
theorem Action.keepsFrame_run {α : Type} {recur : Simplifier} (hrecur : ∀ node, KeepsFrame (recur node))
    (action : Action Operation α) : KeepsFrame (action.run recur) := by
  induction action with
  | done result => exact keepsFrame_pure result
  | fail failure => exact keepsFrame_throw failure
  | simplify node next ih =>
      intro env
      exact (hrecur node env).trans (ih _ _)
  | lookup name next ih => exact keepsFrame_get.bind fun env => ih (env.get? name)
  | assign name value next ih =>
      intro env
      exact (Environment.SameFrame.scope env _).trans (ih (env.set name value))
  | release name next ih =>
      intro env
      rw [Action.run_release]
      cases env.get? name with
      | none => exact ih none env
      | some value => exact (Environment.SameFrame.scope env _).trans (ih (some value) _)
  | register operation next ih =>
      intro env
      exact (Environment.SameFrame.scope env _).trans (ih (env.register operation))
  | remove name signature next ih =>
      intro env
      exact (Environment.SameFrame.scope env _).trans (ih _ _)
  | removeAll name next ih =>
      intro env
      exact (Environment.SameFrame.scope env _).trans (ih _ _)
  | fresh next ih =>
      intro env
      exact (Environment.SameFrame.counter env _).trans (ih _ _)
  | draw next ih =>
      intro env
      rw [Action.run_draw]
      generalize env.entropy.draw = drawn
      exact (Environment.SameFrame.entropy env drawn.2).trans (ih drawn.1 _)

section Step

variable {recur : Simplifier} (hrecur : ∀ node, KeepsFrame (recur node))
include hrecur

theorem keepsFrame_simplifyEach (nodes : List Node) : KeepsFrame (simplifyEach recur nodes) := by
  induction nodes with
  | nil => exact keepsFrame_pure []
  | cons node rest ih =>
      rw [simplifyEach]
      exact (hrecur node).bind fun _ => ih.bind fun _ => keepsFrame_pure _

theorem keepsFrame_invokeWith (name : String) (args : List Node) :
    KeepsFrame (invokeWith recur name args) := by
  refine keepsFrame_registry.bind fun registry => ?_
  cases registry.resolve name args with
  | none => exact keepsFrame_pure none
  | some operation => exact Action.keepsFrame_run hrecur (operation.handler args)

theorem keepsFrame_foldWith (name : String) (first : Node) (args : List Node) :
    KeepsFrame (foldWith recur name first args) := by
  induction args with
  | nil => exact keepsFrame_pure none
  | cons second rest ih =>
      rw [foldWith]
      refine (hrecur _).bind fun folded => ?_
      split
      · exact keepsFrame_pure _
      · exact ih.bind fun _ => keepsFrame_pure _

theorem keepsFrame_foldPair (name : String) (args : List Node) :
    KeepsFrame (foldPair recur name args) := by
  induction args with
  | nil => exact keepsFrame_pure none
  | cons first rest ih =>
      rw [foldPair]
      refine (keepsFrame_foldWith hrecur name first rest).bind fun fold => ?_
      cases fold with
      | some fold => exact keepsFrame_pure _
      | none => exact ih.bind fun _ => keepsFrame_pure _

theorem keepsFrame_regroup (name : String) (arity : Nat) (args : List Node) :
    KeepsFrame (regroup recur name arity args) := by
  induction args using regroup.induct name with
  | case1 args ih =>
      rw [regroup]
      refine (keepsFrame_foldPair hrecur name args).bind fun fold => ?_
      cases fold with
      | some fold =>
          dsimp only
          split
          · exact keepsFrame_pure _
          · exact keepsFrame_registry.bind fun registry => ih fold registry
      | none =>
          have hconstruct : KeepsFrame (do return construct (← registry) name args) :=
            keepsFrame_registry.bind fun _ => keepsFrame_pure _
          dsimp only
          split
          · refine (keepsFrame_invokeWith hrecur name args).bind fun result => ?_
            cases result with
            | some result => exact hrecur result
            | none => exact hconstruct
          · exact hconstruct

theorem keepsFrame_simplifyPrepared (name : String) (args : List Node) :
    KeepsFrame (simplifyPrepared recur name args) := by
  refine keepsFrame_registry.bind fun registry => ?_
  refine (keepsFrame_invokeWith hrecur name _).bind fun result => ?_
  cases result with
  | some result => exact hrecur result
  | none =>
      refine keepsFrame_registry.bind fun registry => ?_
      split
      · exact (keepsFrame_regroup hrecur name _ _).bind fun _ => keepsFrame_pure _
      · exact keepsFrame_pure _

theorem keepsFrame_simplifyApplication (name : String) (args : List Node) :
    KeepsFrame (simplifyApplication recur name args) := by
  rw [simplifyApplication]
  cases deferred? name with
  | some unmarked => exact keepsFrame_pure _
  | none =>
      refine keepsFrame_registry.bind fun registry => ?_
      split
      · exact keepsFrame_simplifyPrepared hrecur name args
      · exact (keepsFrame_simplifyEach hrecur args).bind fun reduced =>
          keepsFrame_simplifyPrepared hrecur name reduced

theorem keepsFrame_simplifyStep (node : Node) : KeepsFrame (simplifyStep recur node) := by
  cases node with
  | number value => exact keepsFrame_pure _
  | boolean value => exact keepsFrame_pure _
  | symbol name =>
      refine keepsFrame_get.bind fun env => ?_
      cases env.get? name with
      | some value => exact hrecur value
      | none => exact keepsFrame_pure _
  | pair first second =>
      exact (hrecur first).bind fun _ => (hrecur second).bind fun _ => keepsFrame_pure _
  | sequence elements =>
      exact (keepsFrame_simplifyEach hrecur elements).bind fun _ => keepsFrame_pure _
  | application name args => exact keepsFrame_simplifyApplication hrecur name args

end Step

theorem keepsFrame_simplifyWithin (room : Nat) (node : Node) :
    KeepsFrame (simplifyWithin room node) := by
  induction room generalizing node with
  | zero => exact keepsFrame_get.bind fun _ => keepsFrame_throw _
  | succ room ih => exact (keepsFrame_simplifyStep ih node).nested

/-- Simplification leaves the saved scopes, the base scope, the limit and the depth alone. -/
theorem keepsFrame_simplify (node : Node) : KeepsFrame (simplify node) :=
  fun env => keepsFrame_simplifyWithin (env.maxDepth - env.depth) node env

end SymbolicAlgebra
