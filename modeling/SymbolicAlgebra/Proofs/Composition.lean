import SymbolicAlgebra.Proofs.Coupling
import SymbolicAlgebra.Proofs.Transaction

/-! Programs compose. No step of an action looks at the saved scopes, so simplification does the same
whatever is saved, and brings the same changes about. A program that keeps what it defines can therefore
be cut into two anywhere: the scope that each part saves and forgets leaves no trace, and what the first
part leaves behind, also where it fails, is what the whole has at that point. -/

namespace SymbolicAlgebra

open Evaluation

/-! ### Saved scopes -/

/-- The environment with other saved scopes. -/
def Environment.withSaved (env : Environment) (saved : List Scope) : Environment :=
  { env with snapshots := saved }

/-- The environment with another nesting limit. -/
def Environment.withLimit (env : Environment) (maxDepth : Nat) : Environment :=
  { env with maxDepth }

/-- The second environment is the first one with these saved scopes. -/
def Environment.SavedAs (saved : List Scope) (left right : Environment) : Prop :=
  right = left.withSaved saved

variable {saved : List Scope}

/-- No action can tell what is saved. -/
theorem Action.coupled_savedAs {α : Type} {recur : Simplifier}
    (hrecur : ∀ node, Coupled (Environment.SavedAs saved) (fun _ => True) (recur node))
    (action : Action Operation α) :
    Coupled (Environment.SavedAs saved) (fun _ => True) (action.run recur) := by
  induction action with
  | done result => exact coupled_pure trivial
  | fail failure => exact coupled_throw failure
  | simplify node next ih => exact coupled_simplify_then (hrecur node) fun answer _ => ih answer
  | lookup name next ih =>
      rintro left _ rfl
      exact ih (left.get? name) left _ rfl
  | assign name value next ih =>
      rintro left _ rfl
      exact ih (left.set name value) _ rfl
  | release name next ih =>
      rintro left _ rfl
      have hsame : (left.withSaved saved).get? name = left.get? name := rfl
      rw [Action.run_release, Action.run_release, hsame]
      cases left.get? name with
      | none => exact ih none left _ rfl
      | some value => exact ih (some value) (left.setBindings (left.bindings.erase name)) _ rfl
  | register operation next ih =>
      rintro left _ rfl
      exact ih (left.register operation) _ rfl
  | remove name signature next ih =>
      rintro left _ rfl
      exact ih _ (left.setRegistry (left.registry.remove name signature).2) _ rfl
  | removeAll name next ih =>
      rintro left _ rfl
      exact ih _ (left.setRegistry (left.registry.removeAll name).2) _ rfl
  | fresh next ih =>
      rintro left _ rfl
      exact ih _ left.fresh.2 _ rfl
  | draw next ih =>
      rintro left _ rfl
      rw [Action.run_draw, Action.run_draw]
      have hsame : (left.withSaved saved).entropy = left.entropy := rfl
      rw [hsame]
      generalize left.entropy.draw = drawn
      exact ih drawn.1 { left with entropy := drawn.2 } _ rfl

theorem coupling_savedAs (saved : List Scope) : Coupling (fun _ => True) (Environment.SavedAs saved) where
  kind := .all
  unmarked _ _ := trivial
  sameDepth hsaved := by rw [hsaved]; rfl
  sameMaxDepth hsaved := by rw [hsaved]; rfl
  alike hsaved := Registry.alike_of_eq (by rw [hsaved]; rfl)
  sameValue hsaved _ := by rw [hsaved]; rfl
  bound _ _ _ := trivial
  deeper hsaved := by rw [hsaved]; rfl
  shallower hsaved := by rw [hsaved]; rfl
  invoked _ hrecur := by
    refine coupled_invokeWith (fun hsaved => by rw [hsaved]; rfl) fun _ _ _ _ => ?_
    intro left right hsaved
    obtain ⟨hsame, _, hafter⟩ :=
      Action.coupled_savedAs (fun node => hrecur node trivial) _ left right hsaved
    exact ⟨hsame, fun _ _ _ _ => trivial, hafter⟩

/-- Simplification does the same whatever is saved. -/
theorem simplify_withSaved (node : Node) (env : Environment) :
    simplify node (env.withSaved saved) =
      ((simplify node env).1, (simplify node env).2.withSaved saved) := by
  obtain ⟨hsame, _, hafter⟩ := coupled_simplify (coupling_savedAs saved) trivial env _ rfl
  exact Prod.ext hsame.symm hafter

/-- What two executions one after the other have brought about. -/
def Execution.followedBy (first second : Execution) : Execution where
  logs := first.logs ++ second.logs
  printed := first.printed ++ second.printed
  failure := second.failure

namespace Program

theorem execute_withSaved (statements : List Node) (env : Environment) :
    execute statements (env.withSaved saved) =
      ((execute statements env).1, (execute statements env).2.withSaved saved) := by
  induction statements generalizing env with
  | nil => rfl
  | cons statement rest ih =>
      rw [execute, execute, simplify_withSaved]
      rcases simplify statement env with ⟨failure | output, mid⟩
      · rfl
      · dsimp only
        rw [ih mid]
        rfl

/-! ### One program behind another -/

/-- Where the first part is completed, the rest goes on from there. -/
theorem execute_append_of_completed (ahead behind : List Node) (env : Environment)
    (hcompleted : (execute ahead env).1.failure = none) :
    execute (ahead ++ behind) env =
      ((execute ahead env).1.followedBy (execute behind (execute ahead env).2).1,
        (execute behind (execute ahead env).2).2) := by
  induction ahead generalizing env with
  | nil => simp [execute, Execution.followedBy]
  | cons statement ahead ih =>
      rcases hrun : simplify statement env with ⟨failure | output, mid⟩
      · simp only [execute, hrun] at hcompleted
        cases hcompleted
      · simp only [execute, hrun] at hcompleted
        simp only [List.cons_append, execute, hrun, ih mid hcompleted, Execution.followedBy,
          String.append_assoc]

/-- The configuration of a program that starts from the current scope and keeps what it defines. -/
def keeping (verbose : Bool) (maxDepth : Nat) : Configuration where
  verbose := verbose
  scope := .useCurrent
  retention := .preserveAll
  maxDepth := maxDepth

/-- Such a program does what its statements do under its limit, and puts the limit back. -/
theorem run_keeping (verbose : Bool) (maxDepth : Nat) (statements : List Node) (env : Environment) :
    run { statements, configuration := keeping verbose maxDepth } env =
      ((execute statements (env.withLimit maxDepth)).1,
        (execute statements (env.withLimit maxDepth)).2.withLimit env.maxDepth) := by
  have hframe := (executes_execute statements (env.withLimit maxDepth)).sameFrame
  have henter : enter (keeping verbose maxDepth) env =
      (env.withLimit maxDepth).withSaved (env.current :: env.snapshots) := rfl
  simp only [run, henter, execute_withSaved]
  rcases hended : execute statements (env.withLimit maxDepth) with ⟨execution, ended⟩
  rw [hended] at hframe
  have hsnapshots : ended.snapshots = env.snapshots := hframe.snapshots
  rw [leave_of_snapshots _ _ rfl, ← hsnapshots]
  rfl

/-- **Programs compose.** With programs that start from the current scope and keep what they define, running
statements at once is running a first part of them and then, if that did not fail, the rest: the logs and
the printed texts are put together, a failure of either part is the failure of the whole, and the
environment is the same in the end, also where a part fails on its way. -/
theorem run_append (verbose : Bool) (maxDepth : Nat) (first second : List Node) (env : Environment) :
    let configuration := keeping verbose maxDepth
    let (ahead, middle) := run { statements := first, configuration } env
    let (behind, after) := run { statements := second, configuration } middle
    run { statements := first ++ second, configuration } env =
      match ahead.failure with
      | some _ => (ahead, middle)
      | none =>
        ({ logs := ahead.logs ++ behind.logs
           printed := ahead.printed ++ behind.printed
           failure := behind.failure }, after) := by
  intro configuration
  have hframe := (executes_execute first (env.withLimit maxDepth)).sameFrame
  simp only [configuration, run_keeping]
  cases hfailure : (execute first (env.withLimit maxDepth)).1.failure with
  | some failure =>
      have hfailed : (execute first (env.withLimit maxDepth)).1.failure ≠ none := by
        rw [hfailure]
        exact Option.some_ne_none failure
      rw [execute_append_of_failed first second _ hfailed]
  | none =>
      rw [execute_append_of_completed first second _ hfailure]
      rcases hended : execute first (env.withLimit maxDepth) with ⟨ahead, ended⟩
      rw [hended] at hframe
      have hlimit : (ended.withLimit env.maxDepth).withLimit maxDepth = ended := by
        have hmaxDepth : maxDepth = ended.maxDepth := hframe.maxDepth.symm
        rw [hmaxDepth]
        rfl
      rw [hlimit]
      rfl

/-- A program cut in two between what it prints and what fails: the first part defines a variable and prints
it, and the second one reads it, divides by zero and does not come to its last statement. -/
theorem run_append_failing :
    let perform := fun statements => run { statements, configuration := keeping false 256 }
    let first := [Node.application "define" [.symbol "x", .integer 2], .application "println" [.symbol "x"]]
    let second := [Node.application "+" [.symbol "x", .integer 1], .application "/" [.symbol "x", .integer 0],
      .application "println" [.symbol "x"]]
    ∃ ahead middle behind after,
      perform first .standard = (ahead, middle) ∧ perform second middle = (behind, after) ∧
      perform (first ++ second) .standard =
        (⟨ahead.logs ++ behind.logs, ahead.printed ++ behind.printed, behind.failure⟩, after) ∧
      ahead.logs.map (·.output.text) = ["2", "println(2)"] ∧ ahead.printed = "2\n" ∧ ahead.failure = none ∧
      behind.logs.map (·.output.text) = ["3"] ∧ behind.printed = "" ∧ behind.failure = some .divisionByZero := by
  intro perform first second
  have hahead : (perform first .standard).1.logs.map (·.output.text) = ["2", "println(2)"] ∧
      (perform first .standard).1.printed = "2\n" ∧ (perform first .standard).1.failure = none := by
    decide +kernel
  have hbehind : (perform second (perform first .standard).2).1.logs.map (·.output.text) = ["3"] ∧
      (perform second (perform first .standard).2).1.printed = "" ∧
      (perform second (perform first .standard).2).1.failure = some .divisionByZero := by
    decide +kernel
  clear_value first second
  have hwhole := run_append false 256 first second .standard
  rcases hfirst : run { statements := first, configuration := keeping false 256 } .standard with ⟨ahead, middle⟩
  rcases hsecond : run { statements := second, configuration := keeping false 256 } middle with ⟨behind, after⟩
  simp only [perform, hfirst, hsecond] at hahead hbehind hwhole ⊢
  rw [hahead.2.2] at hwhole
  exact ⟨ahead, middle, behind, after, rfl, hsecond, hwhole, hahead.1, hahead.2.1, hahead.2.2, hbehind⟩

end Program

end SymbolicAlgebra
