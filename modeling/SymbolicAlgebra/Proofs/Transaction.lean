import SymbolicAlgebra.Proofs.Frame
import SymbolicAlgebra.Program

/-! Programs are transactions. Whatever the statements do and wherever they fail, a run puts back the
saved scopes, the base scope, the limit and the nesting depth, the retention policy alone decides the
scope that is left, and nothing behind the first failure has an effect. -/

namespace SymbolicAlgebra.Program

/-- Simplifying the statements in order from the first environment ends in the second one, right
after the first statement that fails if one does. -/
inductive Executes : List Node → Environment → Option Failure → Environment → Prop
  | done (env : Environment) : Executes [] env none env
  | failed {statement : Node} {rest : List Node} {env after : Environment} {failure : Failure} :
      simplify statement env = (.error failure, after) →
      Executes (statement :: rest) env (some failure) after
  | completed {statement output : Node} {rest : List Node} {env mid after : Environment}
      {failure : Option Failure} :
      simplify statement env = (.ok output, mid) → Executes rest mid failure after →
      Executes (statement :: rest) env failure after

theorem executes_execute (statements : List Node) (env : Environment) :
    Executes statements env (execute statements env).1.failure (execute statements env).2 := by
  induction statements generalizing env with
  | nil => exact .done env
  | cons statement rest ih =>
      rcases hrun : simplify statement env with ⟨failure | output, mid⟩
      · simp only [execute, hrun]
        exact .failed hrun
      · simp only [execute, hrun]
        exact .completed hrun (ih mid)

theorem Executes.sameFrame {statements : List Node} {env after : Environment}
    {failure : Option Failure} (h : Executes statements env failure after) :
    Environment.SameFrame env after := by
  induction h with
  | done env => exact .refl env
  | @failed statement _ env _ _ hrun =>
      have hframe := keepsFrame_simplify statement env
      rw [hrun] at hframe
      exact hframe
  | @completed statement _ _ env _ _ _ hrun _ ih =>
      have hframe := keepsFrame_simplify statement env
      rw [hrun] at hframe
      exact hframe.trans ih

/-- A failure ends the execution: what stands behind the failing statement is not looked at. -/
theorem execute_append_of_failed (ahead rest : List Node) (env : Environment)
    (hfailed : (execute ahead env).1.failure ≠ none) :
    execute (ahead ++ rest) env = execute ahead env := by
  induction ahead generalizing env with
  | nil => exact (hfailed rfl).elim
  | cons statement ahead ih =>
      rcases hrun : simplify statement env with ⟨failure | output, mid⟩
      · simp only [List.cons_append, execute, hrun]
      · simp only [execute, hrun] at hfailed
        simp only [List.cons_append, execute, hrun, ih mid hfailed]

theorem enter_current (configuration : Configuration) (env : Environment) :
    (enter configuration env).current = match configuration.scope with
      | .useCurrent => env.current
      | .useBase => env.base := by
  rw [enter]
  cases configuration.scope <;> rfl

theorem enter_snapshots (configuration : Configuration) (env : Environment) :
    (enter configuration env).snapshots = env.current :: env.snapshots := by
  rw [enter]
  cases configuration.scope <;> rfl

theorem enter_base (configuration : Configuration) (env : Environment) :
    (enter configuration env).base = env.base := by
  rw [enter]
  cases configuration.scope <;> rfl

theorem enter_depth (configuration : Configuration) (env : Environment) :
    (enter configuration env).depth = env.depth := by
  rw [enter]
  cases configuration.scope <;> rfl

/-- Leaving takes back what entering saved. -/
theorem leave_of_snapshots (configuration : Configuration) (maxDepth : Nat) {ended : Environment}
    {saved : Scope} {others : List Scope} (h : ended.snapshots = saved :: others) :
    leave configuration maxDepth ended =
      { ended with
        current := match configuration.retention with
          | .restore => saved
          | .restoreToBase => ended.base
          | .preserveAll => ended.current
        snapshots := others
        maxDepth } := by
  rw [leave]
  cases configuration.retention <;>
    simp only [Environment.restore, Environment.commit, Environment.restoreToBase, h,
      Option.getD_some]

/-- A run puts the frame back. -/
theorem sameFrame_run (program : Program) (env : Environment) :
    Environment.SameFrame env (program.run env).2 := by
  have hframe := (executes_execute program.statements (enter program.configuration env)).sameFrame
  have hsaved := hframe.snapshots.trans (enter_snapshots program.configuration env)
  have hbase := hframe.base.trans (enter_base program.configuration env)
  have hdepth := hframe.depth.trans (enter_depth program.configuration env)
  simp only [run]
  rw [leave_of_snapshots _ _ hsaved]
  exact ⟨rfl, hbase, rfl, hdepth⟩

/-- **A run is a transaction**, whether it succeeds or fails. -/
theorem run_transaction (program : Program) (env : Environment) :
    let start := enter program.configuration env
    let after := (program.run env).2
    (start.current = match program.configuration.scope with
      | .useCurrent => env.current
      | .useBase => env.base) ∧
    (after.snapshots = env.snapshots ∧ after.base = env.base ∧ after.maxDepth = env.maxDepth ∧
      after.depth = env.depth) ∧
    (∃ ended, Executes program.statements start (program.run env).1.failure ended ∧
      after.current = match program.configuration.retention with
        | .restore => env.current
        | .restoreToBase => env.base
        | .preserveAll => ended.current) ∧
    ∀ ahead rest, program.statements = ahead ++ rest →
      (run { program with statements := ahead } env).1.failure ≠ none →
      program.run env = run { program with statements := ahead } env := by
  intro start after
  have hexecutes := executes_execute program.statements start
  have hframe := hexecutes.sameFrame
  have hleft : after = leave program.configuration env.maxDepth (execute program.statements start).2 :=
    rfl
  rw [leave_of_snapshots _ _ (hframe.snapshots.trans (enter_snapshots _ env))] at hleft
  refine ⟨enter_current _ env, ?_, ⟨_, hexecutes, ?_⟩, ?_⟩
  · rw [hleft]
    exact ⟨rfl, hframe.base.trans (enter_base _ env), rfl, hframe.depth.trans (enter_depth _ env)⟩
  · rw [hleft]
    dsimp only
    rw [hframe.base, enter_base]
  · intro ahead rest hsplit hfailed
    have hsame := execute_append_of_failed ahead rest start hfailed
    simp only [run, hsplit]
    rw [hsame]

end SymbolicAlgebra.Program
