import SymbolicAlgebra.Definition
import SymbolicAlgebra.Proofs.Transaction

/-! Sessions: what a user does with one environment over time. Most commands are edits, which change the
current scope and nothing of the frame; the others save scopes and pop them. A run in which every scope
that it saves is popped again, and none besides, leaves the scopes below untouched, so that going back
gives the scope that was saved. No command writes to the base scope. -/

namespace SymbolicAlgebra

/-- A command that works on the current scope. One that fails keeps what it had done before. -/
inductive Edit where
  | set (name : String) (value : Node)
  | delete (name : String)
  | register (operation : Operation)
  | remove (name : String) (signature : Signature)
  | removeAll (name : String)
  | defineKeyword (keyword : Keyword)
  | defineVariable (name : String) (value : Node)
  | defineOperation (name : String) (parameters : List Node) (template : Node)
  | simplify (node : Node)
  | run (program : Program)
  | restoreToBase

inductive Command where
  | edit (change : Edit)
  | save
  | restore
  | commit

/-- The environment after an edit, whatever its outcome. -/
def Edit.apply (env : Environment) : Edit → Environment
  | .set name value => env.set name value
  | .delete name =>
    match env.delete name with
    | .ok (_, after) => after
    | .error _ => env
  | .register operation => env.register operation
  | .remove name signature => env.setRegistry (env.registry.remove name signature).2
  | .removeAll name => env.setRegistry (env.registry.removeAll name).2
  | .defineKeyword keyword =>
    match env.registry.defineKeyword keyword with
    | .ok registry => env.setRegistry registry
    | .error _ => env
  | .defineVariable name value => (perform (Definition.bindVariable name value) env).2
  | .defineOperation name parameters template =>
    (perform (Definition.installOperation name parameters template) env).2
  | .simplify node => (SymbolicAlgebra.simplify node env).2
  | .run program => (program.run env).2
  | .restoreToBase => env.restoreToBase

/-- The environment after a command. Where no scope is saved, there is nothing to pop. -/
def Command.apply (env : Environment) : Command → Environment
  | .edit change => change.apply env
  | .save => env.save
  | .restore => env.restore.getD env
  | .commit => env.commit.getD env

/-- The environment after a run of commands. -/
def Environment.after (env : Environment) (commands : List Command) : Environment :=
  commands.foldl Command.apply env

/-- How many blocks are open after a command where `opened` were open before it. A block opens when a
scope is saved and closes when that scope is popped; outside all blocks there is nothing to close. -/
def Command.blocks : Command → (opened : Nat) → Option Nat
  | .edit _, opened => some opened
  | .save, opened => some (opened + 1)
  | .restore, 0 => none
  | .restore, opened + 1 => some opened
  | .commit, 0 => none
  | .commit, opened + 1 => some opened

/-- How many blocks a run leaves open, unless it closes one that it has not opened. -/
def blocksAfter : List Command → (opened : Nat) → Option Nat
  | [], opened => some opened
  | command :: rest, opened => (command.blocks opened).bind (blocksAfter rest)

/-- The run pops exactly the scopes that it saves. -/
def Balanced (commands : List Command) : Prop :=
  blocksAfter commands 0 = some 0

instance (commands : List Command) : Decidable (Balanced commands) :=
  inferInstanceAs (Decidable (_ = _))

/-! ### What commands leave alone -/

theorem keepsFrame_perform {α : Type} (action : Action Operation α) :
    Evaluation.KeepsFrame (perform action) :=
  Action.keepsFrame_run keepsFrame_simplify action

theorem Edit.sameFrame (edit : Edit) (env : Environment) :
    Environment.SameFrame env (edit.apply env) := by
  cases edit with
  | set name value => exact .scope env _
  | delete name =>
      simp only [apply, Environment.delete]
      cases env.get? name with
      | none => exact .refl env
      | some value => exact .scope env _
  | register operation => exact .scope env _
  | remove name signature => exact .scope env _
  | removeAll name => exact .scope env _
  | defineKeyword keyword =>
      simp only [apply]
      cases env.registry.defineKeyword keyword with
      | error failure => exact .refl env
      | ok registry => exact .scope env _
  | defineVariable name value => exact keepsFrame_perform _ env
  | defineOperation name parameters template => exact keepsFrame_perform _ env
  | simplify node => exact keepsFrame_simplify node env
  | run program => exact program.sameFrame_run env
  | restoreToBase => exact .scope env _

/-- A command that stays within the open blocks touches the scopes of these blocks and none below. -/
theorem Command.snapshots_apply {command : Command} {opened left : Nat}
    (h : command.blocks opened = some left) {env : Environment} {own below : List Scope}
    (hsaved : env.snapshots = own ++ below) (hlength : own.length = opened) :
    ∃ own', (command.apply env).snapshots = own' ++ below ∧ own'.length = left := by
  cases command with
  | edit change =>
      cases h
      exact ⟨own, (change.sameFrame env).snapshots.trans hsaved, hlength⟩
  | save =>
      cases h
      refine ⟨env.current :: own, ?_, congrArg (· + 1) hlength⟩
      rw [List.cons_append, ← hsaved]
      rfl
  | restore =>
      cases own with
      | nil =>
          cases hlength
          cases h
      | cons scope own =>
          cases hlength
          cases h
          simp only [apply, Environment.restore, hsaved, List.cons_append, Option.getD_some]
          exact ⟨own, rfl, rfl⟩
  | commit =>
      cases own with
      | nil =>
          cases hlength
          cases h
      | cons scope own =>
          cases hlength
          cases h
          simp only [apply, Environment.commit, hsaved, List.cons_append, Option.getD_some]
          exact ⟨own, rfl, rfl⟩

/-- A run leaves the scopes below its blocks alone. -/
theorem snapshots_after {commands : List Command} {opened left : Nat}
    (h : blocksAfter commands opened = some left) {env : Environment} {own below : List Scope}
    (hsaved : env.snapshots = own ++ below) (hlength : own.length = opened) :
    ∃ own', (env.after commands).snapshots = own' ++ below ∧ own'.length = left := by
  induction commands generalizing env own opened with
  | nil =>
      cases h
      exact ⟨own, hsaved, hlength⟩
  | cons command rest ih =>
      obtain ⟨next, hcommand, hrest⟩ := Option.bind_eq_some_iff.mp h
      obtain ⟨own', hsaved', hlength'⟩ := Command.snapshots_apply hcommand hsaved hlength
      exact ih hrest hsaved' hlength'

theorem Command.base_apply (command : Command) (env : Environment) :
    (command.apply env).base = env.base := by
  cases command with
  | edit change => exact (change.sameFrame env).base
  | save => rfl
  | restore =>
      simp only [apply, Environment.restore]
      cases env.snapshots <;> rfl
  | commit =>
      simp only [apply, Environment.commit]
      cases env.snapshots <;> rfl

/-- No run writes to the base scope. -/
theorem base_after (commands : List Command) (env : Environment) :
    (env.after commands).base = env.base := by
  induction commands generalizing env with
  | nil => rfl
  | cons command rest ih => exact (ih (command.apply env)).trans (command.base_apply env)

/-- **Saved scopes are isolated.** Whatever a balanced run does after a scope has been saved, restoring
gives that scope back, and the scopes saved earlier are as they were. And after any run at all, going
back to the base gives the scope that the environment was built with. -/
theorem saved_scopes_isolated :
    (∀ (env : Environment) (commands : List Command), Balanced commands →
      ∃ restored, (env.save.after commands).restore = some restored ∧
        restored.current = env.current ∧ restored.snapshots = env.snapshots) ∧
    ∀ (registry : Registry) (maxDepth : Nat) (commands : List Command),
      (({ Environment.ofRegistry registry with maxDepth }).after commands).restoreToBase.current =
        { bindings := {}, registry } := by
  constructor
  · intro env commands hbalanced
    have hstart : env.save.snapshots = [] ++ env.current :: env.snapshots := rfl
    obtain ⟨own, hsaved, hlength⟩ := snapshots_after hbalanced hstart rfl
    rw [List.length_eq_zero_iff.mp hlength, List.nil_append] at hsaved
    rw [Environment.restore, hsaved]
    exact ⟨_, rfl, rfl, rfl⟩
  · intro registry maxDepth commands
    exact base_after commands { Environment.ofRegistry registry with maxDepth }

/-- A run that redefines, fails, resets to the base and commits a block of its own on the way. -/
theorem saved_scope_isolated_from_blocks :
    let env := Environment.standard.set "x" (.integer 1)
    let commands : List Command :=
      [.edit (.simplify (.application "define" [.symbol "x", .integer 2])), .save,
        .edit (.removeAll "+"), .edit (.simplify (.application "first" [.sequence []])), .commit,
        .edit .restoreToBase, .save, .edit (.delete "x"), .restore]
    Balanced commands ∧ ∃ restored, (env.save.after commands).restore = some restored ∧
      restored.current = env.current ∧ restored.snapshots = env.snapshots := by
  intro env commands
  have hbalanced : Balanced commands := by decide
  exact ⟨hbalanced, saved_scopes_isolated.1 env commands hbalanced⟩

end SymbolicAlgebra
