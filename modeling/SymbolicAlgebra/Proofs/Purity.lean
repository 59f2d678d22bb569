import SymbolicAlgebra.Proofs.Coupling
import SymbolicAlgebra.Proofs.Frame

/-! Pure operations: the handler computes its result from the arguments and from what it simplifies, and
asks for nothing else. Where all operations are pure, simplification leaves the environment exactly as it
was, whether it succeeds or fails. -/

namespace SymbolicAlgebra

/-- The action asks for nothing but simplifications. -/
inductive Action.Pure {α : Type} : Action Operation α → Prop
  | done (result : α) : Pure (.done result)
  | fail (failure : Failure) : Pure (.fail failure)
  | simplify (node : Node) {next : Except Failure Node → Action Operation α} :
      (∀ answer, Pure (next answer)) → Pure (.simplify node next)

def Operation.Pure (operation : Operation) : Prop :=
  ∀ args, (operation.handler args).Pure

def Registry.Pure (registry : Registry) : Prop :=
  ∀ operation ∈ registry.operations, operation.Pure

/-- One environment, which has the scope, the counter and the source of random doubles that `origin`
has. -/
def Environment.Still (origin left right : Environment) : Prop :=
  left = right ∧ left.current = origin.current ∧ left.issued = origin.issued ∧
    left.entropy = origin.entropy

open Evaluation

theorem Action.Pure.coupled {α : Type} {origin : Environment} {action : Action Operation α}
    (h : action.Pure) {recur : Simplifier}
    (hrecur : ∀ node, Coupled origin.Still (fun _ => True) (recur node)) :
    Coupled origin.Still (fun _ => True) (action.run recur) := by
  induction h with
  | done result => exact coupled_pure trivial
  | fail failure => exact coupled_throw failure
  | simplify node _ ih => exact Action.coupled_simplify_then (hrecur node) fun answer _ => ih answer

/-- With pure operations, nothing moves. -/
theorem coupling_still {origin : Environment} (hpure : origin.registry.Pure) :
    Coupling (fun _ => True) origin.Still where
  kind := .all
  unmarked _ _ := trivial
  sameDepth hstill := congrArg Environment.depth hstill.1
  sameMaxDepth hstill := congrArg Environment.maxDepth hstill.1
  alike hstill := Registry.alike_of_eq (congrArg Environment.registry hstill.1)
  sameValue hstill _ := congrArg (Environment.get? · _) hstill.1
  bound _ _ _ := trivial
  deeper := by
    rintro left _ ⟨rfl, hstill⟩
    exact ⟨rfl, hstill⟩
  shallower := by
    rintro left _ ⟨rfl, hstill⟩
    exact ⟨rfl, hstill⟩
  invoked {_ args _} _ hrecur := by
    refine coupled_invokeWith (fun hstill => congrArg Environment.registry hstill.1) ?_
    intro left right operation hstill hmem _ _
    have hregistry : left.registry = origin.registry := congrArg Scope.registry hstill.2.1
    have hoperation := hpure operation (hregistry ▸ hmem)
    intro left' right' hstill'
    obtain ⟨hsame, _, hafter⟩ :=
      (hoperation args).coupled (fun node => hrecur node trivial) left' right' hstill'
    exact ⟨hsame, fun _ _ _ _ => trivial, hafter⟩

/-- Simplification with pure operations changes nothing. -/
theorem simplify_pure {env : Environment} (hpure : env.registry.Pure) (node : Node) :
    (simplify node env).2 = env := by
  obtain ⟨_, _, _, hcurrent, hissued, hentropy⟩ :=
    coupled_simplify (coupling_still hpure) trivial env env ⟨rfl, rfl, rfl, rfl⟩
  obtain ⟨hsnapshots, hbase, hmaxDepth, hdepth⟩ := keepsFrame_simplify node env
  cases hafter : (simplify node env).2
  rw [hafter] at hcurrent hissued hentropy hsnapshots hbase hmaxDepth hdepth
  cases env
  congr

end SymbolicAlgebra
