import SymbolicAlgebra.Proofs.Offers

/-! Calls of standard operations that are answered at once. Where a name has its arguments simplified and
left in their order, a call becomes what its offer becomes, one level above its arguments and its offer, and
a call that the operation refuses fails with the refusal and nothing else happens. -/

namespace SymbolicAlgebra

open Builtin Evaluation

/-- A standard name whose arguments are simplified and keep their order. -/
def Builtin.Ordinary (name : String) : Prop :=
  deferred? name = none ∧ standard.preservesArguments name = false ∧ standard.isCommutative name = false

instance : DecidablePred Ordinary :=
  fun _ => inferInstanceAs (Decidable (_ ∧ _))

theorem invokes_of_offered {R : Node → Node → Prop} {name : String} {args : List Node} {offer : Node}
    (h : offered? name args = some offer) : Invokes standard R name args (some offer) := by
  obtain ⟨operation, hresolve, hoffer⟩ := Option.bind_eq_some_iff.mp h
  refine .answered hresolve ?_
  cases hhandler : operation.handler args with
  | done outcome =>
      rw [hhandler] at hoffer
      cases hoffer
      exact .done _
  | _ =>
      rw [hhandler] at hoffer
      cases hoffer

section Calls

variable {scope : Scope} (hstandard : scope.registry = standard) {room : Nat} {name : String}
  (hname : Ordinary name)
include hstandard hname

theorem prepares_of_ordinary {R : Node → Node → Prop} {args values : List Node}
    (hargs : List.Forall₂ R args values) : Prepares scope.registry R name args values := by
  obtain ⟨_, hpreserves, hcommutative⟩ := hname
  have hprepares : Prepares scope.registry R name args (arrange scope.registry name values) :=
    .simplified (by rw [hstandard, hpreserves]; exact Bool.false_ne_true) hargs
  rwa [arrange, hstandard, if_neg (by rw [hcommutative]; exact Bool.false_ne_true), ← hstandard] at hprepares

/-- A call becomes what its offer becomes, one level above its arguments and its offer. -/
theorem reduces_call {args values : List Node} {offer result : Node}
    (hargs : List.Forall₂ (Reduces scope room) args values) (hoffer : offered? name values = some offer)
    (hresult : Reduces scope room offer result) : Reduces scope (room + 1) (.application name args) result := by
  have hinvokes := invokes_of_offered (R := Reduces scope room) hoffer
  rw [← hstandard] at hinvokes
  exact .rewritten hname.1 (prepares_of_ordinary hstandard hname hargs) hinvokes hresult

/-- A call that is refused fails, and nothing else happens. -/
theorem simplifyWithin_of_refused {args values : List Node} {operation : Operation} {failure : Failure}
    {env : Environment} (henv : env.current = scope) (hargs : List.Forall₂ (Reduces scope room) args values)
    (hresolve : standard.resolve name values = some operation) (hrefused : operation.handler values = .fail failure) :
    simplifyWithin (room + 1) (.application name args) env = (.error failure, env) := by
  let deeper : Environment := { env with depth := env.depth + 1 }
  have hdeeper : deeper.current = scope := henv
  have hregistry : deeper.registry = standard := (congrArg Scope.registry hdeeper).trans hstandard
  obtain ⟨reduced, harranged, happlication⟩ :=
    (prepares_of_ordinary hstandard hname hargs).run (simplifyWithin_follows scope room) hdeeper hname.1
  have hinvokes : invokeWith (simplifyWithin room) name values deeper = (.error failure, deeper) := by
    rw [invokeWith_run, hregistry, hresolve]
    dsimp only
    rw [hrefused]
    rfl
  have hstep : simplifyStep (simplifyWithin room) (.application name args) deeper = (.error failure, deeper) := by
    rw [hstandard, ← hregistry] at harranged
    rw [simplifyStep_application, happlication, simplifyPrepared_of_error harranged hinvokes]
  rw [simplifyWithin, nested_run, hstep]
  rfl

end Calls

/-! ### Reductions -/

section Reductions

variable {name : String} {reduce : List Node → Except Failure (Option Node)}
  (hoverloads : standard.overloads name = reduction name reduce) {args : List Node} {result : Node}
include hoverloads

/-- One sequence has its elements reduced. -/
theorem offered_reduction_of_sequence {elements : List Node} (h : reduce elements = .ok (some result)) :
    offered? name [.sequence elements] = some result := by
  rw [offered?, Registry.resolve, hoverloads]
  show (Action.ofExcept (reduce elements) : Action Operation (Option Node)).offer? = some result
  rw [h]
  rfl

/-- Other arguments are reduced themselves. -/
theorem offered_reduction_of_spread (hspread : ∀ elements, args ≠ [.sequence elements])
    (h : reduce args = .ok (some result)) : offered? name args = some result := by
  have hnone : (reduction name reduce).find? (·.accepts args) = none := by
    rcases args with _ | ⟨node, _ | ⟨second, rest⟩⟩
    · rfl
    · cases node with
      | sequence elements => exact (hspread elements rfl).elim
      | _ => rfl
    · simp [reduction, Operation.accepts, Operation.unary, Operation.universal, Signature.accepts]
  rw [offered?, Registry.resolve, hoverloads, hnone]
  show (Action.ofExcept (reduce args) : Action Operation (Option Node)).offer? = some result
  rw [h]
  rfl

end Reductions

/-- What is derived in the scope of an environment that has the room for it is what simplification does. -/
theorem simplify_of_reduces {env : Environment} {room : Nat} {e r : Node} (h : Reduces env.current room e r)
    (hroom : env.depth + room ≤ env.maxDepth) : simplify e env = (.ok r, env) :=
  simplifyWithin_follows env.current _ e r (h.of_le (Nat.le_sub_of_add_le' hroom)) env rfl

end SymbolicAlgebra
