import SymbolicAlgebra.Proofs.Coupling
import SymbolicAlgebra.Proofs.Standard

/-! Expressions that define nothing. A calm action simplifies nodes of a vocabulary and draws random
numbers, and does nothing else. If the operations under the names of a vocabulary are calm, then the
simplification of its expressions leaves all variables and operations as they are, whether it succeeds
or fails; among the standard operations, all but `define`, `del` and `set` are. A computation is atomic
if it leaves them as they are where it fails. -/

namespace SymbolicAlgebra

/-- The operations whose handlers change variables or operations. -/
def definingNames : List String :=
  ["define", "del", "set"]

/-- The action draws random numbers, stays within the vocabulary, fails where a simplification fails, and
ends with a result in `P`. -/
inductive Action.CalmIn {α : Type} (V : Vocabulary) (P : α → Prop) : Action Operation α → Prop
  | done {result : α} : P result → CalmIn V P (.done result)
  | fail (failure : Failure) : CalmIn V P (.fail failure)
  | simplify {node : Node} {next : Except Failure Node → Action Operation α} :
      node.Within V → (∀ answer, answer.Within V → CalmIn V P (next (.ok answer))) →
      (∀ failure, next (.error failure) = .fail failure) → CalmIn V P (.simplify node next)
  | draw {next : Float → Action Operation α} :
      (∀ value, CalmIn V P (next value)) → CalmIn V P (.draw next)

namespace Action

variable {α β : Type} {V : Vocabulary} {P : α → Prop} {Q : β → Prop}

theorem CalmIn.bind {first : Action Operation α} {next : α → Action Operation β}
    (hfirst : first.CalmIn V P) (hnext : ∀ a, P a → (next a).CalmIn V Q) :
    (first >>= next).CalmIn V Q := by
  show (first.andThen next).CalmIn V Q
  induction hfirst with
  | done hresult => exact hnext _ hresult
  | fail failure => exact .fail failure
  | simplify hnode _ herror ih =>
      refine .simplify hnode ih fun failure => ?_
      rw [herror]
      rfl
  | draw _ ih => exact .draw ih

theorem QuietOn.calm {action : Action Operation α} (h : action.QuietIn V P) : action.CalmIn V P := by
  induction h with
  | done hresult => exact .done hresult
  | fail failure => exact .fail failure
  | simplify hnode _ herror ih => exact .simplify hnode ih herror

theorem calm_ofExcept {computation : Except Failure α} (h : Ensures P computation) :
    (ofExcept computation).CalmIn V P :=
  (quiet_ofExcept h).calm

end Action

/-- On arguments that it takes and that are within the vocabulary, the handler is calm. -/
def Operation.CalmIn (V : Vocabulary) (operation : Operation) : Prop :=
  ∀ args, operation.accepts args ∨ operation.isUniversal → (∀ arg ∈ args, arg.Within V) →
    (operation.handler args).CalmIn V (Offers V)

namespace Builtin

open SymbolicAlgebra.Action

variable {V : Vocabulary}

theorem calm_randomBetween (lower upper : Node) : (randomBetween lower upper).CalmIn V (Offers V) := by
  refine (calm_ofExcept (ensures_any _)).bind fun low _ => ?_
  refine (calm_ofExcept (ensures_any _)).bind fun high _ => ?_
  refine (calm_ofExcept (ensures_any _)).bind fun _ _ => ?_
  refine (calm_ofExcept (ensures_any _)).bind fun _ _ => ?_
  refine (calm_ofExcept (ensures_any _)).bind fun _ _ => ?_
  exact .draw fun value => .done (offered_some (Node.within_number _))

/-- Standard operations that define nothing are calm. -/
theorem calm_standard (hV : V.Suits) {operation : Operation} (hmem : operation ∈ standard.operations)
    (hname : V.name operation.name) (hdefining : operation.name ∉ definingNames) :
    operation.CalmIn V := by
  by_cases heffects : operation.name ∈ effectfulNames
  · refine effectful_cases (motive := fun operation => operation.name ∉ definingNames → operation.CalmIn V)
      hmem heffects (fun hnot => (hnot (by decide)).elim) (fun hnot => (hnot (by decide)).elim)
      (fun hnot => (hnot (by decide)).elim) (fun hnot => (hnot (by decide)).elim) (fun _ => ?_) (fun _ => ?_)
      (fun hnot => (hnot (by decide)).elim) hdefining
    · exact fun args _ _ => .draw fun value => .done (offered_some (Node.within_number _))
    · intro args htakes hargs
      match args with
      | [lower, upper] => exact calm_randomBetween lower upper
      | [] => exact .done offered_none
      | [_] => exact .done offered_none
      | _ :: _ :: _ :: _ => exact .done offered_none
  · exact fun args _ hargs => (quietIn_standard hV hmem hname heffects args hargs).calm

end Builtin

/-! ### Calm scopes -/

/-- Applications of the names of the vocabulary go to calm operations, and the values of its symbols are
within it. A name stays in the vocabulary when a defer marker is taken off. -/
structure Scope.CalmIn (V : Vocabulary) (scope : Scope) : Prop where
  unmarked : ∀ name bare, V.name name → deferred? name = some bare → V.name bare
  operations : ∀ operation ∈ scope.registry.operations, V.name operation.name → operation.CalmIn V
  values : ∀ name value, V.symbol name → scope.bindings.get? name = some value → value.Within V

open Evaluation

/-- One environment, with a given scope. -/
def Environment.Keeps (scope : Scope) (left right : Environment) : Prop :=
  left = right ∧ left.current = scope

namespace Environment.Keeps

variable {scope : Scope} {left right : Environment} (h : Environment.Keeps scope left right)

include h

theorem sameRegistry : left.registry = right.registry :=
  congrArg Environment.registry h.1

theorem alike : left.registry.Alike right.registry :=
  Registry.alike_of_eq h.sameRegistry

theorem registry_eq : left.registry = scope.registry :=
  congrArg Scope.registry h.2

theorem sameValue (name : String) : left.get? name = right.get? name :=
  congrArg (Environment.get? · name) h.1

theorem get?_eq (name : String) : left.get? name = scope.bindings.get? name :=
  congrArg (·.bindings.get? name) h.2

theorem sameDepth : left.depth = right.depth :=
  congrArg Environment.depth h.1

end Environment.Keeps

/-- Related environments are one, with a given scope, and whether it is related to itself depends neither
on its depth nor on its source of random doubles. -/
structure Scope.Pins (scope : Scope) (Related : Environment → Environment → Prop) : Prop where
  keeps {left right : Environment} : Related left right → Environment.Keeps scope left right
  atDepth {env : Environment} (depth : Nat) : Related env env → Related { env with depth } { env with depth }
  withEntropy {env : Environment} (entropy : Entropy) :
    Related env env → Related { env with entropy } { env with entropy }

section Calm

variable {V : Vocabulary} {scope : Scope} {Related : Environment → Environment → Prop}

theorem Environment.pins_keeps (scope : Scope) : scope.Pins (Environment.Keeps scope) where
  keeps := id
  atDepth _ hkeeps := ⟨rfl, hkeeps.2⟩
  withEntropy _ hkeeps := ⟨rfl, hkeeps.2⟩

theorem Action.CalmIn.coupled {α : Type} {P : α → Prop} {action : Action Operation α}
    (h : action.CalmIn V P) (hpins : scope.Pins Related) {recur : Simplifier}
    (hrecur : ∀ node, node.Within V → Coupled Related (Node.Within V) (recur node)) :
    Coupled Related P (action.run recur) := by
  induction h with
  | done hresult => exact coupled_pure hresult
  | fail failure => exact coupled_throw failure
  | simplify hnode _ herror ih =>
      refine Action.coupled_simplify_then (hrecur _ hnode) fun answer hanswer => ?_
      cases answer with
      | ok answer => exact ih answer (hanswer answer rfl)
      | error failure =>
          rw [herror]
          exact coupled_throw failure
  | draw _ ih =>
      intro left right hrelated
      obtain ⟨rfl, _⟩ := hpins.keeps hrelated
      rw [Action.run_draw]
      generalize left.entropy.draw = drawn
      exact ih drawn.1 _ _ (hpins.withEntropy drawn.2 hrelated)

/-- In a calm scope, nothing moves but the depth and the source of random doubles. -/
theorem Scope.CalmIn.coupling_of (h : scope.CalmIn V) (hpins : scope.Pins Related) :
    Coupling (Node.Within V) Related where
  kind := V.kind
  unmarked := Node.within_unmarked h.unmarked
  sameDepth hrelated := (hpins.keeps hrelated).sameDepth
  sameMaxDepth hrelated := congrArg Environment.maxDepth (hpins.keeps hrelated).1
  alike hrelated := (hpins.keeps hrelated).alike
  sameValue hrelated _ := (hpins.keeps hrelated).sameValue _
  bound {left _ name value} hrelated hname hvalue := by
    rw [(hpins.keeps hrelated).get?_eq] at hvalue
    exact h.values name value (Node.within_symbol.mp hname) hvalue
  deeper hrelated := by
    obtain ⟨rfl, _⟩ := hpins.keeps hrelated
    exact hpins.atDepth _ hrelated
  shallower hrelated := by
    obtain ⟨rfl, _⟩ := hpins.keeps hrelated
    exact hpins.atDepth _ hrelated
  invoked {_ args _} hnode hrecur := by
    obtain ⟨hname, hargs⟩ := Node.within_application.mp hnode
    refine coupled_invokeWith (fun hrelated => (hpins.keeps hrelated).sameRegistry) ?_
    intro left _ operation hrelated hmem hcalled htakes
    rw [(hpins.keeps hrelated).registry_eq] at hmem
    exact (h.operations operation hmem (hcalled ▸ hname) args htakes hargs).coupled hpins hrecur

theorem Scope.CalmIn.coupling (h : scope.CalmIn V) : Coupling (Node.Within V) (Environment.Keeps scope) :=
  h.coupling_of (Environment.pins_keeps scope)

end Calm

/-! ### Atomic computations -/

namespace Evaluation

variable {α β : Type} {scope : Scope} {P : α → Prop} {Q : β → Scope → Prop}

/-- Run in the scope, the computation either fails and leaves the scope as it is, or ends with a result
and a scope in `Q`. -/
def Atomic (scope : Scope) (Q : β → Scope → Prop) (computation : Evaluation β) : Prop :=
  ∀ env, env.current = scope →
    match computation env with
    | (.ok result, after) => Q result after.current
    | (.error _, after) => after.current = scope

theorem atomic_pure {b : β} (h : Q b scope) : Atomic scope Q (pure b) := by
  rintro env rfl
  exact h

theorem atomic_throw (failure : Failure) : Atomic scope Q (throw failure) :=
  fun _ hcurrent => hcurrent

/-- A first part that leaves the scope as it is, whatever its outcome, keeps the whole atomic. -/
theorem Atomic.bind {x : Evaluation α} {f : α → Evaluation β}
    (hx : Atomic scope (fun a after => P a ∧ after = scope) x) (hf : ∀ a, P a → Atomic scope Q (f a)) :
    Atomic scope Q (x >>= f) := by
  intro env hcurrent
  have hfirst := hx env hcurrent
  rw [bind_run]
  rcases hrun : x env with ⟨failure | a, mid⟩
  · rw [hrun] at hfirst
    exact hfirst
  · rw [hrun] at hfirst
    exact hf a hfirst.1 mid hfirst.2

/-- A computation that leaves the scope as it is where it succeeds does so in any case. -/
theorem Atomic.current_eq {P : β → Prop} {x : Evaluation β}
    (hx : Atomic scope (fun b after => P b ∧ after = scope) x) {env : Environment}
    (hcurrent : env.current = scope) : (x env).2.current = scope := by
  have h := hx env hcurrent
  rcases hrun : x env with ⟨failure | b, after⟩
  · rw [hrun] at h
    exact h
  · rw [hrun] at h
    exact h.2

/-- A computation that is coupled with itself in environments with the scope leaves the scope as it is. -/
theorem Coupled.atomic {x : Evaluation α} (h : Coupled (Environment.Keeps scope) P x) :
    Atomic scope (fun a after => P a ∧ after = scope) x := by
  intro env hcurrent
  have hcoupled := h env env ⟨rfl, hcurrent⟩
  rcases hrun : x env with ⟨failure | result, after⟩
  · rw [hrun] at hcoupled
    exact hcoupled.2.2.2
  · rw [hrun] at hcoupled
    exact ⟨hcoupled.2.1 result rfl, hcoupled.2.2.2⟩

end Evaluation

/-- What the simplifier makes of nodes of the vocabulary is in `R`, and it leaves the scope as it is. -/
def Simplifier.StillIn (recur : Simplifier) (V : Vocabulary) (scope : Scope) (R : Node → Prop) : Prop :=
  ∀ node, node.Within V → Atomic scope (fun result after => R result ∧ after = scope) (recur node)

/-- **Expressions that define nothing change nothing**, whether their simplification succeeds or
fails. -/
theorem Scope.CalmIn.still {V : Vocabulary} {scope : Scope} (h : scope.CalmIn V) (room : Nat) :
    (simplifyWithin room).StillIn V scope (Node.Within V) :=
  fun _ hnode => (coupled_simplifyWithin h.coupling room hnode).atomic

end SymbolicAlgebra
