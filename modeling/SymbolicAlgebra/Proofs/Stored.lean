import SymbolicAlgebra.Proofs.Frame
import SymbolicAlgebra.Proofs.Idempotence
import SymbolicAlgebra.Proofs.Limit

/-! Sequences that are stored in a variable. An element that was simple before the sequence was stored may
mention the variable, whose value is another one since then. If the element comes across the variable again,
the sequence is simplified inside itself, and so on down to the nesting limit. So the sequence comes to
itself, or it fails at the limit. -/

namespace SymbolicAlgebra

open Evaluation

/-- The scopes differ at most in the value of one variable. -/
structure Scope.AlikeBut (name : String) (scope other : Scope) : Prop where
  registry : scope.registry = other.registry
  get? : ∀ symbol, symbol ≠ name → scope.bindings.get? symbol = other.bindings.get? symbol

/-- With some value of the variable, the node is in its simplest form. -/
def Scope.SimpleBut (name : String) (scope : Scope) (node : Node) : Prop :=
  ∃ other room, scope.AlikeBut name other ∧ Reduces other room node node

namespace Scope.AlikeBut

variable {name : String} {scope other third : Scope}

theorem refl (name : String) (scope : Scope) : scope.AlikeBut name scope :=
  ⟨rfl, fun _ _ => rfl⟩

theorem trans (h : scope.AlikeBut name other) (h' : other.AlikeBut name third) : scope.AlikeBut name third :=
  ⟨h.registry.trans h'.registry, fun symbol hother => (h.get? symbol hother).trans (h'.get? symbol hother)⟩

/-- A step is the same one, unless it looks the variable up. -/
theorem step (h : scope.AlikeBut name other) {R : Node → Node → Prop} {e r : Node} (hstep : Step other R e r) :
    e = .symbol name ∨ Step scope R e r := by
  have hregistry := h.registry
  cases hstep with
  | number value => exact .inr (.number value)
  | boolean value => exact .inr (.boolean value)
  | @free symbol hfree =>
      refine (eq_or_ne symbol name).imp (congrArg Node.symbol) fun hother => ?_
      exact .free ((h.get? symbol hother).trans hfree)
  | @bound symbol _ _ hbound hresult =>
      refine (eq_or_ne symbol name).imp (congrArg Node.symbol) fun hother => ?_
      exact .bound ((h.get? symbol hother).trans hbound) hresult
  | pair hfirst hsecond => exact .inr (.pair hfirst hsecond)
  | sequence helements => exact .inr (.sequence helements)
  | rewritten hname hprepares hoffer hresult =>
      rw [← hregistry] at hprepares hoffer
      exact .inr (.rewritten hname hprepares hoffer hresult)
  | undecided hname hprepares hnone hsmall =>
      rw [← hregistry] at hprepares hnone hsmall
      exact .inr (.undecided hname hprepares hnone hsmall)
  | regrouped hname hprepares hnone hlong hcommutative hgrouped =>
      rw [← hregistry] at hprepares hnone hcommutative hgrouped
      exact .inr (.regrouped hname hprepares hnone hlong hcommutative hgrouped)

end Scope.AlikeBut

namespace Evaluation

variable {α β : Type} {scope : Scope} {result : α}

/-- The computation fails at the nesting limit. -/
def Exhausts (env : Environment) (computation : Evaluation α) : Prop :=
  ∃ failure, (computation env).1 = .error failure ∧ failure.IsLimit

/-- In the scope, the computation ends with the result and leaves the environment as it is, or it fails at
the nesting limit. -/
def Yields (scope : Scope) (result : α) (computation : Evaluation α) : Prop :=
  ∀ env, env.current = scope → computation.Exhausts env ∨ computation env = (.ok result, env)

theorem yields_pure (a : α) : (pure a : Evaluation α).Yields scope a :=
  fun _ _ => .inr rfl

theorem Exhausts.bind {x : Evaluation α} {env : Environment} (hx : x.Exhausts env) (f : α → Evaluation β) :
    (x >>= f).Exhausts env := by
  obtain ⟨failure, hfails, hlimit⟩ := hx
  rcases hrun : x env with ⟨outcome, mid⟩
  rw [hrun] at hfails
  cases hfails
  exact ⟨failure, by rw [bind_run_error hrun], hlimit⟩

theorem Yields.bind {x : Evaluation α} {f : α → Evaluation β} {a : α} {b : β} (hx : x.Yields scope a)
    (hf : (f a).Yields scope b) : (x >>= f).Yields scope b := by
  intro env henv
  refine (hx env henv).elim (fun hexhausts => .inl (hexhausts.bind f)) fun hrun => ?_
  rw [Exhausts, bind_run_ok hrun]
  exact hf env henv

theorem Exhausts.nested {inner : Evaluation α} {env : Environment}
    (h : inner.Exhausts { env with depth := env.depth + 1 }) : (nested inner).Exhausts env :=
  h

theorem Yields.nested {inner : Evaluation α} (h : inner.Yields scope result) :
    (nested inner).Yields scope result := by
  intro env henv
  refine (h { env with depth := env.depth + 1 } henv).imp Exhausts.nested fun hrun => ?_
  rw [nested_run, hrun]
  rfl

end Evaluation

/-! ### Failures at the limit filled in -/

/-- The simplifier with what `R` says put in the place of its failures at the nesting limit. -/
noncomputable def Simplifier.completed (recur : Simplifier) (scope : Scope) (R : Node → Node → Prop) :
    Simplifier := fun node env =>
  open Classical in
  if h : env.current = scope ∧ (recur node).Exhausts env ∧ ∃ result, R node result then
    (.ok h.2.2.choose, env)
  else recur node env

section Completed

variable {scope : Scope} {R : Node → Node → Prop} {room : Nat}

theorem Simplifier.completed_follows {recur : Simplifier} (hunique : ∀ e r s, R e r → R e s → r = s)
    (hrecur : ∀ e r, R e r → (recur e).Yields scope r) : (recur.completed scope R).Follows scope R := by
  intro e r h env henv
  rw [completed]
  split
  · rename_i hexhausts
    rw [hunique e _ r hexhausts.2.2.choose_spec h]
  · rename_i hnot
    exact (hrecur e r h env henv).resolve_left fun hexhausts => hnot ⟨henv, hexhausts, r, h⟩

/-- What is filled in is excused. -/
theorem shadowed_completed {limit : Nat} (node : Node) :
    Shadowed Failure.IsLimit (Environment.Relimited limit) (fun _ => True) (simplifyWithin room node)
      ((simplifyWithin room).completed scope R node) := by
  intro left right hrelated
  have hshadow : Shadowed Failure.IsLimit (Environment.Relimited limit) (fun _ => True)
      (simplifyWithin room node) (simplifyWithin room node) :=
    shadowed_simplifyWithin (simulation_relimited 0) room trivial
  refine (hshadow left right hrelated).elim .inl fun ⟨hsame, hresult, hafter⟩ => ?_
  by_cases hexhausts : (simplifyWithin room node).Exhausts right
  · obtain ⟨failure, hfails, hlimit⟩ := hexhausts
    exact .inl ⟨failure, hsame.trans hfails, hlimit⟩
  · rw [Simplifier.completed, dif_neg fun h => hexhausts h.2.1]
    exact .inr ⟨hsame, hresult, hafter⟩

/-- Where the simplifier does one level deeper what the relation says, or fails at the limit, it does so for
a step. -/
theorem yields_simplifyStep (hcandid : ∀ operation ∈ scope.registry.operations, operation.Candid)
    (hunique : ∀ e r s, R e r → R e s → r = s) (hrecur : ∀ e r, R e r → (simplifyWithin room e).Yields scope r)
    {e r : Node} (h : Step scope R e r) : (simplifyStep (simplifyWithin room) e).Yields scope r := by
  intro env henv
  have hcompleted := h.run (Simplifier.completed_follows hunique hrecur) henv
  have hrelated : Environment.Relimited env.maxDepth env env := by
    rw [← henv] at hcandid
    exact ⟨rfl, hcandid⟩
  have hshadow : Shadowed Failure.IsLimit (Environment.Relimited env.maxDepth) (fun _ => True)
      (simplifyStep (simplifyWithin room) e) (simplifyStep ((simplifyWithin room).completed scope R) e) :=
    shadowed_simplifyStep (simulation_relimited 0) (fun node _ => shadowed_completed node)
      (invokes_relimited shadowed_completed) trivial
  have hshadow := hshadow env env hrelated
  rw [hcompleted] at hshadow
  refine hshadow.imp id fun ⟨hsame, _, hafter, _⟩ => ?_
  have hframe := keepsFrame_simplifyStep (keepsFrame_simplifyWithin room) e env
  rcases hrun : simplifyStep (simplifyWithin room) e env with ⟨outcome, after⟩
  rw [hrun] at hsame hafter hframe
  cases hsame
  have hsame : env = { after with maxDepth := env.maxDepth } := hafter
  rw [← show after.maxDepth = env.maxDepth from hframe.maxDepth] at hsame
  rw [hsame]

end Completed

/-! ### The stored sequence -/

section Stored

variable {scope : Scope} {name : String}
  (hcandid : ∀ operation ∈ scope.registry.operations, operation.Candid)
include hcandid

/-- What is simple but for the variable comes to itself, unless it comes across the variable and the value of
this fails at the limit: there is less room for the value than there was for the node. -/
theorem yields_of_reduces {other : Scope} (halike : scope.AlikeBut name other) {list : Node}
    (hbound : scope.bindings.get? name = some list) {room : Nat}
    (hexhausts : ∀ less < room, ∀ env, env.current = scope → (simplifyWithin less list).Exhausts env)
    {more : Nat} {e r : Node} (h : Reduces other more e r) : (simplifyWithin room e).Yields scope r := by
  induction room generalizing more e r with
  | zero => exact fun env _ => .inl ⟨_, rfl, env.depth, rfl⟩
  | succ room ih =>
      cases more with
      | zero => exact h.elim
      | succ more =>
          have hless : ∀ less < room, ∀ env, env.current = scope → (simplifyWithin less list).Exhausts env :=
            fun less hless => hexhausts less (Nat.lt_succ_of_lt hless)
          rw [simplifyWithin]
          refine Yields.nested ?_
          rcases halike.step h with rfl | hstep
          · intro env henv
            have hget : env.get? name = some list := by
              rw [Environment.get?, Environment.bindings, henv, hbound]
            rw [Exhausts, simplifyStep_symbol, hget]
            exact .inl (hexhausts room (Nat.lt_succ_self room) env henv)
          · exact yields_simplifyStep hcandid (fun _ _ _ h h' => h.unique h') (fun _ _ => ih hless) hstep

omit hcandid in
theorem yields_simplifyEach {recur : Simplifier} {nodes : List Node}
    (hrecur : ∀ node ∈ nodes, (recur node).Yields scope node) :
    (simplifyEach recur nodes).Yields scope nodes := by
  induction nodes with
  | nil => exact yields_pure []
  | cons node rest ih =>
      rw [List.forall_mem_cons] at hrecur
      rw [simplifyEach]
      exact hrecur.1.bind ((ih hrecur.2).bind (yields_pure _))

/-- A stored sequence whose elements are simple but for the variable comes to itself, or fails at the
limit. The induction is on the room: a sequence that has come to itself with less room does so with more. -/
theorem yields_stored {K : Node → Prop} (hquiet : scope.QuietOn K) {elements : List Node}
    (hkind : K (.sequence elements)) (hbound : scope.bindings.get? name = some (.sequence elements))
    (hsimple : ∀ element ∈ elements, scope.SimpleBut name element) (room : Nat) :
    (simplifyWithin room (.sequence elements)).Yields scope (.sequence elements) := by
  induction room using Nat.strong_induction_on with
  | _ room ih =>
      by_cases hexhausts : ∀ less < room, ∀ env, env.current = scope →
          (simplifyWithin less (.sequence elements)).Exhausts env
      · cases room with
        | zero => exact fun env _ => .inl ⟨_, rfl, env.depth, rfl⟩
        | succ room =>
            have hless : ∀ less < room, ∀ env, env.current = scope →
                (simplifyWithin less (.sequence elements)).Exhausts env :=
              fun less hless => hexhausts less (Nat.lt_succ_of_lt hless)
            rw [simplifyWithin]
            refine Yields.nested ?_
            have heach : (simplifyEach (simplifyWithin room) elements).Yields scope elements :=
              yields_simplifyEach fun element helement => by
                obtain ⟨other, more, halike, hreduces⟩ := hsimple element helement
                exact yields_of_reduces hcandid halike hbound hless hreduces
            exact heach.bind (yields_pure _)
      · push Not at hexhausts
        obtain ⟨less, hless, env, henv, hnot⟩ := hexhausts
        have hrun := (ih less hless env henv).resolve_left hnot
        obtain ⟨_, hreduces, _⟩ := simplifyWithin_obeys hquiet less _ _ env env hkind henv hrun
        exact fun env henv => .inr (simplifyWithin_follows scope room _ _ (hreduces.of_le hless.le) env henv)

end Stored

end SymbolicAlgebra
