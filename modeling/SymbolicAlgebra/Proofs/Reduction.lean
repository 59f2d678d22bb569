import Mathlib.Data.List.Forall2
import SymbolicAlgebra.Proofs.Evaluation

/-! Simplification as a relation, for expressions whose simplification has no effects. `Step` says what
a node becomes in terms of what the nodes one level deeper become, rule by rule, and `Reduces` ties the
levels together. Applications with a defer marker and handlers that touch the environment have no rule.
Whatever the relation says, the simplifier does, and leaves the environment as it was. -/

namespace SymbolicAlgebra

/-- The action ends with `result` if what it has simplified becomes what `R` says. -/
inductive Action.Answers {α : Type} (R : Node → Node → Prop) : Action Operation α → α → Prop
  | done (result : α) : Answers R (.done result) result
  | simplify {node answer : Node} {next : Except Failure Node → Action Operation α} {result : α} :
      R node answer → Answers R (next (.ok answer)) result → Answers R (.simplify node next) result

namespace Action.Answers

variable {α β : Type} {R : Node → Node → Prop} {result : α}

theorem of_done {other : α} (h : (Action.done other).Answers R result) : result = other := by
  cases h
  rfl

theorem of_ofExcept {computation : Except Failure α} (h : (Action.ofExcept computation).Answers R result) :
    computation = .ok result := by
  cases computation with
  | ok other => rw [of_done h]
  | error failure => cases h

/-- The result of a whole comes from a result of its first part. -/
theorem of_bind {first : Action Operation β} {next : β → Action Operation α}
    (h : (first >>= next).Answers R result) :
    ∃ middle, first.Answers R middle ∧ (next middle).Answers R result := by
  change (first.andThen next).Answers R result at h
  induction first with
  | done middle => exact ⟨middle, .done middle, h⟩
  | simplify node k ih =>
      cases h with
      | simplify hnode hnext =>
          obtain ⟨middle, hmiddle, hresult⟩ := ih _ hnext
          exact ⟨middle, .simplify hnode hmiddle, hresult⟩
  | _ => cases h

end Action.Answers

section Rules

variable (registry : Registry) (R : Node → Node → Prop)

/-- The outcome of a call: what the handler ends with, or nothing where no operation takes it. -/
inductive Invokes (name : String) (args : List Node) : Option Node → Prop
  | unresolved : registry.resolve name args = none → Invokes name args none
  | answered {operation : Operation} {outcome : Option Node} :
      registry.resolve name args = some operation → (operation.handler args).Answers R outcome →
      Invokes name args outcome

/-- Two arguments whose application becomes nothing simpler. -/
def Kept (name : String) (first second : Node) : Prop :=
  ∃ folded, R (.application name [first, second]) folded ∧
    ¬folded.complexity < (Node.application name [first, second]).complexity

/-- The first pair of a list that folds, what it folds to, and the other arguments. -/
inductive FoldsPair (name : String) : List Node → Node → List Node → Prop
  | here {first second folded : Node} {between behind : List Node} :
      (∀ node ∈ between, Kept R name first node) → R (.application name [first, second]) folded →
      folded.complexity < (Node.application name [first, second]).complexity →
      FoldsPair name (first :: (between ++ second :: behind)) folded (between ++ behind)
  | later {first folded : Node} {rest others : List Node} :
      (∀ node ∈ rest, Kept R name first node) → FoldsPair name rest folded others →
      FoldsPair name (first :: rest) folded (first :: others)

/-- What folding pairs until none folds leads to. -/
inductive Regroups (name : String) (arity : Nat) : List Node → Node → Prop
  | single {args : List Node} {folded : Node} :
      FoldsPair R name args folded [] → Regroups name arity args folded
  | folded {args others : List Node} {folded result : Node} :
      FoldsPair R name args folded others → others ≠ [] →
      Regroups name arity (arrange registry name (others ++ [folded])) result →
      Regroups name arity args result
  | offered {args : List Node} {offer result : Node} :
      args.Pairwise (Kept R name) → args.length < arity → Invokes registry R name args (some offer) →
      R offer result → Regroups name arity args result
  | left {args : List Node} :
      args.Pairwise (Kept R name) → (args.length < arity → Invokes registry R name args none) →
      Regroups name arity args (construct registry name args)

/-- The arguments in the form in which the handler gets them. -/
inductive Prepares (name : String) (args : List Node) : List Node → Prop
  | preserved : registry.preservesArguments name → Prepares name args (arrange registry name args)
  | simplified {reduced : List Node} :
      ¬registry.preservesArguments name → List.Forall₂ R args reduced →
      Prepares name args (arrange registry name reduced)

end Rules

/-- One step of simplification in a scope, relative to `R` for what lies one level deeper. -/
inductive Step (scope : Scope) (R : Node → Node → Prop) : Node → Node → Prop
  | number (value : Number) : Step scope R (.number value) (.number value)
  | boolean (value : Bool) : Step scope R (.boolean value) (.boolean value)
  | free {name : String} : scope.bindings.get? name = none → Step scope R (.symbol name) (.symbol name)
  | bound {name : String} {value result : Node} :
      scope.bindings.get? name = some value → R value result → Step scope R (.symbol name) result
  | pair {first second first' second' : Node} :
      R first first' → R second second' → Step scope R (.pair first second) (.pair first' second')
  | sequence {elements elements' : List Node} :
      List.Forall₂ R elements elements' → Step scope R (.sequence elements) (.sequence elements')
  | rewritten {name : String} {args prepared : List Node} {offer result : Node} :
      deferred? name = none → Prepares scope.registry R name args prepared →
      Invokes scope.registry R name prepared (some offer) → R offer result →
      Step scope R (.application name args) result
  | undecided {name : String} {args prepared : List Node} :
      deferred? name = none → Prepares scope.registry R name args prepared →
      Invokes scope.registry R name prepared none →
      ¬(2 < prepared.length ∧ scope.registry.isCommutative name) →
      Step scope R (.application name args) (.application name prepared)
  | regrouped {name : String} {args prepared : List Node} {grouped : Node} :
      deferred? name = none → Prepares scope.registry R name args prepared →
      Invokes scope.registry R name prepared none →
      2 < prepared.length → scope.registry.isCommutative name →
      Regroups scope.registry R name prepared.length prepared grouped →
      Step scope R (.application name args)
        (if grouped.complexity < (Node.application name prepared).complexity then grouped
          else .application name prepared)

/-- What a node becomes where `room` more levels of nesting are allowed. -/
def Reduces (scope : Scope) : (room : Nat) → Node → Node → Prop
  | 0 => fun _ _ => False
  | room + 1 => Step scope (Reduces scope room)

/-- A call that goes to an operation has an outcome of its handler. -/
theorem Invokes.of_resolve {registry : Registry} {R : Node → Node → Prop} {name : String}
    {args : List Node} {operation : Operation} {outcome : Option Node}
    (hresolve : registry.resolve name args = some operation)
    (h : Invokes registry R name args outcome) : (operation.handler args).Answers R outcome := by
  cases h with
  | unresolved hnone =>
      rw [hresolve] at hnone
      cases hnone
  | answered hsome hanswers =>
      rw [hresolve] at hsome
      cases hsome
      exact hanswers

/-! ### More room -/

section Monotone

variable {registry : Registry} {R S : Node → Node → Prop} (himp : ∀ e r, R e r → S e r)
include himp

theorem Action.Answers.mono {α : Type} {action : Action Operation α} {result : α}
    (h : action.Answers R result) : action.Answers S result := by
  induction h with
  | done result => exact .done result
  | simplify hnode _ ih => exact .simplify (himp _ _ hnode) ih

theorem Invokes.mono {name : String} {args : List Node} {outcome : Option Node}
    (h : Invokes registry R name args outcome) : Invokes registry S name args outcome := by
  cases h with
  | unresolved hresolve => exact .unresolved hresolve
  | answered hresolve hanswers => exact .answered hresolve (hanswers.mono himp)

theorem Kept.mono {name : String} {first second : Node} (h : Kept R name first second) :
    Kept S name first second := by
  obtain ⟨folded, hfolded, hlighter⟩ := h
  exact ⟨folded, himp _ _ hfolded, hlighter⟩

theorem FoldsPair.mono {name : String} {args others : List Node} {folded : Node}
    (h : FoldsPair R name args folded others) : FoldsPair S name args folded others := by
  induction h with
  | here hkept hfolded hlighter =>
      exact .here (fun node hnode => (hkept node hnode).mono himp) (himp _ _ hfolded) hlighter
  | later hkept _ ih => exact .later (fun node hnode => (hkept node hnode).mono himp) ih

theorem Regroups.mono {name : String} {arity : Nat} {args : List Node} {result : Node}
    (h : Regroups registry R name arity args result) : Regroups registry S name arity args result := by
  induction h with
  | single hfold => exact .single (hfold.mono himp)
  | folded hfold hothers _ ih => exact .folded (hfold.mono himp) hothers ih
  | offered hkept hless hoffer hresult =>
      exact .offered (hkept.imp (Kept.mono himp)) hless (hoffer.mono himp) (himp _ _ hresult)
  | left hkept hnone =>
      exact .left (hkept.imp (Kept.mono himp)) fun hless => (hnone hless).mono himp

theorem Prepares.mono {name : String} {args prepared : List Node}
    (h : Prepares registry R name args prepared) : Prepares registry S name args prepared := by
  cases h with
  | preserved hpreserves => exact .preserved hpreserves
  | simplified hpreserves hreduced => exact .simplified hpreserves (hreduced.imp himp)

theorem Step.mono {scope : Scope} {e r : Node} (h : Step scope R e r) : Step scope S e r := by
  cases h with
  | number value => exact .number value
  | boolean value => exact .boolean value
  | free hfree => exact .free hfree
  | bound hbound hresult => exact .bound hbound (himp _ _ hresult)
  | pair hfirst hsecond => exact .pair (himp _ _ hfirst) (himp _ _ hsecond)
  | sequence helements => exact .sequence (helements.imp himp)
  | rewritten hname hprepared hoffer hresult =>
      exact .rewritten hname (hprepared.mono himp) (hoffer.mono himp) (himp _ _ hresult)
  | undecided hname hprepared hnone hsmall =>
      exact .undecided hname (hprepared.mono himp) (hnone.mono himp) hsmall
  | regrouped hname hprepared hnone hlong hcommutative hgrouped =>
      exact .regrouped hname (hprepared.mono himp) (hnone.mono himp) hlong hcommutative
        (hgrouped.mono himp)

end Monotone

theorem Reduces.succ {scope : Scope} {room : Nat} {e r : Node} (h : Reduces scope room e r) :
    Reduces scope (room + 1) e r := by
  induction room generalizing e r with
  | zero => exact h.elim
  | succ room ih => exact Step.mono (fun _ _ => ih) h

theorem Reduces.of_le {scope : Scope} {room more : Nat} {e r : Node} (hle : room ≤ more)
    (h : Reduces scope room e r) : Reduces scope more e r := by
  induction hle with
  | refl => exact h
  | step _ ih => exact ih.succ

/-- A fold takes two arguments, which it makes simpler, and keeps the others. -/
theorem FoldsPair.lighter {R : Node → Node → Prop} {name : String} {args others : List Node}
    {folded : Node} (h : FoldsPair R name args folded others) :
    ∃ first second, args.Perm (first :: second :: others) ∧
      R (.application name [first, second]) folded ∧
      folded.complexity < (Node.application name [first, second]).complexity := by
  induction h with
  | @here first second _ between behind _ hfolded hlighter =>
      exact ⟨first, second, List.perm_middle.cons first, hfolded, hlighter⟩
  | @later next _ _ _ _ _ ih =>
      obtain ⟨first, second, hperm, hfolded⟩ := ih
      refine ⟨first, second, (hperm.cons next).trans ?_, hfolded⟩
      exact (List.Perm.swap first next _).trans ((List.Perm.swap second next _).cons first)

theorem FoldsPair.perm {R : Node → Node → Prop} {name : String} {args others : List Node}
    {folded : Node} (h : FoldsPair R name args folded others) :
    ∃ first second, args.Perm (first :: second :: others) ∧
      R (.application name [first, second]) folded := by
  obtain ⟨first, second, hperm, hfolded, _⟩ := h.lighter
  exact ⟨first, second, hperm, hfolded⟩

/-- Lists that are related by a function are one the image of the other. -/
theorem eq_map_of_forall₂ {R : Node → Node → Prop} {f : Node → Node} {nodes results : List Node}
    (h : List.Forall₂ R nodes results) (hf : ∀ node ∈ nodes, ∀ result, R node result → result = f node) :
    results = nodes.map f := by
  induction h with
  | nil => rfl
  | cons hhead _ ih =>
      rw [List.forall_mem_cons] at hf
      rw [List.map_cons, ← hf.1 _ hhead, ← ih hf.2]

/-! ### The simplifier follows the relation -/

/-- In this scope, what `R` says is what the simplifier does, and it leaves the environment alone. -/
def Simplifier.Follows (recur : Simplifier) (scope : Scope) (R : Node → Node → Prop) : Prop :=
  ∀ e r, R e r → ∀ env : Environment, env.current = scope → recur e env = (.ok r, env)

section Follows

open Evaluation

variable {recur : Simplifier} {scope : Scope} {R : Node → Node → Prop}
  (hfollows : recur.Follows scope R) {env : Environment} (henv : env.current = scope)
include hfollows henv

theorem Action.Answers.run {α : Type} {action : Action Operation α} {result : α}
    (h : action.Answers R result) : action.run recur env = (.ok result, env) := by
  induction h with
  | done result => rfl
  | simplify hnode _ ih =>
      simp only [Action.run, hfollows _ _ hnode env henv]
      exact ih

theorem simplifyEach_of_forall₂ {nodes results : List Node} (h : List.Forall₂ R nodes results) :
    simplifyEach recur nodes env = (.ok results, env) := by
  induction h with
  | nil => rfl
  | cons hnode _ ih =>
      rw [simplifyEach, bind_run_ok (hfollows _ _ hnode env henv), bind_run_ok ih]
      rfl

theorem Invokes.run {name : String} {args : List Node} {outcome : Option Node}
    (h : Invokes scope.registry R name args outcome) :
    invokeWith recur name args env = (.ok outcome, env) := by
  have hregistry : env.registry = scope.registry := congrArg Scope.registry henv
  rw [invokeWith_run, hregistry]
  cases h with
  | unresolved hresolve => rw [hresolve]
  | answered hresolve hanswers =>
      rw [hresolve]
      exact hanswers.run hfollows henv

theorem foldWith_of_kept {name : String} {first : Node} {args : List Node}
    (hkept : ∀ node ∈ args, Kept R name first node) :
    foldWith recur name first args env = (.ok none, env) := by
  induction args with
  | nil => rfl
  | cons second rest ih =>
      obtain ⟨folded, hfolded, hlighter⟩ := hkept second List.mem_cons_self
      have hrest := ih fun node hnode => hkept node (List.mem_cons_of_mem _ hnode)
      rw [foldWith, bind_run_ok (hfollows _ _ hfolded env henv), dif_neg hlighter, bind_run_ok hrest]
      rfl

theorem foldWith_of_folds {name : String} {first second folded : Node} {between behind : List Node}
    (hkept : ∀ node ∈ between, Kept R name first node)
    (hfolded : R (.application name [first, second]) folded)
    (hlighter : folded.complexity < (Node.application name [first, second]).complexity) :
    ∃ fold, foldWith recur name first (between ++ second :: behind) env = (.ok (some fold), env) ∧
      fold.folded = folded ∧ fold.others = between ++ behind := by
  induction between with
  | nil =>
      rw [List.nil_append, foldWith, bind_run_ok (hfollows _ _ hfolded env henv), dif_pos hlighter]
      exact ⟨_, rfl, rfl, rfl⟩
  | cons node between ih =>
      obtain ⟨kept, hnode, hheavy⟩ := hkept node List.mem_cons_self
      obtain ⟨fold, hrun, hsame, hothers⟩ :=
        ih fun node hnode => hkept node (List.mem_cons_of_mem _ hnode)
      rw [List.cons_append, foldWith, bind_run_ok (hfollows _ _ hnode env henv), dif_neg hheavy,
        bind_run_ok hrun]
      exact ⟨_, rfl, hsame, congrArg (node :: ·) hothers⟩

theorem foldPair_of_kept {name : String} {args : List Node} (h : args.Pairwise (Kept R name)) :
    foldPair recur name args env = (.ok none, env) := by
  induction h with
  | nil => rfl
  | cons hkept _ ih =>
      rw [foldPair, bind_run_ok (foldWith_of_kept hfollows henv hkept)]
      dsimp only
      rw [bind_run_ok ih]
      rfl

theorem FoldsPair.run {name : String} {args others : List Node} {folded : Node}
    (h : FoldsPair R name args folded others) :
    ∃ fold, foldPair recur name args env = (.ok (some fold), env) ∧
      fold.folded = folded ∧ fold.others = others := by
  induction h with
  | here hkept hfolded hlighter =>
      obtain ⟨fold, hrun, hsame, hothers⟩ :=
        foldWith_of_folds hfollows henv hkept hfolded hlighter
      rw [foldPair, bind_run_ok hrun]
      exact ⟨fold, rfl, hsame, hothers⟩
  | @later first _ _ _ hkept _ ih =>
      obtain ⟨fold, hrun, hsame, hothers⟩ := ih
      rw [foldPair, bind_run_ok (foldWith_of_kept hfollows henv hkept)]
      dsimp only
      rw [bind_run_ok hrun]
      exact ⟨_, rfl, hsame, congrArg (first :: ·) hothers⟩

theorem Regroups.run {name : String} {arity : Nat} {args : List Node} {result : Node}
    (h : Regroups scope.registry R name arity args result) :
    regroup recur name arity args env = (.ok result, env) := by
  have hregistry : env.registry = scope.registry := congrArg Scope.registry henv
  induction h with
  | single hfold =>
      obtain ⟨fold, hrun, rfl, hothers⟩ := hfold.run hfollows henv
      rw [regroup, bind_run_ok hrun]
      simp only [hothers, List.isEmpty_nil, if_true]
      rfl
  | @folded _ others _ _ hfold hnonempty _ ih =>
      obtain ⟨fold, hrun, rfl, rfl⟩ := hfold.run hfollows henv
      have hmore : ¬fold.others.isEmpty := fun h => hnonempty (List.isEmpty_iff.mp h)
      rw [regroup, bind_run_ok hrun]
      dsimp only
      rw [if_neg hmore, bind_run_ok (registry_run env), hregistry]
      exact ih
  | offered hkept hless hoffer hresult =>
      rw [regroup, bind_run_ok (foldPair_of_kept hfollows henv hkept)]
      dsimp only
      rw [if_pos hless, bind_run_ok (hoffer.run hfollows henv)]
      exact hfollows _ _ hresult env henv
  | left hkept hnone =>
      rw [regroup, bind_run_ok (foldPair_of_kept hfollows henv hkept)]
      dsimp only
      split
      · rename_i hless
        rw [bind_run_ok ((hnone hless).run hfollows henv), ← hregistry]
        rfl
      · rw [← hregistry]
        rfl

theorem Prepares.run {name : String} {args prepared : List Node} (hname : deferred? name = none)
    (h : Prepares scope.registry R name args prepared) :
    ∃ reduced, arrange scope.registry name reduced = prepared ∧
      simplifyApplication recur name args env = simplifyPrepared recur name reduced env := by
  have hregistry : env.registry = scope.registry := congrArg Scope.registry henv
  cases h with
  | preserved hpreserves =>
      rw [← hregistry] at hpreserves
      exact ⟨args, rfl, simplifyApplication_of_preserves hname hpreserves⟩
  | @simplified reduced hpreserves hreduced =>
      rw [← hregistry] at hpreserves
      rw [simplifyApplication_of_not_preserves hname hpreserves,
        bind_run_ok (simplifyEach_of_forall₂ hfollows henv hreduced)]
      exact ⟨reduced, rfl, rfl⟩

/-- An application that no operation decides is regrouped if it is a chain, and stays as it is otherwise. -/
theorem Prepares.run_undecided {name : String} {args prepared : List Node} (hname : deferred? name = none)
    (h : Prepares scope.registry R name args prepared) (hnone : Invokes scope.registry R name prepared none) :
    simplifyStep recur (.application name args) env =
      (if prepared.length > 2 && scope.registry.isCommutative name then do
        let regrouped ← regroup recur name prepared.length prepared
        return if regrouped.complexity < (Node.application name prepared).complexity then regrouped
          else .application name prepared
      else pure (.application name prepared) : Evaluation Node) env := by
  have hregistry : env.registry = scope.registry := congrArg Scope.registry henv
  obtain ⟨reduced, harranged, happlication⟩ := h.run hfollows henv hname
  rw [← hregistry] at harranged
  rw [simplifyStep_application, happlication, simplifyPrepared_of_none harranged (hnone.run hfollows henv), hregistry]

theorem Step.run {e r : Node} (h : Step scope R e r) : simplifyStep recur e env = (.ok r, env) := by
  have hregistry : env.registry = scope.registry := congrArg Scope.registry henv
  have hget (name : String) : env.get? name = scope.bindings.get? name :=
    congrArg (fun scope => scope.bindings.get? name) henv
  cases h with
  | number value => rfl
  | boolean value => rfl
  | @free name hfree => rw [simplifyStep_symbol, hget, hfree]
  | @bound name value result hbound hresult =>
      rw [simplifyStep_symbol, hget, hbound]
      exact hfollows _ _ hresult env henv
  | pair hfirst hsecond =>
      rw [simplifyStep, bind_run_ok (hfollows _ _ hfirst env henv),
        bind_run_ok (hfollows _ _ hsecond env henv)]
      rfl
  | sequence helements =>
      rw [simplifyStep, bind_run_ok (simplifyEach_of_forall₂ hfollows henv helements)]
      rfl
  | rewritten hname hprepares hoffer hresult =>
      obtain ⟨reduced, harranged, happlication⟩ := hprepares.run hfollows henv hname
      rw [← hregistry] at harranged
      rw [simplifyStep_application, happlication, simplifyPrepared_of_offer harranged (hoffer.run hfollows henv)]
      exact hfollows _ _ hresult env henv
  | undecided hname hprepares hnone hsmall =>
      rw [hprepares.run_undecided hfollows henv hname hnone, if_neg (by simpa using hsmall)]
      rfl
  | regrouped hname hprepares hnone hlong hcommutative hgrouped =>
      rw [hprepares.run_undecided hfollows henv hname hnone, if_pos (by simp [hlong, hcommutative]),
        bind_run_ok (hgrouped.run hfollows henv)]
      rfl

end Follows

/-- The simplifier finds whatever the relation says, within the same room. -/
theorem simplifyWithin_follows (scope : Scope) (room : Nat) :
    (simplifyWithin room).Follows scope (Reduces scope room) := by
  induction room with
  | zero => exact fun _ _ h => h.elim
  | succ room ih =>
      intro e r h env henv
      have hdeeper : { env with depth := env.depth + 1 }.current = scope := henv
      have hstep := Step.run ih hdeeper h
      rw [simplifyWithin, Evaluation.nested_run, hstep]
      rfl

/-- A node becomes one thing only, whatever the room. -/
theorem Reduces.unique {scope : Scope} {room more : Nat} {e r s : Node} (h : Reduces scope room e r)
    (h' : Reduces scope more e s) : r = s := by
  let env : Environment := { current := scope, base := scope }
  have hr := simplifyWithin_follows scope (max room more) e r (h.of_le (Nat.le_max_left _ _)) env rfl
  have hs := simplifyWithin_follows scope (max room more) e s (h'.of_le (Nat.le_max_right _ _)) env rfl
  rw [hr] at hs
  cases hs
  rfl

end SymbolicAlgebra
