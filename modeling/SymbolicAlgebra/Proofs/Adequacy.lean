import SymbolicAlgebra.Proofs.Effects
import SymbolicAlgebra.Proofs.Order
import SymbolicAlgebra.Proofs.Reduction
import SymbolicAlgebra.Proofs.Registry

/-! The relation of reductions is all there is to the simplification of expressions of a kind that the operations
keep without changing anything, such as the effect-free ones: where the simplifier succeeds on one of them, it has
followed the rules, the environment is as it was, and the result is of the kind too. -/

namespace SymbolicAlgebra

/-- In this scope, applications of the kind are unmarked and go to operations that are quiet on the kind, and the
values of its symbols are of it. -/
structure Scope.QuietOn (K : Node → Prop) (scope : Scope) : Prop where
  kind : Node.Kind K
  unmarked {name : String} {args : List Node} : K (.application name args) → deferred? name = none
  operations : ∀ operation ∈ scope.registry.operations, K (.application operation.name []) → operation.QuietOn K
  values {name : String} {value : Node} : K (.symbol name) → scope.bindings.get? name = some value → K value

/-- Effect-free applications go to quiet operations, and the values of variables are effect-free. -/
abbrev Scope.Quiet (scope : Scope) : Prop :=
  scope.QuietOn Node.EffectFree

theorem Scope.quiet_of_forall {scope : Scope}
    (hoperations : ∀ operation ∈ scope.registry.operations, EffectFreeName operation.name → operation.Quiet)
    (hvalues : ∀ name value, scope.bindings.get? name = some value → value.EffectFree) : scope.Quiet where
  kind := Node.Kind.effectFree
  unmarked h := (Node.effectFree_application.mp h).1.1
  operations operation hmem h := hoperations operation hmem (Node.effectFree_application.mp h).1
  values _ := hvalues _ _

/-- A vocabulary of unmarked names that the operations of these names keep, and the variables. -/
theorem Scope.quietOn_within {scope : Scope} {V : Vocabulary}
    (hunmarked : ∀ name, V.name name → deferred? name = none)
    (hoperations : ∀ operation ∈ scope.registry.operations, V.name operation.name → operation.QuietIn V)
    (hvalues : ∀ name value, V.symbol name → scope.bindings.get? name = some value → value.Within V) :
    scope.QuietOn (Node.Within V) where
  kind := V.kind
  unmarked h := hunmarked _ (Node.within_application.mp h).1
  operations operation hmem h := hoperations operation hmem (Node.within_application.mp h).1
  values h := hvalues _ _ (Node.within_symbol.mp h)

/-- In this scope, the simplifier does to nodes of the kind what `R` says and nothing else. -/
def Simplifier.Obeys (recur : Simplifier) (K : Node → Prop) (scope : Scope) (R : Node → Node → Prop) : Prop :=
  ∀ e r env after, K e → env.current = scope → recur e env = (.ok r, after) → after = env ∧ R e r ∧ K r

section Obeys

open Evaluation

variable {K : Node → Prop} {recur : Simplifier} {scope : Scope} {R : Node → Node → Prop} {env after : Environment}
  (hobeys : recur.Obeys K scope R) (henv : env.current = scope)
include hobeys henv

theorem Action.QuietOn.answers {α : Type} {P : α → Prop} {action : Action Operation α} {result : α}
    (h : action.QuietOn K P) (hrun : action.run recur env = (.ok result, after)) :
    after = env ∧ action.Answers R result ∧ P result := by
  induction h with
  | done hresult =>
      cases hrun
      exact ⟨rfl, .done _, hresult⟩
  | fail failure => cases hrun
  | @simplify node next hnode _ herror ih =>
      rw [Action.run] at hrun
      rcases hanswer : recur node env with ⟨failure | answer, mid⟩
      · simp only [hanswer, herror] at hrun
        cases hrun
      · simp only [hanswer] at hrun
        obtain ⟨rfl, hreduced, hfree⟩ := hobeys node answer env mid hnode henv hanswer
        obtain ⟨rfl, hanswers, hresult⟩ := ih answer hfree hrun
        exact ⟨rfl, .simplify hreduced hanswers, hresult⟩

theorem forall₂_of_simplifyEach {nodes results : List Node} (hnodes : ∀ node ∈ nodes, K node)
    (hrun : simplifyEach recur nodes env = (.ok results, after)) :
    after = env ∧ List.Forall₂ R nodes results ∧ ∀ result ∈ results, K result := by
  induction nodes generalizing results after with
  | nil =>
      cases hrun
      exact ⟨rfl, .nil, nofun⟩
  | cons node rest ih =>
      rw [List.forall_mem_cons] at hnodes
      rw [simplifyEach] at hrun
      obtain ⟨simplified, mid, hnode, hbehind⟩ := of_bind_ok hrun
      obtain ⟨rfl, hreduced, hfree⟩ := hobeys node simplified env mid hnodes.1 henv hnode
      obtain ⟨others, mid, hrest, hdone⟩ := of_bind_ok hbehind
      obtain ⟨rfl, hothers, hfrees⟩ := ih hnodes.2 hrest
      cases hdone
      exact ⟨rfl, .cons hreduced hothers, List.forall_mem_cons.mpr ⟨hfree, hfrees⟩⟩

theorem invokes_of_invokeWith (hquiet : scope.QuietOn K) {name : String} {args : List Node}
    (hnode : K (.application name args)) {outcome : Option Node}
    (hrun : invokeWith recur name args env = (.ok outcome, after)) :
    after = env ∧ Invokes scope.registry R name args outcome ∧ Offered K outcome := by
  have hregistry : env.registry = scope.registry := congrArg Scope.registry henv
  rw [invokeWith_run, hregistry] at hrun
  cases hresolve : scope.registry.resolve name args with
  | none =>
      rw [hresolve] at hrun
      cases hrun
      exact ⟨rfl, .unresolved hresolve, offered_none⟩
  | some operation =>
      rw [hresolve] at hrun
      obtain ⟨hmem, rfl, _⟩ := Registry.mem_of_resolve hresolve
      have hoperation := hquiet.operations operation hmem (hquiet.kind.of_subset hnode (List.nil_subset args))
      obtain ⟨rfl, hanswers, hoffer⟩ := (hoperation args (hquiet.kind.args hnode)).answers hobeys henv hrun
      exact ⟨rfl, .answered hresolve hanswers, hoffer⟩

/-- The outcome of `foldWith` is right: all pairs with the first argument are kept, or one of them
folds. -/
def FoldsWith (K : Node → Prop) (R : Node → Node → Prop) (name : String) (first : Node) (args : List Node) :
    Option (Fold (first :: args)) → Prop
  | none => ∀ node ∈ args, Kept R name first node
  | some fold => ∃ between second behind, args = between ++ second :: behind ∧
      fold.others = between ++ behind ∧ (∀ node ∈ between, Kept R name first node) ∧
      R (.application name [first, second]) fold.folded ∧
      fold.folded.complexity < (Node.application name [first, second]).complexity ∧ K fold.folded

theorem foldsWith_of_foldWith (hK : Node.Kind K) {name : String} {first : Node} {args : List Node}
    (hnode : K (.application name (first :: args))) {outcome : Option (Fold (first :: args))}
    (hrun : foldWith recur name first args env = (.ok outcome, after)) :
    after = env ∧ FoldsWith K R name first args outcome := by
  induction args generalizing after with
  | nil =>
      cases hrun
      exact ⟨rfl, nofun⟩
  | cons second rest ih =>
      have hpair : K (.application name [first, second]) := hK.of_subset hnode (by simp)
      have hrest : K (.application name (first :: rest)) :=
        hK.of_subset hnode (List.cons_subset_cons first (List.subset_cons_self second rest))
      rw [foldWith] at hrun
      obtain ⟨folded, mid, hfolded, hbehind⟩ := of_bind_ok hrun
      obtain ⟨rfl, hreduced, hresult⟩ := hobeys _ folded env mid hpair henv hfolded
      split at hbehind
      · rename_i hlighter
        cases hbehind
        exact ⟨rfl, [], second, rest, rfl, rfl, nofun, hreduced, hlighter, hresult⟩
      · rename_i hheavy
        obtain ⟨fold, mid, hothers, hdone⟩ := of_bind_ok hbehind
        obtain ⟨rfl, hfolds⟩ := ih hrest hothers
        have hkept : Kept R name first second := ⟨folded, hreduced, hheavy⟩
        cases hdone
        cases fold with
        | none => exact ⟨rfl, List.forall_mem_cons.mpr ⟨hkept, hfolds⟩⟩
        | some fold =>
            obtain ⟨between, other, behind, hsplit, hothers, hbetween, hfold⟩ := hfolds
            exact ⟨rfl, second :: between, other, behind, congrArg (second :: ·) hsplit,
              congrArg (second :: ·) hothers, List.forall_mem_cons.mpr ⟨hkept, hbetween⟩, hfold⟩

/-- The outcome of `foldPair` is right: all pairs are kept, or one of them folds. -/
def FoldsSome (K : Node → Prop) (R : Node → Node → Prop) (name : String) (args : List Node) :
    Option (Fold args) → Prop
  | none => args.Pairwise (Kept R name)
  | some fold => FoldsPair R name args fold.folded fold.others ∧ K fold.folded

theorem foldsSome_of_foldPair (hK : Node.Kind K) {name : String} {args : List Node}
    (hnode : K (.application name args)) {outcome : Option (Fold args)}
    (hrun : foldPair recur name args env = (.ok outcome, after)) :
    after = env ∧ FoldsSome K R name args outcome := by
  induction args generalizing after with
  | nil =>
      cases hrun
      exact ⟨rfl, .nil⟩
  | cons first rest ih =>
      rw [foldPair] at hrun
      obtain ⟨fold, mid, hfirst, hbehind⟩ := of_bind_ok hrun
      obtain ⟨rfl, hfolds⟩ := foldsWith_of_foldWith hobeys henv hK hnode hfirst
      cases fold with
      | some fold =>
          cases hbehind
          obtain ⟨between, second, behind, rfl, hothers, hbetween, hreduced, hlighter, hresult⟩ := hfolds
          have hhere : FoldsPair R name (first :: (between ++ second :: behind)) fold.folded
              (between ++ behind) := .here hbetween hreduced hlighter
          rw [← hothers] at hhere
          exact ⟨rfl, hhere, hresult⟩
      | none =>
          have hremaining : K (.application name rest) := hK.of_subset hnode (List.subset_cons_self first rest)
          obtain ⟨fold, mid, hrest, hdone⟩ := of_bind_ok hbehind
          obtain ⟨rfl, hlater⟩ := ih hremaining hrest
          cases hdone
          cases fold with
          | none => exact ⟨rfl, .cons hfolds hlater⟩
          | some fold => exact ⟨rfl, .later hfolds hlater.1, hlater.2⟩

theorem regroups_of_regroup (hquiet : scope.QuietOn K) {name : String} {arity : Nat} {args : List Node}
    (hnode : K (.application name args)) {result : Node}
    (hrun : regroup recur name arity args env = (.ok result, after)) :
    after = env ∧ Regroups scope.registry R name arity args result ∧ K result := by
  have hK := hquiet.kind
  have hregistry : env.registry = scope.registry := congrArg Scope.registry henv
  induction args using regroup.induct name generalizing result after with
  | case1 args ih =>
      rw [regroup] at hrun
      obtain ⟨fold, mid, hfold, hbehind⟩ := of_bind_ok hrun
      obtain ⟨rfl, hfolds⟩ := foldsSome_of_foldPair hobeys henv hK hnode hfold
      cases fold with
      | some fold =>
          obtain ⟨hpair, hfolded⟩ := hfolds
          dsimp only at hbehind
          split at hbehind
          · rename_i hempty
            cases hbehind
            rw [List.isEmpty_iff] at hempty
            rw [hempty] at hpair
            exact ⟨rfl, .single hpair, hfolded⟩
          · rename_i hnonempty
            rw [bind_run_ok (registry_run _), hregistry] at hbehind
            have hnext : ∀ arg ∈ fold.others ++ [fold.folded], K arg := by
              obtain ⟨first, second, hperm, _⟩ := hpair.perm
              intro arg harg
              rcases List.mem_append.mp harg with hother | hnew
              · exact hK.args hnode arg
                  (hperm.mem_iff.mpr (List.mem_cons_of_mem _ (List.mem_cons_of_mem _ hother)))
              · exact List.mem_singleton.mp hnew ▸ hfolded
            obtain ⟨rfl, hregroups, hresult⟩ :=
              ih fold scope.registry (hK.applied hnode (hK.arranged scope.registry hnext)) hbehind
            exact ⟨rfl, .folded hpair (fun h => hnonempty (List.isEmpty_iff.mpr h)) hregroups, hresult⟩
      | none =>
          have hleft {after : Environment} (hnone : args.length < arity →
                Invokes scope.registry R name args none)
              (hdone : (do return construct (← registry) name args : Evaluation Node) mid =
                (.ok result, after)) :
              after = mid ∧ Regroups scope.registry R name arity args result ∧ K result := by
            rw [bind_run_ok (registry_run _), hregistry] at hdone
            cases hdone
            exact ⟨rfl, .left hfolds hnone, hK.applied hnode (hK.arranged scope.registry (hK.args hnode))⟩
          dsimp only at hbehind
          split at hbehind
          · rename_i hless
            obtain ⟨outcome, last, hinvoke, hdone⟩ := of_bind_ok hbehind
            obtain ⟨rfl, hinvokes, hoffer⟩ := invokes_of_invokeWith hobeys henv hquiet hnode hinvoke
            cases outcome with
            | some offer =>
                obtain ⟨rfl, hreduced, hresult⟩ := hobeys offer result _ after (hoffer offer rfl) henv hdone
                exact ⟨rfl, .offered hfolds hless hinvokes hreduced, hresult⟩
            | none => exact hleft (fun _ => hinvokes) hdone
          · rename_i hfull
            exact hleft (fun hless => (hfull hless).elim) hbehind

theorem step_of_simplifyPrepared (hquiet : scope.QuietOn K) {name : String} {args reduced : List Node}
    (hprepares : Prepares scope.registry R name args (arrange scope.registry name reduced))
    (hreduced : K (.application name reduced)) {result : Node}
    (hrun : simplifyPrepared recur name reduced env = (.ok result, after)) :
    after = env ∧ Step scope R (.application name args) result ∧ K result := by
  have hK := hquiet.kind
  have hname := hquiet.unmarked hreduced
  have hregistry : env.registry = scope.registry := congrArg Scope.registry henv
  have hnode : K (.application name (arrange scope.registry name reduced)) :=
    hK.applied hreduced (hK.arranged scope.registry (hK.args hreduced))
  obtain ⟨offer, mid, hinvoke, hbehind⟩ | ⟨mid, hinvoke, hbehind⟩ := of_simplifyPrepared_ok (by rw [hregistry]) hrun
  · obtain ⟨rfl, hinvokes, hoffer⟩ := invokes_of_invokeWith hobeys henv hquiet hnode hinvoke
    obtain ⟨rfl, hresult, hkind⟩ := hobeys offer result _ after (hoffer offer rfl) henv hbehind
    exact ⟨rfl, .rewritten hname hprepares hinvokes hresult, hkind⟩
  · obtain ⟨rfl, hinvokes, -⟩ := invokes_of_invokeWith hobeys henv hquiet hnode hinvoke
    rw [hregistry] at hbehind
    obtain ⟨hlong, hcommutative, regrouped, hregroup, rfl⟩ | ⟨hsmall, rfl, rfl⟩ := hbehind
    · obtain ⟨rfl, hregroups, hkind⟩ := regroups_of_regroup hobeys henv hquiet hnode hregroup
      refine ⟨rfl, .regrouped hname hprepares hinvokes hlong hcommutative hregroups, ?_⟩
      split
      · exact hkind
      · exact hnode
    · exact ⟨rfl, .undecided hname hprepares hinvokes hsmall, hnode⟩

theorem step_of_simplifyStep (hquiet : scope.QuietOn K) {e r : Node} (he : K e)
    (hrun : simplifyStep recur e env = (.ok r, after)) : after = env ∧ Step scope R e r ∧ K r := by
  have hK := hquiet.kind
  have hregistry : env.registry = scope.registry := congrArg Scope.registry henv
  have hget (name : String) : env.get? name = scope.bindings.get? name :=
    congrArg (fun scope => scope.bindings.get? name) henv
  cases e with
  | number value =>
      cases hrun
      exact ⟨rfl, .number value, he⟩
  | boolean value =>
      cases hrun
      exact ⟨rfl, .boolean value, he⟩
  | symbol name =>
      rw [simplifyStep_symbol, hget] at hrun
      cases hbound : scope.bindings.get? name with
      | none =>
          rw [hbound] at hrun
          cases hrun
          exact ⟨rfl, .free hbound, he⟩
      | some value =>
          rw [hbound] at hrun
          obtain ⟨rfl, hreduced, hresult⟩ := hobeys value r env after (hquiet.values he hbound) henv hrun
          exact ⟨rfl, .bound hbound hreduced, hresult⟩
  | pair first second =>
      rw [hK.pair] at he
      rw [simplifyStep] at hrun
      obtain ⟨first', mid, hfirst, hbehind⟩ := of_bind_ok hrun
      obtain ⟨rfl, hreduced, hkind⟩ := hobeys first first' env mid he.1 henv hfirst
      obtain ⟨second', mid, hsecond, hdone⟩ := of_bind_ok hbehind
      obtain ⟨rfl, hreduced', hkind'⟩ := hobeys second second' _ mid he.2 henv hsecond
      cases hdone
      exact ⟨rfl, .pair hreduced hreduced', hK.pair.mpr ⟨hkind, hkind'⟩⟩
  | sequence elements =>
      rw [hK.sequence] at he
      rw [simplifyStep] at hrun
      obtain ⟨elements', mid, helements, hdone⟩ := of_bind_ok hrun
      obtain ⟨rfl, hreduced, hkind⟩ := forall₂_of_simplifyEach hobeys henv he helements
      cases hdone
      exact ⟨rfl, .sequence hreduced, hK.sequence.mpr hkind⟩
  | application name args =>
      rw [simplifyStep_application] at hrun
      obtain ⟨bare, hmarked, -⟩ | ⟨-, hreceived⟩ := of_simplifyApplication_ok hrun
      · rw [hquiet.unmarked he] at hmarked
        cases hmarked
      · rw [hregistry] at hreceived
        obtain ⟨hpreserves, hprepared⟩ | ⟨hpreserves, reduced, mid, heach, hprepared⟩ := hreceived
        · exact step_of_simplifyPrepared hobeys henv hquiet (.preserved hpreserves) he hprepared
        · obtain ⟨rfl, hreduced, hkind⟩ := forall₂_of_simplifyEach hobeys henv (hK.args he) heach
          exact step_of_simplifyPrepared hobeys henv hquiet (.simplified hpreserves hreduced) (hK.applied he hkind)
            hprepared

end Obeys

/-- On nodes of the kind the simplifier does what the relation says within the same room. -/
theorem simplifyWithin_obeys {K : Node → Prop} {scope : Scope} (hquiet : scope.QuietOn K) (room : Nat) :
    (simplifyWithin room).Obeys K scope (Reduces scope room) := by
  induction room with
  | zero =>
      intro e r env after _ _ hrun
      cases hrun
  | succ room ih =>
      intro e r env after he henv hrun
      have hdeeper : { env with depth := env.depth + 1 }.current = scope := henv
      rw [simplifyWithin, Evaluation.nested_run] at hrun
      rcases hstep : simplifyStep (simplifyWithin room) e { env with depth := env.depth + 1 } with
        ⟨outcome, mid⟩
      rw [hstep] at hrun
      cases hrun
      obtain ⟨rfl, hreduces, hresult⟩ := step_of_simplifyStep ih hdeeper hquiet he hstep
      exact ⟨rfl, hreduces, hresult⟩

/-- Simplifying a node of the kind leaves the environment alone and is a reduction. -/
theorem simplify_eq_ok_iff {K : Node → Prop} {env after : Environment} (hquiet : env.current.QuietOn K) {e r : Node}
    (he : K e) :
    simplify e env = (.ok r, after) ↔ after = env ∧ Reduces env.current (env.maxDepth - env.depth) e r ∧ K r := by
  constructor
  · exact simplifyWithin_obeys hquiet _ e r env after he rfl
  · rintro ⟨rfl, hreduces, _⟩
    exact simplifyWithin_follows _ _ e r hreduces after rfl

end SymbolicAlgebra
