import Mathlib.Algebra.BigOperators.Group.List.Basic
import Mathlib.Algebra.Group.TypeTags.Basic
import Mathlib.Algebra.Order.Group.Multiset
import SymbolicAlgebra.Proofs.Descent
import SymbolicAlgebra.Proofs.Offers

/-! What regrouping conserves. A weight in a commutative monoid that is spread over the arguments of an
application is kept by everything that rearranges the arguments. If the folds of pairs keep it, and what is
offered for the application keeps it, then regrouping keeps it, whichever folds are accepted and wherever it
ends. In this sense no argument is lost and none is taken twice. -/

namespace SymbolicAlgebra

open Evaluation

/-! ### Rearranging -/

section Arranging

variable {M : Type*} [CommMonoid M] {w : Node → M} {name : String}
  (hw : ∀ args, w (.application name args) = (args.map w).prod)
include hw

theorem prod_inlined (node : Node) : ((inlined name node).map w).prod = w node := by
  rcases inlined_cases name node with ⟨args, rfl, hinlined⟩ | ⟨_, hinlined⟩
  · rw [hinlined, hw]
  · rw [hinlined, List.map_singleton, List.prod_singleton]

theorem prod_flatten (args : List Node) : ((flatten name args).map w).prod = (args.map w).prod := by
  induction args with
  | nil => rfl
  | cons node rest ih =>
      rw [flatten, List.flatMap_cons, ← flatten, List.map_append, List.prod_append, ih, prod_inlined hw,
        List.map_cons, List.prod_cons]

theorem prod_arrange (registry : Registry) (args : List Node) :
    ((arrange registry name args).map w).prod = (args.map w).prod := by
  have hflattened : ((flattenFully name args).map w).prod = (args.map w).prod := by
    induction args using flattenFully.induct name with
    | case1 args more ih => rw [flattenFully, dif_pos more, ih, prod_flatten hw]
    | case2 args done => rw [flattenFully_of_not_canFlatten done]
  rw [arrange]
  split
  · rw [((Node.sort_perm _).map w).prod_eq, hflattened]
  · rfl

theorem weight_construct (registry : Registry) (args : List Node) :
    w (construct registry name args) = (args.map w).prod := by
  rw [construct, hw, prod_arrange hw]

theorem prod_refolded (registry : Registry) (folded : Node) (others : List Node) :
    ((refolded registry name folded others).map w).prod = (others.map w).prod * w folded := by
  rw [refolded]
  split
  · rename_i hempty
    obtain rfl := List.isEmpty_iff.mp hempty
    rw [List.map_singleton, List.prod_singleton, List.map_nil, List.prod_nil, one_mul]
  · rw [prod_arrange hw, List.map_append, List.prod_append, List.map_singleton, List.prod_singleton]

end Arranging

/-! ### The ends of regrouping -/

/-- How regrouping can succeed when no more pairs fold: with the one node that is left, with what an offer for
the application becomes, or with the canonical application. -/
inductive Settles (recur : Simplifier) (name : String) (last : List Node) (final : Environment) :
    Node → Environment → Prop
  | single {node : Node} : last = [node] → Settles recur name last final node final
  | offered {offer result : Node} {before between after : Environment} : recur.Reaches name final before →
      invokeWith recur name last before = (.ok (some offer), between) → recur offer between = (.ok result, after) →
      Settles recur name last final result after
  | declined {before after : Environment} : recur.Reaches name final before →
      invokeWith recur name last before = (.ok none, after) →
      Settles recur name last final (construct after.registry name last) after
  | kept {after : Environment} : recur.Reaches name final after →
      Settles recur name last final (construct after.registry name last) after

section Runs

variable {recur : Simplifier} {name : String} {env after final : Environment} {args last : List Node} {result : Node}

theorem settles_of_regroup {arity : Nat}
    (hstop : ∀ fold, (foldPair recur name last final).1 ≠ .ok (some fold))
    (hrun : regroup recur name arity last final = (.ok result, after)) :
    Settles recur name last final result after := by
  rw [regroup] at hrun
  obtain ⟨found, before, hfound, hbehind⟩ := of_bind_ok hrun
  have hbefore := reaches_of_foldPair hfound
  rw [hfound] at hstop
  cases found with
  | some fold => exact (hstop fold rfl).elim
  | none =>
      dsimp only at hbehind
      split at hbehind
      · obtain ⟨outcome, between, hinvoke, hdone⟩ := of_bind_ok hbehind
        cases outcome with
        | some offer => exact .offered hbefore hinvoke hdone
        | none =>
            cases hdone
            exact .declined hbefore hinvoke
      · cases hbehind
        exact .kept hbefore

/-- Regrouping that succeeds is a chain of folds and one of the ends. -/
theorem of_regroup_ok {arity : Nat} (hrun : regroup recur name arity args env = (.ok result, after)) :
    ∃ folds last final, Refolds recur name folds args env last final ∧ Settles recur name last final result after := by
  obtain ⟨folds, last, final, hfolds, hstop, hrest | ⟨node, _, hlast, hsingle⟩⟩ := exists_refolds arity args env
  · exact ⟨folds, last, final, hfolds, settles_of_regroup hstop (hrest ▸ hrun)⟩
  · rw [hrun] at hsingle
    cases hsingle
    exact ⟨folds, last, _, hfolds, .single hlast⟩

theorem Refolds.reaches {folds : Nat} (h : Refolds recur name folds args env last final) :
    recur.Reaches name env final := by
  induction h with
  | none => exact .refl
  | fold hrun _ ih => exact (reaches_of_foldPair hrun).trans ih

variable {M : Type*} [CommMonoid M] {w : Node → M}
  (hw : ∀ args, w (.application name args) = (args.map w).prod)
include hw

/-- Folds that keep the weight keep that of the list. -/
theorem Refolds.prod_eq {folds : Nat} (h : Refolds recur name folds args env last final)
    (hfolds : ∀ before, recur.Reaches name env before → ∀ first second folded after,
      recur (.application name [first, second]) before = (.ok folded, after) →
        w folded = w (.application name [first, second])) : (last.map w).prod = (args.map w).prod := by
  induction h with
  | none => rfl
  | fold hrun hrest ih =>
      obtain ⟨first, second, before, hperm, hbefore, hrecur, _⟩ := (accepts_of_foldPair hrun).perm
      have hfolded := hfolds before hbefore first second _ _ hrecur
      have hmid := reaches_of_foldPair hrun
      rw [ih fun later hlater => hfolds later (hmid.trans hlater), prod_refolded hw, hfolded, hw,
        (hperm.map w).prod_eq]
      simp only [List.map_cons, List.map_nil, List.prod_cons, List.prod_nil, mul_one]
      rw [mul_comm, mul_assoc]

/-- An end keeps the weight if what is offered keeps it. -/
theorem Settles.weight_eq (h : Settles recur name last final result after)
    (hoffers : ∀ before, recur.Reaches name final before → ∀ offer between,
      invokeWith recur name last before = (.ok (some offer), between) → ∀ result after,
        recur offer between = (.ok result, after) → w result = w (.application name last)) :
    w result = (last.map w).prod := by
  cases h with
  | single hlast => rw [hlast, List.map_singleton, List.prod_singleton]
  | offered hbefore hinvoke hrecur => rw [hoffers _ hbefore _ _ hinvoke _ _ hrecur, hw]
  | declined _ _ => exact weight_construct hw _ last
  | kept _ => exact weight_construct hw _ last

end Runs

/-- **Regrouping loses and duplicates nothing.** Let a weight of nodes be such that the weight of an application
of the name is the product of those of its arguments. If the applications of the name to two arguments that are
simplified on the way keep their weight, and so does every application that an operation of the name makes an
offer for once the offer is simplified, then every list that regrouping turns into a node has the weight of
that node, whatever the operations are, whichever folds are accepted, and however regrouping ends. -/
theorem regroup_conserves {M : Type*} [CommMonoid M] (w : Node → M) (recur : Simplifier) {name : String}
    {env : Environment} (hw : ∀ args, w (.application name args) = (args.map w).prod)
    (hfolds : ∀ before, recur.Reaches name env before → ∀ first second folded after,
      recur (.application name [first, second]) before = (.ok folded, after) →
        w folded = w (.application name [first, second]))
    (hoffers : ∀ before, recur.Reaches name env before → ∀ args offer between,
      invokeWith recur name args before = (.ok (some offer), between) → ∀ result after,
        recur offer between = (.ok result, after) → w result = w (.application name args))
    {arity : Nat} {args : List Node} {result : Node} {after : Environment}
    (hrun : regroup recur name arity args env = (.ok result, after)) : w result = (args.map w).prod := by
  obtain ⟨folds, last, final, hrefolds, hsettles⟩ := of_regroup_ok hrun
  rw [← hrefolds.prod_eq hw hfolds]
  exact hsettles.weight_eq hw fun before hbefore => hoffers before (hrefolds.reaches.trans hbefore) last

/-! ### Simplification -/

/-- A weight that is spread over the parts of a node and that variables and operations keep. The operations
answer at once. -/
structure Scope.Conserves {M : Type*} [CommMonoid M] (scope : Scope) (w : Node → M) : Prop where
  application : ∀ name args, w (.application name args) = (args.map w).prod
  pair : ∀ first second, w (.pair first second) = w first * w second
  sequence : ∀ elements, w (.sequence elements) = (elements.map w).prod
  values : ∀ name value, scope.bindings.get? name = some value → w value = w (.symbol name)
  immediate : ∀ operation ∈ scope.registry.operations, operation.Immediate
  offers : ∀ operation ∈ scope.registry.operations, ∀ args offer,
    (operation.handler args).offer? = some offer → w offer = (args.map w).prod

/-- In this scope, simplification that succeeds stays in it and keeps the weight. -/
def Simplifier.Conserves {M : Type*} (recur : Simplifier) (scope : Scope) (w : Node → M) : Prop :=
  ∀ node env result after, env.current = scope → recur node env = (.ok result, after) →
    after.current = scope ∧ w result = w node

theorem Simplifier.Conserves.current {M : Type*} {w : Node → M} {scope : Scope} {recur : Simplifier} {name : String}
    {env after : Environment} (hrecur : recur.Conserves scope w) (henv : env.current = scope)
    (h : recur.Reaches name env after) : after.current = scope := by
  induction h with
  | refl => exact henv
  | pair _ hrun ih => exact (hrecur _ _ _ _ ih hrun).1

section Conserves

variable {M : Type*} [CommMonoid M] {w : Node → M} {scope : Scope} {recur : Simplifier}
  (hrecur : recur.Conserves scope w) {env after : Environment} (henv : env.current = scope)
  {name : String} {args : List Node} {result : Node}
include hrecur henv

theorem conserves_simplifyEach {nodes results : List Node}
    (hrun : simplifyEach recur nodes env = (.ok results, after)) :
    after.current = scope ∧ (results.map w).prod = (nodes.map w).prod := by
  induction nodes generalizing results env after with
  | nil =>
      cases hrun
      exact ⟨henv, rfl⟩
  | cons node rest ih =>
      rw [simplifyEach] at hrun
      obtain ⟨simplified, mid, hnode, hbehind⟩ := of_bind_ok hrun
      obtain ⟨hmid, hweight⟩ := hrecur node env simplified mid henv hnode
      obtain ⟨others, last, hrest, hdone⟩ := of_bind_ok hbehind
      obtain ⟨hlast, hweights⟩ := ih hmid hrest
      cases hdone
      rw [List.map_cons, List.map_cons, List.prod_cons, List.prod_cons, hweight, hweights]
      exact ⟨hlast, rfl⟩

variable (hscope : scope.Conserves w)
include hscope

omit hrecur in
theorem conserves_invokeWith {outcome : Option Node} (hrun : invokeWith recur name args env = (.ok outcome, after)) :
    after = env ∧ ∀ offer ∈ outcome, w offer = (args.map w).prod := by
  have hregistry : env.registry = scope.registry := congrArg Scope.registry henv
  rw [invokeWith_run, hregistry] at hrun
  cases hresolve : scope.registry.resolve name args with
  | none =>
      rw [hresolve] at hrun
      cases hrun
      exact ⟨rfl, fun offer hoffer => absurd hoffer (Option.not_mem_none offer)⟩
  | some operation =>
      rw [hresolve] at hrun
      obtain ⟨hmem, _, _⟩ := Registry.mem_of_resolve hresolve
      have hoffers := hscope.offers operation hmem args
      have himmediate := hscope.immediate operation hmem args
      dsimp only at hrun
      generalize operation.handler args = action at hrun hoffers himmediate
      cases himmediate with
      | done =>
          cases hrun
          exact ⟨rfl, hoffers⟩
      | fail => cases hrun

theorem conserves_regroup {arity : Nat} (hrun : regroup recur name arity args env = (.ok result, after)) :
    after.current = scope ∧ w result = (args.map w).prod := by
  obtain ⟨folds, last, final, hrefolds, hsettles⟩ := of_regroup_ok hrun
  have hfinal := hrecur.current henv hrefolds.reaches
  have hcurrent {before : Environment} (hbefore : recur.Reaches name final before) : before.current = scope :=
    hrecur.current hfinal hbefore
  have hw := hscope.application name
  constructor
  · cases hsettles with
    | single _ => exact hfinal
    | offered hbefore hinvoke hrecur' =>
        obtain ⟨rfl, _⟩ := conserves_invokeWith (hcurrent hbefore) hscope hinvoke
        exact (hrecur _ _ _ _ (hcurrent hbefore) hrecur').1
    | declined hbefore hinvoke =>
        obtain ⟨rfl, _⟩ := conserves_invokeWith (hcurrent hbefore) hscope hinvoke
        exact hcurrent hbefore
    | kept hbefore => exact hcurrent hbefore
  · rw [← hrefolds.prod_eq hw fun before hbefore first second folded after hpair =>
      (hrecur _ _ _ _ (hrecur.current henv hbefore) hpair).2]
    refine hsettles.weight_eq hw fun before hbefore offer between hinvoke result after hoffer => ?_
    obtain ⟨rfl, hweight⟩ := conserves_invokeWith (hcurrent hbefore) hscope hinvoke
    rw [(hrecur _ _ _ _ (hcurrent hbefore) hoffer).2, hweight offer rfl, hw]

theorem conserves_simplifyPrepared (hrun : simplifyPrepared recur name args env = (.ok result, after)) :
    after.current = scope ∧ w result = (args.map w).prod := by
  have hw := hscope.application name
  obtain ⟨offer, mid, hinvoke, hbehind⟩ | ⟨mid, hinvoke, hbehind⟩ := of_simplifyPrepared_ok rfl hrun
  · obtain ⟨rfl, hoffer⟩ := conserves_invokeWith henv hscope hinvoke
    rw [prod_arrange hw] at hoffer
    obtain ⟨hafter, hweight⟩ := hrecur _ _ _ _ henv hbehind
    exact ⟨hafter, hweight.trans (hoffer offer rfl)⟩
  · obtain ⟨rfl, -⟩ := conserves_invokeWith henv hscope hinvoke
    have hnode := (hw (arrange mid.registry name args)).trans (prod_arrange hw mid.registry args)
    obtain ⟨-, -, regrouped, hregroup, rfl⟩ | ⟨-, rfl, rfl⟩ := hbehind
    · obtain ⟨hafter, hgrouped⟩ := conserves_regroup hrecur henv hscope hregroup
      rw [prod_arrange hw] at hgrouped
      refine ⟨hafter, ?_⟩
      split
      · exact hgrouped
      · exact hnode
    · exact ⟨henv, hnode⟩

theorem conserves_simplifyStep {node : Node} (hrun : simplifyStep recur node env = (.ok result, after)) :
    after.current = scope ∧ w result = w node := by
  cases node with
  | number value =>
      cases hrun
      exact ⟨henv, rfl⟩
  | boolean value =>
      cases hrun
      exact ⟨henv, rfl⟩
  | symbol name =>
      have hget : env.get? name = scope.bindings.get? name := by rw [← henv]; rfl
      rw [simplifyStep_symbol, hget] at hrun
      cases hbound : scope.bindings.get? name with
      | none =>
          rw [hbound] at hrun
          cases hrun
          exact ⟨henv, rfl⟩
      | some value =>
          rw [hbound] at hrun
          obtain ⟨hafter, hweight⟩ := hrecur _ _ _ _ henv hrun
          exact ⟨hafter, hweight.trans (hscope.values name value hbound)⟩
  | pair first second =>
      rw [simplifyStep] at hrun
      obtain ⟨first', mid, hfirst, hbehind⟩ := of_bind_ok hrun
      obtain ⟨hmid, hweight⟩ := hrecur _ _ _ _ henv hfirst
      obtain ⟨second', last, hsecond, hdone⟩ := of_bind_ok hbehind
      obtain ⟨hlast, hweight'⟩ := hrecur _ _ _ _ hmid hsecond
      cases hdone
      rw [hscope.pair, hscope.pair, hweight, hweight']
      exact ⟨hlast, rfl⟩
  | sequence elements =>
      rw [simplifyStep] at hrun
      obtain ⟨elements', mid, helements, hdone⟩ := of_bind_ok hrun
      obtain ⟨hmid, hweights⟩ := conserves_simplifyEach hrecur henv helements
      cases hdone
      rw [hscope.sequence, hscope.sequence, hweights]
      exact ⟨hmid, rfl⟩
  | application name args =>
      rw [simplifyStep_application] at hrun
      rw [hscope.application]
      obtain ⟨bare, -, rfl, rfl⟩ | ⟨-, ⟨-, hprepared⟩ | ⟨-, reduced, mid, heach, hprepared⟩⟩ :=
        of_simplifyApplication_ok hrun
      · exact ⟨henv, hscope.application bare args⟩
      · exact conserves_simplifyPrepared hrecur henv hscope hprepared
      · obtain ⟨hmid, hweights⟩ := conserves_simplifyEach hrecur henv heach
        obtain ⟨hafter, hweight⟩ := conserves_simplifyPrepared hrecur hmid hscope hprepared
        exact ⟨hafter, hweight.trans hweights⟩

end Conserves

/-- Simplification keeps what variables and operations keep. -/
theorem conserves_simplifyWithin {M : Type*} [CommMonoid M] {w : Node → M} {scope : Scope} (hscope : scope.Conserves w)
    (room : Nat) : (simplifyWithin room).Conserves scope w := by
  induction room with
  | zero =>
      intro node env result after _ hrun
      cases hrun
  | succ room ih =>
      intro node env result after henv hrun
      have hdeeper : { env with depth := env.depth + 1 }.current = scope := henv
      rw [simplifyWithin, nested_run] at hrun
      rcases hstep : simplifyStep (simplifyWithin room) node { env with depth := env.depth + 1 } with ⟨outcome, mid⟩
      rw [hstep] at hrun
      cases hrun
      obtain ⟨hcurrent, hweight⟩ := conserves_simplifyStep ih hdeeper hscope hstep
      exact ⟨hcurrent, hweight⟩

/-! ### The symbols of a node -/

def Node.symbol? : Node → Option String
  | .symbol name => some name
  | _ => none

/-- The symbols in a node, each as often as it occurs, with union as the product. -/
def Node.symbolWeight (node : Node) : Multiplicative (Multiset String) :=
  .ofAdd ↑(node.subterms.filterMap Node.symbol?)

theorem prod_symbolWeight (nodes : List Node) :
    (nodes.map Node.symbolWeight).prod = .ofAdd ↑((Node.allSubterms nodes).filterMap Node.symbol?) := by
  induction nodes with
  | nil => rfl
  | cons node rest ih =>
      rw [List.map_cons, List.prod_cons, ih, Node.allSubterms, List.filterMap_append]
      rfl

theorem symbolWeight_application (name : String) (args : List Node) :
    (Node.application name args).symbolWeight = (args.map Node.symbolWeight).prod := by
  rw [prod_symbolWeight]
  rfl

theorem conserves_merging : Scope.Conserves { registry := { operations := [merging] } } Node.symbolWeight where
  application := symbolWeight_application
  pair first second := by
    rw [Node.symbolWeight, Node.subterms, List.filterMap_cons_none rfl, List.filterMap_append]
    rfl
  sequence elements := by
    rw [prod_symbolWeight]
    rfl
  values name value hbound := by cases hbound
  immediate := by
    rw [List.forall_mem_singleton]
    refine (Operation.immediate_binary "merge" .application .application fun a b => ?_).commutative
    split <;> exact .done _
  offers := by
    rw [List.forall_mem_singleton]
    refine Operation.binary_cases (motive := fun args action => ∀ offer, action.offer? = some offer →
      offer.symbolWeight = (args.map Node.symbolWeight).prod) (fun _ _ hnone => by cases hnone)
      "merge" .application .application ?_
    intro a b offer hoffer
    split at hoffer
    · cases hoffer
      rw [symbolWeight_application, List.map_append, List.prod_append, List.map_cons, List.map_singleton,
        List.prod_pair, symbolWeight_application, symbolWeight_application]
    · cases hoffer

/-- Two applications are merged and taken apart again, and no symbol is lost. -/
theorem regroup_conserves_symbols :
    let env := Environment.ofRegistry { operations := [merging] }
    let args := [Node.application "f" [.symbol "x", .symbol "y"], .application "g" [.symbol "x"], .symbol "z"]
    let result := Node.application "merge" [.symbol "x", .symbol "x", .symbol "y", .symbol "z"]
    (regroup simplify "merge" 3 args env).1 = .ok result ∧
      result.symbolWeight = (args.map Node.symbolWeight).prod := by
  intro env args result
  have hresult : (regroup simplify "merge" 3 args env).1 = .ok result := eq_ok_of_same (by decide) (by decide +kernel)
  have hkeeps : simplify.Conserves env.current Node.symbolWeight := fun node before result after hbefore hrun =>
    conserves_simplifyWithin conserves_merging _ node before result after hbefore hrun
  rcases hrun : regroup simplify "merge" 3 args env with ⟨outcome, after⟩
  rw [hrun] at hresult
  obtain rfl : outcome = .ok result := hresult
  refine ⟨rfl, regroup_conserves Node.symbolWeight simplify (symbolWeight_application "merge") ?_ ?_ hrun⟩
  · intro before hbefore first second folded after hpair
    exact (hkeeps _ _ _ _ (hkeeps.current rfl hbefore) hpair).2
  · intro before hbefore args offer between hinvoke result after hoffer
    have hcurrent := hkeeps.current rfl hbefore
    obtain ⟨rfl, hweight⟩ := conserves_invokeWith hcurrent conserves_merging hinvoke
    rw [(hkeeps _ _ _ _ hcurrent hoffer).2, hweight offer rfl, symbolWeight_application]

end SymbolicAlgebra
