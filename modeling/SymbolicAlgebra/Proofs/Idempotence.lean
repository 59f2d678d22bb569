import SymbolicAlgebra.Proofs.Adequacy
import SymbolicAlgebra.Proofs.Standard

/-! What simplification ends with is simple already. A settled node becomes itself, and so do the
arguments that simplification has been through. Every rule of `Step` ends with a settled node: either
one that an earlier level ended with, or an application that the same rule takes to itself. -/

namespace SymbolicAlgebra

/-- The node becomes itself, and so do, down the tree, the arguments that are simplified. -/
inductive Settled (registry : Registry) (R : Node → Node → Prop) : Node → Prop
  | intro {node : Node} : R node node →
      (∀ name args, node = .application name args → ¬registry.preservesArguments name →
        ∀ arg ∈ args, Settled registry R arg) →
      Settled registry R node

namespace Settled

variable {registry : Registry} {R S : Node → Node → Prop} {node : Node}

theorem same (h : Settled registry R node) : R node node := by
  cases h with
  | intro hsame hargs => exact hsame

theorem of_mem {name : String} {args : List Node} (h : Settled registry R (.application name args))
    (hpreserves : ¬registry.preservesArguments name) : ∀ arg ∈ args, Settled registry R arg := by
  cases h with
  | intro hsame hargs => exact hargs name args rfl hpreserves

theorem mono (himp : ∀ e r, R e r → S e r) (h : Settled registry R node) : Settled registry S node := by
  induction h with
  | intro hsame _ ih => exact .intro (himp _ _ hsame) ih

end Settled

theorem settled_of_forall₂ {registry : Registry} {R : Node → Node → Prop}
    (hsettled : ∀ e r, R e r → Settled registry R r) {nodes results : List Node}
    (h : List.Forall₂ R nodes results) : ∀ result ∈ results, Settled registry R result := by
  induction h with
  | nil => nofun
  | cons hhead _ ih => exact List.forall_mem_cons.mpr ⟨hsettled _ _ hhead, ih⟩

theorem forall₂_of_settled {registry : Registry} {R : Node → Node → Prop} {nodes : List Node}
    (h : ∀ node ∈ nodes, Settled registry R node) : List.Forall₂ R nodes nodes :=
  List.forall₂_same.mpr fun node hnode => (h node hnode).same

section Step

variable {scope : Scope} {R : Node → Node → Prop}

/-- Prepared arguments are prepared by themselves. -/
theorem Prepares.again (hsettled : ∀ e r, R e r → Settled scope.registry R r) {name : String}
    {args prepared : List Node} (h : Prepares scope.registry R name args prepared) :
    arrange scope.registry name prepared = prepared ∧ Prepares scope.registry R name prepared prepared ∧
      (¬scope.registry.preservesArguments name → ∀ arg ∈ prepared, Settled scope.registry R arg) := by
  cases h with
  | preserved hpreserves =>
      have hsame := arrange_arrange scope.registry name args
      have hagain : Prepares scope.registry R name (arrange scope.registry name args)
          (arrange scope.registry name (arrange scope.registry name args)) := .preserved hpreserves
      rw [hsame] at hagain
      exact ⟨hsame, hagain, fun hnot => (hnot hpreserves).elim⟩
  | @simplified reduced hpreserves hreduced =>
      have hsame := arrange_arrange scope.registry name reduced
      have hargs : ∀ arg ∈ arrange scope.registry name reduced, Settled scope.registry R arg := by
        exact forall_mem_arrange scope.registry (fun inner h => h.of_mem hpreserves)
          (settled_of_forall₂ hsettled hreduced)
      have hagain := Prepares.simplified hpreserves (forall₂_of_settled hargs)
      rw [hsame] at hagain
      exact ⟨hsame, hagain, fun _ => hargs⟩

variable (hpairs : scope.registry.FoldsByPairs)
  (hlevel : ∀ e r, R e r → Step scope R e r) (hsettled : ∀ e r, R e r → Settled scope.registry R r)
include hpairs hlevel hsettled

/-- Whatever regrouping ends with is settled, the application that is left as well as a result. -/
theorem Regroups.settled {name : String} {arity : Nat} {args : List Node} {grouped : Node}
    (hname : deferred? name = none) (hcommutative : scope.registry.isCommutative name) (harity : 2 < arity)
    (h : Regroups scope.registry R name arity args grouped)
    (hcanonical : arrange scope.registry name args = args)
    (hargs : ∀ arg ∈ args, Settled scope.registry R arg) :
    Settled scope.registry (Step scope R) grouped := by
  obtain ⟨hpreserves, hresolve⟩ := hpairs name hcommutative
  induction h with
  | single hfold =>
      obtain ⟨first, second, _, hfolded⟩ := hfold.perm
      exact (hsettled _ _ hfolded).mono hlevel
  | @folded args others folded _ hfold _ _ ih =>
      obtain ⟨first, second, hperm, hfolded⟩ := hfold.perm
      apply ih (arrange_arrange _ _ _)
      refine forall_mem_arrange scope.registry (fun inner h => h.of_mem hpreserves) fun arg harg => ?_
      rcases List.mem_append.mp harg with hother | hnew
      · exact hargs arg (hperm.mem_iff.mpr (List.mem_cons_of_mem _ (List.mem_cons_of_mem _ hother)))
      · rw [List.mem_singleton.mp hnew]
        exact hsettled _ _ hfolded
  | offered _ _ _ hresult => exact (hsettled _ _ hresult).mono hlevel
  | @left args hkept hnone =>
      have hprepares : Prepares scope.registry R name args args := by
        have hagain := Prepares.simplified hpreserves (forall₂_of_settled hargs)
        rwa [hcanonical] at hagain
      have hunanswered : Invokes scope.registry R name args none := by
        by_cases hless : args.length < arity
        · exact hnone hless
        · exact .unresolved (hresolve args (by omega))
      have hnode : construct scope.registry name args = .application name args := by
        rw [construct, hcanonical]
      have hsame : Step scope R (.application name args) (.application name args) := by
        by_cases hlong : 2 < args.length
        · have hregrouped := Step.regrouped hname hprepares hunanswered hlong hcommutative
            (.left hkept fun hless => (Nat.lt_irrefl _ hless).elim)
          rwa [hnode, ite_self] at hregrouped
        · exact .undecided hname hprepares hunanswered fun h => hlong h.1
      rw [hnode]
      refine .intro hsame ?_
      rintro _ _ ⟨⟩ _ arg harg
      exact (hargs arg harg).mono hlevel

theorem Step.settled {e r : Node} (h : Step scope R e r) : Settled scope.registry (Step scope R) r := by
  cases h with
  | number value => exact .intro (.number value) nofun
  | boolean value => exact .intro (.boolean value) nofun
  | free hfree => exact .intro (.free hfree) nofun
  | bound _ hresult => exact (hsettled _ _ hresult).mono hlevel
  | pair hfirst hsecond =>
      exact .intro (.pair (hsettled _ _ hfirst).same (hsettled _ _ hsecond).same) nofun
  | sequence helements =>
      exact .intro (.sequence (forall₂_of_settled (settled_of_forall₂ hsettled helements))) nofun
  | rewritten _ _ _ hresult => exact (hsettled _ _ hresult).mono hlevel
  | undecided hname hprepares hnone hsmall =>
      obtain ⟨_, hagain, hargs⟩ := hprepares.again hsettled
      refine .intro (.undecided hname hagain hnone hsmall) ?_
      rintro _ _ ⟨⟩ hpreserves arg harg
      exact (hargs hpreserves arg harg).mono hlevel
  | @regrouped name _ prepared grouped hname hprepares hnone hlong hcommutative hgrouped =>
      obtain ⟨hcanonical, hagain, hargs⟩ := hprepares.again hsettled
      have hargs := hargs (hpairs name hcommutative).1
      split
      · exact hgrouped.settled hpairs hlevel hsettled hname hcommutative hlong hcanonical hargs
      · rename_i hheavy
        have hsame := Step.regrouped hname hagain hnone hlong hcommutative hgrouped
        rw [if_neg hheavy] at hsame
        refine .intro hsame ?_
        rintro _ _ ⟨⟩ _ arg harg
        exact (hargs arg harg).mono hlevel

end Step

/-- What a node becomes is settled within the same room. -/
theorem Reduces.settled {scope : Scope} (hpairs : scope.registry.FoldsByPairs) {room : Nat} {e r : Node}
    (h : Reduces scope room e r) : Settled scope.registry (Reduces scope room) r := by
  induction room generalizing e r with
  | zero => exact h.elim
  | succ room ih => exact Step.settled hpairs (fun _ _ => Reduces.succ) (fun _ _ => ih) h

/-! ### The standard operations -/

theorem quiet_of_standard {env : Environment} (hstandard : env.registry = Builtin.standard)
    (hvalues : ∀ name value, env.get? name = some value → value.EffectFree) : env.current.Quiet := by
  refine Scope.quiet_of_forall (fun operation hmem hname => ?_) hvalues
  rw [show env.current.registry = Builtin.standard from hstandard] at hmem
  exact Builtin.quiet_standard hmem hname

/-- **Simplification is idempotent.** With the standard operations and any variables, what an
effect-free expression becomes is in its simplest form, and finding that out takes no more nesting. -/
theorem simplify_idempotent (env : Environment) (hstandard : env.registry = Builtin.standard)
    (hvalues : ∀ name value, env.get? name = some value → value.EffectFree) (e : Node)
    (hfree : e.EffectFree) (r : Node) (after : Environment) (hrun : simplify e env = (.ok r, after)) :
    after = env ∧ simplify r env = (.ok r, env) := by
  have hquiet := quiet_of_standard hstandard hvalues
  have hpairs : env.registry.FoldsByPairs := by
    rw [hstandard]
    exact Builtin.foldsByPairs_standard
  obtain ⟨hafter, hreduces, hresult⟩ := (simplify_eq_ok_iff hquiet hfree).mp hrun
  refine ⟨hafter, (simplify_eq_ok_iff hquiet hresult).mpr ⟨rfl, ?_, hresult⟩⟩
  exact (hreduces.settled hpairs).same

/-- A sum that keeps a symbol and a product with a symbol: its numbers have been added and multiplied. -/
theorem simplify_idempotent_sum :
    let env := Environment.standard.set "y" (.integer 2)
    let e := Node.application "+"
      [.symbol "x", .symbol "y", .application "*" [.integer 3, .symbol "y", .symbol "z"], .symbol "y"]
    ∃ r after, simplify e env = (.ok r, after) ∧
      r == Node.application "+" [.integer 4, .symbol "x", .application "*" [.integer 6, .symbol "z"]] ∧
      after = env ∧ simplify r env = (.ok r, env) := by
  intro env e
  have hvalues : ∀ name value, env.get? name = some value → value.EffectFree := by
    intro name value hbound
    by_cases hname : name = "y"
    · rw [hname, show env.get? "y" = some (.integer 2) from rfl] at hbound
      cases hbound
      exact Node.effectFree_number _
    · rw [show env.get? name = none from Bindings.get?_set_of_ne {} _ hname] at hbound
      cases hbound
  have hfree : e.EffectFree := by
    have hplus : EffectFreeName "+" := by decide
    have htimes : EffectFreeName "*" := by decide
    simp [e, Node.effectFree_application, Node.effectFree_symbol, Node.integer, Node.effectFree_number,
      hplus, htimes]
  have hcomputed : (simplify e env).1.toOption.any (· == Node.application "+"
      [.integer 4, .symbol "x", .application "*" [.integer 6, .symbol "z"]]) = true := by
    decide +kernel
  rcases hrun : simplify e env with ⟨failure | r, after⟩
  · rw [hrun] at hcomputed
    cases hcomputed
  · rw [hrun] at hcomputed
    exact ⟨r, after, rfl, hcomputed, simplify_idempotent env rfl hvalues e hfree r after hrun⟩

end SymbolicAlgebra
