import Mathlib.Data.List.Perm.Basic
import SymbolicAlgebra.Proofs.Exact
import SymbolicAlgebra.Proofs.Purity
import SymbolicAlgebra.Proofs.Standard

/-! Commutative applications have no order of their arguments. Where operations are pure, every argument
becomes what it becomes wherever it stands, and the canonical list of exact arguments has forgotten where
that was. Whatever follows sees the canonical list alone. -/

namespace SymbolicAlgebra

open Evaluation

section Prepared

variable (recur : Simplifier)

/-- What comes of an application depends on the canonical list of its arguments alone. -/
theorem simplifyPrepared_congr {name : String} {xs ys : List Node} {env : Environment}
    (h : arrange env.registry name xs = arrange env.registry name ys) :
    simplifyPrepared recur name xs env = simplifyPrepared recur name ys env := by
  rw [simplifyPrepared, simplifyPrepared, bind_run_ok (registry_run env), bind_run_ok (registry_run env), h]

end Prepared

section Pure

variable {recur : Simplifier} {env : Environment} (hpure : ∀ node, (recur node env).2 = env)
include hpure

/-- A simplifier that leaves the environment alone simplifies the nodes of a list each on its own. -/
theorem forall₂_of_simplifyEach_pure {nodes results : List Node} {after : Environment}
    (h : simplifyEach recur nodes env = (.ok results, after)) :
    after = env ∧ List.Forall₂ (fun node result => (recur node env).1 = .ok result) nodes results := by
  induction nodes generalizing results after with
  | nil =>
      cases h
      exact ⟨rfl, .nil⟩
  | cons node rest ih =>
      obtain ⟨result, mid, hnode, h⟩ := of_bind_ok h
      obtain ⟨others, last, hrest, h⟩ := of_bind_ok h
      have hmid : mid = env := (congrArg Prod.snd hnode).symm.trans (hpure node)
      obtain ⟨hlast, hothers⟩ := ih (hmid ▸ hrest)
      cases h
      exact ⟨hlast, .cons (congrArg Prod.fst hnode) hothers⟩

theorem simplifyEach_pure_of_forall₂ {nodes results : List Node}
    (h : List.Forall₂ (fun node result => (recur node env).1 = .ok result) nodes results) :
    simplifyEach recur nodes env = (.ok results, env) := by
  induction h with
  | nil => rfl
  | @cons node result _ _ hnode _ ih =>
      have hrun : recur node env = (.ok result, env) := Prod.ext hnode (hpure node)
      rw [simplifyEach, bind_run_ok hrun, bind_run_ok ih]
      rfl

theorem simplifyApplication_of_perm {name : String} (hname : deferred? name = none)
    (hcommutative : env.registry.isCommutative name) {args permuted : List Node}
    (hperm : args.Perm permuted)
    (hexact : ∀ arg ∈ args, ∀ received,
      (if env.registry.preservesArguments name then received = arg
        else (recur arg env).1 = .ok received) → received.Exact)
    {result : Node} (h : (simplifyApplication recur name args env).1 = .ok result) :
    (simplifyApplication recur name permuted env).1 = .ok result := by
  by_cases hpreserves : env.registry.preservesArguments name
  · rw [simplifyApplication_of_preserves hname hpreserves] at h ⊢
    have hargs (arg : Node) (harg : arg ∈ args) : arg.Exact := by
      refine hexact arg harg arg ?_
      rw [if_pos hpreserves]
    rw [← simplifyPrepared_congr recur (arrange_eq_of_perm hcommutative hargs hperm)]
    exact h
  · rw [simplifyApplication_of_not_preserves hname hpreserves] at h ⊢
    obtain ⟨reduced, mid, heach, hprepared⟩ := of_bind_ok (Prod.ext h rfl)
    obtain ⟨rfl, hreduced⟩ := forall₂_of_simplifyEach_pure hpure heach
    obtain ⟨reduced', hreduced', hperm'⟩ := List.perm_comp_forall₂ hperm.symm hreduced
    have hresults : ∀ node ∈ reduced, node.Exact := by
      clear heach hprepared hperm' hperm h
      induction hreduced with
      | nil => simp
      | cons hnode _ ih =>
          rw [List.forall_mem_cons] at hexact ⊢
          refine ⟨hexact.1 _ ?_, ih hexact.2⟩
          rw [if_neg hpreserves]
          exact hnode
    rw [bind_run_ok (simplifyEach_pure_of_forall₂ hpure hreduced'),
      ← simplifyPrepared_congr recur (arrange_eq_of_perm hcommutative hresults hperm'.symm), hprepared]

end Pure

/-- What the operations of `name` get for `arg`: the argument itself where they have their arguments
preserved, and otherwise what it becomes one level deeper. -/
def Receives (env : Environment) (name : String) (arg received : Node) : Prop :=
  if env.registry.preservesArguments name then received = arg
  else (nested (simplify arg) env).1 = .ok received

/-- Pure operations of a commutative name cannot tell the order of exact arguments. -/
theorem simplify_commutative_perm {env : Environment} (hpure : env.registry.Pure) {name : String}
    (hname : deferred? name = none) (hcommutative : env.registry.isCommutative name)
    {args permuted : List Node} (hperm : args.Perm permuted)
    (hexact : ∀ arg ∈ args, ∀ received, Receives env name arg received → received.Exact) (result : Node) :
    (simplify (.application name args) env).1 = .ok result ↔
      (simplify (.application name permuted) env).1 = .ok result := by
  let deeper := { env with depth := env.depth + 1 }
  cases hroom : env.maxDepth - env.depth with
  | zero =>
      rw [simplify, simplify, hroom]
      constructor
      · intro h
        cases h
      · intro h
        cases h
  | succ room =>
      have hrun (node : Node) : simplify node deeper = simplifyWithin room node deeper := by
        rw [simplify, show deeper.maxDepth - deeper.depth = room by simp only [deeper]; omega]
      have hstill (node : Node) : (simplifyWithin room node deeper).2 = deeper := by
        rw [← hrun]
        exact @simplify_pure deeper hpure node
      have hreceived (arg : Node) (harg : arg ∈ args) (received : Node)
          (h : if deeper.registry.preservesArguments name then received = arg
            else (simplifyWithin room arg deeper).1 = .ok received) : received.Exact := by
        refine hexact arg harg received ?_
        rw [← hrun] at h
        exact h
      have houtcome (args : List Node) : (simplify (.application name args) env).1 =
          (simplifyApplication (simplifyWithin room) name args deeper).1 := by
        rw [simplify, hroom]
        rfl
      rw [houtcome, houtcome]
      constructor
      · exact simplifyApplication_of_perm hstill hname hcommutative hperm hreceived
      · exact simplifyApplication_of_perm hstill hname hcommutative hperm.symm fun arg harg =>
          hreceived arg (hperm.mem_iff.mpr harg)

/-! ### The standard operations without effects -/

theorem Vocabulary.suits_all : Vocabulary.all.Suits where
  written _ _ := trivial
  labels _ _ _ _ _ := trivial

theorem Action.QuietOn.pure {α : Type} {P : α → Prop} {action : Action Operation α}
    (h : action.QuietIn .all P) : action.Pure := by
  induction h with
  | done _ => exact .done _
  | fail failure => exact .fail failure
  | simplify _ _ herror ih =>
      refine .simplify _ fun answer => ?_
      cases answer with
      | ok node => exact ih node node.within_all
      | error failure =>
          rw [herror]
          exact .fail failure

/-- The standard registry without the operations that change the environment. -/
def Builtin.withoutEffects : Registry :=
  { standard with operations := standard.operations.filter (·.name ∉ effectfulNames) }

theorem Builtin.pure_withoutEffects : withoutEffects.Pure := by
  intro operation hmem args
  obtain ⟨hstandard, heffects⟩ := List.mem_filter.mp hmem
  exact (quietIn_standard Vocabulary.suits_all hstandard trivial (of_decide_eq_true heffects) args
    fun arg _ => arg.within_all).pure

/-- The sum of two symbols and a number, in two orders. -/
theorem simplify_commutative_perm_sum :
    (simplify (.application "+" [.symbol "b", .integer 2, .symbol "a"])
        (.ofRegistry Builtin.withoutEffects)).1 =
        .ok (.application "+" [.integer 2, .symbol "a", .symbol "b"]) ↔
      (simplify (.application "+" [.symbol "a", .symbol "b", .integer 2])
        (.ofRegistry Builtin.withoutEffects)).1 =
        .ok (.application "+" [.integer 2, .symbol "a", .symbol "b"]) := by
  let env := Environment.ofRegistry Builtin.withoutEffects
  have hpure : env.registry.Pure := Builtin.pure_withoutEffects
  have hcommutative : env.registry.isCommutative "+" := by decide +kernel
  have hsimplified : env.registry.preservesArguments "+" = false := by decide +kernel
  have hperm : [Node.symbol "b", .integer 2, .symbol "a"].Perm [.symbol "a", .symbol "b", .integer 2] :=
    @List.perm_append_comm Node [.symbol "b", .integer 2] [.symbol "a"]
  have hsame {arg received : Node} (harg : arg.Exact)
      (hrun : (Evaluation.nested (simplify arg) env).1 = .ok arg)
      (h : Receives env "+" arg received) : received.Exact := by
    rw [Receives, hsimplified, if_neg nofun, hrun] at h
    cases h
    exact harg
  refine simplify_commutative_perm hpure (by decide) hcommutative hperm ?_ _
  simp only [List.forall_mem_cons, List.not_mem_nil, false_implies, implies_true, and_true]
  exact ⟨fun _ => hsame (Node.exact_symbol "b") rfl, fun _ => hsame (Node.exact_number.mpr trivial) rfl,
    fun _ => hsame (Node.exact_symbol "a") rfl⟩

/-! ### Where the order is seen -/

/-- A commutative operation whose name has a defer marker, and which declines. -/
def markedPair : Operation :=
  (Operation.binary "$pair" .any .any fun _ _ => .done none).commutative

/-- A commutative operation that has its arguments preserved, and which declines. -/
def preservedPair : Operation :=
  (Operation.binary "both" .any .any fun _ _ => .done none).commutative.preservingArguments

/-- An operation that is one everywhere. -/
def constantOne : Operation :=
  Operation.unary "one" .any fun _ => .done (some (.integer 1))

def pairEnvironment : Environment :=
  .ofRegistry (Registry.registerAll {} [markedPair, preservedPair, constantOne])

theorem pure_pairEnvironment : pairEnvironment.registry.Pure := by
  have hquiet : ∀ operation ∈ [markedPair, preservedPair, constantOne], operation.QuietIn .all := by
    simp only [List.forall_mem_cons, List.not_mem_nil, false_implies, implies_true, and_true]
    exact ⟨(Operation.quiet_pure "$pair" .any .any fun _ _ _ _ => offered_none).commutative,
      (Operation.quiet_pure "both" .any .any fun _ _ _ _ => offered_none).commutative.preservingArguments,
      Operation.quiet_unary "one" .any fun _ _ => .done (offered_some (Node.within_number _))⟩
  intro operation hmem args
  exact (hquiet operation hmem args fun arg _ => arg.within_all).pure

/-- Two arguments that are in order stay as they are. -/
theorem outcome_preservedPair {a b : Node} (hflat : ¬canFlatten "both" [a, b])
    (hsorted : Node.sort [a, b] = [a, b]) :
    (simplify (.application "both" [a, b]) pairEnvironment).1 = .ok (.application "both" [a, b]) := by
  let deeper := { pairEnvironment with depth := pairEnvironment.depth + 1 }
  have hcommutative : deeper.registry.isCommutative "both" := rfl
  have harranged : arrange deeper.registry "both" [a, b] = [a, b] := by
    rw [arrange, if_pos hcommutative, flattenFully_of_not_canFlatten hflat, hsorted]
  show (simplifyPrepared (simplifyWithin 255) "both" [a, b] deeper).1 = _
  rw [simplifyPrepared, bind_run_ok (registry_run deeper), harranged]
  rfl

/-- Five as a word and as an integer that could be one, each under an operation that forgets it. -/
def onesOfFive : Node × Node :=
  (.application "one" [.number (.small 5)], .application "one" [.number (.big 5)])

/-- An application with a marker is returned without being looked at, and arguments that are preserved
may hold what their simplified forms do not: in both cases the order of the arguments stays. -/
theorem order_kept_by_deferral_and_preservation :
    pairEnvironment.registry.Pure ∧
      pairEnvironment.registry.isCommutative "$pair" ∧
      (simplify (.application "$pair" [.symbol "a", .symbol "b"]) pairEnvironment).1 =
        .ok (.application "pair" [.symbol "a", .symbol "b"]) ∧
      (simplify (.application "$pair" [.symbol "b", .symbol "a"]) pairEnvironment).1 =
        .ok (.application "pair" [.symbol "b", .symbol "a"]) ∧
      pairEnvironment.registry.isCommutative "both" ∧
      (simplify onesOfFive.1 pairEnvironment).1 = .ok (.integer 1) ∧
      (simplify onesOfFive.2 pairEnvironment).1 = .ok (.integer 1) ∧
      (simplify (.application "both" [onesOfFive.1, onesOfFive.2]) pairEnvironment).1 =
        .ok (.application "both" [onesOfFive.1, onesOfFive.2]) ∧
      (simplify (.application "both" [onesOfFive.2, onesOfFive.1]) pairEnvironment).1 =
        .ok (.application "both" [onesOfFive.2, onesOfFive.1]) ∧
      onesOfFive.1 ≠ onesOfFive.2 :=
  ⟨pure_pairEnvironment, rfl, rfl, rfl, rfl, rfl, rfl, outcome_preservedPair (by decide) rfl,
    outcome_preservedPair (by decide) rfl, by simp [onesOfFive]⟩

end SymbolicAlgebra
