import Mathlib.Data.List.Basic
import Mathlib.Data.Prod.Lex
import SymbolicAlgebra.Proofs.Arrangement
import SymbolicAlgebra.Proofs.Evaluation

/-! Regrouping ends, whatever the operations do. An accepted fold takes two arguments away and puts a node in
their place that is simpler than their application. If the node stays one argument, there is one argument
less and no more weight; if it is taken apart again, there may be as many arguments as before or more, but
the application that is taken apart had a weight of its own. So the weight of the list and its length
decrease lexicographically. -/

namespace SymbolicAlgebra

open Evaluation

/-- The environments that simplifying pairs of arguments under the name leads to. -/
inductive Simplifier.Reaches (recur : Simplifier) (name : String) (env : Environment) : Environment → Prop
  | refl : recur.Reaches name env env
  | pair {before after : Environment} {first second folded : Node} : recur.Reaches name env before →
      recur (.application name [first, second]) before = (.ok folded, after) → recur.Reaches name env after

/-- A fold of two arguments that is accepted: what the application of the two, in their order, becomes in an
environment on the way is simpler than the application. The other arguments keep their order. -/
inductive Accepts (recur : Simplifier) (name : String) (env : Environment) (args : List Node) :
    Node → List Node → Environment → Prop
  | intro {i j : Nat} {first second folded : Node} {before after : Environment} : i < j →
      args[i]? = some first → args[j]? = some second → recur.Reaches name env before →
      recur (.application name [first, second]) before = (.ok folded, after) →
      folded.complexity < (Node.application name [first, second]).complexity →
      Accepts recur name env args folded ((args.eraseIdx j).eraseIdx i) after

/-- The arguments after a fold: the node alone if there are no others, and else a canonical list. -/
def refolded (registry : Registry) (name : String) (folded : Node) (others : List Node) : List Node :=
  if others.isEmpty then [folded] else arrange registry name (others ++ [folded])

/-- A fold that is accepted leads from one list of arguments to the other. -/
def FoldStep (recur : Simplifier) (name : String) (args next : List Node) : Prop :=
  ∃ env folded others after, Accepts recur name env args folded others after ∧
    next = refolded after.registry name folded others

/-- The sum of the complexities of the arguments, and their number. -/
def regroupSize (args : List Node) : Nat × Nat :=
  ((args.map Node.complexity).sum, args.length)

/-! ### What the search accepts -/

section Search

variable {recur : Simplifier} {name : String} {env before after : Environment}

theorem Simplifier.Reaches.trans (hfirst : recur.Reaches name env before)
    (hthen : recur.Reaches name before after) : recur.Reaches name env after := by
  induction hthen with
  | refl => exact hfirst
  | pair _ hrun ih => exact .pair ih hrun

/-- The pairs of one argument are simplified one after the other, until one is accepted. -/
theorem accepts_of_foldWith {first : Node} {args : List Node} {found : Option (Fold (first :: args))}
    (hrun : foldWith recur name first args env = (.ok found, after)) :
    recur.Reaches name env after ∧ ∀ fold ∈ found, ∃ (j : Nat) (second : Node) (before : Environment),
      args[j]? = some second ∧ recur.Reaches name env before ∧
        recur (.application name [first, second]) before = (.ok fold.folded, after) ∧
        fold.folded.complexity < (Node.application name [first, second]).complexity ∧
        fold.others = args.eraseIdx j := by
  induction args generalizing env after with
  | nil =>
      cases hrun
      exact ⟨.refl, nofun⟩
  | cons second rest ih =>
      rw [foldWith] at hrun
      obtain ⟨folded, mid, hpair, hbehind⟩ := of_bind_ok hrun
      have hmid : recur.Reaches name env mid := .pair .refl hpair
      split at hbehind
      · rename_i hlighter
        cases hbehind
        refine ⟨hmid, ?_⟩
        rintro _ ⟨⟩
        exact ⟨0, second, env, rfl, .refl, hpair, hlighter, rfl⟩
      · obtain ⟨later, final, hrest, hdone⟩ := of_bind_ok hbehind
        obtain ⟨hfinal, haccepted⟩ := ih hrest
        cases hdone
        refine ⟨hmid.trans hfinal, fun fold hfold => ?_⟩
        obtain ⟨fold, hlater, rfl⟩ := Option.mem_map.mp hfold
        obtain ⟨j, other, before, hother, hbefore, hrecur, hlighter, hothers⟩ := haccepted fold hlater
        exact ⟨j + 1, other, before, hother, hmid.trans hbefore, hrecur, hlighter, congrArg (second :: ·) hothers⟩

/-- A fold of the arguments behind the first one, found later. -/
theorem Accepts.later {args others : List Node} {folded : Node} (h : Accepts recur name before args folded others after)
    (first : Node) (hbefore : recur.Reaches name env before) :
    Accepts recur name env (first :: args) folded (first :: others) after := by
  cases h with
  | @intro i j _ _ _ _ _ hlt hfirst hsecond hreaches hrecur hlighter =>
      exact .intro (Nat.succ_lt_succ hlt) hfirst hsecond (hbefore.trans hreaches) hrecur hlighter

theorem reaches_of_foldPair {args : List Node} {found : Option (Fold args)}
    (hrun : foldPair recur name args env = (.ok found, after)) : recur.Reaches name env after := by
  induction args generalizing env after with
  | nil =>
      cases hrun
      exact .refl
  | cons first rest ih =>
      rw [foldPair] at hrun
      obtain ⟨found, mid, hfirst, hrest⟩ := of_bind_ok hrun
      have hmid := (accepts_of_foldWith hfirst).1
      cases found with
      | some found =>
          cases hrest
          exact hmid
      | none =>
          obtain ⟨later, final, hlater, hdone⟩ := of_bind_ok hrest
          cases hdone
          exact hmid.trans (ih hlater)

/-- What the search accepts is a fold of two arguments. -/
theorem accepts_of_foldPair {args : List Node} {fold : Fold args}
    (hrun : foldPair recur name args env = (.ok (some fold), after)) :
    Accepts recur name env args fold.folded fold.others after := by
  induction args generalizing env with
  | nil => cases hrun
  | cons first rest ih =>
      rw [foldPair] at hrun
      obtain ⟨found, mid, hfirst, hrest⟩ := of_bind_ok hrun
      obtain ⟨hmid, haccepted⟩ := accepts_of_foldWith hfirst
      cases found with
      | some found =>
          cases hrest
          obtain ⟨j, second, before, hsecond, hbefore, hrecur, hlighter, hothers⟩ := haccepted fold rfl
          rw [hothers]
          exact .intro (Nat.zero_lt_succ j) rfl hsecond hbefore hrecur hlighter
      | none =>
          obtain ⟨later, final, hlater, hdone⟩ := of_bind_ok hrest
          cases later with
          | none => cases hdone
          | some later =>
              cases hdone
              exact (ih hlater).later first hmid

end Search

/-! ### What a fold does to the list -/

section Step

variable {recur : Simplifier} {name : String} {env after : Environment} {args others : List Node} {folded : Node}

theorem perm_eraseIdx {i : Nat} {node : Node} (h : args[i]? = some node) :
    args.Perm (node :: args.eraseIdx i) := by
  obtain ⟨hi, rfl⟩ := List.getElem?_eq_some_iff.mp h
  exact (List.getElem_cons_eraseIdx_perm hi).symm

/-- Up to their order, the arguments are the two that are folded and the others. -/
theorem Accepts.perm (h : Accepts recur name env args folded others after) :
    ∃ (first second : Node) (before : Environment), args.Perm (first :: second :: others) ∧
      recur.Reaches name env before ∧ recur (.application name [first, second]) before = (.ok folded, after) ∧
      folded.complexity < (Node.application name [first, second]).complexity := by
  cases h with
  | @intro i j first second _ before _ hlt hfirst hsecond hbefore hrecur hlighter =>
      have hleft : (args.eraseIdx j)[i]? = some first := by rw [List.getElem?_eraseIdx_of_lt hlt, hfirst]
      have hperm := (perm_eraseIdx hsecond).trans ((perm_eraseIdx hleft).cons second)
      exact ⟨first, second, before, hperm.trans (.swap first second _), hbefore, hrecur, hlighter⟩

theorem regroupSize_eq (args : List Node) : regroupSize args = (Node.weight args, args.length) := by
  have hsum : (args.map Node.complexity).sum = Node.weight args := by
    induction args with
    | nil => rfl
    | cons node rest ih => rw [List.map_cons, List.sum_cons, ih, Node.weight]
  rw [regroupSize, hsum]

/-- An accepted fold makes the arguments lighter, or no heavier and fewer: the folded node stays one argument, or
it is taken apart and its own weight is lost. -/
theorem Accepts.lighter_or_fewer (h : Accepts recur name env args folded others after) (registry : Registry) :
    let next := refolded registry name folded others
    Node.weight next < Node.weight args ∨ Node.weight next = Node.weight args ∧ next.length < args.length := by
  obtain ⟨first, second, _, hperm, _, _, hlighter⟩ := h.perm
  have hweight : Node.weight args = first.complexity + (second.complexity + Node.weight others) :=
    weight_perm hperm
  have hlength : args.length = others.length + 2 := hperm.length_eq
  have hpair : folded.complexity ≤ first.complexity + second.complexity := by
    simp only [Node.complexity, Node.weight] at hlighter
    omega
  have hput : Node.weight (others ++ [folded]) = Node.weight others + folded.complexity := by
    rw [Node.weight_append, Node.weight, Node.weight, Nat.add_zero]
  intro next
  by_cases hempty : others.isEmpty
  · obtain rfl := List.isEmpty_iff.mp hempty
    have hnext : next = [folded] := if_pos hempty
    rw [hnext, List.length_singleton]
    rw [List.nil_append] at hput
    omega
  · have hnext : next = arrange registry name (others ++ [folded]) := if_neg hempty
    rw [hnext]
    have hmore : (others ++ [folded]).length = others.length + 1 := List.length_append
    rcases arrange_weight registry name (others ++ [folded]) with ⟨hsame, hkept⟩ | hless
    · omega
    · omega

theorem FoldStep.decreases {next : List Node} (h : FoldStep recur name args next) :
    Prod.Lex (· < ·) (· < ·) (regroupSize next) (regroupSize args) := by
  obtain ⟨env, folded, others, after, haccepts, rfl⟩ := h
  rw [regroupSize_eq, regroupSize_eq]
  rcases haccepts.lighter_or_fewer after.registry with hlighter | ⟨hsame, hfewer⟩
  · exact .left _ _ hlighter
  · rw [hsame]
    exact .right _ hfewer

theorem wellFounded_foldStep (recur : Simplifier) (name : String) :
    WellFounded fun next args => FoldStep recur name args next :=
  Subrelation.wf FoldStep.decreases
    (InvImage.wf regroupSize (WellFounded.prod_lex Nat.lt_wfRel.wf Nat.lt_wfRel.wf))

end Step

/-! ### The loop -/

/-- So many folds that the search accepts, one after the other. -/
inductive Refolds (recur : Simplifier) (name : String) : Nat → List Node → Environment → List Node →
    Environment → Prop
  | none (args : List Node) (env : Environment) : Refolds recur name 0 args env args env
  | fold {folds : Nat} {args last : List Node} {env after final : Environment} {fold : Fold args} :
      foldPair recur name args env = (.ok (some fold), after) →
      Refolds recur name folds (refolded after.registry name fold.folded fold.others) after last final →
      Refolds recur name (folds + 1) args env last final

section Loop

variable {recur : Simplifier} {name : String}

theorem regroupMeasure_of_foldStep {args next : List Node} (h : FoldStep recur name args next) :
    regroupMeasure next < regroupMeasure args := by
  obtain ⟨env, folded, others, after, haccepts, rfl⟩ := h
  refine regroupMeasure_lt ?_
  rcases haccepts.lighter_or_fewer after.registry with hlighter | ⟨hsame, hfewer⟩
  · exact .inl hlighter
  · exact .inr ⟨hsame.le, hfewer⟩

theorem Refolds.le_regroupMeasure {folds : Nat} {args last : List Node} {env final : Environment}
    (h : Refolds recur name folds args env last final) : folds ≤ regroupMeasure args := by
  induction h with
  | none => exact Nat.zero_le _
  | fold hrun _ ih =>
      exact Nat.lt_of_le_of_lt ih (regroupMeasure_of_foldStep ⟨_, _, _, _, accepts_of_foldPair hrun, rfl⟩)

theorem foldPair_ne_of_single (node : Node) (env : Environment) (fold : Fold [node]) :
    (foldPair recur name [node] env).1 ≠ .ok (some fold) := by
  intro hsome
  have hlength := fold.length_eq
  rw [List.length_singleton] at hlength
  omega

section Pass

variable {arity : Nat} {args : List Node} {env after : Environment} {fold : Fold args}
  (hrun : foldPair recur name args env = (.ok (some fold), after))
include hrun

theorem regroup_of_no_others (hothers : fold.others.isEmpty) :
    regroup recur name arity args env = (.ok fold.folded, after) := by
  rw [regroup, bind_run_ok hrun]
  dsimp only
  rw [if_pos hothers]
  rfl

theorem regroup_of_others (hothers : ¬fold.others.isEmpty) :
    regroup recur name arity args env =
      regroup recur name arity (arrange after.registry name (fold.others ++ [fold.folded])) after := by
  rw [regroup, bind_run_ok hrun]
  dsimp only
  rw [if_neg hothers]
  rfl

end Pass

/-- The loop goes from fold to fold, and ends where none is accepted or a single node is left. -/
theorem exists_refolds (arity : Nat) (args : List Node) (env : Environment) :
    ∃ folds last final, Refolds recur name folds args env last final ∧
      (∀ fold, (foldPair recur name last final).1 ≠ .ok (some fold)) ∧
      (regroup recur name arity args env = regroup recur name arity last final ∨
        ∃ node, 0 < folds ∧ last = [node] ∧ regroup recur name arity args env = (.ok node, final)) := by
  induction args using regroup.induct name generalizing env with
  | case1 args ih =>
      by_cases hmore : ∃ fold after, foldPair recur name args env = (.ok (some fold), after)
      · obtain ⟨fold, after, hrun⟩ := hmore
        by_cases hothers : fold.others.isEmpty
        · have hnext : refolded after.registry name fold.folded fold.others = [fold.folded] := if_pos hothers
          refine ⟨1, [fold.folded], after, .fold hrun ?_, foldPair_ne_of_single _ after,
            .inr ⟨fold.folded, Nat.one_pos, rfl, regroup_of_no_others hrun hothers⟩⟩
          rw [hnext]
          exact .none _ after
        · have hnext : refolded after.registry name fold.folded fold.others =
              arrange after.registry name (fold.others ++ [fold.folded]) := if_neg hothers
          obtain ⟨folds, last, final, hfolds, hstop, hend⟩ := ih fold after.registry after
          refine ⟨folds + 1, last, final, .fold hrun (hnext ▸ hfolds), hstop, ?_⟩
          rw [regroup_of_others hrun hothers]
          rcases hend with hrest | ⟨node, _, hnode⟩
          · exact .inl hrest
          · exact .inr ⟨node, Nat.succ_pos folds, hnode⟩
      · exact ⟨0, args, env, .none args env, fun fold hsome => hmore ⟨fold, _, Prod.ext hsome rfl⟩, .inl rfl⟩

end Loop

/-- **Regrouping ends for every operation.** Whatever simplification does, every accepted fold makes the sum of
the complexities and the number of the arguments smaller, lexicographically, also if the arguments do not become
fewer because the folded node is taken apart again. So there are no infinite chains of accepted folds: every
regrouping accepts a number of folds that the arguments bound, up to a list of which no pair folds. -/
theorem regroup_terminates (recur : Simplifier) (name : String) :
    (∀ args next, FoldStep recur name args next →
      Prod.Lex (· < ·) (· < ·) (regroupSize next) (regroupSize args)) ∧
    (WellFounded fun next args => FoldStep recur name args next) ∧
    (∀ args env (fold : Fold args) after, foldPair recur name args env = (.ok (some fold), after) →
      FoldStep recur name args (refolded after.registry name fold.folded fold.others)) ∧
    ∀ arity args env, ∃ folds last final, Refolds recur name folds args env last final ∧
      folds ≤ regroupMeasure args ∧ (∀ fold, (foldPair recur name last final).1 ≠ .ok (some fold)) ∧
      (regroup recur name arity args env = regroup recur name arity last final ∨
        ∃ node, 0 < folds ∧ last = [node] ∧ regroup recur name arity args env = (.ok node, final)) := by
  refine ⟨fun args next => FoldStep.decreases, wellFounded_foldStep recur name, fun args env fold after hrun => ?_,
    fun arity args env => ?_⟩
  · exact ⟨env, fold.folded, fold.others, after, accepts_of_foldPair hrun, rfl⟩
  · obtain ⟨folds, last, final, hfolds, hstop, hend⟩ := exists_refolds arity args env
    exact ⟨folds, last, final, hfolds, hfolds.le_regroupMeasure, hstop, hend⟩

/-- An operation that takes the arguments of two applications together. -/
def merging : Operation :=
  (Operation.binary "merge" .application .application fun a b =>
    match a, b with
    | .application _ xs, .application _ ys => .done (some (.application "merge" (xs ++ ys)))
    | _, _ => .done none).commutative

/-- The folded node is taken apart again, and the arguments do not become fewer. -/
theorem regroup_terminates_merging :
    let args := [Node.application "f" [.symbol "x"], .application "f" [.symbol "y"], .symbol "z"]
    let next := [Node.symbol "x", .symbol "y", .symbol "z"]
    FoldStep simplify "merge" args next ∧ next.length = args.length ∧
      Prod.Lex (· < ·) (· < ·) (regroupSize next) (regroupSize args) := by
  intro args next
  let env := Environment.ofRegistry { operations := [merging] }
  let pair := Node.application "merge" [.application "f" [.symbol "x"], .application "f" [.symbol "y"]]
  let folded := Node.application "merge" [.symbol "x", .symbol "y"]
  have hfolded : (simplify pair env).1 = .ok folded := eq_ok_of_same (by decide) (by decide +kernel)
  have hcommutative : (simplify pair env).2.registry.isCommutative "merge" := by decide +kernel
  rcases hrun : simplify pair env with ⟨outcome, after⟩
  rw [hrun] at hfolded hcommutative
  obtain rfl : outcome = .ok folded := hfolded
  have hnext : next = refolded after.registry "merge" folded [.symbol "z"] := by
    rw [refolded, if_neg (by decide), arrange_eq_sort_leaves hcommutative]
    rfl
  have hstep : FoldStep simplify "merge" args next :=
    ⟨env, folded, [.symbol "z"], after, .intro Nat.zero_lt_one rfl rfl .refl hrun (by decide), hnext⟩
  exact ⟨hstep, rfl, (regroup_terminates simplify "merge").1 args next hstep⟩

end SymbolicAlgebra
