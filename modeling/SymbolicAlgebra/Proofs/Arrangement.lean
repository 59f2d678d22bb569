import Mathlib.Logic.Function.Iterate
import Mathlib.Order.MinMax
import SymbolicAlgebra.Proofs.NormalForm

/-! The normal form of argument lists up to order and nesting. A pass of inlining takes one layer off every
tree of applications of the name, so as many passes change a list as its deepest tree has layers, and what is
left then are the leaves. Sorted, they are one list for all lists with the same leaves. -/

namespace SymbolicAlgebra

namespace Chain

/-! ### Layers -/

mutual

/-- How many applications of the name stand directly in one another, at most. -/
def layers (name : String) : Node → Nat
  | .application inner args => if inner = name then mostLayers name args + 1 else 0
  | _ => 0

def mostLayers (name : String) : List Node → Nat
  | [] => 0
  | node :: rest => max (layers name node) (mostLayers name rest)

end

variable {name : String}

theorem layers_application (args : List Node) :
    layers name (.application name args) = mostLayers name args + 1 := by
  rw [layers, if_pos rfl]

theorem layers_pos_iff {node : Node} : 0 < layers name node ↔ isApplicationOf name node := by
  cases node with
  | application inner args =>
      rw [layers]
      split
      · rename_i hsame
        simp [isApplicationOf, Node.applied?, hsame]
      · rename_i hother
        simp [isApplicationOf, Node.applied?, hother]
  | _ => exact iff_of_false (Nat.lt_irrefl 0) Bool.false_ne_true

theorem canFlatten_iff {args : List Node} : canFlatten name args ↔ 0 < mostLayers name args := by
  induction args with
  | nil => exact iff_of_false Bool.false_ne_true (Nat.lt_irrefl 0)
  | cons node rest ih =>
      rw [mostLayers, lt_max_iff, ← ih, layers_pos_iff, canFlatten, canFlatten, List.any_cons, Bool.or_eq_true]

theorem mostLayers_append (xs ys : List Node) :
    mostLayers name (xs ++ ys) = max (mostLayers name xs) (mostLayers name ys) := by
  induction xs with
  | nil => exact (Nat.zero_max _).symm
  | cons node rest ih => rw [List.cons_append, mostLayers, mostLayers, ih, Nat.max_assoc]

/-! ### A pass -/

theorem mostLayers_inlined (node : Node) : mostLayers name (inlined name node) = layers name node - 1 := by
  rcases inlined_cases name node with ⟨args, rfl, hinlined⟩ | ⟨hother, hinlined⟩
  · rw [hinlined, layers_application, Nat.add_sub_cancel]
  · have hnone : layers name node = 0 :=
      Nat.eq_zero_of_not_pos (mt layers_pos_iff.mp (Bool.eq_false_iff.mp hother))
    rw [hinlined, mostLayers, mostLayers, hnone]
    rfl

/-- A pass takes off one layer. -/
theorem mostLayers_flatten (args : List Node) : mostLayers name (flatten name args) = mostLayers name args - 1 := by
  induction args with
  | nil => rfl
  | cons node rest ih =>
      rw [flatten, List.flatMap_cons, ← flatten, mostLayers_append, ih, mostLayers_inlined, mostLayers]
      omega

theorem flatMap_leaves_inlined (node : Node) :
    (inlined name node).flatMap (leaves name) = leaves name node := by
  rcases inlined_cases name node with ⟨args, rfl, hinlined⟩ | ⟨_, hinlined⟩
  · rw [hinlined, leaves_application]
  · rw [hinlined, List.flatMap_singleton]

/-- A pass keeps the leaves. -/
theorem flatMap_leaves_flatten (args : List Node) :
    (flatten name args).flatMap (leaves name) = args.flatMap (leaves name) := by
  rw [flatten, List.flatMap_assoc]
  exact List.flatMap_congr fun node _ => flatMap_leaves_inlined node

/-! ### All passes -/

theorem mostLayers_passes (passes : Nat) (args : List Node) :
    mostLayers name ((flatten name)^[passes] args) = mostLayers name args - passes := by
  induction passes generalizing args with
  | zero => rfl
  | succ passes ih => rw [Function.iterate_succ_apply, ih, mostLayers_flatten, Nat.sub_sub, Nat.add_comm 1]

/-- Inlining ends after as many passes as there are layers. -/
theorem flattenFully_eq_passes (args : List Node) :
    flattenFully name args = (flatten name)^[mostLayers name args] args := by
  induction args using flattenFully.induct name with
  | case1 args more ih =>
      obtain ⟨layers, hlayers⟩ := Nat.exists_eq_succ_of_ne_zero (canFlatten_iff.mp more).ne'
      rw [flattenFully, dif_pos more, ih, mostLayers_flatten, hlayers, Nat.succ_sub_one,
        Function.iterate_succ_apply]
  | case2 args done =>
      have hnone : mostLayers name args = 0 := Nat.eq_zero_of_not_pos (mt canFlatten_iff.mpr done)
      rw [flattenFully_of_not_canFlatten done, hnone]
      rfl

/-- Inlining leaves the leaves. -/
theorem flattenFully_eq_leaves (args : List Node) : flattenFully name args = args.flatMap (leaves name) := by
  induction args using flattenFully.induct name with
  | case1 args more ih => rw [flattenFully, dif_pos more, ih, flatMap_leaves_flatten]
  | case2 args done =>
      rw [flattenFully_of_not_canFlatten done, flatMap_leaves (flat_of_not_canFlatten done)]

end Chain

open Chain

theorem arrange_eq_sort_leaves {registry : Registry} {name : String} (hcommutative : registry.isCommutative name)
    (args : List Node) : arrange registry name args = Node.sort (args.flatMap (leaves name)) := by
  rw [arrange, if_pos hcommutative, flattenFully_eq_leaves]

/-- **Arrangement gives the normal form up to order and nesting.** Under a commutative name, a pass of inlining
changes a list as long as there are layers left, so that inlining ends after as many passes as the list has
layers. The result is sorted, holds no application of the name, and consists of the leaves: it is arranged
itself, and without doubles it is the same for all lists whose leaves are the same up to their order. -/
theorem arrange_normal_form {registry : Registry} {name : String} (hcommutative : registry.isCommutative name)
    (args : List Node) :
    (∀ passes, canFlatten name ((flatten name)^[passes] args) ↔ passes < mostLayers name args) ∧
    arrange registry name args = Node.sort ((flatten name)^[mostLayers name args] args) ∧
    (arrange registry name args).Pairwise (fun a b => (Node.order a b).isLE) ∧
    (∀ node ∈ arrange registry name args, isApplicationOf name node = false) ∧
    (arrange registry name args).Perm (args.flatMap (leaves name)) ∧
    arrange registry name (arrange registry name args) = arrange registry name args ∧
    ((∀ arg ∈ args, arg.Exact) → ∀ others, (others.flatMap (leaves name)).Perm (args.flatMap (leaves name)) →
      arrange registry name others = arrange registry name args) := by
  have harrange := arrange_eq_sort_leaves hcommutative
  have hperm : (arrange registry name args).Perm (args.flatMap (leaves name)) :=
    harrange args ▸ Node.sort_perm _
  refine ⟨fun passes => ?_, ?_, ?_, flat_arrange hcommutative args, hperm, arrange_arrange registry name args, ?_⟩
  · rw [canFlatten_iff, mostLayers_passes, Nat.sub_pos_iff_lt]
  · rw [arrange, if_pos hcommutative, flattenFully_eq_passes]
  · rw [harrange]
    exact Node.pairwise_of_sorted (Node.sorted_sort _)
  · intro hexact others hleaves
    have hexact' : ∀ node ∈ args.flatMap (leaves name), node.Exact := fun node hnode =>
      forall_mem_arrange registry (fun _ => Node.exact_application.mp) hexact node (hperm.mem_iff.mpr hnode)
    rw [harrange, harrange]
    exact (Node.sort_eq_of_perm hexact' hleaves.symm).symm

/-- Sums in sums, three layers deep, with a sum of nothing and a sum of one term. -/
theorem arrange_normal_form_sums :
    let sum (terms : List Node) := Node.application "+" terms
    let a := Node.symbol "a"
    let b := Node.symbol "b"
    let wide := Node.integer (2 ^ 63)
    let args := [sum [sum [b, sum []], wide], sum [a], b]
    let others := [b, sum [sum [sum [a]], b], wide]
    Builtin.standard.isCommutative "+" ∧ (∀ arg ∈ args, arg.Exact) ∧
      (others.flatMap (leaves "+")).Perm (args.flatMap (leaves "+")) ∧
      canFlatten "+" ((flatten "+")^[2] args) ∧ ¬canFlatten "+" ((flatten "+")^[3] args) ∧
      arrange Builtin.standard "+" others = arrange Builtin.standard "+" args := by
  intro sum a b wide args others
  have hcommutative : Builtin.standard.isCommutative "+" := by decide +kernel
  have hexact : ∀ arg ∈ args, arg.Exact := by decide
  have hleaves : (others.flatMap (leaves "+")).Perm (args.flatMap (leaves "+")) :=
    .cons b (List.perm_append_comm : ([a, b] ++ [wide]).Perm ([wide] ++ [a, b]))
  obtain ⟨hpasses, _, _, _, _, _, hunique⟩ := arrange_normal_form hcommutative args
  exact ⟨hcommutative, hexact, hleaves, (hpasses 2).mpr (by decide), mt (hpasses 3).mp (by decide),
    hunique hexact others hleaves⟩

end SymbolicAlgebra
