import Mathlib.Data.List.Chain
import SymbolicAlgebra.Canonical
import SymbolicAlgebra.Proofs.Doubles
import SymbolicAlgebra.Proofs.Tree

/-! The canonical order is the same from both sides: exchanging two nodes reverses what it says. Sorting
therefore puts every node next to one that is not smaller, and sorting again changes nothing. Canonical
argument lists stay as they are when they are arranged once more. -/

namespace SymbolicAlgebra

/-! ### The two sides of a comparison -/

namespace Number

theorem compare_words (x y : Int64) : compare x y = compare x.toInt y.toInt := by
  show compareOfLessAndEq x y = compareOfLessAndEq x.toInt y.toInt
  simp only [compareOfLessAndEq, Int64.lt_iff_toInt_lt, Int64.toInt_inj]

/-- Integers compare by value however they are held, and with a double both sides are doubles. -/
theorem compare?_eq (a b : Number) :
    a.compare? b = match a.toInt?, b.toInt? with
      | some x, some y => some (compare x y)
      | _, _ => Double.compare? a.toFloat b.toFloat := by
  cases a with
  | small x =>
      cases b with
      | small y => exact congrArg some (compare_words x y)
      | _ => rfl
  | _ => cases b <;> rfl

theorem compare?_swap (a b : Number) : b.compare? a = (a.compare? b).map Ordering.swap := by
  rw [compare?_eq, compare?_eq]
  cases a.toInt? with
  | none => cases b.toInt? <;> exact Double.compare?_swap _ _
  | some x =>
      cases b.toInt? with
      | none => exact Double.compare?_swap _ _
      | some y =>
          show some (compare y x) = some (compare x y).swap
          rw [← Std.OrientedOrd.eq_swap]

/-- Two doubles are ordered by value, and so are other numbers, with the integer first. -/
theorem order_eq (a b : Number) :
    a.order b = ((a.compare? b).getD (compare a.toFloat.isNaN b.toFloat.isNaN)).then
      (compare b.isInteger a.isInteger) := by
  unfold order
  split
  · rename_i x y
    show Double.totalOrder x y = ((Double.compare? x y).getD (compare x.isNaN y.isNaN)).then .eq
    rw [Ordering.then_eq, Double.totalOrder]
    cases Double.compare? x y <;> rfl
  · cases a.compare? b <;> rfl

theorem order_swap (a b : Number) : b.order a = (a.order b).swap := by
  rw [order_eq, order_eq, Ordering.swap_then, ← Std.OrientedOrd.eq_swap, compare?_swap a b]
  cases a.compare? b with
  | some order => rfl
  | none =>
      rw [Option.map_none, Option.getD_none, Option.getD_none, ← Std.OrientedOrd.eq_swap]

end Number

namespace Node

theorem orderAll_swap {xs : List Node} (ys : List Node)
    (h : ∀ x ∈ xs, ∀ y, order y x = (order x y).swap) :
    orderAll ys xs = (orderAll xs ys).swap := by
  induction xs generalizing ys with
  | nil => cases ys <;> rfl
  | cons x xs ih =>
      cases ys with
      | nil => rfl
      | cons y ys =>
          rw [orderAll, orderAll, Ordering.swap_then, h x List.mem_cons_self y,
            ih ys fun x hx => h x (List.mem_cons_of_mem _ hx)]

/-- Exchanging the nodes reverses the order. -/
theorem order_swap (a b : Node) : order b a = (order a b).swap := by
  induction a using Node.inductionOn generalizing b with
  | number x =>
      cases b with
      | number y => exact Number.order_swap x y
      | _ => rfl
  | symbol x =>
      cases b with
      | symbol y => exact Std.OrientedOrd.eq_swap
      | _ => rfl
  | boolean p =>
      cases b with
      | boolean q => exact Std.OrientedOrd.eq_swap
      | _ => rfl
  | application f xs ih =>
      cases b with
      | application g ys =>
          rw [order, order, Ordering.swap_then, ← Std.OrientedOrd.eq_swap, orderAll_swap ys ih]
      | _ => rfl
  | pair first second hfirst hsecond =>
      cases b with
      | pair other another => rw [order, order, Ordering.swap_then, hfirst, hsecond]
      | _ => rfl
  | sequence xs ih =>
      cases b with
      | sequence ys => exact orderAll_swap ys ih
      | _ => rfl

/-! ### Sorted lists -/

/-- No node is greater than the one behind it. -/
def Sorted : List Node → Prop :=
  List.IsChain fun a b => (order a b).isLE

theorem sorted_cons {node : Node} {nodes : List Node} (h : Sorted nodes)
    (hfirst : ∀ other ∈ nodes, (order node other).isLE) : Sorted (node :: nodes) := by
  cases nodes with
  | nil => exact .singleton node
  | cons next rest => exact .cons_cons (hfirst next List.mem_cons_self) h

theorem isLE_swap_of_not_isLE {a b : Node} (h : ¬(order a b).isLE) : (order b a).isLE := by
  rw [order_swap a b]
  revert h
  cases order a b <;> decide

theorem sorted_insertOrdered (node : Node) {nodes : List Node} (h : Sorted nodes) :
    Sorted (insertOrdered node nodes) := by
  induction nodes with
  | nil => exact .singleton node
  | cons other rest ih =>
      rw [insertOrdered]
      split
      · rename_i hle
        exact .cons_cons hle h
      · rename_i hgreater
        have hother := isLE_swap_of_not_isLE hgreater
        have hrest := ih h.tail
        cases rest with
        | nil => exact .cons_cons hother hrest
        | cons next rest =>
            rw [insertOrdered] at hrest ⊢
            split
            · rename_i hle
              rw [if_pos hle] at hrest
              exact .cons_cons hother hrest
            · rename_i hnot
              rw [if_neg hnot] at hrest
              exact .cons_cons (List.isChain_cons_cons.mp h).1 hrest

theorem sorted_sort (nodes : List Node) : Sorted (sort nodes) := by
  induction nodes with
  | nil => exact .nil
  | cons node rest ih => exact sorted_insertOrdered node ih

theorem sort_of_sorted {nodes : List Node} (h : Sorted nodes) : sort nodes = nodes := by
  induction nodes with
  | nil => rfl
  | cons node rest ih =>
      rw [sort, ih h.tail]
      cases rest with
      | nil => rfl
      | cons next rest => rw [insertOrdered, if_pos (List.isChain_cons_cons.mp h).1]

end Node

/-! ### Canonical lists -/

theorem Node.isApplicationOf_iff {name : String} {node : Node} :
    isApplicationOf name node ↔ ∃ args, node = .application name args := by
  cases node with
  | application other args => simp [isApplicationOf, applied?]
  | _ => simp [isApplicationOf, applied?]

theorem not_canFlatten_flattenFully (name : String) (args : List Node) :
    ¬canFlatten name (flattenFully name args) := by
  induction args using flattenFully.induct name with
  | case1 args more ih =>
      rw [flattenFully, dif_pos more]
      exact ih
  | case2 args done =>
      rw [flattenFully, dif_neg done]
      exact done

theorem flattenFully_of_not_canFlatten {name : String} {args : List Node}
    (h : ¬canFlatten name args) : flattenFully name args = args := by
  rw [flattenFully, dif_neg h]

theorem inlined_of_not_isApplicationOf {name : String} {node : Node} (h : isApplicationOf name node = false) :
    inlined name node = [node] := by
  cases node with
  | application inner args =>
      rw [inlined, if_neg]
      rintro rfl
      simp [isApplicationOf, Node.applied?] at h
  | _ => rfl

/-- An application of the name gives way to its arguments, and every other node stays. -/
theorem inlined_cases (name : String) (node : Node) :
    (∃ args, node = .application name args ∧ inlined name node = args) ∨
      isApplicationOf name node = false ∧ inlined name node = [node] := by
  by_cases happlication : isApplicationOf name node
  · obtain ⟨args, rfl⟩ := Node.isApplicationOf_iff.mp happlication
    exact .inl ⟨args, rfl, if_pos rfl⟩
  · have hother := Bool.eq_false_iff.mpr happlication
    exact .inr ⟨hother, inlined_of_not_isApplicationOf hother⟩

theorem not_canFlatten_of_flat {name : String} {args : List Node}
    (hflat : ∀ arg ∈ args, isApplicationOf name arg = false) : ¬canFlatten name args := by
  rw [canFlatten, List.any_eq_true]
  rintro ⟨arg, harg, happlication⟩
  rw [hflat arg harg] at happlication
  cases happlication

theorem flat_of_not_canFlatten {name : String} {args : List Node} (h : ¬canFlatten name args) :
    ∀ arg ∈ args, isApplicationOf name arg = false := by
  intro arg harg
  exact Bool.eq_false_iff.mpr fun happlication => h (List.any_eq_true.mpr ⟨arg, harg, happlication⟩)

/-- Inlining leaves a list as it is where there is nothing to be inlined. -/
theorem flatten_of_flat {name : String} {args : List Node}
    (hflat : ∀ arg ∈ args, isApplicationOf name arg = false) : flatten name args = args := by
  have hsame : args.flatMap (inlined name) = args.flatMap fun arg => [arg] :=
    List.flatMap_congr fun arg harg => inlined_of_not_isApplicationOf (hflat arg harg)
  rw [flatten, hsame, List.flatMap_singleton']

/-- One pass of inlining is enough where it leaves nothing to be inlined. -/
theorem flattenFully_eq_flatten {name : String} {args : List Node}
    (hflat : ∀ arg ∈ flatten name args, isApplicationOf name arg = false) :
    flattenFully name args = flatten name args := by
  by_cases hmore : canFlatten name args
  · rw [flattenFully, dif_pos hmore, flattenFully_of_not_canFlatten (not_canFlatten_of_flat hflat)]
  · rw [flattenFully_of_not_canFlatten hmore, flatten_of_flat (flat_of_not_canFlatten hmore)]

theorem canFlatten_perm {xs ys : List Node} (name : String) (h : xs.Perm ys) :
    canFlatten name xs = canFlatten name ys := by
  rw [canFlatten, canFlatten, Bool.eq_iff_iff, List.any_eq_true, List.any_eq_true]
  simp only [h.mem_iff]

/-- In a canonical list there is nothing to be inlined. -/
theorem flat_arrange {registry : Registry} {name : String} (hcommutative : registry.isCommutative name)
    (args : List Node) : ∀ arg ∈ arrange registry name args, isApplicationOf name arg = false := by
  refine flat_of_not_canFlatten ?_
  rw [arrange, if_pos hcommutative, canFlatten_perm name (Node.sort_perm _)]
  exact not_canFlatten_flattenFully name args

/-- A list that is in canonical form stays as it is. -/
theorem arrange_arrange (registry : Registry) (name : String) (args : List Node) :
    arrange registry name (arrange registry name args) = arrange registry name args := by
  by_cases hcommutative : registry.isCommutative name
  · have hflat := not_canFlatten_of_flat (flat_arrange hcommutative args)
    simp only [arrange, if_pos hcommutative] at hflat ⊢
    rw [flattenFully_of_not_canFlatten hflat, Node.sort_of_sorted (Node.sorted_sort _)]
  · simp only [arrange_of_ordered hcommutative]

/-- Where there is nothing to be inlined, canonical lists are sorted ones. -/
theorem arrange_of_flat {registry : Registry} {name : String} (hcommutative : registry.isCommutative name)
    {args : List Node} (hflat : ∀ arg ∈ args, isApplicationOf name arg = false) :
    arrange registry name args = Node.sort args := by
  rw [arrange, if_pos hcommutative, flattenFully_of_not_canFlatten (not_canFlatten_of_flat hflat)]

/-- What a node satisfies passes to what is inlined for it, if it passes from an application of the name to its
arguments. -/
theorem forall_mem_inlined {motive : Node → Prop} {name : String}
    (hinlined : ∀ args, motive (.application name args) → ∀ arg ∈ args, motive arg) {node : Node}
    (h : motive node) : ∀ arg ∈ inlined name node, motive arg := by
  rcases inlined_cases name node with ⟨args, rfl, hparts⟩ | ⟨_, hself⟩
  · rw [hparts]
    exact hinlined args h
  · rw [hself]
    exact List.forall_mem_singleton.mpr h

/-- Every argument of a canonical list satisfies what the arguments satisfied, if that passes from an
application that is inlined to its own arguments. -/
theorem forall_mem_arrange {motive : Node → Prop} (registry : Registry) {name : String}
    (hinlined : ∀ args, motive (.application name args) → ∀ arg ∈ args, motive arg) {args : List Node}
    (hargs : ∀ arg ∈ args, motive arg) : ∀ arg ∈ arrange registry name args, motive arg := by
  have hflat : ∀ arg ∈ flattenFully name args, motive arg := by
    induction args using flattenFully.induct name with
    | case1 args more ih =>
        rw [flattenFully, dif_pos more]
        apply ih
        intro arg hmem
        obtain ⟨outer, houter, harg⟩ := List.mem_flatMap.mp hmem
        exact forall_mem_inlined hinlined (hargs outer houter) arg harg
    | case2 args done =>
        rw [flattenFully, dif_neg done]
        exact hargs
  rw [arrange]
  split
  · intro arg hmem
    exact hflat arg ((Node.sort_perm _).mem_iff.mp hmem)
  · exact hargs

end SymbolicAlgebra
