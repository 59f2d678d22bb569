import SymbolicAlgebra.Proofs.TotalOrder

/-! Exact expressions: no double occurs in them, and every integer is held in its normal representation.
On them equality is identity, so that two nodes of equal place are the same node. Sorting therefore forgets
the order of a list, and so does bringing an argument list into its canonical form. -/

namespace SymbolicAlgebra

/-- The number is an integer, and held as a word if it is one. -/
def Number.Exact : Number → Prop
  | .small _ => True
  | .big value => Word.ofInt? value = none
  | .real _ => False

/-- What exactness asks of the outermost form of a node. -/
def Node.ExactForm : Node → Prop
  | .number value => value.Exact
  | _ => True

/-- No double occurs in the node, and no word in another form. -/
def Node.Exact (node : Node) : Prop :=
  node.Everywhere ExactForm

instance (value : Number) : Decidable value.Exact :=
  match value with
  | .small _ => .isTrue trivial
  | .big value => inferInstanceAs (Decidable (Word.ofInt? value = none))
  | .real _ => .isFalse id

instance (node : Node) : Decidable node.ExactForm :=
  match node with
  | .number value => inferInstanceAs (Decidable value.Exact)
  | .application _ _ | .pair _ _ | .sequence _ | .boolean _ | .symbol _ => .isTrue trivial

instance (node : Node) : Decidable node.Exact :=
  inferInstanceAs (Decidable (∀ part ∈ node.subterms, part.ExactForm))

namespace Number

theorem exact_iff {a : Number} : a.Exact ↔ ∃ x, a = ofInt x := by
  constructor
  · intro h
    cases a with
    | small word => exact ⟨word.toInt, (ofInt_toInt word).symm⟩
    | big value =>
        refine ⟨value, ?_⟩
        rw [ofInt, show Word.ofInt? value = none from h]
    | real value => exact h.elim
  · rintro ⟨x, rfl⟩
    rw [ofInt]
    cases hword : Word.ofInt? x with
    | some word => exact trivial
    | none => exact hword

end Number

namespace Node

theorem exact_number {value : Number} : (number value).Exact ↔ value.Exact := everywhere_number

theorem exact_integer (x : Int) : (integer x).Exact :=
  exact_number.mpr (Number.exact_iff.mpr ⟨x, rfl⟩)

theorem exact_boolean (value : Bool) : (boolean value).Exact := everywhere_boolean.mpr trivial

theorem exact_symbol (name : String) : (symbol name).Exact := everywhere_symbol.mpr trivial

theorem exact_application {name : String} {args : List Node} :
    (application name args).Exact ↔ ∀ arg ∈ args, arg.Exact :=
  everywhere_application.trans (and_iff_right trivial)

theorem exact_pair {first second : Node} :
    (pair first second).Exact ↔ first.Exact ∧ second.Exact :=
  everywhere_pair.trans (and_iff_right trivial)

theorem exact_sequence {elements : List Node} :
    (sequence elements).Exact ↔ ∀ element ∈ elements, element.Exact :=
  everywhere_sequence.trans (and_iff_right trivial)

/-! ### Nodes that are the same -/

theorem allSame_iff {xs ys : List Node} (h : ∀ x ∈ xs, ∀ y ∈ ys, x.same y ↔ x = y) :
    allSame xs ys ↔ xs = ys := by
  induction xs generalizing ys with
  | nil => cases ys <;> simp [allSame]
  | cons x xs ih =>
      cases ys with
      | nil => simp [allSame]
      | cons y ys =>
          have hrest : allSame xs ys ↔ xs = ys :=
            ih fun x hx y hy => h x (List.mem_cons_of_mem _ hx) y (List.mem_cons_of_mem _ hy)
          rw [allSame, Bool.and_eq_true, h x List.mem_cons_self y List.mem_cons_self, hrest, List.cons.injEq]

/-- An exact node is the same as itself alone. -/
theorem same_iff {a b : Node} (hb : b.Exact) : a == b ↔ a = b := by
  change a.same b ↔ a = b
  induction a using Node.inductionOn generalizing b with
  | number value =>
      cases b with
      | number other =>
          have hother := exact_number.mp hb
          cases other with
          | real other => exact hother.elim
          | small other => cases value <;> simp [same, Number.same]
          | big other => cases value <;> simp [same, Number.same]
      | _ => simp [same]
  | symbol name => cases b <;> simp [same]
  | boolean value => cases b <;> simp [same]
  | application name args ih =>
      cases b with
      | application other others =>
          rw [same, Bool.and_eq_true, beq_iff_eq, application.injEq, allSame_iff fun arg harg other hother =>
            ih arg harg (exact_application.mp hb other hother)]
      | _ => simp [same]
  | pair first second ihfirst ihsecond =>
      cases b with
      | pair other another =>
          rw [same, Bool.and_eq_true, ihfirst (exact_pair.mp hb).1, ihsecond (exact_pair.mp hb).2, pair.injEq]
      | _ => simp [same]
  | sequence elements ih =>
      cases b with
      | sequence others =>
          rw [same, sequence.injEq, allSame_iff fun element helement other hother =>
            ih element helement (exact_sequence.mp hb other hother)]
      | _ => simp [same]

/-! ### Nodes of equal place -/

theorem Exact.narrow {node : Node} (h : node.Exact) : node.Narrow := by
  intro part hpart
  have hform := h part hpart
  cases part with
  | number value =>
      cases value with
      | small => exact trivial
      | big => exact hform
      | real => exact hform.elim
  | _ => exact trivial

/-- Exact nodes of equal place are the same node. -/
theorem eq_of_order_eq {a b : Node} (ha : a.Exact) (hb : b.Exact) (h : order a b = .eq) : a = b :=
  (same_iff hb).mp ((same_iff_order_eq ha.narrow hb.narrow).mpr h)

theorem isLE_antisymm {a b : Node} (ha : a.Exact) (hb : b.Exact) (hab : (order a b).isLE)
    (hba : (order b a).isLE) : a = b :=
  eq_of_order_eq ha hb (Std.OrientedCmp.isLE_antisymm hab hba)

/-! ### Sorting forgets the order -/

/-- A list of exact nodes is sorted in one way only. -/
theorem eq_of_sorted_of_perm {xs ys : List Node} (hexact : ∀ node ∈ xs, node.Exact) (hxs : Sorted xs)
    (hys : Sorted ys) (hperm : xs.Perm ys) : xs = ys := by
  have hexact' (node : Node) (hnode : node ∈ ys) : node.Exact := hexact node (hperm.mem_iff.mpr hnode)
  exact List.Perm.eq_of_pairwise
    (fun a b ha hb hab hba => isLE_antisymm (hexact a ha) (hexact' b hb) hab hba)
    (pairwise_of_sorted hxs) (pairwise_of_sorted hys) hperm

theorem sort_eq_of_perm {xs ys : List Node} (hexact : ∀ node ∈ xs, node.Exact) (hperm : xs.Perm ys) :
    sort xs = sort ys := by
  refine eq_of_sorted_of_perm (fun node hnode => hexact node ((sort_perm xs).mem_iff.mp hnode))
    (sorted_sort xs) (sorted_sort ys) ?_
  exact ((sort_perm xs).trans hperm).trans (sort_perm ys).symm

end Node

/-- An outcome that is the same as an exact expression is that expression. -/
theorem eq_ok_of_same {outcome : Except Failure Node} {node : Node} (hexact : node.Exact)
    (h : outcome.toOption.any (· == node)) : outcome = .ok node := by
  cases outcome with
  | error failure => cases h
  | ok other => rw [(Node.same_iff hexact).mp h]

/-! ### Canonical lists forget the order -/

theorem flattenFully_perm {name : String} {xs ys : List Node} (hperm : xs.Perm ys) :
    (flattenFully name xs).Perm (flattenFully name ys) := by
  induction xs using flattenFully.induct name generalizing ys with
  | case1 xs more ih =>
      have hmore : canFlatten name ys := canFlatten_perm name hperm ▸ more
      rw [flattenFully, dif_pos more, flattenFully.eq_1 name ys, dif_pos hmore]
      exact ih (hperm.flatMap_right (inlined name))
  | case2 xs done =>
      have hdone : ¬canFlatten name ys := canFlatten_perm name hperm ▸ done
      rw [flattenFully_of_not_canFlatten done, flattenFully_of_not_canFlatten hdone]
      exact hperm

/-- The canonical list of a commutative name depends on how often each argument occurs alone. -/
theorem arrange_eq_of_perm {registry : Registry} {name : String} (hcommutative : registry.isCommutative name)
    {xs ys : List Node} (hexact : ∀ node ∈ xs, node.Exact) (hperm : xs.Perm ys) :
    arrange registry name xs = arrange registry name ys := by
  have harranged : ∀ node ∈ arrange registry name xs, node.Exact :=
    forall_mem_arrange registry (fun _ => Node.exact_application.mp) hexact
  rw [arrange, if_pos hcommutative] at harranged ⊢
  rw [arrange, if_pos hcommutative]
  refine Node.sort_eq_of_perm (fun node hnode => harranged node ?_) (flattenFully_perm hperm)
  exact (Node.sort_perm _).mem_iff.mpr hnode

end SymbolicAlgebra
