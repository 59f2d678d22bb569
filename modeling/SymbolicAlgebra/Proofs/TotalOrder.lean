import SymbolicAlgebra.Proofs.Integers
import SymbolicAlgebra.Proofs.Order

/-! The canonical order is total. A comparison of three things composes where the step from the first to the
third is the step to the second followed by the one from there, as long as neither goes down. Lexicographic
comparisons compose part by part, which carries transitivity from numbers through nested lists without a
word on equality. Numbers compose although an integer is compared with a double after rounding: their order
is the lexicographic one of the nearest double, of integers before doubles, and of the integers, because
rounding is monotone. On nodes whose integers are words where they can be, equal places are equal nodes. -/

namespace SymbolicAlgebra

/-! ### Comparisons that compose -/

/-- If no step goes down, the last one is the first two together. -/
def Composes (o p q : Ordering) : Prop :=
  o.isLE → p.isLE → q = o.then p

theorem Composes.then {o₁ o₂ p₁ p₂ q₁ q₂ : Ordering} (h₁ : Composes o₁ p₁ q₁)
    (h₂ : o₁ = .eq → p₁ = .eq → Composes o₂ p₂ q₂) :
    Composes (o₁.then o₂) (p₁.then p₂) (q₁.then q₂) := by
  intro ho hp
  rw [h₁ (Ordering.isLE_left_of_isLE_then ho) (Ordering.isLE_left_of_isLE_then hp)]
  cases o₁ with
  | lt => rfl
  | gt => cases ho
  | eq =>
      cases p₁ with
      | lt => cases o₂ <;> first | rfl | cases ho
      | gt => cases hp
      | eq => exact h₂ rfl rfl ho hp

theorem Composes.isLE {o p q : Ordering} (h : Composes o p q) (ho : o.isLE) (hp : p.isLE) : q.isLE := by
  rw [h ho hp]
  cases o with
  | lt => rfl
  | eq => exact hp
  | gt => cases ho

theorem composes_cmp {α : Type} (cmp : α → α → Ordering) [Std.TransCmp cmp] (a b c : α) :
    Composes (cmp a b) (cmp b c) (cmp a c) := by
  intro hab hbc
  rcases h : cmp a b with _ | _ | _
  · exact Std.TransCmp.lt_of_lt_of_isLE h hbc
  · exact Std.TransCmp.congr_left h
  · rw [h] at hab
    cases hab

/-! ### Numbers -/

/-- An integer that fits in a word is held as one. -/
def Number.Narrow : Number → Prop
  | .big value => Word.ofInt? value = none
  | _ => True

instance (value : Number) : Decidable value.Narrow :=
  match value with
  | .big value => inferInstanceAs (Decidable (Word.ofInt? value = none))
  | .small _ | .real _ => .isTrue trivial

namespace Number

theorem toFloat_of_toInt? {a : Number} {x : Int} (h : a.toInt? = some x) : a.toFloat = Double.ofInt x := by
  cases a <;> cases h <;> rfl

/-- Rounding may make different integers equal, and then the integers decide; it never turns them around. -/
theorem totalOrder_then_compare (x y : Int) :
    (Double.totalOrder (Double.ofInt x) (Double.ofInt y)).then (compare x y) = compare x y := by
  rcases h : compare x y with _ | _ | _
  · have hle := Double.isLE_totalOrder_ofInt (Int.le_of_lt (Int.compare_eq_lt.mp h))
    cases hround : Double.totalOrder (Double.ofInt x) (Double.ofInt y) with
    | gt =>
        rw [hround] at hle
        cases hle
    | _ => rfl
  · have hround : Double.totalOrder (Double.ofInt x) (Double.ofInt x) = .eq := Std.ReflCmp.compare_self
    rw [← Int.compare_eq_eq.mp h, hround]
    rfl
  · have hle := Double.isLE_totalOrder_ofInt (Int.le_of_lt (Int.compare_eq_gt.mp h))
    have hswap : Double.totalOrder (Double.ofInt y) (Double.ofInt x) =
        (Double.totalOrder (Double.ofInt x) (Double.ofInt y)).swap := Std.OrientedCmp.eq_swap
    cases hround : Double.totalOrder (Double.ofInt x) (Double.ofInt y) with
    | lt =>
        rw [hswap, hround] at hle
        cases hle
    | _ => rfl

/-- Numbers are ordered by their nearest doubles, then integers before doubles, then as integers. -/
theorem order_eq_lexicographic (a b : Number) :
    a.order b = (Double.totalOrder a.toFloat b.toFloat).then
      ((compare b.isInteger a.isInteger).then (compare (a.toInt?.getD 0) (b.toInt?.getD 0))) := by
  have htotal : (Double.compare? a.toFloat b.toFloat).getD (compare a.toFloat.isNaN b.toFloat.isNaN) =
      Double.totalOrder a.toFloat b.toFloat := by
    rw [Double.totalOrder]
    cases Double.compare? a.toFloat b.toFloat <;> rfl
  rw [order_eq, compare?_eq, isInteger, isInteger]
  cases ha : a.toInt? with
  | none => cases hb : b.toInt? <;> exact congrArg (Ordering.then · _) htotal
  | some x =>
      cases hb : b.toInt? with
      | none => exact congrArg (Ordering.then · _) htotal
      | some y =>
          rw [toFloat_of_toInt? ha, toFloat_of_toInt? hb]
          show (compare x y).then .eq =
            (Double.totalOrder (Double.ofInt x) (Double.ofInt y)).then (compare x y)
          rw [totalOrder_then_compare, Ordering.then_eq]

theorem composes_order (a b c : Number) : Composes (a.order b) (b.order c) (a.order c) := by
  have hdoubles := composes_cmp Double.totalOrder a.toFloat b.toFloat c.toFloat
  have hforms := composes_cmp (fun p q : Bool => compare q p) a.isInteger b.isInteger c.isInteger
  have hintegers := composes_cmp compare (a.toInt?.getD 0) (b.toInt?.getD 0) (c.toInt?.getD 0)
  rw [order_eq_lexicographic, order_eq_lexicographic, order_eq_lexicographic]
  exact hdoubles.then fun _ _ => hforms.then fun _ _ => hintegers

/-- Narrow numbers are the same exactly when they have one place. -/
theorem same_iff_order_eq {a b : Number} (ha : a.Narrow) (hb : b.Narrow) : a.same b ↔ a.order b = .eq := by
  have hwide {word : Int64} {value : Int} (h : Word.ofInt? value = none) : word.toInt ≠ value := by
    intro heq
    rw [Word.ofInt?_eq_some heq] at h
    cases h
  rw [order_eq_lexicographic, Ordering.then_eq_eq, Ordering.then_eq_eq]
  constructor
  · intro hsame
    cases a with
    | small x =>
        cases b with
        | small y =>
            rw [of_decide_eq_true hsame]
            exact ⟨Std.ReflCmp.compare_self, rfl, Std.ReflCmp.compare_self⟩
        | _ => cases hsame
    | big x =>
        cases b with
        | big y =>
            rw [of_decide_eq_true hsame]
            exact ⟨Std.ReflCmp.compare_self, rfl, Std.ReflCmp.compare_self⟩
        | _ => cases hsame
    | real x =>
        cases b with
        | real y => exact ⟨Double.same_iff.mp hsame, rfl, rfl⟩
        | _ => cases hsame
  · rintro ⟨hdouble, hform, hinteger⟩
    cases a with
    | small x =>
        cases b with
        | small y => exact decide_eq_true (Int64.toInt_inj.mp (Int.compare_eq_eq.mp hinteger))
        | big y => exact absurd (Int.compare_eq_eq.mp hinteger) (hwide hb)
        | real y => cases hform
    | big x =>
        cases b with
        | small y => exact absurd (Int.compare_eq_eq.mp hinteger).symm (hwide ha)
        | big y => exact decide_eq_true (Int.compare_eq_eq.mp hinteger)
        | real y => cases hform
    | real x =>
        cases b with
        | real y => exact Double.same_iff.mpr hdouble
        | _ => cases hform

end Number

/-! ### Nodes -/

namespace Node

/-- Forms of different rank are ordered by their rank. -/
theorem order_of_rank_ne {a b : Node} (h : a.rank ≠ b.rank) : order a b = compare a.rank b.rank := by
  cases a <;> cases b <;> first | exact (h rfl).elim | rfl

theorem rank_eq_of_order_eq {a b : Node} (h : order a b = .eq) : a.rank = b.rank := by
  by_contra hne
  rw [order_of_rank_ne hne] at h
  exact hne (Std.LawfulEqOrd.eq_of_compare h)

theorem order_eq_rank_then (a b : Node) : order a b = (compare a.rank b.rank).then (order a b) := by
  by_cases h : a.rank = b.rank
  · rw [Nat.compare_eq_eq.mpr h]
    rfl
  · rw [order_of_rank_ne h]
    cases compare a.rank b.rank <;> rfl

/-- Across forms ranks compose, so that it is enough to look at nodes of one form. -/
theorem composes_of_rank {a b c : Node}
    (h : a.rank = b.rank → b.rank = c.rank → Composes (order a b) (order b c) (order a c)) :
    Composes (order a b) (order b c) (order a c) := by
  rw [order_eq_rank_then a b, order_eq_rank_then b c, order_eq_rank_then a c]
  refine (composes_cmp compare a.rank b.rank c.rank).then fun hab hbc => ?_
  exact h (Nat.compare_eq_eq.mp hab) (Nat.compare_eq_eq.mp hbc)

theorem composes_orderAll {xs : List Node} (ys zs : List Node)
    (h : ∀ x ∈ xs, ∀ y z, Composes (order x y) (order y z) (order x z)) :
    Composes (orderAll xs ys) (orderAll ys zs) (orderAll xs zs) := by
  induction xs generalizing ys zs with
  | nil =>
      intro _ hyz
      cases ys <;> cases zs <;> first | rfl | cases hyz
  | cons x xs ih =>
      rw [List.forall_mem_cons] at h
      cases ys with
      | nil =>
          intro hxy
          cases hxy
      | cons y ys =>
          cases zs with
          | nil =>
              intro _ hyz
              cases hyz
          | cons z zs => exact (h.1 y z).then fun _ _ => ih ys zs h.2

theorem composes_order (a b c : Node) : Composes (order a b) (order b c) (order a c) := by
  induction a using Node.inductionOn generalizing b c with
  | number x =>
      refine composes_of_rank fun hab hbc => ?_
      cases b with
      | number y =>
          cases c with
          | number z => exact Number.composes_order x y z
          | _ => cases hbc
      | _ => cases hab
  | symbol x =>
      refine composes_of_rank fun hab hbc => ?_
      cases b with
      | symbol y =>
          cases c with
          | symbol z => exact composes_cmp compare x y z
          | _ => cases hbc
      | _ => cases hab
  | boolean x =>
      refine composes_of_rank fun hab hbc => ?_
      cases b with
      | boolean y =>
          cases c with
          | boolean z => exact composes_cmp compare x y z
          | _ => cases hbc
      | _ => cases hab
  | application f xs ih =>
      refine composes_of_rank fun hab hbc => ?_
      cases b with
      | application g ys =>
          cases c with
          | application h zs => exact (composes_cmp compare f g h).then fun _ _ => composes_orderAll ys zs ih
          | _ => cases hbc
      | _ => cases hab
  | pair first second ihfirst ihsecond =>
      refine composes_of_rank fun hab hbc => ?_
      cases b with
      | pair =>
          cases c with
          | pair => exact (ihfirst _ _).then fun _ _ => ihsecond _ _
          | _ => cases hbc
      | _ => cases hab
  | sequence xs ih =>
      refine composes_of_rank fun hab hbc => ?_
      cases b with
      | sequence ys =>
          cases c with
          | sequence zs => exact composes_orderAll ys zs ih
          | _ => cases hbc
      | _ => cases hab

/-- The canonical order is transitive on all nodes, doubles and wide integers included. -/
instance : Std.TransCmp order where
  eq_swap := order_swap _ _
  isLE_trans := (composes_order _ _ _).isLE

/-- In a sorted list every node comes before all behind it. -/
theorem pairwise_of_sorted {nodes : List Node} (h : Sorted nodes) :
    nodes.Pairwise fun a b => (order a b).isLE := by
  have htrans : IsTrans Node fun a b => (order a b).isLE := ⟨fun _ _ _ => Std.TransCmp.isLE_trans⟩
  exact List.isChain_iff_pairwise.mp h

/-! ### Equality -/

/-- What narrowness asks of the outermost form of a node. -/
def NarrowForm : Node → Prop
  | .number value => value.Narrow
  | _ => True

/-- Every integer in the node that fits in a word is held as one. -/
def Narrow (node : Node) : Prop :=
  node.Everywhere NarrowForm

instance (node : Node) : Decidable node.NarrowForm :=
  match node with
  | .number value => inferInstanceAs (Decidable value.Narrow)
  | .application _ _ | .pair _ _ | .sequence _ | .boolean _ | .symbol _ => .isTrue trivial

instance (node : Node) : Decidable node.Narrow :=
  inferInstanceAs (Decidable (∀ part ∈ node.subterms, part.NarrowForm))

theorem narrow_number {value : Number} : (number value).Narrow ↔ value.Narrow :=
  everywhere_number

theorem narrow_application {name : String} {args : List Node} :
    (application name args).Narrow ↔ ∀ arg ∈ args, arg.Narrow :=
  everywhere_application.trans (and_iff_right trivial)

theorem narrow_pair {first second : Node} : (pair first second).Narrow ↔ first.Narrow ∧ second.Narrow :=
  everywhere_pair.trans (and_iff_right trivial)

theorem narrow_sequence {elements : List Node} :
    (sequence elements).Narrow ↔ ∀ element ∈ elements, element.Narrow :=
  everywhere_sequence.trans (and_iff_right trivial)

/-- Nodes of different forms are neither equal nor of one place. -/
theorem same_iff_of_rank {a b : Node} (h : a.rank = b.rank → (a.same b ↔ order a b = .eq)) :
    a.same b ↔ order a b = .eq := by
  by_cases hrank : a.rank = b.rank
  · exact h hrank
  · have hdifferent : a.same b = false := by
      cases a <;> cases b <;> first | exact (hrank rfl).elim | simp only [same]
    rw [hdifferent]
    exact ⟨fun hsame => absurd hsame (by decide), fun hplace => (hrank (rank_eq_of_order_eq hplace)).elim⟩

theorem allSame_iff_orderAll_eq {xs ys : List Node}
    (h : ∀ x ∈ xs, ∀ y ∈ ys, x.same y ↔ order x y = .eq) : allSame xs ys ↔ orderAll xs ys = .eq := by
  induction xs generalizing ys with
  | nil => cases ys <;> simp [allSame, orderAll]
  | cons x xs ih =>
      cases ys with
      | nil => simp [allSame, orderAll]
      | cons y ys =>
          have hrest : allSame xs ys ↔ orderAll xs ys = .eq :=
            ih fun x hx y hy => h x (List.mem_cons_of_mem _ hx) y (List.mem_cons_of_mem _ hy)
          rw [allSame, orderAll, Bool.and_eq_true, Ordering.then_eq_eq, hrest,
            h x List.mem_cons_self y List.mem_cons_self]

theorem same_iff_order_eq {a b : Node} (ha : a.Narrow) (hb : b.Narrow) : a.same b ↔ order a b = .eq := by
  induction a using Node.inductionOn generalizing b with
  | number x =>
      refine same_iff_of_rank fun hrank => ?_
      cases b with
      | number y => exact Number.same_iff_order_eq (narrow_number.mp ha) (narrow_number.mp hb)
      | _ => cases hrank
  | symbol x =>
      refine same_iff_of_rank fun hrank => ?_
      cases b with
      | symbol y => rw [same, order, beq_iff_eq, Std.LawfulEqOrd.compare_eq_iff_eq]
      | _ => cases hrank
  | boolean x =>
      refine same_iff_of_rank fun hrank => ?_
      cases b with
      | boolean y => rw [same, order, beq_iff_eq, Std.LawfulEqOrd.compare_eq_iff_eq]
      | _ => cases hrank
  | application f xs ih =>
      refine same_iff_of_rank fun hrank => ?_
      cases b with
      | application g ys =>
          rw [narrow_application] at ha hb
          have hargs := allSame_iff_orderAll_eq fun x hx y hy => ih x hx (ha x hx) (hb y hy)
          rw [same, order, Bool.and_eq_true, Ordering.then_eq_eq, beq_iff_eq,
            Std.LawfulEqOrd.compare_eq_iff_eq, hargs]
      | _ => cases hrank
  | pair first second ihfirst ihsecond =>
      refine same_iff_of_rank fun hrank => ?_
      cases b with
      | pair other another =>
          rw [narrow_pair] at ha hb
          rw [same, order, Bool.and_eq_true, Ordering.then_eq_eq, ihfirst ha.1 hb.1, ihsecond ha.2 hb.2]
      | _ => cases hrank
  | sequence xs ih =>
      refine same_iff_of_rank fun hrank => ?_
      cases b with
      | sequence ys =>
          rw [narrow_sequence] at ha hb
          exact allSame_iff_orderAll_eq fun x hx y hy => ih x hx (ha x hx) (hb y hy)
      | _ => cases hrank

/-- On narrow nodes the canonical order is a total order: it is reflexive, the same from both sides,
antisymmetric, transitive and total, and it finds nodes equal exactly when they are. -/
theorem order_lawful {a b : Node} (c : Node) (ha : a.Narrow) (hb : b.Narrow) :
    order a a = .eq ∧ order b a = (order a b).swap ∧
      ((order a b).isLE → (order b a).isLE → a == b) ∧
      ((order a b).isLE → (order b c).isLE → (order a c).isLE) ∧
      ((order a b).isLE ∨ (order b a).isLE) ∧ (order a b = .eq ↔ a == b) := by
  refine ⟨Std.ReflCmp.compare_self, order_swap a b, fun hab hba => ?_, Std.TransCmp.isLE_trans, ?_,
    (same_iff_order_eq ha hb).symm⟩
  · exact (same_iff_order_eq ha hb).mpr (Std.OrientedCmp.isLE_antisymm hab hba)
  · by_cases hab : (order a b).isLE
    · exact .inl hab
    · exact .inr (isLE_swap_of_not_isLE hab)

/-- A word beside what is not a number, the double that the word is rounded to beside an integer wider than
a word, and the next lower word. -/
theorem order_lawful_mixed :
    let a : Node := .sequence [.number (.small 9007199254740993), .number (.real Double.notANumber)]
    let b : Node := .sequence [.number (.real (Double.ofInt 9007199254740993)), .number (.big 18446744073709551616)]
    let c : Node := .sequence [.number (.small 9007199254740992)]
    a.Narrow ∧ b.Narrow ∧ order a a = .eq ∧ order b a = (order a b).swap ∧
      ((order a b).isLE → (order b a).isLE → a == b) ∧
      ((order a b).isLE → (order b c).isLE → (order a c).isLE) ∧
      ((order a b).isLE ∨ (order b a).isLE) ∧ (order a b = .eq ↔ a == b) := by
  intro a b c
  have ha : a.Narrow := by decide
  have hb : b.Narrow := by decide
  exact ⟨ha, hb, order_lawful c ha hb⟩

end Node

end SymbolicAlgebra
