import Mathlib.Data.List.Sort
import Mathlib.Order.Bounds.Basic
import SymbolicAlgebra.Proofs.Calls
import SymbolicAlgebra.Proofs.Quotients

/-! Order statistics of integers. The extremes and the median are found by comparisons of numbers, which are
those of the integers whatever their size. So the extremes are the least and the greatest integer, sorting
the numbers sorts the integers, and the median is the integer in the middle or half the sum of the two in the
middle, which is exact if it is an integer. None of them depends on the order in which the integers stand. -/

namespace SymbolicAlgebra

/-- No double is greater than infinity. -/
theorem Double.not_infinity_lt (x : Float) : ¬infinity < x := by
  rw [lt_iff, compare?_eq_compare]
  show ¬Float.Model.UnpackedFloat.compare (.infinity .positive) x.toModel.unpack = some .lt
  cases x.toModel.unpack with
  | infinity sign => cases sign <;> decide
  | _ => nofun

namespace Builtin

theorem checkSample_of_pos {size : ℕ} (h : 0 < size) : checkSample size 1 = .ok () := by
  have hleast : ¬Double.ofNat size < Double.ofNat 1 := by
    rw [Double.ofNat_lt_ofNat (by decide)]
    exact Nat.not_lt.mpr h
  have hgreatest : ¬Double.ofNat size > Double.infinity := Double.not_infinity_lt _
  rw [checkSample, Guard.domain, Double.isNaN_ofNat, decide_eq_false hleast, decide_eq_false hgreatest]
  rfl

theorem numbers?_integers (xs : List ℤ) : numbers? (xs.map Node.integer) = some (xs.map Number.ofInt) := by
  rw [numbers?]
  induction xs with
  | nil => rfl
  | cons x rest ih =>
      rw [List.map_cons, List.mapM_cons, ih]
      rfl

theorem compare?_ofInt (x y : ℤ) : (Number.ofInt x).compare? (.ofInt y) = some (compare x y) := by
  rw [Number.compare?_eq, Number.toInt?_ofInt, Number.toInt?_ofInt]

/-! ### Extremes -/

section Extremes

variable {wanted : Ordering} {pick : ℤ → ℤ → ℤ}
  (hpick : ∀ x y, pick x y = if compare y x = wanted then y else x)
include hpick

theorem better_ofInt (x y : ℤ) : better wanted (.ofInt x) (.ofInt y) = .ok (.ofInt (pick x y)) := by
  rw [better, compare?_ofInt, hpick]
  exact congrArg Except.ok (apply_ite Number.ofInt _ y x).symm

theorem foldlM_better (x : ℤ) (rest : List ℤ) :
    (rest.map Number.ofInt).foldlM (better wanted) (.ofInt x) = .ok (.ofInt (rest.foldl pick x)) := by
  induction rest generalizing x with
  | nil => rfl
  | cons y rest ih =>
      rw [List.map_cons, List.foldlM_cons, better_ofInt hpick]
      exact ih (pick x y)

theorem extreme_integers (x : ℤ) (rest : List ℤ) :
    extreme wanted ((x :: rest).map Node.integer) = .ok (some (.integer (rest.foldl pick x))) := by
  rw [extreme, numbers?_integers, List.map_cons]
  dsimp only
  rw [foldlM_better hpick]
  rfl

end Extremes

theorem extreme_least {xs : List ℤ} {least : ℤ} (h : IsLeast {x | x ∈ xs} least) :
    extreme .lt (xs.map Node.integer) = .ok (some (.integer least)) := by
  have hmin : xs.min? = some least := List.min?_eq_some_iff.mpr h
  cases xs with
  | nil => cases hmin
  | cons x rest =>
      rw [List.min?_cons', Option.some.injEq] at hmin
      rw [← hmin]
      refine extreme_integers (fun x y => ?_) x rest
      simp only [Int.compare_eq_lt, min_def]
      split_ifs <;> omega

theorem extreme_greatest {xs : List ℤ} {greatest : ℤ} (h : IsGreatest {x | x ∈ xs} greatest) :
    extreme .gt (xs.map Node.integer) = .ok (some (.integer greatest)) := by
  have hmax : xs.max? = some greatest := List.max?_eq_some_iff.mpr h
  cases xs with
  | nil => cases hmax
  | cons x rest =>
      rw [List.max?_cons', Option.some.injEq] at hmax
      rw [← hmax]
      refine extreme_integers (fun x y => ?_) x rest
      simp only [Int.compare_eq_gt, max_def]
      split_ifs <;> omega

/-! ### The median -/

/-- The median of integers in ascending order: the one in the middle, or half the sum of the two in the
middle, which is an integer if the sum is even and a double otherwise. -/
inductive IsMedian (sorted : List ℤ) : Number → Prop
  | middle {k : ℕ} {x : ℤ} : sorted.length = 2 * k + 1 → sorted[k]? = some x → IsMedian sorted (.ofInt x)
  | half {k : ℕ} {lower upper half : ℤ} : sorted.length = 2 * k + 2 → sorted[k]? = some lower →
      sorted[k + 1]? = some upper → half + half = lower + upper → IsMedian sorted (.ofInt half)
  | rounded {k : ℕ} {lower upper : ℤ} : sorted.length = 2 * k + 2 → sorted[k]? = some lower →
      sorted[k + 1]? = some upper → Odd (lower + upper) →
      IsMedian sorted (.real (Double.ofInt (lower + upper) / Double.ofInt 2))

theorem insertNumber_ofInt (x : ℤ) (ys : List ℤ) :
    insertNumber (.ofInt x) (ys.map Number.ofInt) = (ys.orderedInsert (· ≤ ·) x).map Number.ofInt := by
  induction ys with
  | nil => rfl
  | cons y rest ih =>
      have hle : ((Number.ofInt x).compare? (.ofInt y)).all Ordering.isLE ↔ x ≤ y := by
        rw [compare?_ofInt]
        exact Int.isLE_compare
      rw [List.map_cons, insertNumber, List.orderedInsert_cons]
      simp only [hle]
      split
      · rfl
      · rw [ih, List.map_cons]

theorem sortNumbers_ofInt (xs : List ℤ) :
    sortNumbers (xs.map Number.ofInt) = (xs.insertionSort (· ≤ ·)).map Number.ofInt := by
  induction xs with
  | nil => rfl
  | cons x rest ih => rw [List.map_cons, sortNumbers, ih, insertNumber_ofInt, List.insertionSort_cons]

/-- Half of a sum of two integers. -/
theorem div_two (sum : ℤ) : (Number.ofInt sum).div (.small 2) =
    .ok (if 2 ∣ sum then .ofInt (sum / 2) else .real (Double.ofInt sum / Double.ofInt 2)) := by
  have hleaves : ¬Number.QuotientLeavesWords (.ofInt sum) (.small 2) := fun h => by
    cases h.2
  have htwo : (Number.small 2).toInt? = some 2 := rfl
  rw [Number.div_eq (Number.toInt?_ofInt sum) htwo (by decide),
    Number.toFloat_of_toInt? (Number.toInt?_ofInt sum), Number.toFloat_of_toInt? htwo]
  simp only [hleaves, not_false_eq_true, and_true]
  split
  · rename_i hdvd
    rw [Int.tdiv_eq_ediv_of_dvd hdvd]
  · rfl

theorem exists_isMedian {sorted : List ℤ} (hnonempty : sorted ≠ []) : ∃ middle, IsMedian sorted middle := by
  have hpositive : 0 < sorted.length := List.length_pos_iff.mpr hnonempty
  obtain ⟨k, hodd | heven⟩ : ∃ k, sorted.length = 2 * k + 1 ∨ sorted.length = 2 * k + 2 :=
    ⟨(sorted.length - 1) / 2, by omega⟩
  · exact ⟨_, .middle hodd (List.getElem?_eq_getElem (by omega))⟩
  · have hlower : sorted[k]? = some sorted[k] := List.getElem?_eq_getElem (by omega)
    have hupper : sorted[k + 1]? = some sorted[k + 1] := List.getElem?_eq_getElem (by omega)
    rcases Int.even_or_odd (sorted[k] + sorted[k + 1]) with ⟨half, hhalf⟩ | hsum
    · exact ⟨_, .half heven hlower hupper hhalf.symm⟩
    · exact ⟨_, .rounded heven hlower hupper hsum⟩

theorem median_integers {xs : List ℤ} {middle : Number} (h : IsMedian (xs.insertionSort (· ≤ ·)) middle) :
    median (xs.map Node.integer) = .ok (some (.number middle)) := by
  generalize hsorted : xs.insertionSort (· ≤ ·) = sorted at h
  have hlength : sorted.length = xs.length := by rw [← hsorted, List.length_insertionSort]
  have hpositive : 0 < sorted.length := by cases h <;> omega
  have hsample : checkSample (xs.map Number.ofInt).length 1 = .ok () :=
    checkSample_of_pos (by rwa [List.length_map, ← hlength])
  have hsum (x y : ℤ) : (Number.ofInt x).add (.ofInt y) = .ofInt (x + y) :=
    Number.add_eq_ofInt (Number.toInt?_ofInt x) (Number.toInt?_ofInt y)
  rw [median, numbers?_integers]
  dsimp only
  rw [hsample, sortNumbers_ofInt, hsorted, List.length_map]
  cases h with
  | @middle k x hodd hx =>
      have hindex : sorted.length / 2 = k := by omega
      rw [if_pos (by omega), hindex, List.getElem?_map, hx]
      rfl
  | @half k lower upper half heven hlower hupper hhalf =>
      have hindex : sorted.length / 2 = k + 1 := by omega
      rw [if_neg (by omega), hindex, Nat.add_sub_cancel, List.getElem?_map, List.getElem?_map, hlower, hupper]
      dsimp only [Option.map_some]
      have hvalue : (lower + upper) / 2 = half := by omega
      rw [hsum, div_two, if_pos ⟨half, by omega⟩, hvalue]
      rfl
  | @rounded k lower upper heven hlower hupper hodd =>
      have hindex : sorted.length / 2 = k + 1 := by omega
      rw [if_neg (by omega), hindex, Nat.add_sub_cancel, List.getElem?_map, List.getElem?_map, hlower, hupper]
      dsimp only [Option.map_some]
      rw [hsum, div_two, if_neg (by rwa [← even_iff_two_dvd, Int.not_even_iff_odd])]
      rfl

end Builtin

/-! ### Calls -/

section Calls

open Builtin Evaluation

variable {scope : Scope} (hstandard : scope.registry = standard) {xs : List ℤ} {number : Number}

theorem reduces_integers (room : Nat) :
    List.Forall₂ (Reduces scope (room + 1)) (xs.map Node.integer) (xs.map Node.integer) := by
  rw [List.forall₂_same, List.forall_mem_map]
  exact fun x _ => .number _

include hstandard

/-- A reduction of integers, given as one sequence or as the arguments. -/
theorem reduces_reduction {name : String} {reduce : List Node → Except Failure (Option Node)}
    (hname : Ordinary name) (hoverloads : standard.overloads name = reduction name reduce)
    (h : reduce (xs.map Node.integer) = .ok (some (.number number))) {args : List Node}
    (hargs : args ∈ [[.sequence (xs.map Node.integer)], xs.map Node.integer]) :
    Reduces scope 3 (.application name args) (.number number) := by
  rw [List.mem_pair] at hargs
  rcases hargs with rfl | rfl
  · exact reduces_call hstandard hname (.cons (Step.sequence (reduces_integers 0)) .nil)
      (offered_reduction_of_sequence hoverloads h) (.number _)
  · have hspread : ∀ elements, xs.map Node.integer ≠ [.sequence elements] := by
      intro elements heq
      obtain ⟨_, _, hnode⟩ := List.mem_map.mp (heq ▸ List.mem_singleton_self (Node.sequence elements))
      cases hnode
    exact reduces_call hstandard hname (reduces_integers 1) (offered_reduction_of_spread hoverloads hspread h)
      (.number _)

theorem reduces_median (hmiddle : IsMedian (xs.insertionSort (· ≤ ·)) number) :
    Reduces scope 3 (.application "median" [.sequence (xs.map Node.integer)]) (.number number) := by
  have hoverloads : standard.overloads "median" = [Operation.unary "median" .sequence fun list => do
      let elements ← list.asSequence
      median elements] := (overloads_standard _).trans rfl
  have hoffer : offered? "median" [.sequence (xs.map Node.integer)] = some (.number number) := by
    rw [offered_unary hoverloads (by decide)]
    show (Action.ofExcept (median (xs.map Node.integer)) : Action Operation (Option Node)).offer? = _
    rw [median_integers hmiddle]
    rfl
  exact reduces_call hstandard (by decide +kernel) (.cons (Step.sequence (reduces_integers 0)) .nil) hoffer
    (.number _)

end Calls

/-- **Order statistics of integers are exact.** With the standard operations and three levels of nesting, the
least and the greatest of one or more integers are found, given as one sequence or as the arguments, and the
median of a sequence of them is the one in the middle or the exact half of the sum of the two in the middle,
which is a double where that sum is odd. They are the same however the integers are ordered. -/
theorem simplify_order_statistics (env : Environment) (hstandard : env.registry = Builtin.standard)
    (hroom : env.depth + 3 ≤ env.maxDepth) {xs : List ℤ} (hnonempty : xs ≠ []) :
    ∃ (least greatest : ℤ) (middle : Number), IsLeast {x | x ∈ xs} least ∧ IsGreatest {x | x ∈ xs} greatest ∧
      Builtin.IsMedian (xs.insertionSort (· ≤ ·)) middle ∧
      ∀ ys : List ℤ, ys.Perm xs →
        (∀ args ∈ [[.sequence (ys.map Node.integer)], ys.map Node.integer],
          simplify (.application "min" args) env = (.ok (.integer least), env) ∧
          simplify (.application "max" args) env = (.ok (.integer greatest), env)) ∧
        simplify (.application "median" [.sequence (ys.map Node.integer)]) env = (.ok (.number middle), env) := by
  obtain ⟨least, hmin⟩ := Option.ne_none_iff_exists'.mp (mt List.min?_eq_none_iff.mp hnonempty)
  obtain ⟨greatest, hmax⟩ := Option.ne_none_iff_exists'.mp (mt List.max?_eq_none_iff.mp hnonempty)
  have hleast : IsLeast {x | x ∈ xs} least := List.min?_eq_some_iff.mp hmin
  have hgreatest : IsGreatest {x | x ∈ xs} greatest := List.max?_eq_some_iff.mp hmax
  have hsorted : xs.insertionSort (· ≤ ·) ≠ [] := by
    rw [← List.length_pos_iff, List.length_insertionSort]
    exact List.length_pos_iff.mpr hnonempty
  obtain ⟨middle, hmiddle⟩ := Builtin.exists_isMedian hsorted
  refine ⟨least, greatest, middle, hleast, hgreatest, hmiddle, fun ys hperm => ?_⟩
  have hmembers : {x | x ∈ ys} = {x | x ∈ xs} := Set.ext fun x => hperm.mem_iff
  have hsame : ys.insertionSort (· ≤ ·) = xs.insertionSort (· ≤ ·) :=
    (((List.perm_insertionSort _ ys).trans hperm).trans (List.perm_insertionSort _ xs).symm).eq_of_pairwise'
      (List.pairwise_insertionSort _ ys) (List.pairwise_insertionSort _ xs)
  rw [← hmembers] at hleast hgreatest
  rw [← hsame] at hmiddle
  refine ⟨fun args hargs => ⟨?_, ?_⟩, simplify_of_reduces (reduces_median hstandard hmiddle) hroom⟩
  · exact simplify_of_reduces (reduces_reduction hstandard (by decide +kernel)
      ((Builtin.overloads_standard _).trans rfl) (Builtin.extreme_least hleast) hargs) hroom
  · exact simplify_of_reduces (reduces_reduction hstandard (by decide +kernel)
      ((Builtin.overloads_standard _).trans rfl) (Builtin.extreme_greatest hgreatest) hargs) hroom

/-- Integers on both sides of the range of words, in no order, whose median is the first one above it. -/
theorem simplify_order_statistics_wide :
    let env := Environment.standard
    let list : List Node := [.integer (2 ^ 63 + 1), .integer (-5), .integer (2 ^ 64), .integer (2 ^ 63 - 1)]
    env.registry = Builtin.standard ∧ env.depth + 3 ≤ env.maxDepth ∧
      (simplify (.application "min" list) env).1 = .ok (.integer (-5)) ∧
      (simplify (.application "max" [.sequence list]) env).1 = .ok (.integer (2 ^ 64)) ∧
      (simplify (.application "median" [.sequence list]) env).1 = .ok (.number (.big (2 ^ 63))) := by
  intro env list
  let xs : List ℤ := [2 ^ 63 + 1, -5, 2 ^ 64, 2 ^ 63 - 1]
  have hroom : env.depth + 3 ≤ env.maxDepth := by decide
  obtain ⟨least, greatest, middle, hleast, hgreatest, hmiddle, hresults⟩ :=
    simplify_order_statistics env rfl hroom (List.cons_ne_nil _ _ : xs ≠ [])
  obtain ⟨hextremes, hmedian⟩ := hresults xs (List.Perm.refl xs)
  have hleast' : IsLeast {x | x ∈ xs} (-5) := by simp [xs, IsLeast, lowerBounds]
  have hgreatest' : IsGreatest {x | x ∈ xs} (2 ^ 64) := by simp [xs, IsGreatest, upperBounds]
  have hsorted : xs.insertionSort (· ≤ ·) = [-5, 2 ^ 63 - 1, 2 ^ 63 + 1, 2 ^ 64] := by decide
  rw [hsorted] at hmiddle
  have hmiddle' : middle = .big (2 ^ 63) := by
    cases hmiddle with
    | middle hlength => simp at hlength; omega
    | @half k lower upper half hlength hlower hupper hhalf =>
        obtain rfl : k = 1 := by simp at hlength; omega
        cases hlower
        cases hupper
        obtain rfl : half = 2 ^ 63 := by omega
        rfl
    | @rounded k lower upper hlength hlower hupper hodd =>
        obtain rfl : k = 1 := by simp at hlength; omega
        cases hlower
        cases hupper
        exact absurd hodd (by decide)
  rw [hleast.unique hleast', hgreatest.unique hgreatest'] at hextremes
  rw [hmiddle'] at hmedian
  refine ⟨rfl, hroom, ?_, ?_, ?_⟩
  · exact congrArg Prod.fst (hextremes list (List.mem_cons_of_mem _ List.mem_cons_self)).1
  · exact congrArg Prod.fst (hextremes [.sequence list] List.mem_cons_self).2
  · exact congrArg Prod.fst hmedian

end SymbolicAlgebra
