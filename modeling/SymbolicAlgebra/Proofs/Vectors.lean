import Mathlib.LinearAlgebra.CrossProduct
import Mathlib.LinearAlgebra.Matrix.Determinant.Basic
import SymbolicAlgebra.Proofs.Nesting
import SymbolicAlgebra.Proofs.Calls
import SymbolicAlgebra.Proofs.Confluence

/-! Products of integer vectors. The operations answer with sums, products and differences only; what these
become is the scalar product, the vector product and the determinant of the integers, without overflow. The
derivations are given level by level, and seven levels of nesting are enough for vectors of any length. -/

namespace SymbolicAlgebra

open Matrix

/-- The sequence of the components of an integer vector. -/
def Node.vector {n : Nat} (a : Fin n → ℤ) : Node :=
  .sequence (List.ofFn fun i => .integer (a i))

/-! ### Chains of integers -/

namespace Chain

variable {scope : Scope} {name : String}

theorem normalForm_integers (xs : List ℤ) :
    normalForm name .integer (xs.map Node.integer) = (Value.apply name (xs.map Value.integer)).node := by
  have hliterals : literals .integer (xs.map Node.integer) = xs.map Value.integer := by
    rw [literals, List.filterMap_map, ← List.filterMap_eq_map]
    exact List.filterMap_congr fun x _ => literal?_integer x
  have hresidue : residue .integer (xs.map Node.integer) = [] := by
    rw [residue, List.filter_eq_nil_iff, List.forall_mem_map]
    intro x _
    show ¬((Value.integer x).node.literal? .integer).isNone
    rw [literal?_integer]
    exact Bool.false_ne_true
  rw [normalForm, normalArgs, total, hliterals, hresidue, if_pos (.inr rfl)]
  rfl

/-- At least two integers become one within three levels. -/
theorem reduces_integers (hstandard : scope.registry = Builtin.standard)
    (hchain : (name, ValueType.integer) ∈ chainTypes) (xs : List ℤ) (hlength : 2 ≤ xs.length) :
    Reduces scope 3 (.application name (xs.map Node.integer)) (Value.apply name (xs.map Value.integer)).node := by
  have hname : name ∈ Builtin.chainNames ∧ deferred? name = none := by
    rcases chain_cases hchain with ⟨rfl, _⟩ | ⟨rfl, _⟩ | ⟨rfl, _⟩ | ⟨rfl, _⟩ <;> decide
  have hitem : ∀ node ∈ xs.map Node.integer, isApplicationOf name node = false ∧ Item scope name node := by
    rw [List.forall_mem_map]
    exact fun x _ => ⟨rfl, item_node scope name (.integer x)⟩
  have hsame : List.Forall₂ (Reduces scope 1) (xs.map Node.integer) (xs.map Node.integer) := by
    rw [List.forall₂_same, List.forall_mem_map]
    exact fun x _ => .number _
  obtain ⟨result, hresult⟩ := exists_reduces_of_forall₂ hname.1 hstandard hname.2 hsame
  have htree : Tree name (Item scope name) (.application name (xs.map Node.integer)) :=
    .branch (by rwa [List.length_map]) fun node hnode => .leaf (hitem node hnode).1 (hitem node hnode).2
  have hnormal := eq_normalForm_of_reduces hstandard hchain hresult htree
  rw [leaves_application, flatMap_leaves fun node hnode => (hitem node hnode).1, normalForm_integers]
    at hnormal
  exact hnormal ▸ hresult

end Chain

/-! ### Calls that are answered at once -/

section Calls

open Builtin

variable {scope : Scope} (hstandard : scope.registry = standard) {room : Nat}
include hstandard

theorem reduces_difference {u v : Node} {x y : ℤ} (hu : Reduces scope room u (.integer x))
    (hv : Reduces scope room v (.integer y)) : Reduces scope (room + 1) (difference u v) (.integer (x - y)) := by
  have hoffer : offered? "-" [Node.integer x, .integer y] = some (.integer (x - y)) := by
    rw [offered_difference]
    exact congrArg (some ∘ Node.number) (Number.sub_eq_ofInt (Number.toInt?_ofInt x) (Number.toInt?_ofInt y))
  refine reduces_call hstandard (by decide +kernel) (.cons hu (.cons hv .nil)) hoffer ?_
  cases room with
  | zero => exact hu.elim
  | succ room => exact .number _

theorem reduces_product (x y : ℤ) :
    Reduces scope 3 (product (.integer x) (.integer y)) (.integer (x * y)) := by
  have hchain : ("*", ValueType.integer) ∈ chainTypes := by decide
  have hreduces := Chain.reduces_integers hstandard hchain [x, y] (Nat.le_refl 2)
  have hvalue : (Value.apply "*" ([x, y].map Value.integer)).node = .integer (x * y) := by
    show Node.integer [x, y].prod = .integer (x * y)
    rw [List.prod_pair]
  rwa [hvalue] at hreduces

theorem reduces_minor (w x y z : ℤ) :
    Reduces scope 4 (minor (.integer w) (.integer x) (.integer y) (.integer z)) (.integer (w * z - y * x)) :=
  reduces_difference hstandard (reduces_product hstandard w z) (reduces_product hstandard y x)

/-- The sum of a sequence whose terms become integers, however many they are. -/
theorem reduces_sum {terms : List Node} {xs : List ℤ}
    (hterms : List.Forall₂ (Reduces scope room) terms (xs.map Node.integer)) (hroom : 2 ≤ room) :
    Reduces scope (room + 2) (.application "sum" [.sequence terms]) (.integer xs.sum) := by
  have hoverloads : standard.overloads "sum" = reduction "sum" fun terms => .ok (some (sum terms)) :=
    (overloads_standard _).trans rfl
  have hoffer : offered? "sum" [.sequence (xs.map Node.integer)] = some (sum (xs.map Node.integer)) :=
    offered_reduction_of_sequence hoverloads rfl
  refine reduces_call hstandard (by decide +kernel) (.cons (Step.sequence hterms) .nil) hoffer ?_
  rcases xs with _ | ⟨x, _ | ⟨y, rest⟩⟩
  · exact Reduces.of_le (Nat.le_add_left 1 room) (.number _)
  · have hsingle : [x].sum = x := List.sum_singleton
    rw [hsingle]
    exact Reduces.of_le (Nat.le_add_left 1 room) (.number _)
  · have hchain : ("+", ValueType.integer) ∈ chainTypes := by decide
    have hreduces := Chain.reduces_integers hstandard hchain (x :: y :: rest) (Nat.le_add_left 2 rest.length)
    have hvalue : (Value.apply "+" ((x :: y :: rest).map Value.integer)).node = .integer (x :: y :: rest).sum := by
      show Node.integer (((x :: y :: rest).map Value.integer).map Value.toInt).sum = _
      rw [List.map_map]
      exact congrArg (Node.integer ∘ List.sum) (List.map_id _)
    rw [hvalue] at hreduces
    exact hreduces.of_le (Nat.add_le_add_right hroom 1)

end Calls

/-! ### Products of vectors -/

section Products

open Builtin Evaluation

variable {scope : Scope} {room : Nat}

theorem forall₂_ofFn {R : Node → Node → Prop} {n : Nat} {f g : Fin n → Node} (h : ∀ i, R (f i) (g i)) :
    List.Forall₂ R (List.ofFn f) (List.ofFn g) := by
  rw [List.forall₂_iff_get]
  refine ⟨by rw [List.length_ofFn, List.length_ofFn], fun i hi _ => ?_⟩
  rw [List.get_ofFn, List.get_ofFn]
  exact h _

theorem reduces_vector {n : Nat} (a : Fin n → ℤ) : Reduces scope (room + 2) (.vector a) (.vector a) :=
  .sequence (forall₂_ofFn fun _ => .number _)

/-- The two products, with what they answer. -/
def vectorProducts : List (String × (List Node → List Node → Except Failure Node)) :=
  [("dot", dotProduct), ("cross", crossProduct)]

theorem dot_mem_vectorProducts : ("dot", dotProduct) ∈ vectorProducts :=
  List.mem_cons_self

theorem cross_mem_vectorProducts : ("cross", crossProduct) ∈ vectorProducts :=
  List.mem_cons_of_mem _ List.mem_cons_self

section Handler

variable {name : String} {compute : List Node → List Node → Except Failure Node}
  (hname : (name, compute) ∈ vectorProducts) (as bs : List Node)
include hname

theorem ordinary_of_product : Ordinary name := by
  simp only [vectorProducts, List.mem_cons, Prod.mk.injEq, List.not_mem_nil, or_false] at hname
  rcases hname with ⟨rfl, _⟩ | ⟨rfl, _⟩ <;> decide +kernel

/-- A product goes to its one operation, which answers with what it computes or fails with it. -/
theorem resolve_product : ∃ operation, standard.resolve name [.sequence as, .sequence bs] = some operation ∧
    operation.handler [.sequence as, .sequence bs] = .ofExcept ((compute as bs).map some) := by
  have hanswer (computation : Except Failure Node) :
      ((.ofExcept computation : Action Operation Node) >>= fun result => .done (some result)) =
        .ofExcept (computation.map some) := by
    cases computation <;> rfl
  simp only [vectorProducts, List.mem_cons, Prod.mk.injEq, List.not_mem_nil, or_false] at hname
  rcases hname with ⟨rfl, rfl⟩ | ⟨rfl, rfl⟩
  · have hoverloads : standard.overloads "dot" = [Operation.binary "dot" .sequence .sequence fun a b => do
        let result ← dotProduct (← a.asSequence) (← b.asSequence)
        return some result] := (overloads_standard _).trans rfl
    exact ⟨_, by rw [Registry.resolve, hoverloads]; rfl, hanswer (dotProduct as bs)⟩
  · have hoverloads : standard.overloads "cross" = [Operation.binary "cross" .sequence .sequence fun a b => do
        let result ← crossProduct (← a.asSequence) (← b.asSequence)
        return some result] := (overloads_standard _).trans rfl
    exact ⟨_, by rw [Registry.resolve, hoverloads]; rfl, hanswer (crossProduct as bs)⟩

variable (hstandard : scope.registry = standard) {as bs}
include hstandard

/-- A product that is answered becomes what the answer becomes. -/
theorem reduces_of_product {u v offer result : Node} (hu : Reduces scope room u (.sequence as))
    (hv : Reduces scope room v (.sequence bs)) (hoffer : compute as bs = .ok offer)
    (hresult : Reduces scope room offer result) : Reduces scope (room + 1) (.application name [u, v]) result := by
  obtain ⟨operation, hresolve, hhandler⟩ := resolve_product hname as bs
  have hoffered : offered? name [.sequence as, .sequence bs] = some offer := by
    rw [offered?, hresolve, Option.bind_some, hhandler, hoffer]
    rfl
  exact reduces_call hstandard (ordinary_of_product hname) (.cons hu (.cons hv .nil)) hoffered hresult

/-- A product that is refused fails, and nothing else happens. -/
theorem simplifyWithin_of_product {u v : Node} {failure : Failure} {env : Environment} (henv : env.current = scope)
    (hu : Reduces scope room u (.sequence as)) (hv : Reduces scope room v (.sequence bs))
    (hfails : compute as bs = .error failure) :
    simplifyWithin (room + 1) (.application name [u, v]) env = (.error failure, env) := by
  obtain ⟨operation, hresolve, hhandler⟩ := resolve_product hname as bs
  refine simplifyWithin_of_refused hstandard (ordinary_of_product hname) henv (.cons hu (.cons hv .nil)) hresolve ?_
  rw [hhandler, hfails]
  rfl

end Handler

/-! ### The scalar product -/

section Compute

variable {n : Nat} (a b : Fin n → ℤ)

theorem dotProduct_eq : dotProduct (List.ofFn fun i => .integer (a i)) (List.ofFn fun i => .integer (b i)) =
    .ok (.application "sum" [.sequence (List.ofFn fun i => product (.integer (a i)) (.integer (b i)))]) := by
  have hzip : List.zipWith product (List.ofFn fun i => .integer (a i)) (List.ofFn fun i => .integer (b i)) =
      List.ofFn fun i => product (.integer (a i)) (.integer (b i)) := by
    refine List.ext_getElem (by simp) fun i _ _ => ?_
    simp
  rw [Builtin.dotProduct, Guard.dimension, List.length_ofFn, List.length_ofFn, if_pos rfl, hzip]
  rfl

theorem sum_ofFn_mul : (List.ofFn fun i => a i * b i).sum = a ⬝ᵥ b := by
  rw [List.sum_ofFn]
  rfl

end Compute

section Results

variable (hstandard : scope.registry = standard)
include hstandard

/-- The scalar product of expressions that become vectors. -/
theorem reduces_dot {n : Nat} {a b : Fin n → ℤ} {u v : Node} (hu : Reduces scope room u (.vector a))
    (hv : Reduces scope room v (.vector b)) (hroom : 5 ≤ room) :
    Reduces scope (room + 1) (.application "dot" [u, v]) (.integer (a ⬝ᵥ b)) := by
  refine reduces_of_product dot_mem_vectorProducts hstandard hu hv (dotProduct_eq a b) ?_
  have hterms : List.Forall₂ (Reduces scope 3) (List.ofFn fun i => product (.integer (a i)) (.integer (b i)))
      ((List.ofFn fun i => a i * b i).map Node.integer) := by
    rw [List.map_ofFn]
    exact forall₂_ofFn fun i => reduces_product hstandard (a i) (b i)
  have hsum := reduces_sum hstandard hterms (by decide)
  rw [sum_ofFn_mul] at hsum
  exact hsum.of_le hroom

/-- The vector product in the plane, which is a determinant. -/
theorem reduces_cross_plane {a b : Fin 2 → ℤ} {u v : Node} (hu : Reduces scope room u (.vector a))
    (hv : Reduces scope room v (.vector b)) (hroom : 4 ≤ room) :
    Reduces scope (room + 1) (.application "cross" [u, v]) (.integer (Matrix.det ![a, b])) := by
  refine reduces_of_product cross_mem_vectorProducts hstandard hu hv rfl ?_
  have hminor := reduces_minor hstandard (a 0) (b 0) (a 1) (b 1)
  have hvalue : Matrix.det ![a, b] = a 0 * b 1 - a 1 * b 0 := Matrix.det_fin_two _
  rw [hvalue]
  exact hminor.of_le hroom

/-- The vector product in space. -/
theorem reduces_cross_space {a b : Fin 3 → ℤ} {u v : Node} (hu : Reduces scope room u (.vector a))
    (hv : Reduces scope room v (.vector b)) (hroom : 5 ≤ room) :
    Reduces scope (room + 1) (.application "cross" [u, v]) (.vector (a ⨯₃ b)) := by
  refine reduces_of_product cross_mem_vectorProducts hstandard hu hv rfl ?_
  rw [cross_apply]
  refine Reduces.of_le hroom (Step.sequence (.cons ?_ (.cons ?_ (.cons ?_ .nil))))
  · exact reduces_minor hstandard (a 1) (b 1) (a 2) (b 2)
  · exact reduces_minor hstandard (a 2) (b 2) (a 0) (b 0)
  · exact reduces_minor hstandard (a 0) (b 0) (a 1) (b 1)

end Results

/-! ### In an environment -/

theorem dimension_error {name : String} {compute : List Node → List Node → Except Failure Node}
    (hname : (name, compute) ∈ vectorProducts) {m n : Nat} (hdifferent : m ≠ n) (a : Fin m → ℤ) (b : Fin n → ℤ) :
    compute (List.ofFn fun i => .integer (a i)) (List.ofFn fun i => .integer (b i)) =
      .error (.dimensionMismatch m n) := by
  have hguard : Guard.dimension m n = .error (.dimensionMismatch m n) := if_neg hdifferent
  simp only [vectorProducts, List.mem_cons, Prod.mk.injEq, List.not_mem_nil, or_false] at hname
  rcases hname with ⟨_, rfl⟩ | ⟨_, rfl⟩
  · unfold Builtin.dotProduct
    rw [List.length_ofFn, List.length_ofFn, hguard]
    rfl
  · unfold Builtin.crossProduct
    rw [List.length_ofFn, List.length_ofFn, hguard]
    rfl

end Products

/-- **Vector products of integers are exact.** With the standard operations and at least seven levels of
nesting, the scalar product of two integer vectors of one length is that of the integers, however long they
are and however large it is. In space the vector product is that of the integers, so that it is orthogonal to
both sides and Lagrange's identity gives its square; in the plane it is the determinant of the two. Products
of vectors of different lengths are refused. -/
theorem simplify_products (env : Environment) (hstandard : env.registry = Builtin.standard)
    (hroom : env.depth + 7 ≤ env.maxDepth) :
    (∀ (n : Nat) (a b : Fin n → ℤ),
      simplify (.application "dot" [.vector a, .vector b]) env = (.ok (.integer (a ⬝ᵥ b)), env)) ∧
    (∀ a b : Fin 3 → ℤ,
      simplify (.application "cross" [.vector a, .vector b]) env = (.ok (.vector (a ⨯₃ b)), env) ∧
      simplify (.application "dot" [.vector a, .application "cross" [.vector a, .vector b]]) env =
        (.ok (.integer 0), env) ∧
      simplify (.application "dot" [.vector b, .application "cross" [.vector a, .vector b]]) env =
        (.ok (.integer 0), env) ∧
      simplify (.application "dot" [.application "cross" [.vector a, .vector b],
          .application "cross" [.vector a, .vector b]]) env =
        (.ok (.integer ((a ⬝ᵥ a) * (b ⬝ᵥ b) - (a ⬝ᵥ b) ^ 2)), env)) ∧
    (∀ a b : Fin 2 → ℤ,
      simplify (.application "cross" [.vector a, .vector b]) env =
        (.ok (.integer (Matrix.det ![a, b])), env)) ∧
    ∀ name ∈ ["dot", "cross"], ∀ (m n : Nat) (a : Fin m → ℤ) (b : Fin n → ℤ), m ≠ n →
      simplify (.application name [.vector a, .vector b]) env = (.error (.dimensionMismatch m n), env) := by
  have hvector {n : Nat} (a : Fin n → ℤ) : Reduces env.current 2 (.vector a) (.vector a) := reduces_vector a
  have hwide {n : Nat} (a : Fin n → ℤ) {room : Nat} (hroom : 5 ≤ room) :
      Reduces env.current room (.vector a) (.vector a) := (hvector a).of_le (Nat.le_trans (by decide) hroom)
  refine ⟨fun n a b => ?_, fun a b => ?_, fun a b => ?_, fun name hname m n a b hdifferent => ?_⟩
  · have hdot := reduces_dot hstandard (hwide a (Nat.le_refl 5)) (hwide b (Nat.le_refl 5)) (Nat.le_refl 5)
    exact simplify_of_reduces hdot (by omega)
  · have hcross := reduces_cross_space hstandard (hwide a (Nat.le_refl 5)) (hwide b (Nat.le_refl 5)) (Nat.le_refl 5)
    have hfirst := reduces_dot hstandard (hwide a (Nat.le_succ 5)) hcross (Nat.le_succ 5)
    have hsecond := reduces_dot hstandard (hwide b (Nat.le_succ 5)) hcross (Nat.le_succ 5)
    have hsquare := reduces_dot hstandard hcross hcross (Nat.le_succ 5)
    rw [dot_self_cross] at hfirst
    rw [dot_cross_self] at hsecond
    rw [cross_dot_cross, dotProduct_comm b a, ← sq] at hsquare
    exact ⟨simplify_of_reduces hcross (by omega), simplify_of_reduces hfirst (by omega),
      simplify_of_reduces hsecond (by omega), simplify_of_reduces hsquare (by omega)⟩
  · have hcross := reduces_cross_plane hstandard (hwide a (Nat.le_refl 5)) (hwide b (Nat.le_refl 5)) (Nat.le_succ 4)
    exact simplify_of_reduces hcross (by omega)
  · obtain ⟨compute, hproduct⟩ : ∃ compute, (name, compute) ∈ vectorProducts := by
      simp only [List.mem_cons, List.not_mem_nil, or_false] at hname
      rcases hname with rfl | rfl
      · exact ⟨_, dot_mem_vectorProducts⟩
      · exact ⟨_, cross_mem_vectorProducts⟩
    obtain ⟨room, hmore⟩ : ∃ room, env.maxDepth - env.depth = room + 2 + 1 :=
      ⟨env.maxDepth - env.depth - 3, by omega⟩
    have hfirst : Reduces env.current (room + 2) (.vector a) (.vector a) := reduces_vector a
    have hrun := simplifyWithin_of_product hproduct hstandard rfl hfirst (reduces_vector b)
      (dimension_error hproduct hdifferent a b)
    rwa [← hmore] at hrun

/-- Vectors whose products leave the range of words, with components that vanish. -/
theorem simplify_products_overflow :
    let env := Environment.standard
    let a := Node.sequence [.integer (2 ^ 62), .integer 0, .integer (-1)]
    let b := Node.sequence [.integer 4, .integer 5, .integer 1]
    env.registry = Builtin.standard ∧ env.depth + 7 ≤ env.maxDepth ∧
      (simplify (.application "dot" [a, b]) env).1 = .ok (.number (.big 18446744073709551615)) ∧
      (simplify (.application "cross" [a, b]) env).1 =
        .ok (.sequence [.integer 5, .integer (-4611686018427387908), .number (.big 23058430092136939520)]) ∧
      (simplify (.application "dot" [.application "cross" [a, b], .application "cross" [a, b]]) env).1 =
        .ok (.integer (21267647932558653966460912964485513217 * 42 - 18446744073709551615 ^ 2)) ∧
      (simplify (.application "cross" [a, .sequence [.integer 4, .integer 5]]) env).1 =
        .error (.dimensionMismatch 3 2) := by
  intro env a b
  have hroom : env.depth + 7 ≤ env.maxDepth := by decide
  obtain ⟨hdot, hspace, _, hmismatch⟩ := simplify_products env rfl hroom
  let first : Fin 3 → ℤ := ![2 ^ 62, 0, -1]
  let second : Fin 3 → ℤ := ![4, 5, 1]
  obtain ⟨hcross, _, _, hsquare⟩ := hspace first second
  refine ⟨rfl, hroom, ?_, ?_, ?_, ?_⟩
  · exact congrArg Prod.fst (hdot 3 first second)
  · exact congrArg Prod.fst hcross
  · exact congrArg Prod.fst hsquare
  · exact congrArg Prod.fst (hmismatch "cross" (by decide) 3 2 first ![4, 5] (by decide))

end SymbolicAlgebra
