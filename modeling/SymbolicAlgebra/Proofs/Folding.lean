import SymbolicAlgebra.Proofs.Confluence

/-! Commutative operations beside the standard ones. An operation that computes with two numbers and has a
name of its own folds all integers of its applications, if on integers it is associative and commutative:
in whatever order pairs are folded, the integers so far have one fold, and the other arguments stay. -/

namespace SymbolicAlgebra

/-- A commutative operation that computes with two numbers. -/
def Operation.folding (name : String) (compute : Number → Number → Number) : Operation :=
  (binary name .number .number (Builtin.onNumbers fun x y => .ok (compute x y))).commutative

namespace Folding

open Chain

/-- The fold of a list, if there is anything in it. -/
def foldAll (combine : Int → Int → Int) : List Int → Option Int
  | [] => none
  | x :: rest => some (rest.foldl combine x)

/-- The integers among the nodes. -/
def integers (nodes : List Node) : List Int :=
  (literals .integer nodes).map Value.toInt

/-- What an application folds to: the fold of its integers, and behind it the other arguments, sorted. A single
node stands for itself. -/
def folded (combine : Int → Int → Int) (name : String) (args : List Node) : Node :=
  bundle name ((foldAll combine (integers args)).toList.map Node.integer ++ Node.sort (residue .integer args))

/-! ### Integers and other nodes -/

section Integers

variable {xs ys : List Node}

theorem length_integers (nodes : List Node) : (integers nodes).length = (literals .integer nodes).length :=
  List.length_map _

theorem integers_perm (hperm : xs.Perm ys) : (integers xs).Perm (integers ys) :=
  (hperm.filterMap _).map _

theorem residue_perm (hperm : xs.Perm ys) : (residue .integer xs).Perm (residue .integer ys) :=
  hperm.filter _

/-- Up to its order, an exact list is its integers and the other nodes. -/
theorem perm_integers_append_residue (hexact : ∀ node ∈ xs, node.Exact) :
    xs.Perm ((integers xs).map Node.integer ++ residue .integer xs) := by
  have hnodes : (integers xs).map Node.integer = (literals .integer xs).map Value.node := by
    rw [integers, List.map_map]
    refine List.map_congr_left fun v hv => ?_
    cases v with
    | integer x => rfl
    | boolean p => cases type_of_mem_literals hexact hv
  rw [hnodes]
  exact perm_literals_append_residue .integer hexact

theorem literal?_of_integer (x : Int) : (Node.integer x).literal? .integer = some (.integer x) :=
  literal?_integer x

theorem integers_cons (x : Int) (nodes : List Node) :
    integers (.integer x :: nodes) = x :: integers nodes := by
  rw [integers, literals, List.filterMap_cons_some (literal?_of_integer x)]
  rfl

theorem residue_cons (x : Int) (nodes : List Node) :
    residue .integer (.integer x :: nodes) = residue .integer nodes := by
  refine List.filter_cons_of_neg ?_
  rw [literal?_of_integer]
  exact Bool.false_ne_true

/-- Two nodes with two integers among them are integers. -/
theorem integers_of_two {a b : Node} (ha : a.Exact) (hb : b.Exact) (htwo : 1 < (integers [a, b]).length) :
    ∃ x y, a = .integer x ∧ b = .integer y := by
  have hfew {node : Node} (hnone : node.literal? .integer = none) (other : Node) :
      (integers [node, other]).length ≤ 1 ∧ (integers [other, node]).length ≤ 1 := by
    rw [length_integers, length_integers]
    cases hother : other.literal? .integer <;> simp [literals, hnone, hother]
  rcases integer_cases ha with ⟨x, rfl⟩ | ⟨_, hnone, _⟩
  · rcases integer_cases hb with ⟨y, rfl⟩ | ⟨_, hnone, _⟩
    · exact ⟨x, y, rfl, rfl⟩
    · exact absurd (hfew hnone _).2 (Nat.not_le.mpr htwo)
  · exact absurd (hfew hnone b).1 (Nat.not_le.mpr htwo)

end Integers

/-! ### Folds -/

section FoldAll

variable {combine : Int → Int → Int} (hassociative : ∀ x y z, combine (combine x y) z = combine x (combine y z))
  (hcommutative : ∀ x y, combine x y = combine y x)
include hassociative hcommutative

theorem foldAll_perm {xs ys : List Int} (hperm : xs.Perm ys) : foldAll combine xs = foldAll combine ys := by
  have hright : RightCommutative combine := by
    refine ⟨fun x y z => ?_⟩
    rw [hassociative, hcommutative y z, ← hassociative]
  induction hperm with
  | nil => rfl
  | cons x hrest => exact congrArg some (hrest.foldl_eq x)
  | swap x y rest =>
      show some (rest.foldl combine (combine y x)) = some (rest.foldl combine (combine x y))
      rw [hcommutative]
  | trans _ _ ih ih' => exact ih.trans ih'

end FoldAll

section Folded

variable {combine : Int → Int → Int} {name : String} {args : List Node}

theorem folded_congr {xs ys : List Node} (hexact : ∀ node ∈ xs, node.Exact)
    (htotal : foldAll combine (integers xs) = foldAll combine (integers ys))
    (hothers : (residue .integer xs).Perm (residue .integer ys)) :
    folded combine name xs = folded combine name ys := by
  have hsort := Node.sort_eq_of_perm (fun node hnode => hexact node (mem_residue.mp hnode).1) hothers
  rw [folded, folded, htotal, hsort]

theorem folded_two (x y : Int) : folded combine name [.integer x, .integer y] = .integer (combine x y) := by
  rw [folded, integers_cons, integers_cons, residue_cons, residue_cons]
  rfl

/-- Where there are no two integers, a sorted application is what it folds to. -/
theorem application_eq_folded (hexact : ∀ node ∈ args, node.Exact) (hsorted : Node.Sorted args)
    (hlength : 2 ≤ args.length) (hfew : (integers args).length ≤ 1) :
    .application name args = folded combine name args := by
  have hsort := Node.sort_perm (residue .integer args)
  have hperm := (perm_integers_append_residue hexact).trans (hsort.symm.append_left _)
  have hsame : args = (foldAll combine (integers args)).toList.map Node.integer ++
      Node.sort (residue .integer args) := by
    refine Node.eq_of_sorted_of_perm hexact hsorted ?_ ?_
    · match integers args, hfew with
      | [], _ => exact Node.sorted_sort _
      | [x], _ =>
          refine Node.sorted_cons (Node.sorted_sort _) fun node hnode => ?_
          obtain ⟨hmem, hnone⟩ := mem_residue.mp (hsort.mem_iff.mp hnode)
          exact order_literal (hexact node hmem) hnone
    · match integers args, hfew, hperm with
      | [], _, hperm => exact hperm
      | [x], _, hperm => exact hperm
  rw [folded, ← hsame, bundle_of_two_le hlength]

/-- Where there are two integers, what an application folds to is simpler. -/
theorem complexity_folded_lt (hexact : ∀ node ∈ args, node.Exact) (hmany : 1 < (integers args).length) :
    (folded combine name args).complexity < (Node.application name args).complexity := by
  have hbundle := complexity_bundle_le name
    ((foldAll combine (integers args)).toList.map Node.integer ++ Node.sort (residue .integer args))
  have hweight := weight_eq .integer hexact
  have hsort := weight_perm (Node.sort_perm (residue .integer args))
  have hone : Node.weight ((foldAll combine (integers args)).toList.map Node.integer) ≤ 1 := by
    cases foldAll combine (integers args) with
    | none => exact Nat.zero_le 1
    | some x => exact Nat.le_refl 1
  rw [length_integers] at hmany
  rw [Node.weight_append] at hbundle
  rw [folded, Node.complexity]
  omega

/-- In any order, an application without two integers folds to nothing simpler. -/
theorem complexity_folded_of_few (hassociative : ∀ x y z, combine (combine x y) z = combine x (combine y z))
    (hcommutative : ∀ x y, combine x y = combine y x) (hexact : ∀ node ∈ args, node.Exact)
    (hlength : 2 ≤ args.length) (hfew : (integers args).length ≤ 1) :
    (folded combine name args).complexity = (Node.application name args).complexity := by
  have hsort := Node.sort_perm args
  have hexact' : ∀ node ∈ Node.sort args, node.Exact := fun node hnode => hexact node (hsort.mem_iff.mp hnode)
  have hsame : folded combine name (Node.sort args) = folded combine name args :=
    folded_congr hexact' (foldAll_perm hassociative hcommutative (integers_perm hsort)) (residue_perm hsort)
  have hordered : Node.application name (Node.sort args) = folded combine name (Node.sort args) := by
    refine application_eq_folded hexact' (Node.sorted_sort args) (hsort.length_eq ▸ hlength) ?_
    rwa [(integers_perm hsort).length_eq]
  rw [← hsame, ← hordered, Node.complexity, Node.complexity, weight_perm hsort]

end Folded

/-! ### The arguments so far -/

/-- In the registry the name folds two integers, and takes nothing else that is exact. -/
structure FoldsIntegers (registry : Registry) (name : String) (combine : Int → Int → Int) : Prop where
  commutative : registry.isCommutative name
  simplified : ¬registry.preservesArguments name
  outcome {R : Node → Node → Prop} {args : List Node} {outcome : Option Node} :
    (∀ arg ∈ args, arg.Exact) → Invokes registry R name args outcome →
      (∃ x y, args = [.integer x, .integer y] ∧ outcome = some (.integer (combine x y))) ∨
        outcome = none ∧ (args.length = 2 → (integers args).length ≤ 1)

/-- What has become of the arguments of an application while they are folded. -/
structure Collected (scope : Scope) (name : String) (combine : Int → Int → Int) (whole args : List Node) : Prop where
  items : ∀ arg ∈ args, Item scope name arg
  sorted : Node.Sorted args
  two_le : 2 ≤ args.length
  total : foldAll combine (integers args) = foldAll combine (integers whole)
  others : (residue .integer args).Perm (residue .integer whole)

section Collected

variable {scope : Scope} {name : String} {combine : Int → Int → Int} {whole args others : List Node}
  {R : Node → Node → Prop} {node : Node}

namespace Collected

variable (h : Collected scope name combine whole args)
include h

theorem exact : ∀ arg ∈ args, arg.Exact :=
  fun arg harg => (h.items arg harg).exact

theorem folded_eq : folded combine name args = folded combine name whole :=
  folded_congr h.exact h.total h.others

theorem application_eq (hfew : (integers args).length ≤ 1) :
    .application name args = folded combine name whole := by
  rw [← h.folded_eq]
  exact application_eq_folded h.exact h.sorted h.two_le hfew

end Collected

variable (hfolds : FoldsIntegers scope.registry name combine)
  (hassociative : ∀ x y z, combine (combine x y) z = combine x (combine y z))
  (hcommutative : ∀ x y, combine x y = combine y x)

include hassociative hcommutative in
/-- Items that make up the whole are collected when they are in canonical form. -/
theorem collected_sort (hitems : ∀ arg ∈ args, Item scope name arg) (hlength : 2 ≤ args.length)
    (htotal : foldAll combine (integers args) = foldAll combine (integers whole))
    (hothers : (residue .integer args).Perm (residue .integer whole)) :
    Collected scope name combine whole (Node.sort args) := by
  have hsort := Node.sort_perm args
  exact ⟨fun arg harg => hitems arg (hsort.mem_iff.mp harg), Node.sorted_sort args, hsort.length_eq ▸ hlength,
    (foldAll_perm hassociative hcommutative (integers_perm hsort)).trans htotal, (residue_perm hsort).trans hothers⟩

variable (hlevel : ∀ args r, 2 ≤ args.length → (∀ arg ∈ args, Item scope name arg) →
  R (.application name args) r → r = folded combine name args)
include hlevel

/-- No pair that is kept has two integers. -/
theorem length_integers_of_kept {a b : Node} (ha : Item scope name a) (hb : Item scope name b)
    (h : Kept R name a b) : (integers [a, b]).length ≤ 1 := by
  obtain ⟨result, hresult, hheavy⟩ := h
  have hitems : ∀ arg ∈ [a, b], Item scope name arg := by simp [ha, hb]
  rw [hlevel [a, b] result (Nat.le_refl 2) hitems hresult] at hheavy
  by_contra hmany
  exact hheavy (complexity_folded_lt (fun arg harg => (hitems arg harg).exact) (Nat.not_le.mp hmany))

variable (hcollected : Collected scope name combine whole args)
include hcollected

theorem Collected.length_integers_le (hkept : args.Pairwise (Kept R name)) : (integers args).length ≤ 1 := by
  rw [length_integers]
  refine length_literals_le_one (hkept.imp_of_mem fun ha hb hpair => ?_)
  rw [← length_integers]
  exact length_integers_of_kept hlevel (hcollected.items _ ha) (hcollected.items _ hb) hpair

include hassociative hcommutative

/-- A pair that folds is two integers, and becomes their combination. -/
theorem Collected.of_foldsPair (hfold : FoldsPair R name args node others) :
    ∃ x y, args.Perm (.integer x :: .integer y :: others) ∧ node = .integer (combine x y) := by
  obtain ⟨first, second, hperm, hresult, hlighter⟩ := hfold.lighter
  have hitems := fun arg harg => hcollected.items arg (hperm.mem_iff.mpr harg)
  rw [List.forall_mem_cons, List.forall_mem_cons] at hitems
  obtain ⟨hfirst, hsecond, _⟩ := hitems
  have hpair : ∀ arg ∈ [first, second], Item scope name arg := by simp [hfirst, hsecond]
  rw [hlevel [first, second] node (Nat.le_refl 2) hpair hresult] at hlighter ⊢
  by_cases hmany : 1 < (integers [first, second]).length
  · obtain ⟨x, y, rfl, rfl⟩ := integers_of_two hfirst.exact hsecond.exact hmany
    exact ⟨x, y, hperm, folded_two x y⟩
  · have hexact : ∀ arg ∈ [first, second], arg.Exact := fun arg harg => (hpair arg harg).exact
    rw [complexity_folded_of_few hassociative hcommutative hexact (Nat.le_refl 2) (Nat.not_lt.mp hmany)] at hlighter
    exact (Nat.lt_irrefl _ hlighter).elim

/-- A fold that leaves others keeps the invariant. -/
theorem Collected.next (hothers : others ≠ []) (hfold : FoldsPair R name args node others) :
    Collected scope name combine whole (Node.sort (others ++ [node])) := by
  obtain ⟨x, y, hperm, rfl⟩ := hcollected.of_foldsPair hassociative hcommutative hlevel hfold
  have hfront : (others ++ [Node.integer (combine x y)]).Perm (.integer (combine x y) :: others) :=
    List.perm_append_singleton _ _
  refine collected_sort hassociative hcommutative ?_ ?_ ?_ ?_
  · have hitems := fun arg harg => hcollected.items arg (hperm.mem_iff.mpr harg)
    rw [List.forall_mem_cons, List.forall_mem_cons] at hitems
    rw [List.forall_mem_append, List.forall_mem_singleton]
    exact ⟨hitems.2.2, item_node scope name (.integer (combine x y))⟩
  · have hpositive := List.length_pos_iff.mpr hothers
    rw [List.length_append, List.length_singleton]
    omega
  · have hintegers : integers (.integer x :: .integer y :: others) = x :: y :: integers others := by
      rw [integers_cons, integers_cons]
    rw [← hcollected.total, foldAll_perm hassociative hcommutative (integers_perm hfront),
      foldAll_perm hassociative hcommutative (integers_perm hperm), integers_cons, hintegers]
    rfl
  · refine (residue_perm hfront).trans (.trans ?_ hcollected.others)
    rw [residue_cons]
    have hrest := residue_perm hperm
    rw [residue_cons, residue_cons] at hrest
    exact hrest.symm

include hfolds

/-- Folding ends with what the whole folds to. -/
theorem eq_folded_of_regroups {arity : Nat} {result : Node}
    (h : Regroups scope.registry R name arity args result) : result = folded combine name whole := by
  induction h with
  | single hfold =>
      obtain ⟨x, y, hperm, rfl⟩ := hcollected.of_foldsPair hassociative hcommutative hlevel hfold
      rw [← folded_two, ← hcollected.folded_eq]
      exact (folded_congr hcollected.exact (foldAll_perm hassociative hcommutative (integers_perm hperm))
        (residue_perm hperm)).symm
  | @folded args others node _ hfold hothers _ ih =>
      have hnext := hcollected.next hassociative hcommutative hlevel hothers hfold
      refine ih ?_
      rw [arrange_of_flat hfolds.commutative]
      · exact hnext
      · exact fun arg harg => (hnext.items arg ((Node.sort_perm _).mem_iff.mpr harg)).flat
  | offered hkept _ hoffer _ =>
      have hfew := hcollected.length_integers_le hlevel hkept
      rcases hfolds.outcome hcollected.exact hoffer with ⟨x, y, rfl, _⟩ | ⟨hnone, _⟩
      · rw [integers_cons, integers_cons] at hfew
        simp at hfew
      · cases hnone
  | left hkept _ =>
      have hsame := arrange_of_flat hfolds.commutative fun arg harg => (hcollected.items arg harg).flat
      rw [construct, hsame, Node.sort_of_sorted hcollected.sorted]
      exact hcollected.application_eq (hcollected.length_integers_le hlevel hkept)

end Collected

/-! ### Simplification -/

section Step

variable {scope : Scope} {name : String} {combine : Int → Int → Int}
  (hfolds : FoldsIntegers scope.registry name combine)
  (hassociative : ∀ x y z, combine (combine x y) z = combine x (combine y z))
  (hcommutative : ∀ x y, combine x y = combine y x)
include hfolds hassociative hcommutative

/-- An application to items becomes what it folds to. -/
theorem eq_folded_of_step {R : Node → Node → Prop}
    (hlevel : ∀ args r, 2 ≤ args.length → (∀ arg ∈ args, Item scope name arg) →
      R (.application name args) r → r = folded combine name args)
    (hitem : ∀ e r, R e r → Item scope name e → r = e) {args : List Node} (hlength : 2 ≤ args.length)
    (hitems : ∀ arg ∈ args, Item scope name arg) {r : Node} (h : Step scope R (.application name args) r) :
    r = folded combine name args := by
  have hprepared {prepared : List Node} (h : Prepares scope.registry R name args prepared) :
      Collected scope name combine args prepared := by
    have hsorted := collected_sort hassociative hcommutative hitems hlength rfl (.refl _)
    rw [← arrange_of_flat hfolds.commutative fun arg harg => (hitems arg harg).flat] at hsorted
    cases h with
    | preserved hpreserves => exact hsorted
    | simplified _ hreduced =>
        have hsame := eq_map_of_forall₂ hreduced fun node hnode result hresult =>
          hitem node result hresult (hitems node hnode)
        rwa [hsame, List.map_id']
  cases h with
  | rewritten _ hprepares hoffer hresult =>
      have hcollected := hprepared hprepares
      rcases hfolds.outcome hcollected.exact hoffer with ⟨x, y, rfl, hsome⟩ | ⟨hnone, _⟩
      · cases hsome
        rw [hitem _ _ hresult (item_node scope name (.integer (combine x y))), ← hcollected.folded_eq, folded_two]
      · cases hnone
  | undecided _ hprepares hnone hsmall =>
      have hcollected := hprepared hprepares
      rcases hfolds.outcome hcollected.exact hnone with ⟨_, _, _, hsome⟩ | ⟨_, hfew⟩
      · cases hsome
      · refine hcollected.application_eq (hfew (Nat.le_antisymm ?_ hcollected.two_le))
        exact Nat.not_lt.mp fun hlong => hsmall ⟨hlong, hfolds.commutative⟩
  | regrouped _ hprepares _ _ _ hgrouped =>
      have hcollected := hprepared hprepares
      have hresult := eq_folded_of_regroups hfolds hassociative hcommutative hlevel hcollected hgrouped
      split
      · exact hresult
      · rename_i hheavy
        refine hcollected.application_eq (Nat.not_lt.mp fun hmany => hheavy ?_)
        rw [hresult, ← hcollected.folded_eq]
        exact complexity_folded_lt hcollected.exact hmany

theorem eq_folded_of_reduces {room : Nat} {args : List Node} (hlength : 2 ≤ args.length)
    (hitems : ∀ arg ∈ args, Item scope name arg) {r : Node} (h : Reduces scope room (.application name args) r) :
    r = folded combine name args := by
  induction room generalizing args r with
  | zero => exact h.elim
  | succ room ih =>
      have hlevel (args : List Node) (r : Node) (hlength : 2 ≤ args.length)
          (hitems : ∀ arg ∈ args, Item scope name arg) (h : Reduces scope room (.application name args) r) :
          r = folded combine name args := ih hlength hitems h
      refine eq_folded_of_step hfolds hassociative hcommutative hlevel (fun e r h he => ?_) hlength hitems h
      obtain ⟨_, hsame⟩ := he.same
      exact h.unique hsame

end Step

/-! ### Operations with a new name -/

/-- A new operation folds integers if it makes an integer of two. -/
theorem foldsIntegers_register {registry : Registry} {name : String} {compute : Number → Number → Number}
    {combine : Int → Int → Int} (hcompute : ∀ x y, compute (.ofInt x) (.ofInt y) = .ofInt (combine x y))
    (hnew : registry.contains name = false) :
    FoldsIntegers (registry.register (Operation.folding name compute)) name combine := by
  have hsole : (registry.register (Operation.folding name compute)).overloads name =
      [Operation.folding name compute] := Registry.overloads_register_of_new hnew
  refine ⟨?_, ?_, ?_⟩
  · rw [Registry.isCommutative, Registry.hasAttribute_of_sole hsole]
    rfl
  · rw [Registry.preservesArguments, Registry.hasAttribute_of_sole hsole]
    exact Bool.false_ne_true
  · intro R args outcome hexact h
    have hresolve : (registry.register (Operation.folding name compute)).resolve name args =
        if (Operation.folding name compute).accepts args then some (Operation.folding name compute) else none :=
      Registry.resolve_of_sole hsole rfl
    cases h with
    | unresolved hnone =>
        refine .inr ⟨rfl, fun htwo => Nat.not_lt.mp fun hmany => ?_⟩
        obtain ⟨a, b, rfl⟩ := List.length_eq_two.mp htwo
        rw [List.forall_mem_cons, List.forall_mem_singleton] at hexact
        obtain ⟨x, y, rfl, rfl⟩ := integers_of_two hexact.1 hexact.2 hmany
        cases hresolve.symm.trans hnone
    | answered hsome hanswers =>
        rw [hresolve] at hsome
        split at hsome <;> cases hsome
        rename_i haccepts
        obtain ⟨a, b, rfl⟩ := List.length_eq_two.mp (Signature.length_eq_of_accepts haccepts).symm
        rw [List.forall_mem_cons, List.forall_mem_singleton] at hexact
        obtain ⟨m, n, r, rfl, rfl, hr, houtcome⟩ := Builtin.answers_onNumbers hanswers
        obtain ⟨x, rfl⟩ := Number.exact_iff.mp (Node.exact_number.mp hexact.1)
        obtain ⟨y, rfl⟩ := Number.exact_iff.mp (Node.exact_number.mp hexact.2)
        cases hr
        rw [hcompute] at houtcome
        exact .inl ⟨x, y, rfl, houtcome⟩

/-- With a new operation that makes numbers of numbers, effect-free expressions stay without effects. -/
theorem quiet_folding (env : Environment) {name : String} {compute : Number → Number → Number}
    (hregistry : env.registry = Builtin.standard.register (Operation.folding name compute))
    (hvalues : ∀ symbol value, env.get? symbol = some value → value.EffectFree) : env.current.Quiet := by
  refine Scope.quiet_of_forall (fun operation hmem hname => ?_) hvalues
  rw [show env.current.registry = _ from hregistry] at hmem
  rcases Registry.mem_enter hmem with rfl | hstandard
  · refine Operation.QuietOn.quiet (Operation.QuietOn.commutative (Operation.quiet_binary name _ _ ?_))
    exact fun a b _ _ => Builtin.quiet_onNumbers (fun x y => ensures_ok (Node.within_number _)) a b
  · exact Builtin.quiet_standard hstandard hname

theorem effectFreeName_of_new {name : String} (hnew : Builtin.standard.contains name = false)
    (hunmarked : deferred? name = none) : EffectFreeName name := by
  have htable : ∀ name ∈ effectfulNames, Builtin.standard.contains name = true := by decide +kernel
  refine ⟨hunmarked, fun hmem => ?_⟩
  rw [htable name hmem] at hnew
  cases hnew

/-- A list of integers in front of nodes that are no numbers is taken apart into the two. -/
theorem integers_residue_append (numbers : List Int) {others : List Node}
    (hothers : ∀ node ∈ others, node.number? = none) :
    integers (numbers.map Node.integer ++ others) = numbers ∧
      residue .integer (numbers.map Node.integer ++ others) = others := by
  have hempty : literals .integer others = [] := by
    refine List.filterMap_eq_nil_iff.mpr fun node hnode => ?_
    have hnumber := hothers node hnode
    cases node with
    | number value => cases hnumber
    | _ => rfl
  induction numbers with
  | nil =>
      rw [List.map_nil, List.nil_append, integers, hempty]
      exact ⟨rfl, residue_of_no_literals hempty⟩
  | cons x rest ih =>
      rw [List.map_cons, List.cons_append, integers_cons, residue_cons, ih.1]
      exact ⟨rfl, ih.2⟩

end Folding

/-- **Commutative operations fold all their integers.** With one operation beside the standard ones that
combines numbers, and integers so that neither order nor grouping counts, whatever an application to integers
and other exact nodes in their simplest form simplifies to is the fold of the integers where there is nothing
else, and otherwise the application to that fold and to the other arguments, sorted and each as often as it
was. -/
theorem simplify_folding (env : Environment) {name : String} {compute : Number → Number → Number}
    {combine : Int → Int → Int} (hcompute : ∀ x y, compute (.ofInt x) (.ofInt y) = .ofInt (combine x y))
    (hassociative : ∀ x y z, combine (combine x y) z = combine x (combine y z))
    (hcommutative : ∀ x y, combine x y = combine y x) (hunmarked : deferred? name = none)
    (hnew : Builtin.standard.contains name = false)
    (hregistry : env.registry = Builtin.standard.register (Operation.folding name compute))
    (hvalues : ∀ symbol value, env.get? symbol = some value → value.EffectFree) {args others : List Node}
    {numbers : List Int} (hargs : args.Perm (numbers.map Node.integer ++ others)) (hlength : 2 ≤ args.length)
    (hothers : ∀ node ∈ others, Chain.Leaf env node ∧ node.number? = none ∧ isApplicationOf name node = false)
    {r : Node} {after : Environment} (hrun : simplify (.application name args) env = (.ok r, after)) :
    (others = [] → ∃ total, Folding.foldAll combine numbers = some total ∧ r = .integer total) ∧
      (others ≠ [] → ∃ rest, rest.Perm others ∧ Node.Sorted rest ∧
        r = .application name ((Folding.foldAll combine numbers).toList.map Node.integer ++ rest)) := by
  have hquiet := Folding.quiet_folding env hregistry hvalues
  have hfolds : Folding.FoldsIntegers env.current.registry name combine := by
    rw [show env.current.registry = _ from hregistry]
    exact Folding.foldsIntegers_register hcompute hnew
  have hinteger (x : Int) : (Node.integer x).EffectFree := Node.effectFree_number _
  have hmembers {P : Node → Prop} (hnumbers : ∀ x, P (.integer x)) (hnodes : ∀ node ∈ others, P node) :
      ∀ arg ∈ args, P arg := by
    intro arg harg
    rcases List.mem_append.mp (hargs.mem_iff.mp harg) with hnumber | hother
    · obtain ⟨x, _, rfl⟩ := List.mem_map.mp hnumber
      exact hnumbers x
    · exact hnodes arg hother
  have hfree : (Node.application name args).EffectFree :=
    Node.effectFree_application.mpr ⟨Folding.effectFreeName_of_new hnew hunmarked,
      hmembers hinteger fun node hnode => (hothers node hnode).1.effectFree⟩
  have hitems : ∀ arg ∈ args, Chain.Item env.current name arg :=
    hmembers (fun x => Chain.item_node env.current name (.integer x)) fun node hnode =>
      (hothers node hnode).1.item hquiet (hothers node hnode).2.2
  obtain ⟨_, hreduces, _⟩ := (simplify_eq_ok_iff hquiet hfree).mp hrun
  have hresult := Folding.eq_folded_of_reduces hfolds hassociative hcommutative hlength hitems hreduces
  obtain ⟨hnumbers, hresidue⟩ := Folding.integers_residue_append numbers fun node hnode => (hothers node hnode).2.1
  have hparts := (Folding.residue_perm hargs).trans (.of_eq hresidue)
  rw [Folding.folded, Folding.foldAll_perm hassociative hcommutative (Folding.integers_perm hargs), hnumbers]
    at hresult
  constructor
  · rintro rfl
    rw [List.perm_nil.mp hparts] at hresult
    cases numbers with
    | nil =>
        rw [hargs.length_eq] at hlength
        cases hlength
    | cons x rest => exact ⟨_, rfl, hresult⟩
  · intro hnonempty
    have hrest := (Node.sort_perm _).trans hparts
    refine ⟨_, hrest, Node.sorted_sort _, ?_⟩
    rw [hresult, Chain.bundle_of_two_le]
    have hpositive := List.length_pos_iff.mpr hnonempty
    rw [List.length_append, hrest.length_eq]
    cases numbers with
    | nil =>
        rw [hargs.length_eq] at hlength
        exact Nat.le_add_left_of_le hlength
    | cons x rest => exact Nat.add_le_add (Nat.le_refl 1) hpositive

/-! ### Examples -/

/-- The larger one of two numbers. -/
def Number.larger (x y : Number) : Number :=
  if x.compare? y = some .lt then y else x

theorem Number.larger_ofInt (x y : Int) :
    larger (.ofInt x) (.ofInt y) = .ofInt (if x < y then y else x) := by
  have hcompare : (Number.ofInt x).compare? (.ofInt y) = some (compare x y) := by
    rw [compare?_eq, toInt?_ofInt, toInt?_ofInt]
  rw [larger, hcompare, apply_ite Number.ofInt]
  simp only [Option.some.injEq, Int.compare_eq_lt]

/-- The standard operations and one that takes the larger one of two numbers. -/
def Environment.comparing (name : String) : Environment :=
  .ofRegistry (Builtin.standard.register (Operation.folding name Number.larger))

/-- Three integers between variables: the largest is left in front of the variables. -/
theorem simplify_folding_larger :
    let env := Environment.comparing "max2"
    let args := [.symbol "x", .integer 3, .integer 7, .integer (-2), .symbol "a", Node.symbol "x"]
    let others := [.symbol "x", .symbol "a", Node.symbol "x"]
    Builtin.standard.contains "max2" = false ∧ deferred? "max2" = none ∧
      args.Perm ([3, 7, -2].map Node.integer ++ others) ∧
      (∀ node ∈ others, Chain.Leaf env node ∧ node.number? = none ∧ isApplicationOf "max2" node = false) ∧
      ∃ r after, simplify (.application "max2" args) env = (.ok r, after) ∧
        ∃ rest, rest.Perm others ∧ Node.Sorted rest ∧ r = .application "max2" (.integer 7 :: rest) := by
  intro env args others
  have hnew : Builtin.standard.contains "max2" = false := by decide +kernel
  have hunmarked : deferred? "max2" = none := by decide
  have hvalues : ∀ symbol value, env.get? symbol = some value → value.EffectFree := fun _ _ h => by cases h
  have hswap (front behind : List Node) : (front ++ behind).Perm (behind ++ front) := List.perm_append_comm
  have hargs : args.Perm ([3, 7, -2].map Node.integer ++ others) :=
    (hswap [.symbol "x"] ([3, 7, -2].map Node.integer)).append_right _
  have hothers : ∀ node ∈ others, Chain.Leaf env node ∧ node.number? = none ∧ isApplicationOf "max2" node = false := by
    have hsymbol (name : String) : Chain.Leaf env (.symbol name) ∧ (Node.symbol name).number? = none ∧
        isApplicationOf "max2" (.symbol name) = false :=
      ⟨⟨Node.exact_symbol name, Node.effectFree_symbol name, rfl⟩, rfl, rfl⟩
    simpa only [others, List.forall_mem_cons, List.not_mem_nil, false_implies, implies_true, and_true] using
      ⟨hsymbol "x", hsymbol "a", hsymbol "x"⟩
  have hsucceeds : (simplify (.application "max2" args) env).1.toOption.isSome := by
    decide +kernel
  rcases hrun : simplify (.application "max2" args) env with ⟨failure | r, after⟩
  · rw [hrun] at hsucceeds
    cases hsucceeds
  · obtain ⟨_, hresult⟩ := simplify_folding env Number.larger_ofInt
      (fun x y z => by split_ifs <;> omega) (fun x y => by split_ifs <;> omega) hunmarked hnew rfl hvalues hargs
      (by decide) hothers hrun
    exact ⟨hnew, hunmarked, hargs, hothers, r, after, rfl, hresult (by simp [others])⟩

/-- An operation whose own name is marked is not called, and folds nothing. -/
theorem marked_folding_kept :
    let env := Environment.comparing "$max2"
    Builtin.standard.contains "$max2" = false ∧ env.registry.isCommutative "$max2" ∧
      (simplify (.application "$max2" [.integer 1, .integer 2]) env).1 =
        .ok (.application "max2" [.integer 1, .integer 2]) ∧
      Node.application "max2" [.integer 1, .integer 2] ≠ .integer 2 := by
  intro env
  refine ⟨by decide +kernel, by decide +kernel, rfl, nofun⟩

end SymbolicAlgebra
