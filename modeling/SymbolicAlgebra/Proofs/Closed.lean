import SymbolicAlgebra.Proofs.Refinement
import SymbolicAlgebra.Proofs.Tree

/-! Expressions all of whose symbols are bound, those in the values of variables as well. Simplification
leaves nothing of such an expression undecided: operators are given literals and answer with literals,
and a chain of literals folds pair by pair down to one. -/

namespace SymbolicAlgebra

/-- The symbols of a node and, through the values of variables, those of the values. -/
inductive Reaches (bindings : Bindings) : Node → String → Prop
  | here {node : Node} {name : String} : node.mentions name → Reaches bindings node name
  | through {node value : Node} {via name : String} : node.mentions via →
      bindings.get? via = some value → Reaches bindings value name → Reaches bindings node name

/-- Every symbol that can be reached is bound. -/
def Closed (bindings : Bindings) (node : Node) : Prop :=
  ∀ name, Reaches bindings node name → bindings.get? name ≠ none

namespace Closed

variable {bindings : Bindings} {name : String}

theorem of_mentions {node other : Node} (hnode : Closed bindings node)
    (h : ∀ symbol, other.mentions symbol → node.mentions symbol) : Closed bindings other := by
  intro symbol hreaches
  apply hnode symbol
  cases hreaches with
  | here hmentions => exact .here (h _ hmentions)
  | through hmentions hbound hvalue => exact .through (h _ hmentions) hbound hvalue

/-- It is enough that the symbols of the node and those of all values are bound. -/
theorem of_bound {node : Node} (hnode : ∀ symbol, node.mentions symbol → bindings.get? symbol ≠ none)
    (hvalues : ∀ via value, bindings.get? via = some value →
      ∀ symbol, value.mentions symbol → bindings.get? symbol ≠ none) : Closed bindings node := by
  intro symbol hreaches
  induction hreaches with
  | here hmentions => exact hnode _ hmentions
  | through _ hbound _ ih => exact ih (hvalues _ _ hbound)

/-- A closed symbol has a closed value. -/
theorem bound (h : Closed bindings (.symbol name)) :
    ∃ value, bindings.get? name = some value ∧ Closed bindings value := by
  have hmentions : (Node.symbol name).mentions name := by simp [Node.mentions]
  obtain ⟨value, hbound⟩ := Option.ne_none_iff_exists'.mp (h name (.here hmentions))
  exact ⟨value, hbound, fun symbol hreaches => h symbol (.through hmentions hbound hreaches)⟩

theorem args {args : List Node} (h : Closed bindings (.application name args)) :
    ∀ arg ∈ args, Closed bindings arg := by
  intro arg harg
  refine h.of_mentions fun symbol hmentions => ?_
  rw [Node.mentions, Node.anyMentions_eq_any, List.any_eq_true]
  exact ⟨arg, harg, hmentions⟩

theorem of_values {args : List Node} (hvalues : ∀ arg ∈ args, arg.IsValue) :
    Closed bindings (.application name args) := by
  have hnone (symbol : String) : ¬(Node.application name args).mentions symbol := by
    rw [Node.mentions, Node.anyMentions_eq_any, List.any_eq_true]
    rintro ⟨arg, harg, hmentions⟩
    rcases hvalues arg harg with ⟨a, rfl⟩ | ⟨p, rfl⟩ <;> cases hmentions
  intro symbol hreaches
  cases hreaches with
  | here hmentions => exact (hnone _ hmentions).elim
  | through hmentions _ _ => exact (hnone _ hmentions).elim

end Closed

/-! ### Operators on literals -/

/-- There is a node on offer, and it is a number or a boolean. -/
def Decided (outcome : Option Node) : Prop :=
  ∃ offer, outcome = some offer ∧ offer.IsValue

namespace Builtin

variable {R : Node → Node → Prop} {name : String} {outcome : Option Node}

theorem decided_of_answers_equality {a b : Node} {answer : Bool → Bool}
    (hsome : (decideEquality a b).isSome)
    (h : (Action.done ((decideEquality a b).map fun equal => Node.boolean (answer equal))).Answers R outcome) :
    Decided outcome := by
  obtain ⟨equal, hequal⟩ := Option.isSome_iff_exists.mp hsome
  have houtcome := h.of_done
  rw [hequal] at houtcome
  exact ⟨_, houtcome, .inr ⟨_, rfl⟩⟩

/-- Operators on two integer literals are decided. -/
theorem decided_integers {a b : Number} {x y : Int} (ha : a.toInt? = some x) (hb : b.toInt? = some y)
    (hname : name ∈ ["^", "+", "*", "-", "<", ">", "<=", ">=", "==", "!="])
    (h : Invokes standard R name [.number a, .number b] outcome) : Decided outcome := by
  have hcompare : a.compare? b = some (compare x y) := by rw [Number.compare?_eq, ha, hb]
  have hcomputed {compute : Number → Number → Except Failure Number}
      (h : (onNumbers compute (.number a) (.number b)).Answers R outcome) : Decided outcome := by
    obtain ⟨_, _, r, _, _, _, houtcome⟩ := answers_onNumbers h
    exact ⟨_, houtcome, .inl ⟨r, rfl⟩⟩
  have hordered {test : Ordering → Bool}
      (h : (ordering test (.number a) (.number b)).Answers R outcome) : Decided outcome := by
    obtain ⟨_, _, ⟨⟩, ⟨⟩, houtcome⟩ := answers_ordering h
    rw [hcompare] at houtcome
    exact ⟨_, houtcome, .inr ⟨_, rfl⟩⟩
  have hequality : (decideEquality (.number a) (.number b)).isSome := by
    rw [decideEquality]
    split
    · rfl
    · show ((a.compare? b).map (· == .eq)).isSome = true
      rw [hcompare]
      rfl
  simp only [List.mem_cons, List.not_mem_nil, or_false] at hname
  rcases hname with rfl | rfl | rfl | rfl | rfl | rfl | rfl | rfl | rfl | rfl <;>
    have h := Invokes.of_resolve rfl h
  · exact hcomputed h
  · exact hcomputed h
  · exact hcomputed h
  · exact hcomputed h
  · exact hordered h
  · exact hordered h
  · exact hordered h
  · exact hordered h
  · exact decided_of_answers_equality hequality h
  · exact decided_of_answers_equality hequality h

/-- Operators on two booleans are decided. -/
theorem decided_booleans {p q : Bool} (hname : name ∈ ["and", "or", "xor", "==", "!="])
    (h : Invokes standard R name [.boolean p, .boolean q] outcome) : Decided outcome := by
  have hcomputed {compute : Bool → Bool → Bool}
      (h : (onBooleans compute (.boolean p) (.boolean q)).Answers R outcome) : Decided outcome := by
    obtain ⟨_, _, _, _, houtcome⟩ := answers_onBooleans h
    exact ⟨_, houtcome, .inr ⟨_, rfl⟩⟩
  have hequality : (decideEquality (.boolean p) (.boolean q)).isSome := by
    clear hcomputed h
    cases p <;> cases q <;> rfl
  simp only [List.mem_cons, List.not_mem_nil, or_false] at hname
  rcases hname with rfl | rfl | rfl | rfl | rfl <;> have h := Invokes.of_resolve rfl h
  · exact hcomputed h
  · exact hcomputed h
  · exact hcomputed h
  · exact decided_of_answers_equality hequality h
  · exact decided_of_answers_equality hequality h

end Builtin

section Evaluate

variable {normal : Bool} {Γ : String → ValueType} {τ : ValueType}

variable {R : Node → Node → Prop} {name : String} {args : List Node} {outcome : Option Node}

theorem decided_pair {a b : Node} (happlication : Typed normal Γ (.application name [a, b]) τ)
    (ha : a.IsValue) (hb : b.IsValue) (h : Invokes Builtin.standard R name [a, b] outcome) :
    Decided outcome := by
  have htables : ∀ entry ∈ pairTypes,
      (entry.2.1 = .integer → entry.1 ∈ ["^", "+", "*", "-", "<", ">", "<=", ">=", "==", "!="]) ∧
        (entry.2.1 = .boolean → entry.1 ∈ ["and", "or", "xor", "==", "!="]) := by
    decide
  obtain ⟨σ, hmem, hta, htb⟩ := happlication.of_pair
  cases σ with
  | integer =>
      obtain ⟨a, x, rfl, hx⟩ := hta.integer_of_isValue ha
      obtain ⟨b, y, rfl, hy⟩ := htb.integer_of_isValue hb
      exact Builtin.decided_integers hx hy ((htables _ hmem).1 rfl) h
  | boolean =>
      obtain ⟨p, rfl⟩ := hta.boolean_of_isValue ha
      obtain ⟨q, rfl⟩ := htb.boolean_of_isValue hb
      exact Builtin.decided_booleans ((htables _ hmem).2 rfl) h

theorem decided_unary {a : Node} (happlication : Typed normal Γ (.application name [a]) τ)
    (ha : a.IsValue) (h : Invokes Builtin.standard R name [a] outcome) : Decided outcome := by
  obtain ⟨hmem, hta⟩ := happlication.of_unary
  simp only [unaryTypes, List.mem_cons, Prod.mk.injEq, List.not_mem_nil, or_false] at hmem
  rcases hmem with ⟨rfl, rfl⟩ | ⟨rfl, rfl⟩
  · obtain ⟨a, x, rfl, hx⟩ := hta.integer_of_isValue ha
    have hanswers := Invokes.of_resolve rfl h
    obtain ⟨_, _, hdone⟩ := Action.Answers.of_bind hanswers
    exact ⟨_, hdone.of_done, .inl ⟨_, rfl⟩⟩
  · obtain ⟨p, rfl⟩ := hta.boolean_of_isValue ha
    have hanswers := Invokes.of_resolve rfl h
    obtain ⟨_, _, hdone⟩ := Action.Answers.of_bind hanswers
    exact ⟨_, hdone.of_done, .inr ⟨_, rfl⟩⟩

theorem commutative_of_chain (hchain : (name, τ) ∈ chainTypes) : Builtin.standard.isCommutative name := by
  have htable : ∀ entry ∈ chainTypes, Builtin.standard.isCommutative entry.1 = true := by
    decide +kernel
  exact htable _ hchain

/-- Operators on literals answer with literals. No operation takes the literals of a longer chain, which
are left to be folded. -/
theorem decided_of_values (happlication : Typed normal Γ (.application name args) τ)
    (hvalues : ∀ arg ∈ args, arg.IsValue) (h : Invokes Builtin.standard R name args outcome) :
    Decided outcome ∨ outcome = none ∧ 2 < args.length ∧ Builtin.standard.isCommutative name := by
  cases happlication with
  | @chain _ _ _ hchain hlength hargs =>
      have hcommutative := commutative_of_chain hchain
      by_cases hlong : 2 < args.length
      · have hresolve := (Builtin.foldsByPairs_standard name hcommutative).2 args hlong
        cases h with
        | unresolved _ => exact .inr ⟨rfl, hlong, hcommutative⟩
        | answered hsome _ => cases hresolve.symm.trans hsome
      · obtain ⟨a, b, rfl⟩ := List.length_eq_two.mp (by omega : args.length = 2)
        exact .inl (decided_pair (.chain hchain hlength hargs) (hvalues a (by simp)) (hvalues b (by simp)) h)
  | @unary _ a _ hname ha => exact .inl (decided_unary (.unary hname ha) (hvalues a (by simp)) h)
  | @binary _ a b _ _ hname ha hb =>
      exact .inl (decided_pair (.binary hname ha hb) (hvalues a (by simp)) (hvalues b (by simp)) h)
  | power hname hbase hlow hhigh =>
      exact .inl (decided_pair (.power hname hbase hlow hhigh) (hvalues _ (by simp)) (hvalues _ (by simp)) h)

/-- Literals are canonical up to their order: none of them is an application. -/
theorem isValue_arrange (registry : Registry) (name : String) (hvalues : ∀ arg ∈ args, arg.IsValue) :
    ∀ arg ∈ arrange registry name args, arg.IsValue := by
  refine forall_mem_arrange registry (fun inner h => ?_) hvalues
  rcases h with ⟨a, h⟩ | ⟨p, h⟩ <;> cases h

/-! ### Evaluation -/

theorem Node.IsValue.lighter {node : Node} (h : node.IsValue) (name : String) (hargs : args ≠ []) :
    node.complexity < (Node.application name args).complexity := by
  have hpositive := List.length_pos_iff.mpr hargs
  have hweight := Node.length_le_weight args
  rcases h with ⟨a, rfl⟩ | ⟨p, rfl⟩
  · rw [Node.complexity, Node.complexity]
    omega
  · rw [Node.complexity, Node.complexity]
    omega

section Step

variable {ρ : String → Value} {bindings : Bindings}
  (hregistry : Builtin.standard.Sound normal Γ ρ) (hrefines : ∀ e r, R e r → Refines normal Γ ρ e r)
  (hvalues : ∀ e r τ, R e r → Typed normal Γ e τ → Closed bindings e → r.IsValue)
  (hfixed : ∀ e r, R e r → e.IsValue → r = e)

include hvalues in
theorem isValue_of_forall₂ {reduced : List Node} (hreduced : List.Forall₂ R args reduced)
    (hargs : ∀ arg ∈ args, (∃ σ, Typed normal Γ arg σ) ∧ Closed bindings arg) :
    ∀ arg ∈ reduced, arg.IsValue := by
  induction hreduced with
  | nil => exact nofun
  | cons hhead _ ih =>
      rw [List.forall_mem_cons] at hargs ⊢
      obtain ⟨⟨⟨σ, htyped⟩, hclosed⟩, hrest⟩ := hargs
      exact ⟨hvalues _ _ σ hhead htyped hclosed, ih hrest⟩

/-! A chain of literals. -/

section Chain

variable (hchain : (name, τ) ∈ chainTypes)
include hvalues hchain

/-- Two literals of a chain fold to a literal. -/
theorem isValue_of_pair {first second folded : Node} (hfirst : Typed normal Γ first τ ∧ first.IsValue)
    (hsecond : Typed normal Γ second τ ∧ second.IsValue) (h : R (.application name [first, second]) folded) :
    folded.IsValue := by
  have hpair : ∀ arg ∈ [first, second], Typed normal Γ arg τ ∧ arg.IsValue :=
    List.forall_mem_cons.mpr ⟨hfirst, List.forall_mem_singleton.mpr hsecond⟩
  exact hvalues _ _ τ h (.chain hchain (Nat.le_refl 2) fun arg harg => (hpair arg harg).1)
    (.of_values fun arg harg => (hpair arg harg).2)

theorem FoldsPair.isValue {folded : Node} {others : List Node} (h : FoldsPair R name args folded others)
    (hargs : ∀ arg ∈ args, Typed normal Γ arg τ ∧ arg.IsValue) :
    folded.IsValue ∧ ∀ arg ∈ others, arg.IsValue := by
  obtain ⟨first, second, hperm, hfolded⟩ := h.perm
  have hmem := fun arg harg => hargs arg (hperm.mem_iff.mpr harg)
  rw [List.forall_mem_cons, List.forall_mem_cons] at hmem
  obtain ⟨hfirst, hsecond, hothers⟩ := hmem
  exact ⟨isValue_of_pair hvalues hchain hfirst hsecond hfolded, fun arg harg => (hothers arg harg).2⟩

/-- Literals never stay beside each other: what they fold to is simpler. -/
theorem not_kept_of_isValue (hlength : 2 ≤ args.length)
    (hargs : ∀ arg ∈ args, Typed normal Γ arg τ ∧ arg.IsValue) : ¬args.Pairwise (Kept R name) := by
  intro hkept
  match args with
  | [] => cases hlength
  | [_] => exact absurd hlength (by simp)
  | first :: second :: rest =>
      rw [List.forall_mem_cons, List.forall_mem_cons] at hargs
      obtain ⟨hfirst, hsecond, _⟩ := hargs
      obtain ⟨folded, hfolded, hheavy⟩ := List.rel_of_pairwise_cons hkept List.mem_cons_self
      have hvalue := isValue_of_pair hvalues hchain hfirst hsecond hfolded
      exact hheavy (hvalue.lighter name (List.cons_ne_nil _ _))

include hregistry hrefines in
/-- A chain of literals folds to one literal. -/
theorem Regroups.isValue {arity : Nat} {result : Node}
    (h : Regroups Builtin.standard R name arity args result) (hlength : 2 ≤ args.length)
    (hargs : ∀ arg ∈ args, Typed normal Γ arg τ ∧ arg.IsValue) : result.IsValue := by
  induction h with
  | single hfold => exact (hfold.isValue hvalues hchain hargs).1
  | @folded args others folded _ hfold hothers _ ih =>
      obtain ⟨hfolded, hrest⟩ := hfold.isValue hvalues hchain hargs
      have hliterals : ∀ arg ∈ others ++ [folded], arg.IsValue :=
        List.forall_mem_append.mpr ⟨hrest, List.forall_mem_singleton.mpr hfolded⟩
      have hnext := (hfold.refines hrefines hchain hothers).trans (refines_arrange hregistry name _)
      obtain ⟨happlication, _⟩ := hnext τ (.chain hchain hlength fun arg harg => (hargs arg harg).1)
      obtain ⟨_, hlonger, htyped⟩ := Typed.of_chain hchain happlication
      exact ih hlonger fun arg harg => ⟨htyped arg harg, isValue_arrange _ name hliterals arg harg⟩
  | offered hkept _ _ _ => exact (not_kept_of_isValue hvalues hchain hlength hargs hkept).elim
  | left hkept _ => exact (not_kept_of_isValue hvalues hchain hlength hargs hkept).elim

end Chain

include hregistry hrefines hvalues hfixed

/-- The arguments of a closed application become literals, and the application stays typed. -/
theorem Prepares.isValue {prepared : List Node} (h : Prepares Builtin.standard R name args prepared)
    (happlication : Typed normal Γ (.application name args) τ)
    (hclosed : Closed bindings (.application name args)) :
    Typed normal Γ (.application name prepared) τ ∧ ∀ arg ∈ prepared, arg.IsValue := by
  have hnumber (a : Number) (r : Node) (h : R (.number a) r) : r = .number a :=
    hfixed _ r h (.inl ⟨a, rfl⟩)
  refine ⟨(h.refines hrefines hregistry hnumber τ happlication).1, ?_⟩
  have htable : ∀ operation ∈ Builtin.standard.operations, operation.name ∈ Builtin.typedNames →
      operation.attributes.preservesArguments = false := by
    decide +kernel
  cases h with
  | preserved hpreserves =>
      obtain ⟨operation, hmem, rfl, hselected⟩ := Registry.exists_of_hasAttribute hpreserves
      rw [htable operation hmem (Builtin.mem_typedNames happlication)] at hselected
      cases hselected
  | simplified _ hreduced =>
      apply isValue_arrange
      exact isValue_of_forall₂ hvalues hreduced fun arg harg =>
        ⟨happlication.of_mem arg harg, hclosed.args arg harg⟩

/-- Every rule turns what is closed into a literal. -/
theorem Step.isValue {scope : Scope} (hstandard : scope.registry = Builtin.standard)
    (hbindings : scope.bindings = bindings) (hagree : bindings.Agree normal Γ ρ) {e r : Node}
    (h : Step scope R e r) (htyped : Typed normal Γ e τ) (hclosed : Closed bindings e) : r.IsValue := by
  obtain ⟨_, _⟩ := scope
  cases hstandard
  cases hbindings
  cases h with
  | number a => exact .inl ⟨a, rfl⟩
  | boolean p => exact .inr ⟨p, rfl⟩
  | free hfree =>
      obtain ⟨_, hbound, _⟩ := hclosed.bound
      cases hfree.symm.trans hbound
  | bound hbound hresult =>
      obtain ⟨value, hvalue, hclosed⟩ := hclosed.bound
      cases hbound.symm.trans hvalue
      exact hvalues _ _ _ hresult (hagree _ _ hbound).1 hclosed
  | pair _ _ => cases htyped
  | sequence _ => cases htyped
  | rewritten _ hprepares hoffer hresult =>
      obtain ⟨hprepared, hliterals⟩ :=
        hprepares.isValue hregistry hrefines hvalues hfixed htyped hclosed
      rcases decided_of_values hprepared hliterals hoffer with ⟨offer, hsome, hoffered⟩ | ⟨hnone, _⟩
      · cases hsome
        exact hfixed _ _ hresult hoffered ▸ hoffered
      · cases hnone
  | undecided _ hprepares hnone hshort =>
      obtain ⟨hprepared, hliterals⟩ :=
        hprepares.isValue hregistry hrefines hvalues hfixed htyped hclosed
      rcases decided_of_values hprepared hliterals hnone with ⟨_, hsome, _⟩ | ⟨_, hlong⟩
      · cases hsome
      · exact (hshort hlong).elim
  | @regrouped name _ prepared grouped _ hprepares hnone hlong hcommutative hgrouped =>
      obtain ⟨hprepared, hliterals⟩ :=
        hprepares.isValue hregistry hrefines hvalues hfixed htyped hclosed
      obtain ⟨τ, hchain⟩ := hregistry.chains name hcommutative
      obtain ⟨_, hlength, hargs⟩ := Typed.of_chain hchain hprepared
      have hvalue := hgrouped.isValue hregistry hrefines hvalues hchain hlength fun arg harg =>
        ⟨hargs arg harg, hliterals arg harg⟩
      have hnonempty : prepared ≠ [] := List.length_pos_iff.mp (by omega)
      rw [if_pos (hvalue.lighter name hnonempty)]
      exact hvalue

end Step

/-- A typed expression whose symbols are all bound is left as a literal. -/
theorem Reduces.isValue {ρ : String → Value} {scope : Scope} (hstandard : scope.registry = Builtin.standard)
    (hregistry : Builtin.standard.Sound normal Γ ρ) (hagree : scope.bindings.Agree normal Γ ρ)
    {room : Nat} {e r : Node} (h : Reduces scope room e r) (htyped : Typed normal Γ e τ)
    (hclosed : Closed scope.bindings e) : r.IsValue := by
  induction room generalizing e r τ with
  | zero => exact h.elim
  | succ room ih =>
      have hrefines (e r : Node) (h : Reduces scope room e r) : Refines normal Γ ρ e r :=
        h.refines (hstandard ▸ hregistry) hagree
      exact Step.isValue hregistry hrefines (fun _ _ _ => ih) (fun _ _ => Reduces.eq_of_isValue) hstandard
        rfl hagree h htyped hclosed

end Evaluate

end SymbolicAlgebra
