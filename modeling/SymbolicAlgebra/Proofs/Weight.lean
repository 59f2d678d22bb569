import SymbolicAlgebra.Proofs.Exact
import SymbolicAlgebra.Proofs.Idempotence
import SymbolicAlgebra.Proofs.Stillness

/-! The size of expressions. Of most standard operations an offer is no larger than the application that
it replaces, also where it is an application itself. Canonical lists and regrouping make nothing larger
either, and so no result is larger than its expression. What can grow are copies, pairings, labels, and
the reductions that spell a formula out. -/

namespace SymbolicAlgebra

/-! ### Offers that are no larger -/

/-- The node that is offered, if there is one, is no larger than an application to the arguments. -/
def NoLarger (args : List Node) (outcome : Option Node) : Prop :=
  ∀ node ∈ outcome, node.complexity ≤ 1 + Node.weight args

section NoLarger

variable {args : List Node}

theorem noLarger_none : NoLarger args none := nofun

theorem noLarger_some {node : Node} (h : node.complexity ≤ 1 + Node.weight args) :
    NoLarger args (some node) := by
  rintro _ ⟨⟩
  exact h

theorem noLarger_number (value : Number) : NoLarger args (some (.number value)) :=
  noLarger_some (Nat.le_add_right 1 _)

theorem noLarger_boolean (value : Bool) : NoLarger args (some (.boolean value)) :=
  noLarger_some (Nat.le_add_right 1 _)

theorem complexity_le_weight {node : Node} (h : node ∈ args) : node.complexity ≤ Node.weight args := by
  obtain ⟨front, behind, rfl⟩ := List.append_of_mem h
  rw [Node.weight_append, Node.weight]
  omega

theorem noLarger_arg {arg : Node} (h : arg ∈ args) : NoLarger args (some arg) := by
  have := complexity_le_weight h
  exact noLarger_some (by omega)

/-- An application to some of the arguments. -/
theorem noLarger_application (name : String) {args' : List Node} (h : args'.Sublist args) :
    NoLarger args (some (.application name args')) := by
  refine noLarger_some (Nat.add_le_add_left ?_ 1)
  induction h with
  | slnil => exact Nat.le_refl _
  | cons arg _ ih => exact ih.trans (Nat.le_add_left _ _)
  | cons_cons arg _ ih => exact Nat.add_le_add_left ih _

end NoLarger

/-- The handler does nothing but simplify, and its offers are no larger than the application. -/
def Operation.Shrinks (operation : Operation) : Prop :=
  ∀ args, (operation.handler args).QuietIn .all (NoLarger args)

namespace Operation

theorem shrinks_unary (name : String) (parameter : Parameter)
    {handler : Node → Action Operation (Option Node)} (h : ∀ a, (handler a).QuietIn .all (NoLarger [a])) :
    (unary name parameter handler).Shrinks :=
  unary_cases (motive := fun args action => action.QuietIn .all (NoLarger args))
    (fun _ => .done noLarger_none) name parameter h

theorem shrinks_binary (name : String) (first second : Parameter)
    {handler : Node → Node → Action Operation (Option Node)}
    (h : ∀ a b, (handler a b).QuietIn .all (NoLarger [a, b])) :
    (binary name first second handler).Shrinks :=
  binary_cases (motive := fun args action => action.QuietIn .all (NoLarger args))
    (fun _ => .done noLarger_none) name first second h

theorem shrinks_ternary (name : String) (first second third : Parameter)
    {handler : Node → Node → Node → Action Operation (Option Node)}
    (h : ∀ a b c, (handler a b c).QuietIn .all (NoLarger [a, b, c])) :
    (ternary name first second third handler).Shrinks :=
  ternary_cases (motive := fun args action => action.QuietIn .all (NoLarger args))
    (fun _ => .done noLarger_none) name first second third h

/-- A binary operation that computes its offer from the arguments alone. -/
theorem shrinks_pure (name : String) (first second : Parameter) {offer : Node → Node → Option Node}
    (h : ∀ a b, NoLarger [a, b] (offer a b)) :
    (binary name first second fun a b => .done (offer a b)).Shrinks :=
  shrinks_binary name first second fun a b => .done (h a b)

theorem Shrinks.commutative {operation : Operation} (h : operation.Shrinks) :
    operation.commutative.Shrinks := h

theorem Shrinks.forwardCommutative {operation : Operation} (h : operation.Shrinks) :
    operation.forwardCommutative.Shrinks := h

theorem Shrinks.preservingArguments {operation : Operation} (h : operation.Shrinks) :
    operation.preservingArguments.Shrinks := h

end Operation

namespace Builtin

open Operation SymbolicAlgebra.Action

/-! ### Arithmetic, comparisons and connectives -/

section Pairs

variable (a b : Node)

theorem noLarger_first : NoLarger [a, b] (some a) := noLarger_arg (by simp)

theorem noLarger_second : NoLarger [a, b] (some b) := noLarger_arg (by simp)

theorem shrinking_onNumbers (compute : Number → Number → Except Failure Number) :
    (onNumbers compute a b).QuietIn .all (NoLarger [a, b]) := by
  refine (quiet_ofExcept (ensures_any a.asNumber)).bind fun x _ => ?_
  refine (quiet_ofExcept (ensures_any b.asNumber)).bind fun y _ => ?_
  refine (quiet_ofExcept (ensures_any (compute x y))).bind fun result _ => ?_
  exact .done (noLarger_number result)

theorem noLarger_addIdentity : NoLarger [a, b] (addIdentity a b) := by
  unfold addIdentity
  split_ifs
  · exact noLarger_second a b
  · exact noLarger_first a b
  · exact noLarger_none

theorem noLarger_mulIdentity : NoLarger [a, b] (mulIdentity a b) := by
  unfold mulIdentity
  split_ifs
  · exact noLarger_first a b
  · exact noLarger_second a b
  · exact noLarger_second a b
  · exact noLarger_first a b
  · exact noLarger_none

theorem noLarger_subIdentity : NoLarger [a, b] (subIdentity a b) := by
  unfold subIdentity
  split_ifs
  · exact noLarger_number _
  · exact noLarger_first a b
  · exact noLarger_application "negate" (List.sublist_cons_self a [b])
  · exact noLarger_none

theorem noLarger_divIdentity : NoLarger [a, b] (divIdentity a b) := by
  unfold divIdentity
  split_ifs
  · exact noLarger_first a b
  · exact noLarger_none

theorem noLarger_powIdentity : NoLarger [a, b] (powIdentity a b) := by
  unfold powIdentity
  split_ifs
  · exact noLarger_first a b
  · exact noLarger_number _
  · exact noLarger_none

theorem noLarger_unwrap (operation : String) : NoLarger [a] (unwrap operation a) := by
  unfold unwrap
  split
  · split_ifs
    · refine noLarger_some ?_
      simp only [Node.weight, Node.complexity]
      omega
    · exact noLarger_none
  · exact noLarger_none

theorem noLarger_map_boolean {α : Type} {args : List Node} (outcome : Option α) (test : α → Bool) :
    NoLarger args (outcome.map fun a => .boolean (test a)) := by
  cases outcome with
  | none => exact noLarger_none
  | some a => exact noLarger_boolean _

theorem shrinking_ordering (test : Ordering → Bool) :
    (ordering test a b).QuietIn .all (NoLarger [a, b]) := by
  refine (quiet_ofExcept (ensures_any a.asNumber)).bind fun x _ => ?_
  refine (quiet_ofExcept (ensures_any b.asNumber)).bind fun y _ => ?_
  exact .done (noLarger_map_boolean _ test)

theorem shrinking_onBooleans (compute : Bool → Bool → Bool) :
    (onBooleans compute a b).QuietIn .all (NoLarger [a, b]) := by
  refine (quiet_ofExcept (ensures_any a.asBoolean)).bind fun p _ => ?_
  refine (quiet_ofExcept (ensures_any b.asBoolean)).bind fun q _ => ?_
  exact .done (noLarger_boolean _)

theorem noLarger_shortCircuit (absorbing : Bool) : NoLarger [a, b] (shortCircuit absorbing a b) := by
  unfold shortCircuit
  split
  · exact noLarger_boolean _
  · split_ifs
    · exact noLarger_boolean _
    · exact noLarger_second _ _
  · split_ifs
    · exact noLarger_boolean _
    · exact noLarger_first _ _
  · exact noLarger_none

theorem noLarger_xorIdentity : NoLarger [a, b] (xorIdentity a b) := by
  unfold xorIdentity
  split
  · exact noLarger_second _ _
  · exact noLarger_first _ _
  · exact noLarger_application "not" (List.sublist_cons_self _ _)
  · exact noLarger_application "not" (List.sublist_append_left [_] _)
  · exact noLarger_none

end Pairs

theorem shrinks_arithmetic : ∀ operation ∈ arithmetic, operation.Shrinks := by
  simp only [arithmetic, List.forall_mem_cons, List.not_mem_nil, false_implies, implies_true, and_true]
  have honNumbers (name : String) (compute : Number → Number → Except Failure Number) :
      (binary name .number .number (onNumbers compute)).Shrinks :=
    shrinks_binary name _ _ fun a b => shrinking_onNumbers a b compute
  refine ⟨(honNumbers _ _).commutative, (shrinks_pure _ _ _ noLarger_addIdentity).commutative,
    (honNumbers _ _).commutative, (shrinks_pure _ _ _ noLarger_mulIdentity).commutative,
    (honNumbers _ _).forwardCommutative, (shrinks_pure _ _ _ noLarger_subIdentity).forwardCommutative,
    honNumbers _ _, shrinks_pure _ _ _ noLarger_divIdentity, honNumbers _ _, honNumbers _ _,
    shrinks_pure _ _ _ noLarger_powIdentity, ?_, ?_, ?_⟩
  · refine shrinks_unary _ _ fun a => ?_
    exact (quiet_ofExcept (ensures_any a.asNumber)).bind fun x _ => .done (noLarger_number _)
  · exact shrinks_unary _ _ fun a => .done (noLarger_unwrap a _)
  · refine shrinks_unary _ _ fun a => ?_
    refine (quiet_ofExcept (ensures_any a.asNumber)).bind fun x _ => ?_
    exact (quiet_ofExcept (ensures_any x.factorial)).bind fun _ _ => .done (noLarger_number _)

theorem shrinks_comparison : ∀ operation ∈ comparison, operation.Shrinks := by
  simp only [comparison, List.forall_mem_cons, List.not_mem_nil, false_implies, implies_true, and_true]
  have hordering (name : String) (test : Ordering → Bool) :
      (binary name .number .number (ordering test)).Shrinks :=
    shrinks_binary name _ _ fun a b => shrinking_ordering a b test
  exact ⟨hordering _ _, hordering _ _, hordering _ _, hordering _ _,
    shrinks_pure _ _ _ fun a b => noLarger_map_boolean (decideEquality a b) id,
    shrinks_pure _ _ _ fun a b => noLarger_map_boolean (decideEquality a b) not⟩

theorem shrinks_logic : ∀ operation ∈ logic, operation.Shrinks := by
  simp only [logic, List.forall_mem_cons, List.not_mem_nil, false_implies, implies_true, and_true]
  have honBooleans (name : String) (compute : Bool → Bool → Bool) :
      (binary name .boolean .boolean (onBooleans compute)).Shrinks :=
    shrinks_binary name _ _ fun a b => shrinking_onBooleans a b compute
  refine ⟨(honBooleans _ _).commutative,
    (shrinks_pure _ _ _ fun a b => noLarger_shortCircuit a b false).commutative,
    (honBooleans _ _).commutative,
    (shrinks_pure _ _ _ fun a b => noLarger_shortCircuit a b true).commutative,
    honBooleans _ _, shrinks_pure _ _ _ noLarger_xorIdentity, ?_, ?_⟩
  · refine shrinks_unary _ _ fun a => ?_
    exact (quiet_ofExcept (ensures_any a.asBoolean)).bind fun p _ => .done (noLarger_boolean _)
  · exact shrinks_unary _ _ fun a => .done (noLarger_unwrap a _)

/-! ### Control, collections and statistics -/

/-- The operations whose offers can be larger than their applications. -/
def growingNames : List String :=
  ["repeat", "mean", "avg", "zip", "variance", "stdev", "dot", "cross", "magnitude"]

section Sequences

variable {elements others : List Node}

theorem noLarger_element {element : Node} (h : element ∈ elements) :
    NoLarger (.sequence elements :: others) (some element) := by
  have := complexity_le_weight h
  refine noLarger_some ?_
  rw [Node.weight, Node.complexity]
  omega

theorem noLarger_sequence {elements' : List Node}
    (h : Node.weight elements' ≤ Node.weight elements + Node.weight others) :
    NoLarger (.sequence elements :: others) (some (.sequence elements')) := by
  refine noLarger_some ?_
  rw [Node.weight, Node.complexity, Node.complexity]
  omega

theorem noLarger_of_elements {outcome : Option Node} (h : NoLarger elements outcome) :
    NoLarger [.sequence elements] outcome := by
  intro node hnode
  have := h node hnode
  rw [Node.weight, Node.complexity]
  omega

/-- A handler that takes its first argument apart. -/
theorem shrinking_onSequence {compute : List Node → Action Operation (Option Node)}
    (h : ∀ elements, (compute elements).QuietIn .all (NoLarger (.sequence elements :: others))) (list : Node) :
    (ofExcept list.asSequence >>= compute).QuietIn .all (NoLarger (list :: others)) := by
  cases list with
  | sequence elements => exact h elements
  | _ => exact .fail _

end Sequences

theorem noLarger_sum (terms : List Node) : NoLarger terms (some (sum terms)) := by
  unfold sum
  split
  · exact noLarger_number _
  · exact noLarger_arg (by simp)
  · exact noLarger_application "+" (List.Sublist.refl _)

theorem shrinks_reduction (name : String) {reduce : List Node → Except Failure (Option Node)}
    (h : ∀ terms, Ensures (NoLarger terms) (reduce terms)) :
    ∀ operation ∈ reduction name reduce, operation.Shrinks := by
  simp only [reduction, List.forall_mem_cons, List.not_mem_nil, false_implies, implies_true, and_true]
  refine ⟨shrinks_unary _ _ (shrinking_onSequence fun elements => ?_), fun args => quiet_ofExcept (h args)⟩
  exact quiet_ofExcept fun outcome houtcome => noLarger_of_elements (h elements outcome houtcome)

theorem shrinking_branch (condition ifTrue ifFalse : Node) :
    (branch condition ifTrue ifFalse).QuietIn .all (NoLarger [condition, ifTrue, ifFalse]) := by
  refine (quiet_simplified condition.within_all).bind fun answer _ => ?_
  split
  · exact .done (noLarger_arg (by simp))
  · exact .done (noLarger_arg (by simp))
  · exact .done noLarger_none

theorem name_of_mem_reduction {name : String} {reduce : List Node → Except Failure (Option Node)}
    {operation : Operation} (h : operation ∈ reduction name reduce) : operation.name = name := by
  simp only [reduction, List.mem_cons, List.not_mem_nil, or_false] at h
  rcases h with rfl | rfl <;> rfl

/-- The operation shrinks, unless it is named for its effects or as one that grows. -/
def ShrinksUnlessListed (operation : Operation) : Prop :=
  operation.name ∉ effectfulNames ++ growingNames → operation.Shrinks

theorem shrinksUnlessListed_of_mem {operation : Operation} (h : operation.name ∈ effectfulNames ++ growingNames) :
    ShrinksUnlessListed operation :=
  fun hnot => (hnot h).elim

theorem shrinks_control : ∀ operation ∈ control, ShrinksUnlessListed operation := by
  have hlisted {operation : Operation} := @shrinksUnlessListed_of_mem operation
  have hmean {name : String} (hname : name ∈ growingNames) (reduce : List Node → Except Failure (Option Node)) :
      ∀ operation ∈ reduction name reduce, ShrinksUnlessListed operation := by
    intro operation hmem
    refine hlisted (List.mem_append_right _ ?_)
    rw [name_of_mem_reduction hmem]
    exact hname
  simp only [control, List.forall_mem_append, List.forall_mem_cons, List.not_mem_nil, false_implies,
    implies_true, and_true]
  refine ⟨⟨⟨⟨hlisted (by decide), hlisted (by decide), hlisted (by decide), hlisted (by decide), fun _ => ?_,
    fun _ => ?_, hlisted (by decide), hlisted (by decide), hlisted (by decide), hlisted (by decide)⟩, ?_⟩,
    hmean (by decide) _⟩, hmean (by decide) _⟩
  · exact (shrinks_ternary _ _ _ _ shrinking_branch).preservingArguments
  · exact fun args => .done (noLarger_some (Nat.le_refl _))
  · exact fun operation h _ => shrinks_reduction _ (fun terms => ensures_ok (noLarger_sum terms)) operation h

theorem ensures_noLarger_elementAt {elements args : List Node} (index : Int)
    (h : ∀ element ∈ elements, NoLarger args (some element)) :
    Ensures (NoLarger args) (elementAt elements index) :=
  fun outcome houtcome node hnode => ensures_elementAt index h outcome houtcome node hnode node rfl

theorem ensures_noLarger_getElement (list index : Node) :
    Ensures (NoLarger [list, index]) (getElement list index) := by
  cases list with
  | sequence elements =>
      exact (ensures_any index.asInteger).bind fun place _ =>
        ensures_noLarger_elementAt place.toInt fun element => noLarger_element
  | _ => exact ensures_error _ _

theorem ensures_noLarger_getHalf (pair index : Node) :
    Ensures (NoLarger [pair, index]) (getHalf pair index) := by
  cases pair with
  | pair first second =>
      refine (ensures_any index.asInteger).bind fun place _ => ensures_noLarger_elementAt place.toInt ?_
      rw [List.forall_mem_cons, List.forall_mem_singleton]
      constructor <;>
      · refine noLarger_some ?_
        rw [Node.weight, Node.complexity]
        omega
  | _ => exact ensures_error _ _

theorem shrinks_collection : ∀ operation ∈ collection, ShrinksUnlessListed operation := by
  simp only [collection, List.forall_mem_cons, List.not_mem_nil, false_implies, implies_true, and_true]
  refine ⟨fun _ args => .done (noLarger_some (Nat.le_refl _)),
    fun _ => shrinks_pure _ _ _ fun a b => noLarger_some ?_,
    fun _ => shrinks_binary _ _ _ fun list index => quiet_ofExcept (ensures_noLarger_getElement list index),
    fun _ => shrinks_binary _ _ _ fun pair index => quiet_ofExcept (ensures_noLarger_getHalf pair index),
    fun _ => shrinks_unary _ _ (shrinking_onSequence fun elements => ?_),
    fun _ => shrinks_binary _ _ _ fun list element => shrinking_onSequence (fun elements => .done ?_) list,
    fun _ => shrinks_binary _ _ _ fun list element =>
      shrinking_onSequence (fun elements => .done (noLarger_boolean _)) list,
    fun _ => shrinks_unary _ _ (shrinking_onSequence fun elements => .done ?_),
    shrinksUnlessListed_of_mem (by decide),
    fun _ => shrinks_unary _ _ fun list => quiet_ofExcept ?_,
    fun _ => shrinks_unary _ _ fun list => quiet_ofExcept ?_⟩
  · simp only [Node.complexity, Node.weight]
    omega
  · refine (quiet_ofExcept (ensures_any (Guard.length elements.length))).bind fun count _ => ?_
    exact .done (noLarger_number _)
  · refine noLarger_sequence ?_
    rw [Node.weight_append]
  · refine noLarger_sequence ?_
    rw [weight_perm elements.reverse_perm]
    exact Nat.le_add_right _ _
  · cases list with
    | sequence elements => exact ensures_noLarger_elementAt 0 fun element => noLarger_element
    | _ => exact ensures_error _ _
  · cases list with
    | sequence elements =>
        refine (ensures_any (Guard.index 0 elements.length)).bind fun _ _ => ensures_ok (noLarger_sequence ?_)
        have hsplit := Node.weight_append (elements.take 1) (elements.drop 1)
        rw [List.take_append_drop] at hsplit
        omega
    | _ => exact ensures_error _ _

theorem ensures_noLarger_extreme (wanted : Ordering) (nodes : List Node) :
    Ensures (NoLarger nodes) (extreme wanted nodes) := by
  unfold extreme
  split
  · exact ensures_ok noLarger_none
  · exact ensures_error _ _
  · exact (ensures_any _).bind fun best _ => ensures_ok (noLarger_number best)

theorem ensures_noLarger_median (nodes : List Node) : Ensures (NoLarger nodes) (median nodes) := by
  unfold median
  split
  · exact ensures_ok noLarger_none
  · rename_i values _
    refine (ensures_any (checkSample values.length 1)).bind fun _ _ => ?_
    dsimp only
    split
    · refine ensures_ok ?_
      cases (sortNumbers values)[(sortNumbers values).length / 2]? with
      | none => exact noLarger_none
      | some middle => exact noLarger_number middle
    · split
      · exact (ensures_any _).bind fun middle _ => ensures_ok (noLarger_number middle)
      · exact ensures_ok noLarger_none

theorem shrinks_statistics : ∀ operation ∈ statistics, ShrinksUnlessListed operation := by
  simp only [statistics, List.forall_mem_append, List.forall_mem_cons, List.not_mem_nil, false_implies,
    implies_true, and_true]
  refine ⟨⟨⟨fun _ => shrinks_unary _ _ fun list => ?_, shrinksUnlessListed_of_mem (by decide),
    shrinksUnlessListed_of_mem (by decide),
    fun _ => shrinks_unary _ _ (shrinking_onSequence fun elements => ?_)⟩,
    fun operation h _ => shrinks_reduction _ (ensures_noLarger_extreme _) operation h⟩,
    fun operation h _ => shrinks_reduction _ (ensures_noLarger_extreme _) operation h⟩
  · refine (quiet_ofExcept (ensures_any list.asReals)).bind fun values _ => ?_
    refine (quiet_ofExcept (ensures_any (squaredDeviations values))).bind fun squares _ => ?_
    exact .done (noLarger_number _)
  · exact quiet_ofExcept fun outcome houtcome =>
      noLarger_of_elements (ensures_noLarger_median elements outcome houtcome)

theorem shrinks_vector : ∀ operation ∈ vector, ShrinksUnlessListed operation := by
  simp only [vector, List.forall_mem_cons, List.not_mem_nil, false_implies, implies_true, and_true]
  exact ⟨shrinksUnlessListed_of_mem (by decide), shrinksUnlessListed_of_mem (by decide),
    shrinksUnlessListed_of_mem (by decide)⟩

/-- Standard operations shrink, apart from those that are named for their effects or as growing. -/
theorem shrinks_standard {operation : Operation} (hmem : operation ∈ standard.operations) :
    ShrinksUnlessListed operation := by
  rw [standard_operations] at hmem
  simp only [List.mem_append] at hmem
  rcases hmem with (((h | h) | h) | h) | ((h | h) | h)
  · exact fun _ => shrinks_arithmetic operation h
  · exact fun _ => shrinks_comparison operation h
  · exact fun _ => shrinks_logic operation h
  · exact shrinks_control operation h
  · exact shrinks_collection operation h
  · exact shrinks_statistics operation h
  · exact shrinks_vector operation h

end Builtin

/-! ### Reductions -/

/-- All symbols, and the names without effects whose applications do not grow. -/
def Vocabulary.shrinking : Vocabulary where
  symbol _ := True
  name name := EffectFreeName name ∧ name ∉ Builtin.growingNames

theorem Vocabulary.suits_shrinking : Vocabulary.shrinking.Suits where
  written := by
    show ∀ name ∈ Builtin.writtenNames, EffectFreeName name ∧ name ∉ Builtin.growingNames
    decide
  labels _ _ _ _ _ := trivial

/-- What a quiet action answers with has been promised. -/
theorem Action.QuietOn.of_answers {α : Type} {V : Vocabulary} {P : α → Prop} {action : Action Operation α}
    (h : action.QuietIn V P) {R : Node → Node → Prop} (hR : ∀ e r, e.Within V → R e r → r.Within V)
    {result : α} (hanswers : action.Answers R result) : P result := by
  induction h with
  | done hresult => exact hanswers.of_done ▸ hresult
  | fail failure => cases hanswers
  | simplify hnode _ _ ih =>
      cases hanswers with
      | simplify hanswer hnext => exact ih _ (hR _ _ hnode hanswer) hnext

theorem weight_arrange_le (registry : Registry) (name : String) (args : List Node) :
    Node.weight (arrange registry name args) ≤ Node.weight args := by
  rcases arrange_weight registry name args with ⟨hsame, _⟩ | hless <;> omega

section Reduction

variable {registry : Registry} {R : Node → Node → Prop} {name : String} {args : List Node}
  (hR : ∀ e r, e.Within .shrinking → R e r → r.Within .shrinking ∧ r.complexity ≤ e.complexity)
include hR

theorem weight_le_of_forall₂ {nodes results : List Node} (h : List.Forall₂ R nodes results)
    (hnodes : ∀ node ∈ nodes, node.Within .shrinking) :
    Node.weight results ≤ Node.weight nodes ∧ ∀ result ∈ results, result.Within .shrinking := by
  induction h with
  | nil => exact ⟨Nat.le_refl _, nofun⟩
  | cons hhead _ ih =>
      rw [List.forall_mem_cons] at hnodes
      obtain ⟨hwithin, hcomplexity⟩ := hR _ _ hnodes.1 hhead
      obtain ⟨hweight, hrest⟩ := ih hnodes.2
      exact ⟨Nat.add_le_add hcomplexity hweight, List.forall_mem_cons.mpr ⟨hwithin, hrest⟩⟩

theorem Prepares.weight_le {prepared : List Node} (h : Prepares registry R name args prepared)
    (hargs : ∀ arg ∈ args, arg.Within .shrinking) :
    Node.weight prepared ≤ Node.weight args ∧ ∀ arg ∈ prepared, arg.Within .shrinking := by
  cases h with
  | preserved _ => exact ⟨weight_arrange_le registry name args, (Vocabulary.kind _).arranged registry hargs⟩
  | @simplified reduced _ hreduced =>
      obtain ⟨hweight, hwithin⟩ := weight_le_of_forall₂ hR hreduced hargs
      exact ⟨(weight_arrange_le registry name reduced).trans hweight, (Vocabulary.kind _).arranged registry hwithin⟩

theorem Invokes.noLarger {outcome : Option Node} (h : Invokes Builtin.standard R name args outcome)
    (hname : Vocabulary.shrinking.name name) (hargs : ∀ arg ∈ args, arg.Within .shrinking) :
    NoLarger args outcome ∧ Offers .shrinking outcome := by
  cases h with
  | unresolved _ => exact ⟨noLarger_none, offered_none⟩
  | @answered operation _ hresolve hanswers =>
      obtain ⟨hmem, rfl, _⟩ := Registry.mem_of_resolve hresolve
      have hlisted : operation.name ∉ effectfulNames ++ Builtin.growingNames := by
        rw [List.mem_append, not_or]
        exact ⟨hname.1.2, hname.2⟩
      have hquiet := Builtin.quietIn_standard Vocabulary.suits_shrinking hmem hname hname.1.2 args hargs
      exact ⟨(Builtin.shrinks_standard hmem hlisted args).of_answers (fun _ r _ _ => r.within_all) hanswers,
        hquiet.of_answers (fun e r he hr => (hR e r he hr).1) hanswers⟩

/-- One step of simplification makes nothing larger if what it simplifies becomes no larger. -/
theorem Step.complexity_le {scope : Scope} (hstandard : scope.registry = Builtin.standard)
    (hunbound : ∀ name, scope.bindings.get? name = none) {e r : Node} (he : e.Within .shrinking)
    (h : Step scope R e r) : r.complexity ≤ e.complexity := by
  cases h with
  | number value => exact Nat.le_refl _
  | boolean value => exact Nat.le_refl _
  | free _ => exact Nat.le_refl _
  | bound hbound _ =>
      rw [hunbound] at hbound
      cases hbound
  | pair hfirst hsecond =>
      obtain ⟨hwithin, hwithin'⟩ := Node.within_pair.mp he
      have := (hR _ _ hwithin hfirst).2
      have := (hR _ _ hwithin' hsecond).2
      rw [Node.complexity, Node.complexity]
      omega
  | sequence helements =>
      exact Nat.add_le_add_left (weight_le_of_forall₂ hR helements (Node.within_sequence.mp he)).1 1
  | @rewritten name args prepared offer _ _ hprepares hinvokes hresult =>
      obtain ⟨hname, hargs⟩ := Node.within_application.mp he
      obtain ⟨hweight, hprepared⟩ := hprepares.weight_le hR hargs
      obtain ⟨hoffer, hwithin⟩ := (hstandard ▸ hinvokes).noLarger hR hname hprepared
      calc
        r.complexity
        _ ≤ offer.complexity := (hR offer r (hwithin offer rfl) hresult).2
        _ ≤ 1 + Node.weight prepared := hoffer offer rfl
        _ ≤ 1 + Node.weight args := Nat.add_le_add_left hweight 1
  | undecided _ hprepares _ _ =>
      exact Nat.add_le_add_left (hprepares.weight_le hR (Node.within_application.mp he).2).1 1
  | regrouped _ hprepares _ _ _ _ =>
      have hweight := (hprepares.weight_le hR (Node.within_application.mp he).2).1
      split_ifs with hlighter
      · exact hlighter.le.trans (Nat.add_le_add_left hweight 1)
      · exact Nat.add_le_add_left hweight 1

end Reduction

/-- Nothing becomes larger, and nothing applies a name that grows. -/
theorem Reduces.complexity_le {scope : Scope} (hstandard : scope.registry = Builtin.standard)
    (hunbound : ∀ name, scope.bindings.get? name = none) {room : Nat} {e r : Node}
    (he : e.Within .shrinking) (h : Reduces scope room e r) :
    r.Within .shrinking ∧ r.complexity ≤ e.complexity := by
  have hcalm : scope.CalmIn .shrinking := by
    refine ⟨fun name bare hname hmarked => ?_, fun operation hmem hname args _ hargs => ?_,
      fun name value _ hbound => ?_⟩
    · rw [hname.1.1] at hmarked
      cases hmarked
    · rw [hstandard] at hmem
      exact (Builtin.quietIn_standard Vocabulary.suits_shrinking hmem hname hname.1.2 args hargs).calm
    · rw [hunbound] at hbound
      cases hbound
  induction room generalizing e r with
  | zero => exact h.elim
  | succ room ih =>
      let env : Environment := { current := scope, base := scope }
      have hstill := hcalm.still (room + 1) e he env rfl
      rw [simplifyWithin_follows scope (room + 1) e r h env rfl] at hstill
      exact ⟨hstill.1, Step.complexity_le (fun e r => ih) hstandard hunbound he h⟩

/-- **Simplification never grows an expression.** Among the standard operations only copies, pairings,
labels and the reductions that spell a formula out make an expression larger; without these, and without
effects and variables, a result is no larger than its expression. -/
theorem simplify_complexity_le {env after : Environment} (hstandard : env.registry = Builtin.standard)
    (hunbound : ∀ name, env.get? name = none) {e r : Node}
    (hnames : ∀ name args, .application name args ∈ e.subterms →
      EffectFreeName name ∧ name ∉ Builtin.growingNames)
    (hrun : simplify e env = (.ok r, after)) : r.complexity ≤ e.complexity := by
  have he : e.Within .shrinking := by
    intro part hpart
    cases part with
    | application name args => exact hnames name args hpart
    | _ => trivial
  have hquiet : env.current.Quiet := quiet_of_standard hstandard fun name value hbound => by
    rw [hunbound] at hbound
    cases hbound
  have hfree : e.EffectFree := fun name args hpart => (hnames name args hpart).1
  obtain ⟨_, hreduces, _⟩ := (simplify_eq_ok_iff hquiet hfree).mp hrun
  exact (hreduces.complexity_le hstandard hunbound he).2

/-- The operators are among the names that the bound is about, and so is every name without operations. -/
example : ∀ name ∈ ["+", "-", "*", "/", "%", "^", "!", "negate", "and", "or", "xor", "not", "<", ">", "<=",
    ">=", "==", "!="], EffectFreeName name ∧ name ∉ Builtin.growingNames := by
  decide

example : ∀ name ∈ effectfulNames ++ Builtin.growingNames, Builtin.standard.contains name := by
  decide +kernel

/-- Zero minus a sum, where the sum becomes smaller and the difference becomes a negation. -/
theorem complexity_difference_le :
    let x := Node.symbol "x"
    let f := Node.application "f" [.application "xor" [.boolean true, x]]
    let e := Node.application "-" [.integer 0, .application "+" [.integer 2, f, .integer 3]]
    let r := Node.application "negate" [.application "+" [.integer 5, .application "f" [.application "not" [x]]]]
    (simplify e Environment.standard).1 = .ok r ∧ r.complexity ≤ e.complexity := by
  intro x f e r
  have hcomputed : (simplify e Environment.standard).1 = .ok r := eq_ok_of_same (by decide) (by decide +kernel)
  have hnames : ∀ name args, .application name args ∈ e.subterms →
      EffectFreeName name ∧ name ∉ Builtin.growingNames := by
    intro name args hpart
    have hname : name ∈ ["-", "+", "f", "xor"] := by
      simp only [e, f, x, Node.subterms, Node.allSubterms, Node.integer, List.cons_append, List.nil_append,
        List.mem_cons, Node.application.injEq, reduceCtorEq, List.not_mem_nil, or_false, false_or] at hpart
      rcases hpart with ⟨rfl, _⟩ | ⟨rfl, _⟩ | ⟨rfl, _⟩ | ⟨rfl, _⟩ <;> decide
    have hlisted : ∀ name ∈ ["-", "+", "f", "xor"], EffectFreeName name ∧ name ∉ Builtin.growingNames := by
      decide
    exact hlisted name hname
  rcases hrun : simplify e Environment.standard with ⟨outcome, after⟩
  rw [hrun] at hcomputed
  obtain rfl : outcome = .ok r := hcomputed
  exact ⟨rfl, simplify_complexity_le rfl (fun _ => rfl) hnames hrun⟩

end SymbolicAlgebra
