import SymbolicAlgebra.Proofs.Standard
import SymbolicAlgebra.Proofs.Reduction

/-! Operations that answer at once. The handlers of arithmetic, comparisons, connectives and collections
end without a step of the interpreter, so that what such an operation offers is a function of its
arguments. Of the operators that are no chains, this function is given in full. -/

namespace SymbolicAlgebra

namespace Action

variable {α β : Type}

/-- The action ends without a step of the interpreter. -/
inductive Immediate : Action Operation α → Prop
  | done (result : α) : Immediate (.done result)
  | fail (failure : Failure) : Immediate (.fail failure)

theorem Immediate.bind {first : Action Operation α} {next : α → Action Operation β}
    (hfirst : first.Immediate) (hnext : ∀ result, (next result).Immediate) : (first >>= next).Immediate := by
  cases hfirst with
  | done result => exact hnext result
  | fail failure => exact .fail failure

theorem immediate_ofExcept (computation : Except Failure α) : (ofExcept computation).Immediate := by
  cases computation with
  | ok result => exact .done result
  | error failure => exact .fail failure

/-- The offer of an action that has ended. -/
def offer? : Action Operation (Option Node) → Option Node
  | .done offer => offer
  | _ => none

theorem Immediate.offer_eq {action : Action Operation (Option Node)} (himmediate : action.Immediate)
    {R : Node → Node → Prop} {outcome : Option Node} (h : action.Answers R outcome) :
    outcome = action.offer? := by
  cases himmediate with
  | done result => exact h.of_done
  | fail failure => cases h

end Action

open SymbolicAlgebra.Action

/-! ### Every handler -/

/-- The operation answers at once. -/
def Operation.Immediate (operation : Operation) : Prop :=
  ∀ args, (operation.handler args).Immediate

namespace Operation

theorem immediate_unary (name : String) (parameter : Parameter)
    {handler : Node → Action Operation (Option Node)} (h : ∀ a, (handler a).Immediate) :
    (unary name parameter handler).Immediate :=
  unary_cases (motive := fun _ action => action.Immediate) (fun _ => .done none) name parameter h

theorem immediate_binary (name : String) (first second : Parameter)
    {handler : Node → Node → Action Operation (Option Node)} (h : ∀ a b, (handler a b).Immediate) :
    (binary name first second handler).Immediate :=
  binary_cases (motive := fun _ action => action.Immediate) (fun _ => .done none) name first second h

theorem immediate_pure (name : String) (first second : Parameter) (offer : Node → Node → Option Node) :
    (binary name first second fun a b => .done (offer a b)).Immediate :=
  immediate_binary name first second fun _ _ => .done _

theorem Immediate.commutative {operation : Operation} (h : operation.Immediate) :
    operation.commutative.Immediate := h

theorem Immediate.forwardCommutative {operation : Operation} (h : operation.Immediate) :
    operation.forwardCommutative.Immediate := h

end Operation

namespace Builtin

open Operation

theorem immediate_onNumbers (name : String) (compute : Number → Number → Except Failure Number) :
    (binary name .number .number (onNumbers compute)).Immediate := by
  refine immediate_binary _ _ _ fun a b => ?_
  refine (immediate_ofExcept a.asNumber).bind fun x => ?_
  refine (immediate_ofExcept b.asNumber).bind fun y => ?_
  exact (immediate_ofExcept (compute x y)).bind fun _ => .done _

theorem immediate_arithmetic : ∀ operation ∈ arithmetic, operation.Immediate := by
  simp only [arithmetic, List.forall_mem_cons, List.not_mem_nil, false_implies, implies_true, and_true]
  refine ⟨(immediate_onNumbers _ _).commutative, (immediate_pure _ _ _ _).commutative,
    (immediate_onNumbers _ _).commutative, (immediate_pure _ _ _ _).commutative,
    (immediate_onNumbers _ _).forwardCommutative, (immediate_pure _ _ _ _).forwardCommutative,
    immediate_onNumbers _ _, immediate_pure _ _ _ _, immediate_onNumbers _ _, immediate_onNumbers _ _,
    immediate_pure _ _ _ _, ?_, ?_, ?_⟩
  · exact immediate_unary _ _ fun a => (immediate_ofExcept a.asNumber).bind fun _ => .done _
  · exact immediate_unary _ _ fun a => .done _
  · refine immediate_unary _ _ fun a => (immediate_ofExcept a.asNumber).bind fun x => ?_
    exact (immediate_ofExcept x.factorial).bind fun _ => .done _

theorem immediate_comparison : ∀ operation ∈ comparison, operation.Immediate := by
  have hordering (name : String) (test : Ordering → Bool) :
      (binary name .number .number (ordering test)).Immediate := by
    refine immediate_binary _ _ _ fun a b => ?_
    refine (immediate_ofExcept a.asNumber).bind fun x => ?_
    exact (immediate_ofExcept b.asNumber).bind fun y => .done _
  simp only [comparison, List.forall_mem_cons, List.not_mem_nil, false_implies, implies_true, and_true]
  exact ⟨hordering _ _, hordering _ _, hordering _ _, hordering _ _, immediate_pure _ _ _ _,
    immediate_pure _ _ _ _⟩

theorem immediate_logic : ∀ operation ∈ logic, operation.Immediate := by
  have honBooleans (name : String) (compute : Bool → Bool → Bool) :
      (binary name .boolean .boolean (onBooleans compute)).Immediate := by
    refine immediate_binary _ _ _ fun a b => ?_
    refine (immediate_ofExcept a.asBoolean).bind fun p => ?_
    exact (immediate_ofExcept b.asBoolean).bind fun q => .done _
  simp only [logic, List.forall_mem_cons, List.not_mem_nil, false_implies, implies_true, and_true]
  refine ⟨(honBooleans _ _).commutative, (immediate_pure _ _ _ _).commutative,
    (honBooleans _ _).commutative, (immediate_pure _ _ _ _).commutative, honBooleans _ _,
    immediate_pure _ _ _ _, ?_, ?_⟩
  · exact immediate_unary _ _ fun a => (immediate_ofExcept a.asBoolean).bind fun _ => .done _
  · exact immediate_unary _ _ fun a => .done _

theorem immediate_collection : ∀ operation ∈ collection, operation.Immediate := by
  have hofExcept (name : String) (first second : Parameter)
      (compute : Node → Node → Except Failure (Option Node)) :
      (binary name first second fun a b => .ofExcept (compute a b)).Immediate :=
    immediate_binary name first second fun a b => immediate_ofExcept (compute a b)
  have honSequence (compute : List Node → Action Operation (Option Node))
      (h : ∀ elements, (compute elements).Immediate) (list : Node) :
      (ofExcept list.asSequence >>= compute).Immediate :=
    (immediate_ofExcept list.asSequence).bind h
  simp only [collection, List.forall_mem_cons, List.not_mem_nil, false_implies, implies_true, and_true]
  exact ⟨fun _ => .done _, immediate_pure _ _ _ _, hofExcept _ _ _ _, hofExcept _ _ _ _,
    immediate_unary _ _ (honSequence _ fun elements =>
      (immediate_ofExcept (Guard.length elements.length)).bind fun _ => .done _),
    immediate_binary _ _ _ fun list _ => honSequence _ (fun _ => .done _) list,
    immediate_binary _ _ _ fun list _ => honSequence _ (fun _ => .done _) list,
    immediate_unary _ _ (honSequence _ fun _ => .done _), hofExcept _ _ _ _,
    immediate_unary _ _ fun list => immediate_ofExcept (firstElement list),
    immediate_unary _ _ fun list => immediate_ofExcept (restOf list)⟩

/-! ### Offers -/

/-- The operators of numbers, booleans and sequences that are no chains, with the numbers of their
arguments. -/
def plainArities : List (String × Nat) :=
  [("-", 2), ("negate", 1), ("xor", 2), ("not", 1), ("<", 2), (">", 2), ("<=", 2), (">=", 2), ("==", 2),
    ("!=", 2), ("get", 2), ("size", 1), ("contains", 2), ("first", 1), ("rest", 1), ("reverse", 1),
    ("append", 2)]

def plainNames : List String :=
  plainArities.map Prod.fst

/-- What the operation that takes a call offers at once. -/
def offered? (name : String) (args : List Node) : Option Node :=
  (standard.resolve name args).bind fun operation => (operation.handler args).offer?

theorem outcome_eq_offered {R : Node → Node → Prop} {name : String} {args : List Node}
    {outcome : Option Node} (hname : name ∈ plainNames) (h : Invokes standard R name args outcome) :
    outcome = offered? name args := by
  cases h with
  | unresolved hresolve => rw [offered?, hresolve, Option.bind_none]
  | @answered operation _ hresolve hanswers =>
      rw [offered?, hresolve, Option.bind_some]
      refine Action.Immediate.offer_eq ?_ hanswers
      obtain ⟨hmem, rfl, _⟩ := Registry.mem_of_resolve hresolve
      have hother : ∀ operation ∈ control ++ (statistics ++ vector), operation.name ∉ plainNames := by
        decide +kernel
      rw [standard_operations] at hmem
      simp only [List.mem_append] at hmem hother
      rcases hmem with (((h | h) | h) | h) | ((h | h) | h)
      · exact immediate_arithmetic operation h args
      · exact immediate_comparison operation h args
      · exact immediate_logic operation h args
      · exact (hother operation (.inl h) hname).elim
      · exact immediate_collection operation h args
      · exact (hother operation (.inr (.inl h)) hname).elim
      · exact (hother operation (.inr (.inr h)) hname).elim

/-- An operator offers something for its own number of arguments only. -/
theorem length_of_offered {name : String} {arity : Nat} {args : List Node} {offer : Node}
    (hname : (name, arity) ∈ plainArities) (h : offered? name args = some offer) : args.length = arity := by
  obtain ⟨operation, hresolve, _⟩ := Option.bind_eq_some_iff.mp h
  obtain ⟨hmem, rfl, htakes⟩ := Registry.mem_of_resolve hresolve
  have hsignatures : ∀ operation ∈ standard.operations, ∀ entry ∈ plainArities, operation.name = entry.1 →
      operation.signature.length = entry.2 ∧ operation.isUniversal = false := by
    decide +kernel
  obtain ⟨hlength, huniversal⟩ := hsignatures operation hmem _ hname rfl
  rcases htakes with haccepts | htakes
  · exact (Signature.length_eq_of_accepts haccepts).symm.trans hlength
  · rw [huniversal] at htakes
    cases htakes

/-- The operation that takes the arguments is found among those of its name. -/
theorem offered_of_overloads {name : String} {operations : List Operation}
    (hoverloads : standard.overloads name = operations)
    (hlimited : operations.all fun operation => !operation.isUniversal) (args : List Node) :
    offered? name args =
      (operations.find? (·.accepts args)).bind fun operation => (operation.handler args).offer? := by
  have hnone : operations.find? (·.isUniversal) = none := by
    simpa using hlimited
  rw [offered?, Registry.resolve, hoverloads, hnone]
  cases operations.find? (·.accepts args) <;> rfl

/-- What a name with one operation, of one argument, offers. -/
theorem offered_unary {name : String} {kind : Parameter} {handler : Node → Action Operation (Option Node)}
    (hoverloads : standard.overloads name = [unary name kind handler]) (hkind : kind ≠ .universal)
    (a : Node) : offered? name [a] = if kind.accepts a then (handler a).offer? else none := by
  rw [offered_of_overloads hoverloads (by simpa [unary, isUniversal] using hkind)]
  by_cases h : kind.accepts a <;> simp [Operation.accepts, unary, Signature.accepts, h]

/-- What a name with one operation, of two arguments, offers. -/
theorem offered_binary {name : String} {first second : Parameter}
    {handler : Node → Node → Action Operation (Option Node)}
    (hoverloads : standard.overloads name = [binary name first second handler]) (a b : Node) :
    offered? name [a, b] = if first.accepts a ∧ second.accepts b then (handler a b).offer? else none := by
  rw [offered_of_overloads hoverloads (by simp [binary, isUniversal])]
  by_cases h : first.accepts a ∧ second.accepts b <;> simp [Operation.accepts, binary, Signature.accepts, h]

/-! ### The offers of the operators that are no chains -/

theorem offered_difference (a b : Node) : offered? "-" [a, b] =
    match a, b with
    | .number x, .number y => some (.number (x.sub y))
    | a, b => subIdentity a b := by
  have hoverloads : standard.overloads "-" =
      [(binary "-" .number .number (onNumbers fun x y => .ok (x.sub y))).forwardCommutative,
        (binary "-" .any .any fun a b => .done (subIdentity a b)).forwardCommutative] :=
    (overloads_standard _).trans rfl
  rw [offered_of_overloads hoverloads rfl]
  cases a <;> cases b <;> rfl

theorem offered_exclusion (a b : Node) : offered? "xor" [a, b] =
    match a, b with
    | .boolean p, .boolean q => some (.boolean (p ^^ q))
    | a, b => xorIdentity a b := by
  have hoverloads : standard.overloads "xor" =
      [binary "xor" .boolean .boolean (onBooleans (· ^^ ·)),
        binary "xor" .any .any fun a b => .done (xorIdentity a b)] := (overloads_standard _).trans rfl
  rw [offered_of_overloads hoverloads rfl]
  cases a <;> cases b <;> rfl

theorem offered_negation (a : Node) : offered? "negate" [a] =
    match a with
    | .number x => some (.number x.neg)
    | a => unwrap "negate" a := by
  have hoverloads : standard.overloads "negate" =
      [unary "negate" .number fun a => do
          let x ← a.asNumber
          return some (.number x.neg),
        unary "negate" .application fun a => .done (unwrap "negate" a)] := (overloads_standard _).trans rfl
  rw [offered_of_overloads hoverloads rfl]
  cases a <;> rfl

theorem offered_complement (a : Node) : offered? "not" [a] =
    match a with
    | .boolean p => some (.boolean !p)
    | a => unwrap "not" a := by
  have hoverloads : standard.overloads "not" =
      [unary "not" .boolean fun a => do
          let p ← a.asBoolean
          return some (.boolean !p),
        unary "not" .application fun a => .done (unwrap "not" a)] := (overloads_standard _).trans rfl
  rw [offered_of_overloads hoverloads rfl]
  cases a <;> rfl

/-- The comparisons of numbers, with the test that the order has to pass. -/
def orderings : List (String × (Ordering → Bool)) :=
  [("<", Ordering.isLT), (">", Ordering.isGT), ("<=", Ordering.isLE), (">=", Ordering.isGE)]

theorem offered_ordering {name : String} {test : Ordering → Bool} (hname : (name, test) ∈ orderings)
    (a b : Node) : offered? name [a, b] =
      match a, b with
      | .number x, .number y => (x.compare? y).map fun order => .boolean (test order)
      | _, _ => none := by
  have hoverloads : standard.overloads name = [binary name .number .number (ordering test)] := by
    simp only [orderings, List.mem_cons, Prod.mk.injEq, List.not_mem_nil, or_false] at hname
    rw [overloads_standard]
    rcases hname with ⟨rfl, rfl⟩ | ⟨rfl, rfl⟩ | ⟨rfl, rfl⟩ | ⟨rfl, rfl⟩ <;> rfl
  rw [offered_binary hoverloads]
  cases a <;> cases b <;> rfl

/-- The two questions of equality, with what they make of the answer. -/
def equalities : List (String × (Bool → Bool)) :=
  [("==", id), ("!=", not)]

theorem offered_equality {name : String} {answer : Bool → Bool} (hname : (name, answer) ∈ equalities)
    (a b : Node) :
    offered? name [a, b] = (decideEquality a b).map fun equal => .boolean (answer equal) := by
  have hoverloads : standard.overloads name =
      [binary name .any .any fun a b =>
        .done ((decideEquality a b).map fun equal => .boolean (answer equal))] := by
    simp only [equalities, List.mem_cons, Prod.mk.injEq, List.not_mem_nil, or_false] at hname
    rw [overloads_standard]
    rcases hname with ⟨rfl, rfl⟩ | ⟨rfl, rfl⟩ <;> rfl
  rw [offered_binary hoverloads, if_pos ⟨rfl, rfl⟩]
  rfl

/-- The element at an index, where there is one. -/
def element? (elements : List Node) (index : Int) : Option Node :=
  (elementAt elements index).toOption.join

theorem element_eq (elements : List Node) (index : Int) :
    element? elements index =
      if 0 ≤ index ∧ index < elements.length then elements[index.toNat]? else none := by
  rw [element?, elementAt, Guard.index]
  split <;> rfl

theorem mem_of_element {elements : List Node} {index : Int} {element : Node}
    (h : element? elements index = some element) : element ∈ elements := by
  rw [element_eq] at h
  split at h
  · exact List.mem_of_getElem? h
  · cases h

/-- What is done to all elements is done to the one at an index. -/
theorem element_map (f : Node → Node) (elements : List Node) (index : Int) :
    element? (elements.map f) index = (element? elements index).map f := by
  rw [element_eq, element_eq, List.length_map, List.getElem?_map]
  split <;> rfl

theorem offer_ofExcept (computation : Except Failure (Option Node)) :
    (Action.ofExcept computation).offer? = computation.toOption.join := by
  cases computation <;> rfl

theorem offered_get (list index : Node) : offered? "get" [list, index] =
    match list, index with
    | .sequence elements, .number (.small i) => element? elements i.toInt
    | .pair first second, .number (.small i) => element? [first, second] i.toInt
    | _, _ => none := by
  have hoverloads : standard.overloads "get" =
      [binary "get" .sequence .integer fun list index => getElement list index,
        binary "get" .pair .integer fun pair index => getHalf pair index] := (overloads_standard _).trans rfl
  rw [offered_of_overloads hoverloads rfl]
  cases list <;> cases index <;> try rfl
  all_goals
    rename_i value
    cases value <;> first | exact offer_ofExcept _ | rfl

theorem offered_first (list : Node) : offered? "first" [list] =
    match list with
    | .sequence elements => element? elements 0
    | _ => none := by
  have hoverloads : standard.overloads "first" = [unary "first" .sequence fun list => firstElement list] :=
    (overloads_standard _).trans rfl
  rw [offered_unary hoverloads (by decide)]
  cases list <;> first | exact offer_ofExcept _ | rfl

theorem offered_rest (list : Node) : offered? "rest" [list] =
    match list with
    | .sequence elements => (Guard.index 0 elements.length).toOption.map fun _ => .sequence (elements.drop 1)
    | _ => none := by
  have hoverloads : standard.overloads "rest" = [unary "rest" .sequence fun list => restOf list] :=
    (overloads_standard _).trans rfl
  rw [offered_unary hoverloads (by decide)]
  cases list with
  | sequence elements =>
      change (Action.ofExcept (Guard.index 0 elements.length >>= fun _ =>
        .ok (some (Node.sequence (elements.drop 1))))).offer? =
          (Guard.index 0 elements.length).toOption.map fun _ => Node.sequence (elements.drop 1)
      cases Guard.index 0 elements.length <;> rfl
  | _ => rfl

theorem offered_size (list : Node) : offered? "size" [list] =
    match list with
    | .sequence elements => (Guard.length elements.length).toOption.map fun count => .number (.small count)
    | _ => none := by
  have hoverloads : standard.overloads "size" = [unary "size" .sequence fun list => do
      let elements ← list.asSequence
      let count ← Guard.length elements.length
      return some (.number (.small count))] := (overloads_standard _).trans rfl
  rw [offered_unary hoverloads (by decide)]
  cases list with
  | sequence elements =>
      change (Action.ofExcept (Guard.length elements.length) >>= fun count =>
        pure (some (Node.number (.small count)))).offer? =
          (Guard.length elements.length).toOption.map fun count => Node.number (.small count)
      cases Guard.length elements.length <;> rfl
  | _ => rfl

theorem offered_reverse (list : Node) : offered? "reverse" [list] =
    match list with
    | .sequence elements => some (.sequence elements.reverse)
    | _ => none := by
  have hoverloads : standard.overloads "reverse" = [unary "reverse" .sequence fun list => do
      let elements ← list.asSequence
      return some (.sequence elements.reverse)] := (overloads_standard _).trans rfl
  rw [offered_unary hoverloads (by decide)]
  cases list <;> rfl

theorem offered_append (list element : Node) : offered? "append" [list, element] =
    match list with
    | .sequence elements => some (.sequence (elements ++ [element]))
    | _ => none := by
  have hoverloads : standard.overloads "append" = [binary "append" .sequence .any fun list element => do
      let elements ← list.asSequence
      return some (.sequence (elements ++ [element]))] := (overloads_standard _).trans rfl
  rw [offered_binary hoverloads]
  cases list <;> rfl

theorem offered_contains (list element : Node) : offered? "contains" [list, element] =
    match list with
    | .sequence elements => some (.boolean (elements.any (· == element)))
    | _ => none := by
  have hoverloads : standard.overloads "contains" = [binary "contains" .sequence .any fun list element => do
      let elements ← list.asSequence
      return some (.boolean (elements.any (· == element)))] := (overloads_standard _).trans rfl
  rw [offered_binary hoverloads]
  cases list <;> rfl

end Builtin

end SymbolicAlgebra
