import Mathlib.Data.List.Forall2
import SymbolicAlgebra.Operation.Registry

/-! What a call goes to. The operation that a registry resolves a call to has the name of the call and
takes its arguments, and an operation that is registered alone under its name is the one found. -/

namespace SymbolicAlgebra

namespace Signature

theorem length_eq_of_accepts {signature : Signature} {args : List Node}
    (h : Signature.accepts signature args) : signature.length = args.length := by
  induction signature generalizing args with
  | nil =>
      cases args with
      | nil => rfl
      | cons arg args => simp [accepts] at h
  | cons parameter signature ih =>
      cases args with
      | nil => simp [accepts] at h
      | cons arg args =>
          rw [accepts, Bool.and_eq_true] at h
          rw [List.length_cons, List.length_cons, ih h.2]

theorem accepts_replicate_any (args : List Node) :
    Signature.accepts (List.replicate args.length .any) args := by
  induction args with
  | nil => rfl
  | cons arg rest ih => simpa [List.replicate_succ, Signature.accepts, Parameter.accepts] using ih

end Signature

namespace Registry

variable {registry : Registry} {name : String} {args : List Node} {operation : Operation}

/-- A call goes to an operation of its name, which accepts the arguments or takes any. -/
theorem mem_of_resolve (h : registry.resolve name args = some operation) :
    operation ∈ registry.operations ∧ operation.name = name ∧
      (operation.accepts args ∨ operation.isUniversal) := by
  have hmem (h : operation ∈ registry.overloads name) :
      operation ∈ registry.operations ∧ operation.name = name := by
    rw [overloads, List.mem_filter] at h
    exact ⟨h.1, beq_iff_eq.mp h.2⟩
  rw [resolve] at h
  split at h
  · rename_i found hfound
    cases h
    obtain ⟨hoperation, hname⟩ := hmem (List.mem_of_find?_eq_some hfound)
    have haccepts := List.find?_some hfound
    exact ⟨hoperation, hname, .inl haccepts⟩
  · obtain ⟨hoperation, hname⟩ := hmem (List.mem_of_find?_eq_some h)
    have huniversal := List.find?_some h
    exact ⟨hoperation, hname, .inr huniversal⟩

theorem exists_of_hasAttribute {selected : Attributes → Bool} (h : registry.hasAttribute selected name) :
    ∃ operation ∈ registry.operations, operation.name = name ∧ selected operation.attributes := by
  rw [hasAttribute, List.any_eq_true] at h
  obtain ⟨operation, hmem, hselected⟩ := h
  rw [overloads, List.mem_filter] at hmem
  exact ⟨operation, hmem.1, beq_iff_eq.mp hmem.2, hselected⟩

theorem hasAttribute_of_mem {selected : Attributes → Bool} (hmem : operation ∈ registry.operations)
    (hselected : selected operation.attributes) : registry.hasAttribute selected operation.name := by
  rw [hasAttribute, List.any_eq_true]
  exact ⟨operation, List.mem_filter.mpr ⟨hmem, beq_self_eq_true _⟩, hselected⟩

/-- A name with one operation has the attributes of this operation. -/
theorem hasAttribute_of_sole (hsole : registry.overloads name = [operation]) (selected : Attributes → Bool) :
    registry.hasAttribute selected name = selected operation.attributes := by
  rw [hasAttribute, hsole, List.any_cons, List.any_nil, Bool.or_false]

/-- A name with one operation has no other that its calls could go to. -/
theorem resolve_of_sole (hsole : registry.overloads name = [operation]) (hlimited : operation.isUniversal = false) :
    registry.resolve name args = if operation.accepts args then some operation else none := by
  cases haccepts : operation.accepts args <;> simp [resolve, hsole, hlimited, haccepts]

theorem contains_of_mem (hmem : operation ∈ registry.operations) : registry.contains operation.name :=
  List.any_eq_true.mpr ⟨operation, hmem, beq_self_eq_true _⟩

theorem exists_of_contains (h : registry.contains name) :
    ∃ operation ∈ registry.operations, operation.name = name := by
  obtain ⟨operation, hmem, hname⟩ := List.any_eq_true.mp h
  exact ⟨operation, hmem, eq_of_beq hname⟩

/-- Commutative names have their arguments simplified, and only their applications to at most two
arguments go to an operation. -/
def FoldsByPairs (registry : Registry) : Prop :=
  ∀ name, registry.isCommutative name →
    ¬registry.preservesArguments name ∧ ∀ args : List Node, 2 < args.length → registry.resolve name args = none

theorem mem_enter {other : Operation} {operations : List Operation}
    (h : other ∈ enter operation operations) : other = operation ∨ other ∈ operations := by
  induction operations with
  | nil => exact .inl (List.mem_singleton.mp h)
  | cons first rest ih =>
      rw [enter] at h
      split at h
      · rcases List.mem_cons.mp h with hsame | hrest
        · exact .inl hsame
        · exact .inr (List.mem_cons_of_mem _ hrest)
      · rcases List.mem_cons.mp h with hsame | hrest
        · exact .inr (hsame ▸ List.mem_cons_self)
        · exact (ih hrest).imp id (List.mem_cons_of_mem _)

/-- A name and arguments have no operation exactly if none of that name takes them. -/
theorem resolve_eq_none_iff : registry.resolve name args = none ↔
    ∀ operation ∈ registry.operations, operation.name = name →
      ¬(operation.accepts args ∨ operation.isUniversal) := by
  have hmem (operation : Operation) : operation ∈ registry.overloads name ↔
      operation ∈ registry.operations ∧ operation.name = name := by
    rw [overloads, List.mem_filter, beq_iff_eq]
  rw [resolve]
  constructor
  · intro h operation hoperation hname htakes
    split at h
    · cases h
    · rename_i haccepting
      have hoverload := (hmem operation).mpr ⟨hoperation, hname⟩
      rcases htakes with haccepts | huniversal
      · exact List.find?_eq_none.mp haccepting operation hoverload haccepts
      · exact List.find?_eq_none.mp h operation hoverload huniversal
  · intro h
    have hnone (operation : Operation) (hoverload : operation ∈ registry.overloads name) :=
      h operation ((hmem operation).mp hoverload).1 ((hmem operation).mp hoverload).2
    rw [List.find?_eq_none.mpr fun operation hoverload haccepts => hnone operation hoverload (.inl haccepts)]
    exact List.find?_eq_none.mpr fun operation hoverload huniversal => hnone operation hoverload (.inr huniversal)

/-- Fewer operations fold by pairs if all of them do. -/
theorem FoldsByPairs.of_operations {other : Registry} (h : other.FoldsByPairs)
    (hsub : ∀ operation ∈ registry.operations, operation ∈ other.operations) : registry.FoldsByPairs := by
  have hattribute {selected : Attributes → Bool} {name : String} (hown : registry.hasAttribute selected name) :
      other.hasAttribute selected name := by
    obtain ⟨operation, hmem, rfl, hselected⟩ := exists_of_hasAttribute hown
    exact hasAttribute_of_mem (hsub operation hmem) hselected
  intro name hcommutative
  obtain ⟨hpreserves, hresolve⟩ := h name (hattribute hcommutative)
  refine ⟨fun hpreserved => hpreserves (hattribute hpreserved), fun args hlong => ?_⟩
  refine resolve_eq_none_iff.mpr fun operation hmem => ?_
  exact resolve_eq_none_iff.mp (hresolve args hlong) operation (hsub operation hmem)

/-! ### Registering one more operation -/

/-- If all others that are looked for have its name and its signature, the new operation is found. -/
theorem find?_enter_of_pos {p : Operation → Bool} {operations : List Operation} (hfound : p operation)
    (halike : ∀ other ∈ operations, p other → denotes operation.name operation.signature other) :
    (enter operation operations).find? p = some operation := by
  induction operations with
  | nil => rw [enter, List.find?_cons_of_pos hfound]
  | cons other rest ih =>
      rw [List.forall_mem_cons] at halike
      rw [enter]
      split
      · rw [List.find?_cons_of_pos hfound]
      · rename_i hdifferent
        rw [List.find?_cons_of_neg fun h => hdifferent (halike.1 h), ih halike.2]

/-- If neither the new operation nor what it replaces is looked for, the same is found as before. -/
theorem find?_enter_of_neg {p : Operation → Bool} {operations : List Operation} (hnot : ¬p operation)
    (hreplaced : ∀ other, denotes operation.name operation.signature other → ¬p other) :
    (enter operation operations).find? p = operations.find? p := by
  induction operations with
  | nil => rw [enter, List.find?_cons_of_neg hnot]
  | cons other rest ih =>
      rw [enter]
      split
      · rename_i hsame
        rw [List.find?_cons_of_neg hnot, List.find?_cons_of_neg (hreplaced other hsame)]
      · rw [List.find?_cons, List.find?_cons, ih]

/-- The operation that a call goes to, looked for among all operations. -/
theorem resolve_eq : registry.resolve name args =
    (registry.operations.find? fun other => other.name == name && other.accepts args).or
      (registry.operations.find? fun other => other.name == name && other.isUniversal) := by
  have hfind (test : Operation → Bool) : (registry.overloads name).find? test =
      registry.operations.find? fun other => other.name == name && test other := by
    rw [overloads, List.find?_filter]
    simp only [Bool.decide_and, Bool.decide_eq_true]
  rw [resolve, hfind, hfind]
  cases registry.operations.find? fun other => other.name == name && other.accepts args <;> rfl

/-- An operation with a name that is new is the only one of its name. -/
theorem overloads_register_of_new (hnew : registry.contains operation.name = false) :
    (registry.register operation).overloads operation.name = [operation] := by
  show (enter operation registry.operations).filter (·.name == operation.name) = [operation]
  rw [contains, List.any_eq_false] at hnew
  generalize registry.operations = operations at hnew
  induction operations with
  | nil => exact List.filter_cons_of_pos (beq_self_eq_true _)
  | cons other rest ih =>
      rw [List.forall_mem_cons] at hnew
      have hdifferent : ¬denotes operation.name operation.signature other :=
        fun hsame => hnew.1 (Bool.and_eq_true_iff.mp hsame).1
      rw [enter, if_neg hdifferent, List.filter_cons_of_neg (by simpa using hnew.1), ih hnew.2]

/-- A call that a registered operation accepts goes to it, unless the call is accepted by another one of
its name with another signature. -/
theorem resolve_register (haccepts : operation.accepts args)
    (halike : ∀ other ∈ registry.overloads operation.name, other.accepts args →
      other.signature = operation.signature) :
    (registry.register operation).resolve operation.name args = some operation := by
  rw [resolve_eq, register, find?_enter_of_pos, Option.some_or]
  · simpa using haccepts
  · intro other hother htaken
    rw [Bool.and_eq_true] at htaken
    have hoverload : other ∈ registry.overloads operation.name := List.mem_filter.mpr ⟨hother, htaken.1⟩
    rw [denotes, htaken.1, Bool.true_and, beq_iff_eq]
    exact halike other hoverload htaken.2

/-- A call that a registered operation does not take goes where it went before. -/
theorem resolve_register_of_not_takes
    (hnot : operation.name = name → ¬(operation.accepts args ∨ operation.isUniversal)) :
    (registry.register operation).resolve name args = registry.resolve name args := by
  have hunchanged (test : Signature → Bool) (htest : operation.name = name → ¬test operation.signature) :
      (enter operation registry.operations).find? (fun other => other.name == name && test other.signature) =
        registry.operations.find? fun other => other.name == name && test other.signature := by
    refine find?_enter_of_neg (by simpa using htest) fun other hsame => ?_
    rw [denotes, Bool.and_eq_true, beq_iff_eq, beq_iff_eq] at hsame
    rw [hsame.1, hsame.2]
    simpa using htest
  have haccepting := hunchanged (Signature.accepts · args) fun hname haccepts => hnot hname (.inl haccepts)
  have huniversal := hunchanged (fun signature => signature = [.universal]) fun hname huniversal =>
    hnot hname (.inr huniversal)
  rw [resolve_eq, resolve_eq, register]
  simp only [Operation.accepts, Operation.isUniversal]
  rw [haccepting, huniversal]

/-! ### Registries that differ in their handlers -/

/-- The names have the same attributes in both registries. -/
def Alike (registry other : Registry) : Prop :=
  ∀ selected name, registry.hasAttribute selected name = other.hasAttribute selected name

theorem alike_of_eq {registry other : Registry} (h : registry = other) : registry.Alike other :=
  fun _ _ => h ▸ rfl

end Registry

/-- The operations differ at most in their handlers. -/
structure Operation.Alike (operation other : Operation) : Prop where
  name : operation.name = other.name
  signature : operation.signature = other.signature
  fixity : operation.fixity = other.fixity
  precedence : operation.precedence = other.precedence
  attributes : operation.attributes = other.attributes

theorem Operation.Alike.refl (operation : Operation) : operation.Alike operation :=
  ⟨rfl, rfl, rfl, rfl, rfl⟩

namespace Registry

/-- The operations of the registries, taken in order, correspond to one another. -/
def Matched (M : Operation → Operation → Prop) (registry other : Registry) : Prop :=
  List.Forall₂ (fun one another => M one another ∧ one.Alike another) registry.operations other.operations

section Matched

variable {M : Operation → Operation → Prop} {registry other : Registry}

theorem matched_of_eq (h : registry = other) : registry.Matched Eq other :=
  h ▸ List.forall₂_same.mpr fun operation _ => ⟨rfl, .refl operation⟩

theorem Matched.overloads (h : registry.Matched M other) (name : String) :
    List.Forall₂ (fun one another => M one another ∧ one.Alike another) (registry.overloads name)
      (other.overloads name) := by
  refine List.rel_filter (fun one another hmatched => ?_) h
  show (one.name == name) = true ↔ (another.name == name) = true
  rw [hmatched.2.name]

/-- What is asked of operations apart from their handlers is found at the same place. -/
theorem find?_matched {p : Operation → Bool} (hp : ∀ one another, one.Alike another → p one = p another)
    {ones others : List Operation}
    (h : List.Forall₂ (fun one another => M one another ∧ one.Alike another) ones others) :
    Option.Rel (fun one another => M one another ∧ one.Alike another) (ones.find? p) (others.find? p) := by
  induction h with
  | nil => exact .none
  | @cons one another ones others hmatched _ ih =>
      rw [List.find?_cons, List.find?_cons, ← hp one another hmatched.2]
      cases p one with
      | true => exact .some hmatched
      | false => exact ih

theorem Matched.alike (h : registry.Matched M other) : registry.Alike other := by
  intro selected name
  have hoverloads := h.overloads name
  rw [hasAttribute, hasAttribute]
  generalize registry.overloads name = ones at hoverloads
  generalize other.overloads name = others at hoverloads
  induction hoverloads with
  | nil => rfl
  | cons hmatched _ ih => rw [List.any_cons, List.any_cons, ih, hmatched.2.attributes]

/-- A call goes to operations that correspond to one another. -/
theorem Matched.resolve (h : registry.Matched M other) (name : String) (args : List Node) :
    Option.Rel (fun one another => M one another ∧ one.Alike another) (registry.resolve name args)
      (other.resolve name args) := by
  have haccepts (one another : Operation) (halike : one.Alike another) :
      one.accepts args = another.accepts args := by
    rw [Operation.accepts, Operation.accepts, halike.signature]
  have hsame (one another : Operation) (halike : one.Alike another) : one.isUniversal = another.isUniversal := by
    rw [Operation.isUniversal, Operation.isUniversal, halike.signature]
  have haccepting := find?_matched haccepts (h.overloads name)
  have huniversal := find?_matched hsame (h.overloads name)
  rw [Registry.resolve, Registry.resolve]
  revert haccepting
  cases (registry.overloads name).find? (·.accepts args) <;>
    cases (other.overloads name).find? (·.accepts args) <;> intro haccepting
  · exact huniversal
  · cases haccepting
  · cases haccepting
  · exact haccepting

end Matched

/-! ### Registries with other handlers -/

/-- The registry with every operation changed. -/
def mapped (change : Operation → Operation) (registry : Registry) : Registry :=
  { registry with operations := registry.operations.map change }

section Mapped

variable {change : Operation → Operation}
  (halike : ∀ operation : Operation, operation.Alike (change operation))
include halike

theorem matched_mapped (registry : Registry) :
    registry.Matched (fun one another => another = change one) (registry.mapped change) :=
  List.forall₂_map_right_iff.mpr (List.forall₂_same.mpr fun operation _ => ⟨rfl, halike operation⟩)

theorem mapped_register (registry : Registry) (operation : Operation) :
    (registry.register operation).mapped change = (registry.mapped change).register (change operation) := by
  have henter (operations : List Operation) :
      (enter operation operations).map change = enter (change operation) (operations.map change) := by
    induction operations with
    | nil => rfl
    | cons other rest ih =>
        rw [enter, List.map_cons, enter, denotes, denotes, ← (halike other).name, ← (halike other).signature,
          ← (halike operation).name, ← (halike operation).signature]
        split
        · rfl
        · rw [List.map_cons, ih]
  rw [register, register, mapped, mapped, henter]

/-- What is asked of operations apart from their handlers selects the same ones. -/
theorem filter_map_change {p : Operation → Bool} (hp : ∀ one another, one.Alike another → p one = p another)
    (operations : List Operation) : (operations.map change).filter p = (operations.filter p).map change := by
  have hsame : p ∘ change = p := funext fun operation => (hp _ _ (halike operation)).symm
  rw [List.filter_map, hsame]

theorem mapped_remove (registry : Registry) (name : String) (signature : Signature) :
    (registry.mapped change).remove name signature =
      ((registry.remove name signature).1, (registry.remove name signature).2.mapped change) := by
  have hdenotes (one another : Operation) (h : one.Alike another) :
      denotes name signature one = denotes name signature another := by
    rw [denotes, denotes, h.name, h.signature]
  have hsame : denotes name signature ∘ change = denotes name signature :=
    funext fun operation => (hdenotes _ _ (halike operation)).symm
  have hkept := filter_map_change halike (fun one another h => congrArg (!·) (hdenotes one another h))
    registry.operations
  rw [remove, remove, mapped, mapped, List.any_map, hsame, hkept]

theorem mapped_removeAll (registry : Registry) (name : String) :
    (registry.mapped change).removeAll name =
      ((registry.removeAll name).1, (registry.removeAll name).2.mapped change) := by
  have hcalled := filter_map_change halike (p := (·.name == name)) (fun _ _ h => by rw [h.name])
    registry.operations
  have hkept := filter_map_change halike (p := (·.name != name)) (fun _ _ h => by rw [h.name])
    registry.operations
  rw [removeAll, removeAll, mapped, mapped, overloads, overloads, hcalled, hkept, List.length_map]

end Mapped

end Registry

end SymbolicAlgebra
