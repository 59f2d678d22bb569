import SymbolicAlgebra.Proofs.Limit

/-! What operations fail with. The failures of an action are those that it raises itself and those of what
it simplifies, which it may hand on, replace or survive. No standard operation and no operation that is
defined by a template raises the failure of the nesting limit on its own account. -/

namespace SymbolicAlgebra

/-- The outcome is no failure but one of `P`. -/
def FailsIn {α : Type} (P : Failure → Prop) (outcome : Except Failure α) : Prop :=
  ∀ failure, outcome = .error failure → P failure

section Outcome

variable {P : Failure → Prop} {α β : Type}

theorem failsIn_ok (a : α) : FailsIn P (.ok a) :=
  nofun

theorem failsIn_error {failure : Failure} (h : P failure) : FailsIn P (.error failure : Except Failure α) := by
  rintro _ ⟨⟩
  exact h

theorem FailsIn.bind {x : Except Failure α} {f : α → Except Failure β} (hx : FailsIn P x)
    (hf : ∀ a, FailsIn P (f a)) : FailsIn P (x >>= f) := by
  cases x with
  | ok a => exact hf a
  | error failure => exact failsIn_error (hx failure rfl)

theorem FailsIn.map {x : Except Failure α} (hx : FailsIn P x) (f : α → β) : FailsIn P (x.map f) := by
  cases x with
  | ok a => exact failsIn_ok (f a)
  | error failure => exact failsIn_error (hx failure rfl)

theorem failsIn_mapM {f : α → Except Failure β} (hf : ∀ a, FailsIn P (f a)) (as : List α) :
    FailsIn P (as.mapM f) := by
  induction as with
  | nil => exact failsIn_ok []
  | cons a rest ih =>
      rw [List.mapM_cons]
      exact (hf a).bind fun b => ih.bind fun others => failsIn_ok (b :: others)

theorem failsIn_foldlM {f : β → α → Except Failure β} (hf : ∀ b a, FailsIn P (f b a)) (b : β) (as : List α) :
    FailsIn P (as.foldlM f b) := by
  induction as generalizing b with
  | nil => exact failsIn_ok b
  | cons a rest ih =>
      rw [List.foldlM_cons]
      exact (hf b a).bind ih

end Outcome

/-! ### Computations that never reach the limit -/

section Computations

variable {P : Failure → Prop} (hP : ∀ failure : Failure, ¬failure.IsLimit → P failure)
include hP

namespace Node

theorem failsIn_mismatch {α : Type} (node : Node) (expected : Parameter) :
    FailsIn P (.error (node.mismatch expected) : Except Failure α) :=
  failsIn_error (hP _ nofun)

theorem failsIn_asNumber (node : Node) : FailsIn P node.asNumber := by
  unfold asNumber
  split
  · exact failsIn_ok _
  · exact failsIn_mismatch hP _ _

theorem failsIn_asInteger (node : Node) : FailsIn P node.asInteger := by
  unfold asInteger
  split
  · exact failsIn_ok _
  · exact failsIn_mismatch hP _ _

theorem failsIn_asBoolean (node : Node) : FailsIn P node.asBoolean := by
  unfold asBoolean
  split
  · exact failsIn_ok _
  · exact failsIn_mismatch hP _ _

theorem failsIn_asSymbol (node : Node) : FailsIn P node.asSymbol := by
  unfold asSymbol
  split
  · exact failsIn_ok _
  · exact failsIn_mismatch hP _ _

theorem failsIn_asSequence (node : Node) : FailsIn P node.asSequence := by
  unfold asSequence
  split
  · exact failsIn_ok _
  · exact failsIn_mismatch hP _ _

theorem failsIn_asPair (node : Node) : FailsIn P node.asPair := by
  unfold asPair
  split
  · exact failsIn_ok _
  · exact failsIn_mismatch hP _ _

theorem failsIn_asApplication (node : Node) : FailsIn P node.asApplication := by
  unfold asApplication
  split
  · exact failsIn_ok _
  · exact failsIn_mismatch hP _ _

theorem failsIn_asReal (node : Node) : FailsIn P node.asReal :=
  (failsIn_asNumber hP node).map _

theorem failsIn_asReals (node : Node) : FailsIn P node.asReals :=
  (failsIn_asSequence hP node).bind fun elements => failsIn_mapM (failsIn_asReal hP) elements

end Node

namespace Guard

theorem failsIn_domain (value lower upper : Float) : FailsIn P (domain value lower upper) := by
  unfold domain
  split
  · exact failsIn_error (hP _ nofun)
  · exact failsIn_ok ()

theorem failsIn_range (lower upper : Float) : FailsIn P (range lower upper) := by
  unfold range
  split
  · exact failsIn_error (hP _ nofun)
  · exact failsIn_ok ()

theorem failsIn_index (place : Int) (length : Nat) : FailsIn P (index place length) := by
  unfold index
  split
  · exact failsIn_ok _
  · exact failsIn_error (hP _ nofun)

theorem failsIn_dimension (left right : Nat) : FailsIn P (dimension left right) := by
  unfold dimension
  split
  · exact failsIn_ok ()
  · exact failsIn_error (hP _ nofun)

theorem failsIn_length (value : Nat) : FailsIn P (length value) := by
  unfold length
  split
  · exact failsIn_ok _
  · exact failsIn_error (hP _ nofun)

end Guard

namespace Number

theorem failsIn_div (a b : Number) : FailsIn P (a.div b) := by
  unfold div
  split
  · exact failsIn_error (hP _ nofun)
  · dsimp only
    split <;> split <;> exact failsIn_ok _

theorem failsIn_rem (a b : Number) : FailsIn P (a.rem b) := by
  unfold rem
  split
  · exact failsIn_error (hP _ nofun)
  · exact failsIn_ok _

theorem failsIn_exactPow (base : Int) (exponent : Nat) : FailsIn P (exactPow base exponent) := by
  unfold exactPow
  dsimp only
  split
  · exact (Guard.failsIn_domain hP _ _ _).bind fun _ => failsIn_ok _
  · exact failsIn_ok _

theorem failsIn_pow (base exponent : Number) : FailsIn P (base.pow exponent) := by
  unfold pow
  split
  · exact failsIn_error (hP _ nofun)
  · dsimp only
    split
    · split
      · exact failsIn_exactPow hP _ _
      · exact failsIn_ok _
    · exact failsIn_ok _

theorem failsIn_factorial (a : Number) : FailsIn P a.factorial := by
  unfold factorial
  split
  · exact (Guard.failsIn_domain hP _ _ _).bind fun _ => failsIn_ok _
  · exact failsIn_error (hP _ nofun)

end Number

namespace Builtin

theorem failsIn_elementAt (elements : List Node) (index : Int) : FailsIn P (elementAt elements index) :=
  (Guard.failsIn_index hP index elements.length).bind fun _ => failsIn_ok _

theorem failsIn_getElement (list index : Node) : FailsIn P (getElement list index) :=
  (Node.failsIn_asSequence hP list).bind fun elements =>
    (Node.failsIn_asInteger hP index).bind fun index => failsIn_elementAt hP elements index.toInt

theorem failsIn_getHalf (pair index : Node) : FailsIn P (getHalf pair index) :=
  (Node.failsIn_asPair hP pair).bind fun halves =>
    (Node.failsIn_asInteger hP index).bind fun index => failsIn_elementAt hP [halves.1, halves.2] index.toInt

theorem failsIn_zipped (xs ys : Node) : FailsIn P (zipped xs ys) :=
  (Node.failsIn_asSequence hP xs).bind fun xs => (Node.failsIn_asSequence hP ys).bind fun ys =>
    (Guard.failsIn_dimension hP xs.length ys.length).bind fun _ => failsIn_ok _

theorem failsIn_firstElement (list : Node) : FailsIn P (firstElement list) :=
  (Node.failsIn_asSequence hP list).bind fun elements => failsIn_elementAt hP elements 0

theorem failsIn_restOf (list : Node) : FailsIn P (restOf list) :=
  (Node.failsIn_asSequence hP list).bind fun elements =>
    (Guard.failsIn_index hP 0 elements.length).bind fun _ => failsIn_ok _

theorem failsIn_mean (terms : List Node) : FailsIn P (mean terms) := by
  unfold mean
  split
  · exact failsIn_error (hP _ nofun)
  · exact (Guard.failsIn_length hP terms.length).bind fun _ => failsIn_ok _

theorem failsIn_checkSample (size least : Nat) : FailsIn P (checkSample size least) :=
  Guard.failsIn_domain hP _ _ _

theorem failsIn_squaredDeviations (values : List Float) : FailsIn P (squaredDeviations values) :=
  (failsIn_checkSample hP values.length 1).bind fun _ => failsIn_ok _

theorem failsIn_variances (values : List Float) : FailsIn P (variances values) :=
  (failsIn_checkSample hP values.length 2).bind fun _ =>
    (failsIn_squaredDeviations hP values).bind fun _ => failsIn_ok _

theorem failsIn_variance (list : Node) : FailsIn P (variance list) :=
  (Node.failsIn_asReals hP list).bind fun values => (failsIn_variances hP values).bind fun _ => failsIn_ok _

theorem failsIn_standardDeviation (list : Node) : FailsIn P (standardDeviation list) :=
  (Node.failsIn_asReals hP list).bind fun values => (failsIn_variances hP values).bind fun _ =>
    (Guard.failsIn_domain hP _ _ _).bind fun _ => failsIn_ok _

theorem failsIn_better (wanted : Ordering) (best value : Number) : FailsIn P (better wanted best value) := by
  unfold better
  split
  · exact failsIn_ok _
  · exact failsIn_error (hP _ nofun)

theorem failsIn_extreme (wanted : Ordering) (nodes : List Node) : FailsIn P (extreme wanted nodes) := by
  unfold extreme
  split
  · exact failsIn_ok none
  · exact failsIn_error (hP _ nofun)
  · exact (failsIn_foldlM (failsIn_better hP wanted) _ _).bind fun _ => failsIn_ok _

theorem failsIn_median (nodes : List Node) : FailsIn P (median nodes) := by
  unfold median
  split
  · exact failsIn_ok none
  · refine (failsIn_checkSample hP _ 1).bind fun _ => ?_
    dsimp only
    split
    · exact failsIn_ok _
    · split
      · exact (Number.failsIn_div hP _ _).bind fun _ => failsIn_ok _
      · exact failsIn_ok none

theorem failsIn_dotProduct (a b : List Node) : FailsIn P (dotProduct a b) :=
  (Guard.failsIn_dimension hP a.length b.length).bind fun _ => failsIn_ok _

theorem failsIn_crossProduct (a b : List Node) : FailsIn P (crossProduct a b) := by
  refine (Guard.failsIn_dimension hP a.length b.length).bind fun _ => ?_
  split
  · exact failsIn_ok _
  · exact failsIn_ok _
  · exact failsIn_error (hP _ nofun)

theorem failsIn_magnitude (v : Node) : FailsIn P (magnitude v) := by
  unfold magnitude
  split
  · exact failsIn_ok _
  · exact (Node.failsIn_asSequence hP v).bind fun elements =>
      (failsIn_dotProduct hP elements elements).bind fun _ => failsIn_ok _

end Builtin

theorem Definition.failsIn_parameterNames (operation : String) (seen : List String) (parameters : List Node) :
    FailsIn P (parameterNames operation seen parameters) := by
  induction parameters generalizing seen with
  | nil => exact failsIn_ok seen
  | cons parameter rest ih =>
      unfold parameterNames
      split
      · exact failsIn_ok seen
      · split
        · exact failsIn_error (hP _ nofun)
        · rename_i heq _
          cases heq
          exact ih _
      · exact failsIn_error (hP _ nofun)

end Computations

/-! ### Actions -/

/-- The action fails with none but failures of `P`, provided that what it simplifies does, and registers only
operations of this sort. -/
inductive Action.FailsIn (P : Failure → Prop) : {α : Type} → Action Operation α → Prop
  | done {α : Type} (result : α) : FailsIn P (.done result)
  | fail {α : Type} {failure : Failure} : P failure → FailsIn P (.fail failure : Action Operation α)
  | simplify {α : Type} (node : Node) {next : Except Failure Node → Action Operation α} :
      (∀ answer, FailsIn P (next (.ok answer))) → (∀ failure, P failure → FailsIn P (next (.error failure))) →
      FailsIn P (.simplify node next)
  | lookup {α : Type} (name : String) {next : Option Node → Action Operation α} :
      (∀ outcome, FailsIn P (next outcome)) → FailsIn P (.lookup name next)
  | assign {α : Type} (name : String) (value : Node) {next : Action Operation α} :
      FailsIn P next → FailsIn P (.assign name value next)
  | release {α : Type} (name : String) {next : Option Node → Action Operation α} :
      (∀ outcome, FailsIn P (next outcome)) → FailsIn P (.release name next)
  | register {α : Type} {operation : Operation} {next : Action Operation α} :
      (∀ args, FailsIn P (operation.handler args)) → FailsIn P next → FailsIn P (.register operation next)
  | remove {α : Type} (name : String) (signature : Signature) {next : Bool → Action Operation α} :
      (∀ removed, FailsIn P (next removed)) → FailsIn P (.remove name signature next)
  | removeAll {α : Type} (name : String) {next : Nat → Action Operation α} :
      (∀ count, FailsIn P (next count)) → FailsIn P (.removeAll name next)
  | fresh {α : Type} {next : Nat → Action Operation α} :
      (∀ index, FailsIn P (next index)) → FailsIn P (.fresh next)
  | draw {α : Type} {next : Float → Action Operation α} :
      (∀ value, FailsIn P (next value)) → FailsIn P (.draw next)

def Operation.FailsIn (P : Failure → Prop) (operation : Operation) : Prop :=
  ∀ args, (operation.handler args).FailsIn P

mutual

/-- Where `P` holds of every failure, nothing is asked. -/
theorem Operation.failsIn_of_forall {P : Failure → Prop} (h : ∀ failure, P failure) :
    ∀ operation : Operation, operation.FailsIn P
  | ⟨_, _, _, _, _, handler⟩ => fun args => Action.failsIn_of_forall h (handler args)

theorem Action.failsIn_of_forall {P : Failure → Prop} (h : ∀ failure, P failure) :
    ∀ action : Action Operation (Option Node), action.FailsIn P
  | .done result => .done result
  | .fail failure => .fail (h failure)
  | .simplify node next =>
    .simplify node (fun answer => Action.failsIn_of_forall h (next (.ok answer)))
      fun failure _ => Action.failsIn_of_forall h (next (.error failure))
  | .lookup name next => .lookup name fun outcome => Action.failsIn_of_forall h (next outcome)
  | .assign name value next => .assign name value (Action.failsIn_of_forall h next)
  | .release name next => .release name fun outcome => Action.failsIn_of_forall h (next outcome)
  | .register operation next =>
    .register (Operation.failsIn_of_forall h operation) (Action.failsIn_of_forall h next)
  | .remove name signature next => .remove name signature fun removed => Action.failsIn_of_forall h (next removed)
  | .removeAll name next => .removeAll name fun count => Action.failsIn_of_forall h (next count)
  | .fresh next => .fresh fun index => Action.failsIn_of_forall h (next index)
  | .draw next => .draw fun value => Action.failsIn_of_forall h (next value)

end

namespace Action

variable {P : Failure → Prop} {α β : Type}

theorem FailsIn.bind {first : Action Operation α} {next : α → Action Operation β} (hfirst : first.FailsIn P)
    (hnext : ∀ a, (next a).FailsIn P) : (first >>= next).FailsIn P := by
  show (first.andThen next).FailsIn P
  induction hfirst with
  | done result => exact hnext result
  | fail hfailure => exact .fail hfailure
  | simplify node _ _ hok herror =>
      exact .simplify node (fun answer => hok answer hnext) fun failure hfailure => herror failure hfailure hnext
  | lookup name _ ih => exact .lookup name fun outcome => ih outcome hnext
  | assign name value _ ih => exact .assign name value (ih hnext)
  | release name _ ih => exact .release name fun outcome => ih outcome hnext
  | register hoperation _ _ ih => exact .register hoperation (ih hnext)
  | remove name signature _ ih => exact .remove name signature fun removed => ih removed hnext
  | removeAll name _ ih => exact .removeAll name fun count => ih count hnext
  | fresh _ ih => exact .fresh fun index => ih index hnext
  | draw _ ih => exact .draw fun value => ih value hnext

theorem failsIn_ofExcept {computation : Except Failure α} (h : SymbolicAlgebra.FailsIn P computation) :
    (ofExcept computation).FailsIn P := by
  cases computation with
  | ok result => exact .done result
  | error failure => exact .fail (h failure rfl)

theorem failsIn_simplified (node : Node) : (simplified node).FailsIn P :=
  .simplify node .done fun _ => .fail

end Action

/-! ### Standard operations -/

namespace Operation

variable {P : Failure → Prop}

theorem failsIn_unary (name : String) (parameter : Parameter) {handler : Node → Action Operation (Option Node)}
    (h : ∀ a, (handler a).FailsIn P) : (unary name parameter handler).FailsIn P :=
  unary_cases (motive := fun _ action => action.FailsIn P) (fun _ => .done none) name parameter h

theorem failsIn_binary (name : String) (first second : Parameter)
    {handler : Node → Node → Action Operation (Option Node)} (h : ∀ a b, (handler a b).FailsIn P) :
    (binary name first second handler).FailsIn P :=
  binary_cases (motive := fun _ action => action.FailsIn P) (fun _ => .done none) name first second h

theorem failsIn_ternary (name : String) (first second third : Parameter)
    {handler : Node → Node → Node → Action Operation (Option Node)} (h : ∀ a b c, (handler a b c).FailsIn P) :
    (ternary name first second third handler).FailsIn P :=
  ternary_cases (motive := fun _ action => action.FailsIn P) (fun _ => .done none) name first second third h

theorem FailsIn.commutative {operation : Operation} (h : operation.FailsIn P) : operation.commutative.FailsIn P := h

theorem FailsIn.forwardCommutative {operation : Operation} (h : operation.FailsIn P) :
    operation.forwardCommutative.FailsIn P := h

theorem FailsIn.preservingArguments {operation : Operation} (h : operation.FailsIn P) :
    operation.preservingArguments.FailsIn P := h

/-- An operation that answers from its two arguments alone fails as the answer does. -/
theorem failsIn_answered (name : String) (first second : Parameter)
    {answer : Node → Node → Except Failure (Option Node)} (h : ∀ a b, SymbolicAlgebra.FailsIn P (answer a b)) :
    (binary name first second fun a b => .ofExcept (answer a b)).FailsIn P :=
  failsIn_binary name first second fun a b => Action.failsIn_ofExcept (h a b)

theorem failsIn_pure (name : String) (first second : Parameter) (offer : Node → Node → Option Node) :
    (binary name first second fun a b => .done (offer a b)).FailsIn P :=
  failsIn_binary name first second fun _ _ => .done _

end Operation

open Operation SymbolicAlgebra.Action

section Standard

variable {P : Failure → Prop} (hP : ∀ failure : Failure, ¬failure.IsLimit → P failure)

theorem Definition.failsIn_templateOperation (name : String) (aliases : List String) (body : Node) :
    (templateOperation name aliases body).FailsIn P :=
  fun _ => .done _

theorem Definition.failsIn_aliases (names : List String) : (aliases names).FailsIn P := by
  induction names with
  | nil => exact .done []
  | cons name rest ih => exact .fresh fun index => ih.bind fun others => .done _

include hP

namespace Definition

theorem failsIn_installOperation (name : String) (parameters : List Node) (template : Node) :
    (installOperation name parameters template).FailsIn P := by
  refine (failsIn_ofExcept (failsIn_parameterNames hP name [] parameters)).bind fun names => ?_
  exact (failsIn_aliases names).bind fun aliases =>
    .register (failsIn_templateOperation name aliases _) (.done ())

theorem failsIn_bindVariable (name : String) (value : Node) : (bindVariable name value).FailsIn P := by
  refine (failsIn_simplified value).bind fun value => ?_
  split
  · exact .fail (hP _ nofun)
  · exact .assign name value (.done value)

end Definition

namespace Builtin

theorem failsIn_onNumbers (name : String) {compute : Number → Number → Except Failure Number}
    (h : ∀ x y, SymbolicAlgebra.FailsIn P (compute x y)) : (binary name .number .number (onNumbers compute)).FailsIn P := by
  refine failsIn_binary _ _ _ fun a b => (failsIn_ofExcept (Node.failsIn_asNumber hP a)).bind fun x => ?_
  exact (failsIn_ofExcept (Node.failsIn_asNumber hP b)).bind fun y => (failsIn_ofExcept (h x y)).bind fun _ => .done _

theorem failsIn_arithmetic : ∀ operation ∈ arithmetic, operation.FailsIn P := by
  simp only [arithmetic, List.forall_mem_cons, List.not_mem_nil, false_implies, implies_true, and_true]
  refine ⟨(failsIn_onNumbers hP _ fun _ _ => failsIn_ok _).commutative, (failsIn_pure _ _ _ _).commutative,
    (failsIn_onNumbers hP _ fun _ _ => failsIn_ok _).commutative, (failsIn_pure _ _ _ _).commutative,
    (failsIn_onNumbers hP _ fun _ _ => failsIn_ok _).forwardCommutative, (failsIn_pure _ _ _ _).forwardCommutative,
    failsIn_onNumbers hP _ (Number.failsIn_div hP), failsIn_pure _ _ _ _,
    failsIn_onNumbers hP _ (Number.failsIn_rem hP), failsIn_onNumbers hP _ (Number.failsIn_pow hP),
    failsIn_pure _ _ _ _, ?_, ?_, ?_⟩
  · exact failsIn_unary _ _ fun a => (failsIn_ofExcept (Node.failsIn_asNumber hP a)).bind fun _ => .done _
  · exact failsIn_unary _ _ fun a => .done _
  · exact failsIn_unary _ _ fun a => (failsIn_ofExcept (Node.failsIn_asNumber hP a)).bind fun x =>
      (failsIn_ofExcept (Number.failsIn_factorial hP x)).bind fun _ => .done _

theorem failsIn_comparison : ∀ operation ∈ comparison, operation.FailsIn P := by
  have hordering (name : String) (test : Ordering → Bool) :
      (binary name .number .number (ordering test)).FailsIn P :=
    failsIn_binary _ _ _ fun a b => (failsIn_ofExcept (Node.failsIn_asNumber hP a)).bind fun _ =>
      (failsIn_ofExcept (Node.failsIn_asNumber hP b)).bind fun _ => .done _
  simp only [comparison, List.forall_mem_cons, List.not_mem_nil, false_implies, implies_true, and_true]
  exact ⟨hordering _ _, hordering _ _, hordering _ _, hordering _ _, failsIn_pure _ _ _ _, failsIn_pure _ _ _ _⟩

theorem failsIn_logic : ∀ operation ∈ logic, operation.FailsIn P := by
  have honBooleans (name : String) (compute : Bool → Bool → Bool) :
      (binary name .boolean .boolean (onBooleans compute)).FailsIn P :=
    failsIn_binary _ _ _ fun a b => (failsIn_ofExcept (Node.failsIn_asBoolean hP a)).bind fun _ =>
      (failsIn_ofExcept (Node.failsIn_asBoolean hP b)).bind fun _ => .done _
  simp only [logic, List.forall_mem_cons, List.not_mem_nil, false_implies, implies_true, and_true]
  refine ⟨(honBooleans _ _).commutative, (failsIn_pure _ _ _ _).commutative, (honBooleans _ _).commutative,
    (failsIn_pure _ _ _ _).commutative, honBooleans _ _, failsIn_pure _ _ _ _, ?_, ?_⟩
  · exact failsIn_unary _ _ fun a => (failsIn_ofExcept (Node.failsIn_asBoolean hP a)).bind fun _ => .done _
  · exact failsIn_unary _ _ fun a => .done _

/-- What is computed from the elements of a sequence. -/
theorem failsIn_elements {α : Type} {compute : List Node → Action Operation α} (h : ∀ elements, (compute elements).FailsIn P)
    (list : Node) : (ofExcept list.asSequence >>= compute).FailsIn P :=
  (failsIn_ofExcept (Node.failsIn_asSequence hP list)).bind h

theorem failsIn_reduction (name : String) {reduce : List Node → Except Failure (Option Node)}
    (h : ∀ terms, SymbolicAlgebra.FailsIn P (reduce terms)) :
    ∀ operation ∈ reduction name reduce, operation.FailsIn P := by
  simp only [reduction, List.forall_mem_cons, List.not_mem_nil, false_implies, implies_true, and_true]
  exact ⟨failsIn_unary _ _ (failsIn_elements hP fun elements => failsIn_ofExcept (h elements)),
    fun args => failsIn_ofExcept (h args)⟩

theorem failsIn_delete (head : Node) : (delete head).FailsIn P := by
  refine (failsIn_ofExcept (Node.failsIn_asSymbol hP head)).bind fun name => .removeAll name fun count =>
    .release name fun value => ?_
  split
  · exact .fail (hP _ nofun)
  · exact .done _

omit hP in
theorem failsIn_branch (condition ifTrue ifFalse : Node) : (branch condition ifTrue ifFalse).FailsIn P := by
  refine (failsIn_simplified condition).bind fun answer => ?_
  split <;> exact .done _

theorem failsIn_repeated (node times : Node) : (repeated node times).FailsIn P := by
  refine (failsIn_ofExcept (Node.failsIn_asInteger hP times)).bind fun count => ?_
  split
  · exact .fail (hP _ nofun)
  · exact .done _

theorem failsIn_randomBetween (lower upper : Node) : (randomBetween lower upper).FailsIn P :=
  (failsIn_ofExcept (Node.failsIn_asReal hP lower)).bind fun _ =>
    (failsIn_ofExcept (Node.failsIn_asReal hP upper)).bind fun _ =>
      (failsIn_ofExcept (Guard.failsIn_domain hP _ _ _)).bind fun _ =>
        (failsIn_ofExcept (Guard.failsIn_domain hP _ _ _)).bind fun _ =>
          (failsIn_ofExcept (Guard.failsIn_range hP _ _)).bind fun _ => .draw fun _ => .done _

theorem failsIn_setElement (head index value : Node) : (setElement head index value).FailsIn P := by
  refine (failsIn_ofExcept (Node.failsIn_asSymbol hP head)).bind fun name =>
    (failsIn_simplified index).bind fun index => (failsIn_ofExcept (Node.failsIn_asInteger hP index)).bind
      fun place => (failsIn_simplified value).bind fun value => .lookup name fun outcome => ?_
  cases outcome with
  | none => exact .fail (hP _ nofun)
  | some bound =>
      refine (failsIn_simplified bound).bind fun bound => failsIn_elements hP (fun elements => ?_) bound
      exact (failsIn_ofExcept (Guard.failsIn_index hP _ _)).bind fun position => .assign name _ (.done _)

theorem failsIn_control : ∀ operation ∈ control, operation.FailsIn P := by
  simp only [control, List.forall_mem_append, List.forall_mem_cons, List.not_mem_nil, false_implies, implies_true,
    and_true]
  refine ⟨⟨⟨⟨FailsIn.preservingArguments ?_, FailsIn.preservingArguments ?_, FailsIn.preservingArguments ?_,
    FailsIn.preservingArguments ?_, FailsIn.preservingArguments ?_, fun args => .done _, ?_, ?_, ?_,
    FailsIn.preservingArguments ?_⟩, ?_⟩, ?_⟩, ?_⟩
  · exact failsIn_binary _ _ _ fun head template =>
      (failsIn_ofExcept (Node.failsIn_asApplication hP head)).bind fun parts =>
        (Definition.failsIn_installOperation hP parts.1 parts.2 template).bind fun _ => .done _
  · exact failsIn_binary _ _ _ fun head value =>
      (failsIn_ofExcept (Node.failsIn_asSymbol hP head)).bind fun name =>
        (Definition.failsIn_bindVariable hP name value).bind fun _ => .done _
  · refine fun args => .fail (hP _ ?_)
    rintro ⟨_, hequal⟩
    cases hequal
  · exact failsIn_unary _ _ (failsIn_delete hP)
  · exact failsIn_ternary _ _ _ _ failsIn_branch
  · exact failsIn_binary _ _ _ (failsIn_repeated hP)
  · exact fun args => .draw fun _ => .done _
  · exact failsIn_binary _ _ _ (failsIn_randomBetween hP)
  · exact failsIn_ternary _ _ _ _ (failsIn_setElement hP)
  · exact failsIn_reduction hP _ fun terms => failsIn_ok _
  · exact failsIn_reduction hP _ fun terms => (failsIn_mean hP terms).map some
  · exact failsIn_reduction hP _ fun terms => (failsIn_mean hP terms).map some

theorem failsIn_collection : ∀ operation ∈ collection, operation.FailsIn P := by
  simp only [collection, List.forall_mem_cons, List.not_mem_nil, false_implies, implies_true, and_true]
  exact ⟨fun _ => .done _, failsIn_pure _ _ _ _, failsIn_answered _ _ _ (failsIn_getElement hP),
    failsIn_answered _ _ _ (failsIn_getHalf hP),
    failsIn_unary _ _ (failsIn_elements hP fun elements =>
      (failsIn_ofExcept (Guard.failsIn_length hP elements.length)).bind fun _ => .done _),
    failsIn_binary _ _ _ fun list _ => failsIn_elements hP (fun _ => .done _) list,
    failsIn_binary _ _ _ fun list _ => failsIn_elements hP (fun _ => .done _) list,
    failsIn_unary _ _ (failsIn_elements hP fun _ => .done _), failsIn_answered _ _ _ (failsIn_zipped hP),
    failsIn_unary _ _ fun list => failsIn_ofExcept (failsIn_firstElement hP list),
    failsIn_unary _ _ fun list => failsIn_ofExcept (failsIn_restOf hP list)⟩

theorem failsIn_statistics : ∀ operation ∈ statistics, operation.FailsIn P := by
  simp only [statistics, List.forall_mem_append, List.forall_mem_cons, List.not_mem_nil, false_implies, implies_true,
    and_true]
  refine ⟨⟨⟨failsIn_unary _ _ fun list => ?_,
    failsIn_unary _ _ fun list => failsIn_ofExcept (failsIn_variance hP list),
    failsIn_unary _ _ fun list => failsIn_ofExcept (failsIn_standardDeviation hP list),
    failsIn_unary _ _ (failsIn_elements hP fun elements => failsIn_ofExcept (failsIn_median hP elements))⟩,
    failsIn_reduction hP _ (failsIn_extreme hP .lt)⟩, failsIn_reduction hP _ (failsIn_extreme hP .gt)⟩
  exact (failsIn_ofExcept (Node.failsIn_asReals hP list)).bind fun values =>
    (failsIn_ofExcept (failsIn_squaredDeviations hP values)).bind fun _ => .done _

theorem failsIn_vector : ∀ operation ∈ vector, operation.FailsIn P := by
  simp only [vector, List.forall_mem_cons, List.not_mem_nil, false_implies, implies_true, and_true]
  refine ⟨failsIn_binary _ _ _ fun a b => failsIn_elements hP (fun xs => failsIn_elements hP (fun ys => ?_) b) a,
    failsIn_binary _ _ _ fun a b => failsIn_elements hP (fun xs => failsIn_elements hP (fun ys => ?_) b) a,
    failsIn_unary _ _ fun v => failsIn_ofExcept (failsIn_magnitude hP v)⟩
  · exact (failsIn_ofExcept (failsIn_dotProduct hP xs ys)).bind fun _ => .done _
  · exact (failsIn_ofExcept (failsIn_crossProduct hP xs ys)).bind fun _ => .done _

/-- No standard operation raises the failure of the nesting limit. -/
theorem failsIn_standard {operation : Operation} (hmem : operation ∈ standard.operations) : operation.FailsIn P := by
  rw [standard_operations] at hmem
  simp only [List.mem_append] at hmem
  rcases hmem with (((h | h) | h) | h) | ((h | h) | h)
  · exact failsIn_arithmetic hP operation h
  · exact failsIn_comparison hP operation h
  · exact failsIn_logic hP operation h
  · exact failsIn_control hP operation h
  · exact failsIn_collection hP operation h
  · exact failsIn_statistics hP operation h
  · exact failsIn_vector hP operation h

end Builtin

end Standard

end SymbolicAlgebra
