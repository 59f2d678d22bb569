import SymbolicAlgebra.Proofs.Stillness
import SymbolicAlgebra.Proofs.Exact

/-! Every output is in canonical form: the arguments of a commutative application are sorted and none of
them is an application of the same name, at every depth, and no bound symbol is left. Nothing is asked of
what an operation computes. It may simplify, survive the failures of that, read variables, take counter
values and draw random numbers, as long as it changes no variable and no operation, does not keep its
arguments from being simplified, and writes no name with a defer marker. -/

namespace SymbolicAlgebra

/-- All symbols, and the names without a defer marker. -/
def Vocabulary.unmarked : Vocabulary where
  symbol _ := True
  name name := deferred? name = none

/-! ### Actions that only read -/

/-- The action changes neither variables nor operations, stays within the vocabulary as long as the answers
that it gets do, and ends with a result in `P` if it does not fail. -/
inductive Action.ReadsIn {α : Type} (V : Vocabulary) (P : α → Prop) : Action Operation α → Prop
  | done {result : α} : P result → ReadsIn V P (.done result)
  | fail (failure : Failure) : ReadsIn V P (.fail failure)
  | simplify {node : Node} {next : Except Failure Node → Action Operation α} :
      node.Within V → (∀ answer, Ensures (Node.Within V) answer → ReadsIn V P (next answer)) →
      ReadsIn V P (.simplify node next)
  | lookup {name : String} {next : Option Node → Action Operation α} :
      (∀ answer, Offers V answer → ReadsIn V P (next answer)) → ReadsIn V P (.lookup name next)
  | fresh {next : Nat → Action Operation α} :
      (∀ index, ReadsIn V P (next index)) → ReadsIn V P (.fresh next)
  | draw {next : Float → Action Operation α} :
      (∀ value, ReadsIn V P (next value)) → ReadsIn V P (.draw next)

theorem Action.CalmIn.reads {α : Type} {V : Vocabulary} {P : α → Prop} {action : Action Operation α}
    (h : action.CalmIn V P) : action.ReadsIn V P := by
  induction h with
  | done hresult => exact .done hresult
  | fail failure => exact .fail failure
  | simplify hnode _ herror ih =>
      refine .simplify hnode fun answer hanswer => ?_
      cases answer with
      | ok answer => exact ih answer (hanswer answer rfl)
      | error failure =>
          rw [herror]
          exact .fail failure
  | draw _ ih => exact .draw ih

/-- On arguments that it takes and that are within the vocabulary, the handler only reads. -/
def Operation.ReadsIn (V : Vocabulary) (operation : Operation) : Prop :=
  ∀ args, operation.accepts args ∨ operation.isUniversal → (∀ arg ∈ args, arg.Within V) →
    (operation.handler args).ReadsIn V (Offers V)

/-- All operations get simplified arguments and only read, and all values are within the vocabulary. -/
structure Scope.ReadsIn (V : Vocabulary) (scope : Scope) : Prop where
  simplifies : ∀ operation ∈ scope.registry.operations, operation.attributes.preservesArguments = false
  operations : ∀ operation ∈ scope.registry.operations, operation.ReadsIn V
  values : ∀ name value, scope.bindings.get? name = some value → value.Within V

open Evaluation

/-- Run with a simplifier whose results are in `R`, an action that only reads leaves the scope as it is. -/
theorem Action.ReadsIn.coupled {α : Type} {V : Vocabulary} {scope : Scope} {P : α → Prop}
    {action : Action Operation α} (h : action.ReadsIn V P) {R : Node → Prop}
    (hresult : ∀ node, R node → node.Within V)
    (hvalues : ∀ name value, scope.bindings.get? name = some value → value.Within V) {recur : Simplifier}
    (hrecur : ∀ node, node.Within V → Coupled (Environment.Keeps scope) R (recur node)) :
    Coupled (Environment.Keeps scope) P (action.run recur) := by
  induction h with
  | done hresult => exact coupled_pure hresult
  | fail failure => exact coupled_throw failure
  | simplify hnode _ ih =>
      exact coupled_simplify_then (hrecur _ hnode) fun answer hanswer =>
        ih answer fun node heq => hresult node (hanswer node heq)
  | @lookup name next _ ih =>
      rintro left _ ⟨rfl, hcurrent⟩
      have hanswer : Offers V (left.get? name) := by
        intro value hvalue
        refine hvalues name value ?_
        rw [← hcurrent]
        exact hvalue
      exact ih (left.get? name) hanswer left left ⟨rfl, hcurrent⟩
  | @fresh next _ ih =>
      rintro left _ ⟨rfl, hcurrent⟩
      exact ih left.fresh.1 left.fresh.2 left.fresh.2 ⟨rfl, hcurrent⟩
  | draw _ ih =>
      rintro left _ ⟨rfl, hcurrent⟩
      rw [Action.run_draw]
      generalize left.entropy.draw = drawn
      exact ih drawn.1 _ _ ⟨rfl, hcurrent⟩

/-! ### Canonical form -/

/-- The arguments are sorted, and none of them is an application of the name. -/
def CanonicalArgs (name : String) (args : List Node) : Prop :=
  args.Pairwise (fun a b => (Node.order a b).isLE) ∧ ∀ arg ∈ args, isApplicationOf name arg = false

theorem canonicalArgs_arrange {registry : Registry} {name : String} (hcommutative : registry.isCommutative name)
    (args : List Node) : CanonicalArgs name (arrange registry name args) := by
  refine ⟨?_, flat_arrange hcommutative args⟩
  rw [arrange, if_pos hcommutative]
  exact Node.pairwise_of_sorted (Node.sorted_sort _)

/-- What canonical form asks of the outermost form of a node. -/
def Scope.CanonicalForm (scope : Scope) : Node → Prop
  | .symbol name => scope.bindings.get? name = none
  | .application name args => scope.registry.isCommutative name → CanonicalArgs name args
  | _ => True

/-- Everywhere in the node, commutative applications are canonical and symbols are unbound. -/
def Scope.Canonical (scope : Scope) (node : Node) : Prop :=
  node.Everywhere scope.CanonicalForm

section Canonical

variable {scope : Scope}

theorem Scope.canonical_application {name : String} {args : List Node} :
    scope.Canonical (.application name args) ↔
      (scope.registry.isCommutative name → CanonicalArgs name args) ∧ ∀ arg ∈ args, scope.Canonical arg :=
  Node.everywhere_application

/-- A canonical node mentions no bound variable. -/
theorem Scope.Canonical.mentions_eq_false {node : Node} (h : scope.Canonical node) {name : String}
    {value : Node} (hbound : scope.bindings.get? name = some value) : node.mentions name = false := by
  refine Bool.eq_false_iff.mpr fun hmentions => ?_
  have hunbound : scope.bindings.get? name = none := h _ (Node.mem_subterms_of_mentions hmentions)
  rw [hbound] at hunbound
  cases hunbound

/-! ### Simplification gives canonical nodes -/

/-- Nodes without defer markers are simplified and come out canonical. -/
def Stages.canonical (scope : Scope) : Stages where
  input := Node.Within .unmarked
  result node := node.Within .unmarked ∧ scope.Canonical node
  ready name args := deferred? name = none ∧ ∀ arg ∈ args, arg.Within .unmarked ∧ scope.Canonical arg
  loose _ := True

theorem canonical_applied {registry : Registry} {name : String} {args : List Node}
    (hregistry : scope.registry = registry) (hready : (Stages.canonical scope).ready name args) :
    (Stages.canonical scope).result (.application name (arrange registry name args)) := by
  have harranged : ∀ arg ∈ arrange registry name args, arg.Within .unmarked ∧ scope.Canonical arg := by
    refine forall_mem_arrange registry (fun inner hinner arg harg => ?_) hready.2
    exact ⟨(Node.within_application.mp hinner.1).2 arg harg,
      (Scope.canonical_application.mp hinner.2).2 arg harg⟩
  refine ⟨Node.within_application.mpr ⟨hready.1, fun arg harg => (harranged arg harg).1⟩, ?_⟩
  refine Scope.canonical_application.mpr ⟨fun hcommutative => ?_, fun arg harg => (harranged arg harg).2⟩
  exact canonicalArgs_arrange (hregistry ▸ hcommutative) args

theorem Scope.ReadsIn.not_preservesArguments (h : scope.ReadsIn .unmarked) (name : String) :
    ¬scope.registry.preservesArguments name := by
  intro hpreserves
  obtain ⟨operation, hmem, _, hattribute⟩ := Registry.exists_of_hasAttribute hpreserves
  rw [h.simplifies operation hmem] at hattribute
  cases hattribute

theorem Scope.ReadsIn.simulation (h : scope.ReadsIn .unmarked) :
    Simulation (.canonical scope) (fun _ => False) (Environment.Keeps scope) 0 where
  alike := Environment.Keeps.alike
  sameValue hkeeps _ := hkeeps.sameValue _
  bound {_ _ name value} hkeeps _ hvalue := by
    rw [hkeeps.get?_eq] at hvalue
    exact h.values name value hvalue
  free hkeeps hname hunbound := by
    rw [hkeeps.get?_eq] at hunbound
    exact ⟨hname, Node.everywhere_symbol.mpr hunbound⟩
  number _ := ⟨Node.within_number _, Node.everywhere_number.mpr trivial⟩
  boolean _ := ⟨Node.within_boolean _, Node.everywhere_boolean.mpr trivial⟩
  halves := Node.within_pair.mp
  pair hfirst hsecond :=
    ⟨Node.within_pair.mpr ⟨hfirst.1, hsecond.1⟩,
      Node.everywhere_pair.mpr ⟨trivial, hfirst.2, hsecond.2⟩⟩
  elements := Node.within_sequence.mp
  sequence helements :=
    ⟨Node.within_sequence.mpr fun element hmem => (helements element hmem).1,
      Node.everywhere_sequence.mpr ⟨trivial, fun element hmem => (helements element hmem).2⟩⟩
  unmarked {name} _ _ hnode hmarked := by
    have hname : deferred? name = none := (Node.within_application.mp hnode).1
    rw [hname] at hmarked
    cases hmarked
  preserved {_ _ name _} hkeeps _ _ hpreserves := by
    rw [hkeeps.registry_eq] at hpreserves
    exact (h.not_preservesArguments name hpreserves).elim
  simplified _ hnode _ _ := by
    obtain ⟨hname, hargs⟩ := Node.within_application.mp hnode
    exact ⟨hargs, fun _ hreduced => ⟨hname, hreduced⟩⟩
  arranged {left _ name _} hkeeps hready := by
    have happlied := canonical_applied hkeeps.registry_eq.symm hready
    exact ⟨hready.1, fun arg harg => ⟨(Node.within_application.mp happlied.1).2 arg harg,
      (Scope.canonical_application.mp happlied.2).2 arg harg⟩⟩
  applied hkeeps hready := canonical_applied hkeeps.registry_eq.symm hready
  loosened _ _ _ := trivial
  together _ hready hfirst hsecond :=
    Node.within_call hready.1 (hready.2 _ hfirst).1 (hready.2 _ hsecond).1
  refolded _ hready hothers hfolded := by
    refine ⟨hready.1, List.forall_mem_append.mpr ⟨fun node hnode => hready.2 node (hothers node hnode), ?_⟩⟩
    exact List.forall_mem_singleton.mpr hfolded
  invoked hrecur := Stages.Handles.invokes Environment.Keeps.sameRegistry <| by
    intro left _ operation args hkeeps hmem htakes hready
    rw [hkeeps.registry_eq] at hmem
    have hreads := h.operations operation hmem args htakes fun arg harg => (hready.2 arg harg).1
    have hresult (node : Node) (hnode : (Stages.canonical scope).result node) : node.Within .unmarked :=
      hnode.1
    exact coupled_iff_shadowed.mp (hreads.coupled hresult h.values fun node hnode =>
      coupled_iff_shadowed.mpr (hrecur node hnode))
  exhausted {node} _ := shadowed_exhausted Environment.Keeps.sameDepth node
  deeper := by
    rintro left _ ⟨rfl, hcurrent⟩
    exact ⟨rfl, hcurrent⟩
  shallower := by
    rintro left _ ⟨rfl, hcurrent⟩
    exact ⟨rfl, hcurrent⟩

end Canonical

/-- **Every output is in canonical form.** Let the operations get simplified arguments and only read, and let
no name with a defer marker occur in what they build, in the values of variables, or in the expression. In
every commutative application inside a result the arguments are sorted, and none of them is an application
of the same name; and no bound variable occurs in a result. -/
theorem simplify_canonical {env after : Environment} {node result : Node}
    (hsimplifies : ∀ operation ∈ env.registry.operations, operation.attributes.preservesArguments = false)
    (hoperations : ∀ operation ∈ env.registry.operations, operation.ReadsIn .unmarked)
    (hvalues : ∀ name value, env.get? name = some value → value.Within .unmarked)
    (hnode : node.Within .unmarked) (hrun : simplify node env = (.ok result, after)) :
    (∀ name args, .application name args ∈ result.subterms → env.registry.isCommutative name →
      args.Pairwise (fun a b => (Node.order a b).isLE) ∧ ∀ arg ∈ args, isApplicationOf name arg = false) ∧
    ∀ name value, env.get? name = some value → result.mentions name = false := by
  have hreads : env.current.ReadsIn .unmarked := ⟨hsimplifies, hoperations, hvalues⟩
  have hcoupled := coupled_iff_shadowed.mpr
    (shadowed_simplifyWithin hreads.simulation (env.maxDepth - env.depth) hnode) env env ⟨rfl, rfl⟩
  rw [simplify] at hrun
  rw [hrun] at hcoupled
  have hcanonical : env.current.Canonical result := (hcoupled.2.1 result rfl).2
  exact ⟨fun name args hpart => hcanonical _ hpart, fun name value hbound => hcanonical.mentions_eq_false hbound⟩

/-! ### Operations that build applications out of order -/

/-- The larger of two numbers; it applies to more than two as well. -/
def larger : Operation :=
  (Operation.binary "larger" .number .number fun a b =>
    .done (some (if (Node.order a b).isLE then b else a))).commutative

/-- Simplifies its argument as an operand of `larger`, beside four, and offers the result as an operand
beside `y`; declines where that fails. -/
def raised : Operation :=
  Operation.unary "raised" .any fun a =>
    .simplify (.application "larger" [a, .integer 4]) fun answer =>
      match answer with
      | .ok result => .done (some (.application "larger" [.symbol "y", result]))
      | .error _ => .done none

theorem readsIn_larger : larger.ReadsIn .unmarked := by
  have hquiet : larger.QuietIn .unmarked :=
    (Operation.quiet_pure "larger" .number .number fun a b ha hb => by
      split
      · exact offered_some hb
      · exact offered_some ha).commutative
  exact fun args _ hargs => (hquiet args hargs).calm.reads

theorem readsIn_raised : raised.ReadsIn .unmarked := by
  intro args _ hargs
  have hname : deferred? "larger" = none := by decide
  have hsymbol : (Node.symbol "y").Within .unmarked := Node.within_symbol.mpr trivial
  match args with
  | [a] =>
      refine .simplify (Node.within_call hname (hargs a (by simp)) (Node.within_number _)) fun answer hanswer => ?_
      cases answer with
      | ok result => exact .done (offered_some (Node.within_call hname hsymbol (hanswer result rfl)))
      | error failure => exact .done offered_none
  | [] => exact .done offered_none
  | _ :: _ :: _ => exact .done offered_none

/-- An offer that is neither flat nor in order, has a bound variable, and ends up as an operand of the
operation that it applies. -/
theorem canonical_larger :
    let env := (Environment.ofRegistry (Registry.registerAll {} [larger, raised])).set "y" (.integer 3)
    let e := Node.application "larger" [.symbol "z", .application "raised" [.symbol "a"]]
    let r := Node.application "larger" [.integer 4, .symbol "a", .symbol "z"]
    (simplify e env).1 = .ok r ∧
      ([Node.integer 4, .symbol "a", .symbol "z"].Pairwise fun a b => (Node.order a b).isLE) ∧
      r.mentions "y" = false := by
  intro env e r
  have hcomputed : (simplify e env).1 = .ok r := eq_ok_of_same (by decide) (by decide +kernel)
  have hoperations : ∀ operation ∈ env.registry.operations,
      operation.attributes.preservesArguments = false ∧ operation.ReadsIn .unmarked := by
    intro operation hmem
    have hcases : operation = larger ∨ operation = raised := by
      simpa [env, Environment.ofRegistry, Environment.set, Environment.setBindings, Environment.registry,
        Registry.registerAll, Registry.register, Registry.enter, Registry.denotes, larger, raised,
        Operation.binary, Operation.unary, Operation.commutative] using hmem
    rcases hcases with rfl | rfl
    · exact ⟨rfl, readsIn_larger⟩
    · exact ⟨rfl, readsIn_raised⟩
  have hvalues : ∀ name value, env.get? name = some value → value.Within .unmarked := by
    refine Bindings.forall_get?_set (Node.within_number _) fun other held hheld => ?_
    cases hheld
  have hnode : e.Within .unmarked := by
    have hlarger : deferred? "larger" = none := by decide
    have hraised : deferred? "raised" = none := by decide
    have hsymbol (name : String) : (Node.symbol name).Within .unmarked := Node.within_symbol.mpr trivial
    refine Node.within_call hlarger (hsymbol "z") (Node.within_application.mpr ⟨hraised, ?_⟩)
    exact List.forall_mem_singleton.mpr (hsymbol "a")
  rcases hrun : simplify e env with ⟨outcome, after⟩
  rw [hrun] at hcomputed
  obtain rfl : outcome = .ok r := hcomputed
  have hcanonical := simplify_canonical (fun operation hmem => (hoperations operation hmem).1)
    (fun operation hmem => (hoperations operation hmem).2) hvalues hnode hrun
  have hself : .application "larger" [.integer 4, .symbol "a", .symbol "z"] ∈ r.subterms :=
    List.mem_cons_self
  have hcommutative : env.registry.isCommutative "larger" := rfl
  have hbound : env.get? "y" = some (.integer 3) := rfl
  exact ⟨rfl, (hcanonical.1 _ _ hself hcommutative).1, hcanonical.2 _ _ hbound⟩

end SymbolicAlgebra
