import SymbolicAlgebra.Proofs.Evaluation
import SymbolicAlgebra.Proofs.Registry
import SymbolicAlgebra.Proofs.Vocabulary

/-! A run in the shadow of another. Two simplifiers start from related environments; unless the first
fails in a way that is excused, both have the same outcome and leave related environments behind. What
is known of the nodes at the stages of simplification is a parameter: of those that are simplified, of
those that come out, and of the arguments that reach an operation. If the handlers and the nesting
respect the relation, simplification does. There is one lemma for each function of the simplifier. -/

namespace SymbolicAlgebra

namespace Evaluation

variable {α β : Type} {excused : Failure → Prop} {Related : Environment → Environment → Prop}
  {P : α → Prop} {Q : β → Prop}

/-- From related environments, either the first computation fails in an excused way, or both have one
outcome, with a result in `P` if they succeed, and leave related environments behind. -/
def Shadowed (excused : Failure → Prop) (Related : Environment → Environment → Prop) (P : α → Prop)
    (first second : Evaluation α) : Prop :=
  ∀ left right, Related left right →
    (∃ failure, (first left).1 = .error failure ∧ excused failure) ∨
      ((first left).1 = (second right).1 ∧ Ensures P (first left).1 ∧
        Related (first left).2 (second right).2)

theorem shadowed_pure {a : α} (h : P a) : Shadowed excused Related P (pure a) (pure a) :=
  fun _ _ hrelated => .inr ⟨rfl, ensures_ok h, hrelated⟩

theorem shadowed_throw (failure : Failure) :
    Shadowed excused Related P (throw failure) (throw failure) :=
  fun _ _ hrelated => .inr ⟨rfl, ensures_error P failure, hrelated⟩

theorem Shadowed.bind {x y : Evaluation α} {f g : α → Evaluation β}
    (hx : Shadowed excused Related P x y)
    (hf : ∀ a, P a → Shadowed excused Related Q (f a) (g a)) :
    Shadowed excused Related Q (x >>= f) (y >>= g) := by
  intro left right hrelated
  rcases hx left right hrelated with ⟨failure, hfails, hexcused⟩ | ⟨hsame, hresult, hmid⟩
  · rcases hleft : x left with ⟨outcome, leftMid⟩
    rw [hleft] at hfails
    cases hfails
    rw [bind_run_error hleft]
    exact .inl ⟨failure, rfl, hexcused⟩
  · rw [bind_run, bind_run]
    rcases hleft : x left with ⟨failure | a, leftMid⟩ <;>
      rcases hright : y right with ⟨other, rightMid⟩ <;> rw [hleft, hright] at hsame hmid <;> cases hsame
    · exact .inr ⟨rfl, ensures_error Q failure, hmid⟩
    · rw [hleft] at hresult
      exact hf a (hresult a rfl) leftMid rightMid hmid

theorem Shadowed.imp {P' : α → Prop} {x y : Evaluation α} (h : Shadowed excused Related P x y)
    (himp : ∀ a, P a → P' a) : Shadowed excused Related P' x y := by
  intro left right hrelated
  refine (h left right hrelated).imp id fun ⟨hsame, hresult, hafter⟩ => ⟨hsame, ?_, hafter⟩
  exact fun a ha => himp a (hresult a ha)

/-- Calls shadow one another where they go to operations that do. -/
theorem shadowed_invokeWith {M : Operation → Operation → Prop} {P : Option Node → Prop} {name : String}
    {args : List Node} {recur recur' : Simplifier} (hnone : P none)
    (hmatched : ∀ {left right : Environment}, Related left right → left.registry.Matched M right.registry)
    (hhandled : ∀ {left right : Environment} {operation counterpart : Operation}, Related left right →
      operation ∈ left.registry.operations → M operation counterpart → operation.name = name →
      operation.accepts args ∨ operation.isUniversal →
      Shadowed excused Related P ((operation.handler args).run recur)
        ((counterpart.handler args).run recur')) :
    Shadowed excused Related P (invokeWith recur name args) (invokeWith recur' name args) := by
  intro left right hrelated
  rw [invokeWith_run, invokeWith_run]
  have hresolve := (hmatched hrelated).resolve name args
  cases hleft : left.registry.resolve name args <;> cases hright : right.registry.resolve name args <;>
    rw [hleft, hright] at hresolve
  case none.none => exact shadowed_pure hnone left right hrelated
  case some.some operation counterpart =>
    cases hresolve with
    | some hcounterpart =>
        obtain ⟨hmem, hname, htakes⟩ := Registry.mem_of_resolve hleft
        exact hhandled hrelated hmem hcounterpart.1 hname htakes left right hrelated
  all_goals cases hresolve

end Evaluation

open Evaluation

/-- What is known of nodes on their way through simplification. -/
structure Stages where
  /-- The nodes that are simplified. -/
  input : Node → Prop
  /-- What they become. -/
  result : Node → Prop
  /-- The argument lists that reach the operations of a name. -/
  ready : String → List Node → Prop
  /-- The names whose arguments may be regrouped. -/
  loose : String → Prop

/-- Calls go from arguments that are ready to offers that are to be simplified, and respect the relation. -/
def Stages.Invokes (stages : Stages) (excused : Failure → Prop)
    (Related : Environment → Environment → Prop) (recur recur' : Simplifier) : Prop :=
  ∀ {name : String} {args : List Node}, stages.ready name args →
    Shadowed excused Related (fun outcome => ∀ node ∈ outcome, stages.input node)
      (invokeWith recur name args) (invokeWith recur' name args)

/-- So do the handlers of the operations, where related environments have the same operations. -/
def Stages.Handles (stages : Stages) (excused : Failure → Prop)
    (Related : Environment → Environment → Prop) (recur recur' : Simplifier) : Prop :=
  ∀ {left right : Environment} {operation : Operation} {args : List Node},
    Related left right → operation ∈ left.registry.operations →
    operation.accepts args ∨ operation.isUniversal → stages.ready operation.name args →
    Shadowed excused Related (fun outcome => ∀ node ∈ outcome, stages.input node)
      ((operation.handler args).run recur) ((operation.handler args).run recur')

theorem Stages.Handles.invokes {stages : Stages} {excused : Failure → Prop}
    {Related : Environment → Environment → Prop} {recur recur' : Simplifier}
    (hsame : ∀ {left right : Environment}, Related left right → left.registry = right.registry)
    (h : stages.Handles excused Related recur recur') : stages.Invokes excused Related recur recur' := by
  intro name args hargs
  refine shadowed_invokeWith nofun (fun hrelated => Registry.matched_of_eq (hsame hrelated)) ?_
  rintro _ _ operation _ hrelated hmem rfl rfl htakes
  exact h hrelated hmem htakes hargs

/-- A relation on environments that is kept by nesting and by handlers, and stages that follow one
another as simplification goes on. The second run may nest deeper by `extra` levels. -/
structure Simulation (stages : Stages) (excused : Failure → Prop)
    (Related : Environment → Environment → Prop) (extra : Nat) : Prop where
  alike {left right : Environment} : Related left right → left.registry.Alike right.registry
  sameValue {left right : Environment} {name : String} :
    Related left right → stages.input (.symbol name) → left.get? name = right.get? name
  bound {left right : Environment} {name : String} {value : Node} :
    Related left right → stages.input (.symbol name) → left.get? name = some value → stages.input value
  free {left right : Environment} {name : String} :
    Related left right → stages.input (.symbol name) → left.get? name = none →
    stages.result (.symbol name)
  number {value : Number} : stages.input (.number value) → stages.result (.number value)
  boolean {value : Bool} : stages.input (.boolean value) → stages.result (.boolean value)
  halves {first second : Node} :
    stages.input (.pair first second) → stages.input first ∧ stages.input second
  pair {first second : Node} :
    stages.result first → stages.result second → stages.result (.pair first second)
  elements {elements : List Node} :
    stages.input (.sequence elements) → ∀ element ∈ elements, stages.input element
  sequence {elements : List Node} :
    (∀ element ∈ elements, stages.result element) → stages.result (.sequence elements)
  unmarked {name bare : String} {args : List Node} :
    stages.input (.application name args) → deferred? name = some bare →
    stages.result (.application bare args)
  preserved {left right : Environment} {name : String} {args : List Node} :
    Related left right → stages.input (.application name args) → deferred? name = none →
    left.registry.preservesArguments name → stages.ready name args
  simplified {left right : Environment} {name : String} {args : List Node} :
    Related left right → stages.input (.application name args) → deferred? name = none →
    ¬left.registry.preservesArguments name →
    (∀ arg ∈ args, stages.input arg) ∧
      ∀ reduced : List Node, (∀ arg ∈ reduced, stages.result arg) → stages.ready name reduced
  arranged {left right : Environment} {name : String} {args : List Node} :
    Related left right → stages.ready name args → stages.ready name (arrange left.registry name args)
  applied {left right : Environment} {name : String} {args : List Node} :
    Related left right → stages.ready name args →
    stages.result (.application name (arrange left.registry name args))
  loosened {left right : Environment} {name : String} {args : List Node} :
    Related left right → left.registry.isCommutative name → stages.ready name args → stages.loose name
  together {name : String} {args : List Node} {first second : Node} :
    stages.loose name → stages.ready name args → first ∈ args → second ∈ args →
    stages.input (.application name [first, second])
  refolded {name : String} {args others : List Node} {folded : Node} :
    stages.loose name → stages.ready name args → (∀ node ∈ others, node ∈ args) →
    stages.result folded → stages.ready name (others ++ [folded])
  invoked {room : Nat} :
    (∀ node, stages.input node → Shadowed excused Related stages.result
      (simplifyWithin room node) (simplifyWithin (room + extra) node)) →
    stages.Invokes excused Related (simplifyWithin room) (simplifyWithin (room + extra))
  exhausted {node : Node} : stages.input node →
    Shadowed excused Related stages.result (simplifyWithin 0 node) (simplifyWithin extra node)
  deeper {left right : Environment} : Related left right →
    Related { left with depth := left.depth + 1 } { right with depth := right.depth + 1 }
  shallower {left right : Environment} : Related left right →
    Related { left with depth := left.depth - 1 } { right with depth := right.depth - 1 }

/-- Without room, environments of one depth have one outcome. -/
theorem shadowed_exhausted {excused : Failure → Prop} {Related : Environment → Environment → Prop}
    {P : Node → Prop} (hdepth : ∀ {left right : Environment}, Related left right → left.depth = right.depth)
    (node : Node) : Shadowed excused Related P (simplifyWithin 0 node) (simplifyWithin 0 node) := by
  intro left right hrelated
  refine .inr ⟨?_, ensures_error _ _, hrelated⟩
  show Except.error (Failure.recursionLimit left.depth) = .error (.recursionLimit right.depth)
  rw [hdepth hrelated]

/-- Registries that are alike arrange arguments in the same way. -/
theorem arrange_congr {registry other : Registry} (h : registry.Alike other) (name : String)
    (args : List Node) : arrange registry name args = arrange other name args := by
  rw [arrange, arrange, Registry.isCommutative, Registry.isCommutative, h]

section Simulation

variable {stages : Stages} {excused : Failure → Prop} {Related : Environment → Environment → Prop}
  {extra : Nat}

/-- The node that a fold makes is a result, and the nodes that it leaves are among the arguments. -/
def FoldResult (stages : Stages) {args : List Node} (outcome : Option (Fold args)) (among : List Node) :
    Prop :=
  ∀ fold ∈ outcome, stages.result fold.folded ∧ ∀ node ∈ fold.others, node ∈ among

theorem foldResult_map {args args' among : List Node} {outcome : Option (Fold args)} {node : Node}
    {beside : Fold args → Fold args'} (hfolded : ∀ fold, (beside fold).folded = fold.folded)
    (hothers : ∀ fold, (beside fold).others = node :: fold.others)
    (h : FoldResult stages outcome among) :
    FoldResult stages (outcome.map beside) (node :: among) := by
  intro fold hfold
  obtain ⟨inner, hinner, rfl⟩ := Option.map_eq_some_iff.mp hfold
  obtain ⟨hresult, hrest⟩ := h inner hinner
  rw [hfolded, hothers]
  refine ⟨hresult, List.forall_mem_cons.mpr ⟨List.mem_cons_self, fun other hother => ?_⟩⟩
  exact List.mem_cons_of_mem _ (hrest other hother)

section Lists

variable {recur recur' : Simplifier}
  (hrecur : ∀ node, stages.input node →
    Shadowed excused Related stages.result (recur node) (recur' node))
include hrecur

theorem shadowed_simplifyEach {nodes : List Node} (hnodes : ∀ node ∈ nodes, stages.input node) :
    Shadowed excused Related (fun results => ∀ result ∈ results, stages.result result)
      (simplifyEach recur nodes) (simplifyEach recur' nodes) := by
  induction nodes with
  | nil => exact shadowed_pure nofun
  | cons node rest ih =>
      rw [List.forall_mem_cons] at hnodes
      rw [simplifyEach, simplifyEach]
      refine (hrecur node hnodes.1).bind fun result hresult => ?_
      refine (ih hnodes.2).bind fun others hothers => shadowed_pure ?_
      exact List.forall_mem_cons.mpr ⟨hresult, hothers⟩

theorem shadowed_foldWith {name : String} {first : Node} {args : List Node}
    (hpairs : ∀ second ∈ args, stages.input (.application name [first, second])) :
    Shadowed excused Related (FoldResult stages · args)
      (foldWith recur name first args) (foldWith recur' name first args) := by
  induction args with
  | nil => exact shadowed_pure nofun
  | cons second rest ih =>
      rw [List.forall_mem_cons] at hpairs
      rw [foldWith, foldWith]
      refine (hrecur _ hpairs.1).bind fun folded hfolded => ?_
      split
      · refine shadowed_pure ?_
        rintro _ ⟨⟩
        exact ⟨hfolded, fun node hnode => List.mem_cons_of_mem _ hnode⟩
      · exact (ih hpairs.2).bind fun outcome houtcome =>
          shadowed_pure (foldResult_map (fun _ => rfl) (fun _ => rfl) houtcome)

theorem shadowed_foldPair {name : String} {args : List Node}
    (hpairs : ∀ first ∈ args, ∀ second ∈ args, stages.input (.application name [first, second])) :
    Shadowed excused Related (FoldResult stages · args)
      (foldPair recur name args) (foldPair recur' name args) := by
  induction args with
  | nil => exact shadowed_pure nofun
  | cons first rest ih =>
      have hfirst (second : Node) (hsecond : second ∈ rest) :=
        hpairs first List.mem_cons_self second (List.mem_cons_of_mem _ hsecond)
      have hrest (one : Node) (hone : one ∈ rest) (other : Node) (hother : other ∈ rest) :=
        hpairs one (List.mem_cons_of_mem _ hone) other (List.mem_cons_of_mem _ hother)
      rw [foldPair, foldPair]
      refine (shadowed_foldWith hrecur hfirst).bind fun outcome houtcome => ?_
      cases outcome with
      | some fold =>
          refine shadowed_pure ?_
          rintro _ ⟨⟩
          obtain ⟨hfolded, hothers⟩ := houtcome fold rfl
          exact ⟨hfolded, fun node hnode => List.mem_cons_of_mem _ (hothers node hnode)⟩
      | none =>
          exact (ih hrest).bind fun outcome houtcome =>
            shadowed_pure (foldResult_map (fun _ => rfl) (fun _ => rfl) houtcome)

end Lists

theorem shadowed_registry {α : Type} {P : α → Prop} {next next' : Registry → Evaluation α}
    (hnext : ∀ {left right : Environment}, Related left right →
      Shadowed excused Related P (next left.registry) (next' right.registry)) :
    Shadowed excused Related P (registry >>= next) (registry >>= next') := by
  intro left right hrelated
  rw [bind_run_ok (registry_run left), bind_run_ok (registry_run right)]
  exact hnext hrelated left right hrelated

variable (h : Simulation stages excused Related extra)
include h

theorem shadowed_nested {α : Type} {P : α → Prop} {inner inner' : Evaluation α}
    (hinner : Shadowed excused Related P inner inner') :
    Shadowed excused Related P (nested inner) (nested inner') := by
  intro left right hrelated
  rw [nested_run, nested_run]
  refine (hinner _ _ (h.deeper hrelated)).imp id fun ⟨hsame, hresult, hafter⟩ => ?_
  exact ⟨hsame, hresult, h.shallower hafter⟩

section Step

variable {recur recur' : Simplifier}
  (hrecur : ∀ node, stages.input node →
    Shadowed excused Related stages.result (recur node) (recur' node))
  (hinvokes : stages.Invokes excused Related recur recur')
include hrecur hinvokes

theorem shadowed_regroup {name : String} (hloose : stages.loose name) (arity : Nat) {args : List Node}
    (hargs : stages.ready name args) :
    Shadowed excused Related stages.result (regroup recur name arity args)
      (regroup recur' name arity args) := by
  induction args using regroup.induct name with
  | case1 args ih =>
      rw [regroup, regroup]
      have hpairs (first : Node) (hfirst : first ∈ args) (second : Node) (hsecond : second ∈ args) :=
        h.together hloose hargs hfirst hsecond
      refine (shadowed_foldPair hrecur hpairs).bind fun outcome houtcome => ?_
      cases outcome with
      | some fold =>
          obtain ⟨hfolded, hothers⟩ := houtcome fold rfl
          dsimp only
          split
          · exact shadowed_pure hfolded
          · refine shadowed_registry fun {left _} hrelated => ?_
            rw [← arrange_congr (h.alike hrelated)]
            exact ih fold left.registry (h.arranged hrelated (h.refolded hloose hargs hothers hfolded))
      | none =>
          have hconstruct : Shadowed excused Related stages.result
              (do return construct (← registry) name args)
              (do return construct (← registry) name args) :=
            shadowed_registry fun hrelated => by
              rw [construct, construct, ← arrange_congr (h.alike hrelated)]
              exact shadowed_pure (h.applied hrelated hargs)
          dsimp only
          split
          · refine (hinvokes hargs).bind fun outcome houtcome => ?_
            cases outcome with
            | some result => exact hrecur result (houtcome result rfl)
            | none => exact hconstruct
          · exact hconstruct

theorem shadowed_simplifyPrepared {name : String} {args : List Node} (hargs : stages.ready name args) :
    Shadowed excused Related stages.result (simplifyPrepared recur name args)
      (simplifyPrepared recur' name args) := by
  refine shadowed_registry fun {left _} hrelated => ?_
  rw [← arrange_congr (h.alike hrelated)]
  have harranged := h.arranged hrelated hargs
  refine (hinvokes harranged).bind fun outcome houtcome => ?_
  cases outcome with
  | some result => exact hrecur result (houtcome result rfl)
  | none =>
      have hnode := h.applied hrelated hargs
      refine shadowed_registry fun hrelated => ?_
      rw [Registry.isCommutative, Registry.isCommutative, ← h.alike hrelated]
      split
      · rename_i hchain
        rw [Bool.and_eq_true] at hchain
        have hloose := h.loosened hrelated hchain.2 harranged
        refine (shadowed_regroup h hrecur hinvokes hloose _ harranged).bind fun regrouped hregrouped =>
          shadowed_pure ?_
        split
        · exact hregrouped
        · exact hnode
      · exact shadowed_pure hnode

theorem shadowed_simplifyApplication {name : String} {args : List Node}
    (hnode : stages.input (.application name args)) :
    Shadowed excused Related stages.result (simplifyApplication recur name args)
      (simplifyApplication recur' name args) := by
  rw [simplifyApplication, simplifyApplication]
  cases hmarked : deferred? name with
  | some bare => exact shadowed_pure (h.unmarked hnode hmarked)
  | none =>
      refine shadowed_registry fun hrelated => ?_
      rw [Registry.preservesArguments, Registry.preservesArguments, ← h.alike hrelated]
      split
      · rename_i hpreserves
        exact shadowed_simplifyPrepared h hrecur hinvokes (h.preserved hrelated hnode hmarked hpreserves)
      · rename_i hpreserves
        obtain ⟨hargs, hready⟩ := h.simplified hrelated hnode hmarked hpreserves
        exact (shadowed_simplifyEach hrecur hargs).bind fun reduced hreduced =>
          shadowed_simplifyPrepared h hrecur hinvokes (hready reduced hreduced)

theorem shadowed_simplifyStep {node : Node} (hnode : stages.input node) :
    Shadowed excused Related stages.result (simplifyStep recur node) (simplifyStep recur' node) := by
  cases node with
  | number value => exact shadowed_pure (h.number hnode)
  | boolean value => exact shadowed_pure (h.boolean hnode)
  | symbol name =>
      intro left right hrelated
      rw [simplifyStep_symbol, simplifyStep_symbol, ← h.sameValue hrelated hnode]
      cases hvalue : left.get? name with
      | none => exact shadowed_pure (h.free hrelated hnode hvalue) left right hrelated
      | some value => exact hrecur value (h.bound hrelated hnode hvalue) left right hrelated
  | pair first second =>
      obtain ⟨hfirst, hsecond⟩ := h.halves hnode
      refine (hrecur first hfirst).bind fun first hfirst => ?_
      exact (hrecur second hsecond).bind fun second hsecond => shadowed_pure (h.pair hfirst hsecond)
  | sequence elements =>
      exact (shadowed_simplifyEach hrecur (h.elements hnode)).bind fun elements helements =>
        shadowed_pure (h.sequence helements)
  | application name args => exact shadowed_simplifyApplication h hrecur hinvokes hnode

end Step

/-- Simplification in the shadow of a run with no more room. -/
theorem shadowed_simplifyWithin (room : Nat) {node : Node} (hnode : stages.input node) :
    Shadowed excused Related stages.result (simplifyWithin room node)
      (simplifyWithin (room + extra) node) := by
  induction room generalizing node with
  | zero =>
      rw [Nat.zero_add]
      exact h.exhausted hnode
  | succ room ih =>
      rw [Nat.add_right_comm]
      exact shadowed_nested h (shadowed_simplifyStep h (fun _ => ih) (h.invoked fun _ => ih) hnode)

end Simulation

end SymbolicAlgebra
