import SymbolicAlgebra.Proofs.Simulation

/-! Two runs side by side. A relation on environments that handlers respect on arguments of a kind, and that
nesting respects too, is respected by simplification: from related environments a node of the kind has
one outcome, which is again of the kind, and the environments behind it are related. This is a simulation
in which no failure is excused. -/

namespace SymbolicAlgebra

namespace Evaluation

variable {α : Type} {Related : Environment → Environment → Prop} {P : α → Prop}

/-- From related environments the computation has one outcome, with a result in `P` if it succeeds, and
leaves related environments behind. -/
def Coupled (Related : Environment → Environment → Prop) (P : α → Prop) (computation : Evaluation α) :
    Prop :=
  ∀ left right, Related left right →
    (computation left).1 = (computation right).1 ∧ Ensures P (computation left).1 ∧
      Related (computation left).2 (computation right).2

/-- Coupling is shadowing that excuses no failure. -/
theorem coupled_iff_shadowed {x : Evaluation α} :
    Coupled Related P x ↔ Shadowed (fun _ => False) Related P x x := by
  constructor
  · exact fun h left right hrelated => .inr (h left right hrelated)
  · exact fun h left right hrelated => (h left right hrelated).resolve_left fun ⟨_, _, hfalse⟩ => hfalse

theorem coupled_pure {a : α} (h : P a) : Coupled Related P (pure a) :=
  fun _ _ hrelated => ⟨rfl, ensures_ok h, hrelated⟩

theorem coupled_throw (failure : Failure) : Coupled Related P (throw failure) :=
  fun _ _ hrelated => ⟨rfl, ensures_error P failure, hrelated⟩

theorem Coupled.bind {β : Type} {Q : β → Prop} {x : Evaluation α} {f : α → Evaluation β}
    (hx : Coupled Related P x) (hf : ∀ a, P a → Coupled Related Q (f a)) : Coupled Related Q (x >>= f) :=
  coupled_iff_shadowed.mpr
    ((coupled_iff_shadowed.mp hx).bind fun a ha => coupled_iff_shadowed.mp (hf a ha))

end Evaluation

open Evaluation

namespace Action

variable {α β : Type} {Related : Environment → Environment → Prop} {P : α → Prop} {Q : β → Prop}
  {recur : Simplifier}

theorem coupled_bind {first : Action Operation α} {next : α → Action Operation β}
    (hfirst : Coupled Related P (first.run recur)) (hnext : ∀ a, P a → Coupled Related Q ((next a).run recur)) :
    Coupled Related Q ((first >>= next).run recur) := by
  show Coupled Related Q ((first.andThen next).run recur)
  rw [run_andThen]
  exact hfirst.bind hnext

theorem coupled_ofExcept {computation : Except Failure α} (h : Ensures P computation) :
    Coupled Related P ((ofExcept computation).run recur) := by
  cases computation with
  | ok result => exact coupled_pure (h result rfl)
  | error failure => exact coupled_throw failure

/-- A simplification is coupled with whatever goes on from its outcome. -/
theorem coupled_simplify_then {R : Node → Prop} {node : Node} {next : Except Failure Node → Action Operation α}
    (hnode : Coupled Related R (recur node))
    (hnext : ∀ answer, Ensures R answer → Coupled Related P ((next answer).run recur)) :
    Coupled Related P ((Action.simplify node next).run recur) := by
  intro left right hrelated
  have hcoupled := hnode left right hrelated
  rcases hleft : recur node left with ⟨answer, leftMid⟩
  rcases hright : recur node right with ⟨other, rightMid⟩
  rw [hleft, hright] at hcoupled
  obtain ⟨rfl, hanswer, hafter⟩ := hcoupled
  simp only [Action.run, hleft, hright]
  exact hnext answer hanswer leftMid rightMid hafter

/-- A quiet action shadows itself if what it simplifies does. -/
theorem QuietOn.shadowed {excused : Failure → Prop} {K : Node → Prop} {recur' : Simplifier}
    {action : Action Operation α} (h : action.QuietOn K P)
    (hrecur : ∀ node, K node → Shadowed excused Related K (recur node) (recur' node)) :
    Shadowed excused Related P (action.run recur) (action.run recur') := by
  induction h with
  | done hresult => exact shadowed_pure hresult
  | fail failure => exact shadowed_throw failure
  | @simplify node next hnode _ herror ih =>
      intro left right hrelated
      have hshadow := hrecur node hnode left right hrelated
      simp only [Action.run]
      rcases hleft : recur node left with ⟨answer, leftMid⟩
      rcases hright : recur' node right with ⟨other, rightMid⟩
      rw [hleft, hright] at hshadow
      rcases hshadow with ⟨failure, rfl, hexcused⟩ | ⟨rfl, hanswer, hmid⟩
      · exact .inl ⟨failure, by simp only [herror, Action.run]; rfl, hexcused⟩
      · cases answer with
        | ok answer => exact ih answer (hanswer answer rfl) leftMid rightMid hmid
        | error failure =>
            simp only [herror]
            exact shadowed_throw failure leftMid rightMid hmid

/-- A quiet action respects every relation that the simplifier respects. -/
theorem QuietOn.coupled {K : Node → Prop} {action : Action Operation α} (h : action.QuietOn K P)
    (hrecur : ∀ node, K node → Coupled Related K (recur node)) : Coupled Related P (action.run recur) :=
  coupled_iff_shadowed.mpr (h.shadowed fun node hnode => coupled_iff_shadowed.mp (hrecur node hnode))

end Action

/-- Where related environments have the same operations, calls are coupled if the handlers are. -/
theorem coupled_invokeWith {K : Node → Prop} {Related : Environment → Environment → Prop} {recur : Simplifier}
    {name : String} {args : List Node}
    (hsame : ∀ {left right : Environment}, Related left right → left.registry = right.registry)
    (hhandled : ∀ {left right : Environment} {operation : Operation}, Related left right →
      operation ∈ left.registry.operations → operation.name = name →
      operation.accepts args ∨ operation.isUniversal →
      Coupled Related (Offered K) ((operation.handler args).run recur)) :
    Coupled Related (Offered K) (invokeWith recur name args) := by
  refine coupled_iff_shadowed.mpr (shadowed_invokeWith offered_none
    (fun hrelated => Registry.matched_of_eq (hsame hrelated)) ?_)
  rintro _ _ operation _ hrelated hmem rfl hname htakes
  exact coupled_iff_shadowed.mp (hhandled hrelated hmem hname htakes)

/-- An application of the vocabulary without its defer marker, in a vocabulary that has the bare name. -/
theorem Node.within_unmarked {V : Vocabulary}
    (hunmarked : ∀ name bare, V.name name → deferred? name = some bare → V.name bare) {name bare : String}
    {args : List Node} (hnode : (application name args).Within V) (hmarked : deferred? name = some bare) :
    (application bare args).Within V := by
  obtain ⟨hname, hargs⟩ := within_application.mp hnode
  exact within_application.mpr ⟨hunmarked name bare hname hmarked, hargs⟩

/-- A relation on environments that agree in what nodes of the kind can reach, kept by nesting and by the
handlers. -/
structure Coupling (K : Node → Prop) (Related : Environment → Environment → Prop) : Prop where
  kind : Node.Kind K
  unmarked {name bare : String} {args : List Node} :
    K (.application name args) → deferred? name = some bare → K (.application bare args)
  sameDepth {left right : Environment} : Related left right → left.depth = right.depth
  sameMaxDepth {left right : Environment} : Related left right → left.maxDepth = right.maxDepth
  alike {left right : Environment} : Related left right → left.registry.Alike right.registry
  sameValue {left right : Environment} {name : String} :
    Related left right → K (.symbol name) → left.get? name = right.get? name
  bound {left right : Environment} {name : String} {value : Node} :
    Related left right → K (.symbol name) → left.get? name = some value → K value
  deeper {left right : Environment} : Related left right →
    Related { left with depth := left.depth + 1 } { right with depth := right.depth + 1 }
  shallower {left right : Environment} : Related left right →
    Related { left with depth := left.depth - 1 } { right with depth := right.depth - 1 }
  invoked {name : String} {args : List Node} {recur : Simplifier} :
    K (.application name args) → (∀ node, K node → Coupled Related K (recur node)) →
    Coupled Related (Offered K) (invokeWith recur name args)

section Coupling

variable {K : Node → Prop} {Related : Environment → Environment → Prop}

/-- At every stage, nodes are of the kind. -/
def Stages.of (K : Node → Prop) : Stages where
  input := K
  result := K
  ready name args := K (.application name args)
  loose _ := True

/-- Nodes of a kind go through all stages as such. -/
theorem Simulation.of_kind {excused : Failure → Prop} {extra : Nat} (hkind : Node.Kind K)
    (hunmarked : ∀ {name bare : String} {args : List Node},
      K (.application name args) → deferred? name = some bare → K (.application bare args))
    (halike : ∀ {left right : Environment}, Related left right → left.registry.Alike right.registry)
    (hsame : ∀ {left right : Environment} {name : String},
      Related left right → K (.symbol name) → left.get? name = right.get? name)
    (hbound : ∀ {left right : Environment} {name : String} {value : Node},
      Related left right → K (.symbol name) → left.get? name = some value → K value)
    (hinvoked : ∀ {room : Nat},
      (∀ node, K node → Shadowed excused Related K (simplifyWithin room node) (simplifyWithin (room + extra) node)) →
      (Stages.of K).Invokes excused Related (simplifyWithin room) (simplifyWithin (room + extra)))
    (hexhausted : ∀ {node : Node}, K node →
      Shadowed excused Related K (simplifyWithin 0 node) (simplifyWithin extra node))
    (hdeeper : ∀ {left right : Environment}, Related left right →
      Related { left with depth := left.depth + 1 } { right with depth := right.depth + 1 })
    (hshallower : ∀ {left right : Environment}, Related left right →
      Related { left with depth := left.depth - 1 } { right with depth := right.depth - 1 }) :
    Simulation (.of K) excused Related extra where
  alike := halike
  sameValue := hsame
  bound := hbound
  free _ hname _ := hname
  number := id
  boolean := id
  halves := hkind.pair.mp
  pair hfirst hsecond := hkind.pair.mpr ⟨hfirst, hsecond⟩
  elements := hkind.sequence.mp
  sequence := hkind.sequence.mpr
  unmarked := hunmarked
  preserved _ hnode _ _ := hnode
  simplified _ hnode _ _ := ⟨hkind.args hnode, fun _ hreduced => hkind.applied hnode hreduced⟩
  arranged _ hnode := hkind.applied hnode (hkind.arranged _ (hkind.args hnode))
  applied _ hnode := hkind.applied hnode (hkind.arranged _ (hkind.args hnode))
  loosened _ _ _ := trivial
  together {_ args first second} _ hnode hfirst hsecond := by
    have hargs := hkind.args hnode
    refine hkind.applied hnode ?_
    rw [List.forall_mem_cons, List.forall_mem_singleton]
    exact ⟨hargs first hfirst, hargs second hsecond⟩
  refolded {_ args _ _} _ hnode hothers hfolded := by
    have hargs := hkind.args hnode
    refine hkind.applied hnode (List.forall_mem_append.mpr ⟨fun node hmem => hargs node (hothers node hmem), ?_⟩)
    exact List.forall_mem_singleton.mpr hfolded
  invoked := hinvoked
  exhausted := hexhausted
  deeper := hdeeper
  shallower := hshallower

/-- Coupled runs shadow one another, and no failure is excused. -/
theorem Coupling.simulation (h : Coupling K Related) : Simulation (.of K) (fun _ => False) Related 0 := by
  refine .of_kind h.kind h.unmarked h.alike h.sameValue h.bound ?_ (fun _ => shadowed_exhausted h.sameDepth _)
    h.deeper h.shallower
  intro _ hrecur _ _ hnode
  exact coupled_iff_shadowed.mp (h.invoked hnode fun node hnode => coupled_iff_shadowed.mpr (hrecur node hnode))

theorem coupled_simplifyWithin (hcoupling : Coupling K Related) (room : Nat) {node : Node} (hnode : K node) :
    Coupled Related K (simplifyWithin room node) :=
  coupled_iff_shadowed.mpr (shadowed_simplifyWithin hcoupling.simulation room hnode)

/-- Simplification in related environments has one outcome and leaves related environments behind. -/
theorem coupled_simplify (hcoupling : Coupling K Related) {node : Node} (hnode : K node) :
    Coupled Related K (simplify node) := by
  intro left right hrelated
  rw [simplify, simplify, ← hcoupling.sameDepth hrelated, ← hcoupling.sameMaxDepth hrelated]
  exact coupled_simplifyWithin hcoupling _ hnode left right hrelated

end Coupling

end SymbolicAlgebra
