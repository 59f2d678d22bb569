import Mathlib.Logic.Relation
import SymbolicAlgebra.Proofs.Statement

/-! Definitions in a circle. What an expression without definitions and defer markers comes to has no
bound symbol in it, except inside an `if` that is left undecided, whose branches are not simplified. A
value without such an `if` therefore mentions no variable that was bound before it. So whatever
statements are made over such expressions, the values without an undecided `if` never refer to one
another in a circle. -/

namespace SymbolicAlgebra

/-- All symbols, and the names without a defer marker that define nothing. -/
def Vocabulary.plain : Vocabulary where
  symbol _ := True
  name name := deferred? name = none ∧ name ∉ definingNames

instance (name : String) : Decidable (Vocabulary.plain.symbol name) :=
  .isTrue trivial

instance (name : String) : Decidable (Vocabulary.plain.name name) :=
  inferInstanceAs (Decidable (_ ∧ _))

theorem Vocabulary.suits_plain : Vocabulary.plain.Suits where
  written := by
    show ∀ name ∈ Builtin.writtenNames, deferred? name = none ∧ name ∉ definingNames
    decide
  labels _ _ _ _ _ := trivial

/-- No `if` is left in the node. -/
def Node.Decided (node : Node) : Prop :=
  node.Everywhere fun part => ∀ args, part ≠ .application "if" args

/-- No symbol of the node is bound in the scope, except inside an `if`. -/
inductive Scope.Resolves (scope : Scope) : Node → Prop
  | number (value : Number) : Resolves scope (.number value)
  | boolean (value : Bool) : Resolves scope (.boolean value)
  | symbol {name : String} : scope.bindings.get? name = none → Resolves scope (.symbol name)
  | undecided (args : List Node) : Resolves scope (.application "if" args)
  | application (name : String) {args : List Node} :
      (∀ arg ∈ args, Resolves scope arg) → Resolves scope (.application name args)
  | pair {first second : Node} :
      Resolves scope first → Resolves scope second → Resolves scope (.pair first second)
  | sequence {elements : List Node} :
      (∀ element ∈ elements, Resolves scope element) → Resolves scope (.sequence elements)

namespace Scope.Resolves

variable {scope : Scope}

theorem of_application {name : String} {args : List Node} (h : scope.Resolves (.application name args))
    (hname : name ≠ "if") : ∀ arg ∈ args, scope.Resolves arg := by
  cases h with
  | undecided => exact (hname rfl).elim
  | application _ hargs => exact hargs

theorem of_sequence {elements : List Node} (h : scope.Resolves (.sequence elements)) :
    ∀ element ∈ elements, scope.Resolves element := by
  cases h with
  | sequence helements => exact helements

/-- Where no `if` is left, no symbol is bound. -/
theorem unbound {node : Node} (h : scope.Resolves node) (hdecided : node.Decided) {name : String}
    (hmentions : node.mentions name) : scope.bindings.get? name = none := by
  induction h with
  | number value => cases hmentions
  | boolean value => cases hmentions
  | symbol hunbound =>
      rw [Node.mentions, beq_iff_eq] at hmentions
      rw [← hmentions]
      exact hunbound
  | undecided args => exact ((Node.everywhere_application.mp hdecided).1 args rfl).elim
  | application _ _ ih =>
      rw [Node.mentions, Node.anyMentions_eq_any, List.any_eq_true] at hmentions
      obtain ⟨arg, harg, hmentions⟩ := hmentions
      exact ih arg harg ((Node.everywhere_application.mp hdecided).2 arg harg) hmentions
  | pair _ _ ihfirst ihsecond =>
      obtain ⟨_, hfirst, hsecond⟩ := Node.everywhere_pair.mp hdecided
      rw [Node.mentions, Bool.or_eq_true] at hmentions
      exact hmentions.elim (ihfirst hfirst) (ihsecond hsecond)
  | sequence _ ih =>
      rw [Node.mentions, Node.anyMentions_eq_any, List.any_eq_true] at hmentions
      obtain ⟨element, helement, hmentions⟩ := hmentions
      exact ih element helement ((Node.everywhere_sequence.mp hdecided).2 element helement) hmentions

end Scope.Resolves

open Evaluation

/-! ### What expressions come to -/

/-- What is asked of every operation: calm under a plain name, a standard one if it is for statements.
Only `if` and statements get their arguments as they are, and they keep them in order. -/
structure Operation.Tidy (operation : Operation) : Prop where
  calm : Vocabulary.plain.name operation.name → operation.CalmIn .plain
  statement : operation.name ∈ definingNames → operation ∈ Builtin.standard.operations
  preserving : operation.attributes.preservesArguments → operation.name = "if" ∨ operation.name ∈ definingNames
  commutative : operation.attributes.commutative → operation.name ≠ "if"

theorem Builtin.tidy_standard {operation : Operation} (hmem : operation ∈ standard.operations) :
    operation.Tidy := by
  have hpreserving : ∀ operation ∈ standard.operations, operation.attributes.preservesArguments →
      operation.name = "if" ∨ operation.name ∈ definingNames := by
    decide +kernel
  have hcommutative : ∀ operation ∈ standard.operations, operation.attributes.commutative →
      operation.name ≠ "if" := by
    decide +kernel
  exact ⟨fun hname => calm_standard Vocabulary.suits_plain hmem hname hname.2, fun _ => hmem,
    hpreserving operation hmem, hcommutative operation hmem⟩

theorem Definition.tidy_templateOperation {name : String} (names aliases : List String) {template : Node}
    (hname : Vocabulary.plain.name name) (h : template.Within .plain) :
    (templateOperation name aliases (rename names aliases template)).Tidy :=
  ⟨fun _ => calm_templateOperation name names aliases h, fun hdefining => (hname.2 hdefining).elim,
    nofun, nofun⟩

/-- Tidy operations, and values without definitions and defer markers. -/
structure Scope.Tidy (scope : Scope) : Prop where
  operations : ∀ operation ∈ scope.registry.operations, operation.Tidy
  values : ∀ name value, scope.bindings.get? name = some value → value.Within .plain

section Tidy

variable {scope : Scope} (h : scope.Tidy)
include h

theorem Scope.Tidy.calm : scope.CalmIn .plain where
  unmarked name bare hname hmarked := by
    rw [hname.1] at hmarked
    cases hmarked
  operations operation hmem := (h.operations operation hmem).calm
  values name value _ := h.values name value

theorem Scope.Tidy.eq_if_of_preserves {name : String} (hname : Vocabulary.plain.name name)
    (hpreserves : scope.registry.preservesArguments name) : name = "if" := by
  obtain ⟨operation, hmem, rfl, hselected⟩ := Registry.exists_of_hasAttribute hpreserves
  exact ((h.operations operation hmem).preserving hselected).resolve_right hname.2

theorem Scope.Tidy.ne_if_of_commutative {name : String} (hcommutative : scope.registry.isCommutative name) :
    name ≠ "if" := by
  obtain ⟨operation, hmem, rfl, hselected⟩ := Registry.exists_of_hasAttribute hcommutative
  exact (h.operations operation hmem).commutative hselected

/-- Plain expressions come to plain expressions without bound symbols, except inside an `if`. -/
def Stages.resolving (scope : Scope) : Stages where
  input := Node.Within .plain
  result node := node.Within .plain ∧ scope.Resolves node
  ready name args := Vocabulary.plain.name name ∧ (∀ arg ∈ args, arg.Within .plain) ∧
    (name = "if" ∨ ∀ arg ∈ args, scope.Resolves arg)
  loose name := name ≠ "if"

theorem Scope.Tidy.resolves_arrange {name : String} {args : List Node}
    (hargs : name = "if" ∨ ∀ arg ∈ args, scope.Resolves arg) :
    name = "if" ∨ ∀ arg ∈ arrange scope.registry name args, scope.Resolves arg := by
  refine hargs.imp id fun hargs => ?_
  by_cases hcommutative : scope.registry.isCommutative name
  · have hname := h.ne_if_of_commutative hcommutative
    exact forall_mem_arrange scope.registry (fun _ happlication => happlication.of_application hname) hargs
  · rwa [arrange_of_ordered hcommutative]

theorem Scope.Tidy.simulation_resolving :
    Simulation (.resolving scope) (fun _ => False) (Environment.Keeps scope) 0 where
  alike := Environment.Keeps.alike
  sameValue hkeeps _ := hkeeps.sameValue _
  bound {_ _ name value} hkeeps _ hvalue := by
    rw [hkeeps.get?_eq] at hvalue
    exact h.values name value hvalue
  free hkeeps hname hunbound := by
    rw [hkeeps.get?_eq] at hunbound
    exact ⟨hname, .symbol hunbound⟩
  number _ := ⟨Node.within_number _, .number _⟩
  boolean _ := ⟨Node.within_boolean _, .boolean _⟩
  halves := Node.within_pair.mp
  pair hfirst hsecond := ⟨Node.within_pair.mpr ⟨hfirst.1, hsecond.1⟩, .pair hfirst.2 hsecond.2⟩
  elements := Node.within_sequence.mp
  sequence helements :=
    ⟨Node.within_sequence.mpr fun element hmem => (helements element hmem).1,
      .sequence fun element hmem => (helements element hmem).2⟩
  unmarked hnode hmarked := by
    rw [(Node.within_application.mp hnode).1.1] at hmarked
    cases hmarked
  preserved hkeeps hnode _ hpreserves := by
    obtain ⟨hname, hargs⟩ := Node.within_application.mp hnode
    rw [hkeeps.registry_eq] at hpreserves
    exact ⟨hname, hargs, .inl (h.eq_if_of_preserves hname hpreserves)⟩
  simplified _ hnode _ _ := by
    obtain ⟨hname, hargs⟩ := Node.within_application.mp hnode
    exact ⟨hargs, fun _ hreduced => ⟨hname, fun arg harg => (hreduced arg harg).1,
      .inr fun arg harg => (hreduced arg harg).2⟩⟩
  arranged hkeeps hready := by
    refine ⟨hready.1, (Vocabulary.kind _).arranged _ hready.2.1, ?_⟩
    rw [hkeeps.registry_eq]
    exact h.resolves_arrange hready.2.2
  applied {left _ name args} hkeeps hready := by
    refine ⟨Node.within_application.mpr ⟨hready.1, (Vocabulary.kind _).arranged _ hready.2.1⟩, ?_⟩
    rw [hkeeps.registry_eq]
    rcases h.resolves_arrange hready.2.2 with rfl | hargs
    · exact .undecided _
    · exact .application name hargs
  loosened hkeeps hcommutative _ := by
    rw [hkeeps.registry_eq] at hcommutative
    exact h.ne_if_of_commutative hcommutative
  together _ hready hfirst hsecond :=
    Node.within_call hready.1 (hready.2.1 _ hfirst) (hready.2.1 _ hsecond)
  refolded hloose hready hothers hfolded := by
    refine ⟨hready.1, ?_, .inr ?_⟩
    · refine List.forall_mem_append.mpr ⟨fun node hnode => hready.2.1 node (hothers node hnode), ?_⟩
      exact List.forall_mem_singleton.mpr hfolded.1
    · have hargs := hready.2.2.resolve_left hloose
      refine List.forall_mem_append.mpr ⟨fun node hnode => hargs node (hothers node hnode), ?_⟩
      exact List.forall_mem_singleton.mpr hfolded.2
  invoked {room} _ := Stages.Handles.invokes Environment.Keeps.sameRegistry <| by
    intro _ _ operation args hkeeps hmem htakes hready
    rw [hkeeps.registry_eq] at hmem
    have hcalm := (h.operations operation hmem).calm hready.1 args htakes hready.2.1
    exact coupled_iff_shadowed.mp (hcalm.coupled (Environment.pins_keeps scope) fun _ =>
      coupled_simplifyWithin h.calm.coupling room)
  exhausted {node} _ := shadowed_exhausted Environment.Keeps.sameDepth node
  deeper := h.calm.coupling.deeper
  shallower := h.calm.coupling.shallower

/-- What a plain expression comes to has no bound symbol in it, except inside an `if`. -/
theorem Scope.Tidy.finds (room : Nat) :
    (simplifyWithin room).Finds .plain scope fun _ result =>
      result.Within .plain ∧ scope.Resolves result :=
  fun _ hnode => (coupled_iff_shadowed.mpr (shadowed_simplifyWithin h.simulation_resolving room hnode)).atomic

end Tidy

/-! ### Circles -/

/-- The value of `x` is decided and mentions `y`, which is bound. -/
def Scope.Feeds (scope : Scope) (x y : String) : Prop :=
  ∃ value, scope.bindings.get? x = some value ∧ value.Decided ∧ value.mentions y ∧
    (scope.bindings.get? y).isSome

/-- No variable with a decided value feeds itself, not even through others. -/
def Scope.Acyclic (scope : Scope) : Prop :=
  ∀ x, ¬Relation.TransGen scope.Feeds x x

/-- A relation stays acyclic when pairs are added that lead to a point from which none leads on. -/
theorem acyclic_of_sink {α : Type} {before after : α → α → Prop} (sink : α)
    (hacyclic : ∀ a, ¬Relation.TransGen before a a) (hsink : ∀ b, ¬after sink b)
    (hold : ∀ a b, after a b → before a b ∨ b = sink) (a : α) : ¬Relation.TransGen after a a := by
  have hpath {a b : α} (h : Relation.TransGen after a b) : Relation.TransGen before a b ∨ b = sink := by
    induction h with
    | single hstep => exact (hold _ _ hstep).imp .single id
    | tail _ hstep ih =>
        rcases ih with hpath | rfl
        · exact (hold _ _ hstep).imp hpath.tail id
        · exact (hsink _ hstep).elim
  intro hcircle
  rcases hpath hcircle with hcircle | rfl
  · exact hacyclic a hcircle
  · obtain ⟨b, hstep, _⟩ := Relation.TransGen.head'_iff.mp hcircle
    exact hsink b hstep

section Circles

variable {scope : Scope}

/-- A variable is bound to what an expression comes to, which does not mention it or else would mention a
bound symbol. -/
theorem Scope.Acyclic.bind (h : scope.Acyclic) {name : String} {value : Node} (hvalue : scope.Resolves value)
    (hname : value.mentions name → (scope.bindings.get? name).isSome) : (scope.bind name value).Acyclic := by
  have hget (other : String) : (scope.bind name value).bindings.get? other =
      if other = name then some value else scope.bindings.get? other :=
    Bindings.get?_set scope.bindings name value other
  refine acyclic_of_sink name h (fun other hfeeds => ?_) fun source target hfeeds => ?_
  · obtain ⟨held, hheld, hdecided, hmentions, hbound⟩ := hfeeds
    rw [hget, if_pos rfl] at hheld
    cases hheld
    have hunbound := hvalue.unbound hdecided hmentions
    rw [hget] at hbound
    split at hbound
    · rename_i hsame
      rw [hsame] at hmentions hunbound
      rw [hunbound] at hname
      cases hname hmentions
    · rw [hunbound] at hbound
      cases hbound
  · obtain ⟨held, hheld, hdecided, hmentions, hbound⟩ := hfeeds
    by_cases htarget : target = name
    · exact .inr htarget
    · rw [hget, if_neg htarget] at hbound
      by_cases hsource : source = name
      · rw [hget, if_pos hsource] at hheld
        cases hheld
        rw [hvalue.unbound hdecided hmentions] at hbound
        cases hbound
      · rw [hget, if_neg hsource] at hheld
        exact .inl ⟨held, hheld, hdecided, hmentions, hbound⟩

theorem Scope.Acyclic.remove (h : scope.Acyclic) (name : String) : (scope.remove name).Acyclic := by
  have hget {other : String} {value : Node} (hvalue : (scope.remove name).bindings.get? other = some value) :
      scope.bindings.get? other = some value :=
    Bindings.get?_of_get?_erase hvalue
  refine fun x hcircle => h x (Relation.TransGen.mono (fun source target hfeeds => ?_) x x hcircle)
  obtain ⟨held, hheld, hdecided, hmentions, hbound⟩ := hfeeds
  obtain ⟨value, hvalue⟩ := Option.isSome_iff_exists.mp hbound
  exact ⟨held, hget hheld, hdecided, hmentions, Option.isSome_iff_exists.mpr ⟨value, hget hvalue⟩⟩

end Circles

/-! ### Runs of statements -/

/-- A plain expression, a statement on plain expressions, or a pair or sequence of these. -/
inductive Node.Statement : Node → Prop
  | expression {node : Node} : node.Within .plain → Statement node
  | statement {name : String} {args : List Node} :
      name ∈ definingNames → (∀ arg ∈ args, arg.Within .plain) → Statement (.application name args)
  | pair {first second : Node} : Statement first → Statement second → Statement (.pair first second)
  | sequence {elements : List Node} :
      (∀ element ∈ elements, Statement element) → Statement (.sequence elements)

/-- Tidy, and without circles. -/
structure Scope.Orderly (scope : Scope) : Prop where
  tidy : scope.Tidy
  acyclic : scope.Acyclic

/-- An orderly scope is orderly after a change. -/
theorem Scope.Updates.orderly {scope after : Scope} (h : scope.Orderly) {issued : Nat} {name : String}
    {args : List Node} {answer : Node} (hargs : ∀ arg ∈ args, arg.Within .plain)
    (hupdates : scope.Updates (fun _ result => result.Within .plain ∧ scope.Resolves result) issued name args
      after answer) :
    after.Orderly := by
  have hvalues := hupdates.calm h.tidy.calm (fun _ _ _ hresult => hresult.1) hargs
  refine ⟨⟨?_, fun name value => hvalues.values name value trivial⟩, ?_⟩
  · cases hupdates with
    | binds => exact h.tidy.operations
    | registers _ =>
        intro operation hmem
        rcases Registry.mem_enter hmem with rfl | hmem
        · have hhead := Node.within_application.mp (hargs _ List.mem_cons_self)
          exact Definition.tidy_templateOperation _ _ hhead.1 (hargs _ (by simp))
        · exact h.tidy.operations operation hmem
    | removes => exact fun operation hmem => h.tidy.operations operation (List.mem_of_mem_filter hmem)
    | replaces => exact h.tidy.operations
  · cases hupdates with
    | binds hanswer hmentions => exact h.acyclic.bind hanswer.2 fun hself => (hmentions hself).elim
    | registers => exact h.acyclic
    | removes => exact h.acyclic.remove _
    | replaces _ hreplacement hheld hlist _ =>
        refine h.acyclic.bind (.sequence fun element hmem => ?_) fun _ => Option.isSome_iff_exists.mpr ⟨_, hheld⟩
        rcases List.mem_or_eq_of_mem_set hmem with hmem | rfl
        · exact hlist.2.of_sequence element hmem
        · exact hreplacement.2

/-- The computation leaves an orderly scope behind where it starts in one. -/
def Evaluation.KeepsOrder {α : Type} (computation : Evaluation α) : Prop :=
  ∀ env : Environment, env.current.Orderly → (computation env).2.current.Orderly

namespace Evaluation

variable {α β : Type}

theorem keepsOrder_pure (a : α) : KeepsOrder (pure a) := fun _ h => h

theorem KeepsOrder.bind {x : Evaluation α} {f : α → Evaluation β} (hx : KeepsOrder x)
    (hf : ∀ a, KeepsOrder (f a)) : KeepsOrder (x >>= f) := by
  intro env h
  have hmid := hx env h
  rw [bind_run]
  rcases hrun : x env with ⟨failure | a, mid⟩
  · rw [hrun] at hmid
    exact hmid
  · rw [hrun] at hmid
    exact hf a mid hmid

theorem KeepsOrder.nested {x : Evaluation α} (hx : KeepsOrder x) : KeepsOrder (nested x) :=
  fun env h => hx { env with depth := env.depth + 1 } h

end Evaluation

theorem keepsOrder_simplifyEach {recur : Simplifier} {nodes : List Node}
    (hnodes : ∀ node ∈ nodes, KeepsOrder (recur node)) : KeepsOrder (simplifyEach recur nodes) := by
  induction nodes with
  | nil => exact keepsOrder_pure []
  | cons node rest ih =>
      rw [List.forall_mem_cons] at hnodes
      rw [simplifyEach]
      exact hnodes.1.bind fun _ => (ih hnodes.2).bind fun _ => keepsOrder_pure _

theorem keepsOrder_simplifyApplication {name : String} (hname : name ∈ definingNames) {args : List Node}
    (hargs : ∀ arg ∈ args, arg.Within .plain) (room : Nat) :
    KeepsOrder (simplifyApplication (simplifyWithin room) name args) := by
  intro env h
  rcases hrun : simplifyApplication (simplifyWithin room) name args env with ⟨outcome, after⟩
  rcases run_statement (h.tidy.finds room) h.tidy.calm.values
    (fun operation hmem => (h.tidy.operations operation hmem).statement) hname hargs rfl hrun with
    hsame | ⟨answer, mid, hupdates, hanswer⟩
  · rw [hsame]
    exact h
  · have hmid := hupdates.orderly h hargs
    have hplain := hupdates.answer_within h.tidy.calm (fun _ _ _ hresult => hresult.1) hargs
      fun _ _ _ => trivial
    have hsame := (hmid.tidy.finds room answer hplain).current_eq rfl
    rw [hanswer] at hsame
    rw [hsame]
    exact hmid

theorem keepsOrder_simplifyWithin (room : Nat) {node : Node} (hnode : node.Statement) :
    KeepsOrder (simplifyWithin room node) := by
  induction hnode generalizing room with
  | expression hplain =>
      intro env h
      rw [(h.tidy.finds room _ hplain).current_eq rfl]
      exact h
  | statement hname hargs =>
      cases room with
      | zero => exact fun _ h => h
      | succ room => exact (keepsOrder_simplifyApplication hname hargs room).nested
  | pair _ _ ihfirst ihsecond =>
      cases room with
      | zero => exact fun _ h => h
      | succ room =>
          refine KeepsOrder.nested ?_
          exact (ihfirst room).bind fun _ => (ihsecond room).bind fun _ => keepsOrder_pure _
  | sequence _ ih =>
      cases room with
      | zero => exact fun _ h => h
      | succ room =>
          refine KeepsOrder.nested ?_
          refine (keepsOrder_simplifyEach fun element hmem => ih element hmem room).bind fun _ => ?_
          exact keepsOrder_pure _

theorem Scope.orderly_standard : Environment.standard.current.Orderly where
  tidy := ⟨fun _ hmem => Builtin.tidy_standard hmem, nofun⟩
  acyclic x hcircle := by
    obtain ⟨y, ⟨value, hvalue, _⟩, _⟩ := Relation.TransGen.head'_iff.mp hcircle
    cases hvalue

/-- The environment after the nodes have been simplified one after another, whatever their outcomes. -/
def Environment.afterEach (env : Environment) (nodes : List Node) : Environment :=
  nodes.foldl (fun env node => (simplify node env).2) env

/-- **Decided values do not go in circles.** After any run of statements on expressions without
definitions and defer markers, failing ones included, no variable is defined in terms of itself, not
even through others, unless an undecided `if` is left in one of the values on the way. -/
theorem acyclic_afterEach {nodes : List Node} (hnodes : ∀ node ∈ nodes, node.Statement) (x : String) :
    ¬Relation.TransGen (Environment.standard.afterEach nodes).current.Feeds x x := by
  have horderly (env : Environment) (henv : env.current.Orderly) : (env.afterEach nodes).current.Orderly := by
    induction nodes generalizing env with
    | nil => exact henv
    | cons node rest ih =>
        rw [List.forall_mem_cons] at hnodes
        exact ih hnodes.2 _ (keepsOrder_simplifyWithin _ hnodes.1 env henv)
  exact (horderly .standard Scope.orderly_standard).acyclic x

/-- A run in which the second definition fails, since `y` stands for `x` by then: `y` feeds `x` in the
end, and there is no circle. -/
theorem acyclic_afterEach_swap :
    let nodes := [Node.application "define" [.symbol "y", .symbol "x"],
      .application "define" [.symbol "x", .symbol "y"],
      .application "define" [.symbol "x", .sequence [.integer 1, .symbol "z"]],
      .application "set" [.symbol "x", .integer 0, .symbol "z"]]
    let env := Environment.standard.afterEach nodes
    (env.get? "y").any (· == .symbol "x") ∧
      (env.get? "x").any (· == .sequence [.symbol "z", .symbol "z"]) ∧
      ¬Relation.TransGen env.current.Feeds "x" "x" := by
  intro nodes env
  have hsymbol (name : String) : (Node.symbol name).Within .plain := Node.within_symbol.mpr trivial
  have hnumber (value : Int) : (Node.integer value).Within .plain := Node.within_number _
  refine ⟨by decide +kernel, by decide +kernel, acyclic_afterEach ?_ "x"⟩
  simp only [nodes, List.forall_mem_cons, List.not_mem_nil, false_implies, implies_true, and_true]
  refine ⟨.statement (by decide) ?_, .statement (by decide) ?_, .statement (by decide) ?_,
    .statement (by decide) ?_⟩ <;>
    simp [hsymbol, hnumber, Node.within_sequence]

/-- Variables that are defined in terms of themselves: by an `if` that is left undecided in a value,
which `set` does not look for and `define` only for the name that it defines; by an application that is
put off; and by a definition inside another one. -/
theorem circles_afterEach :
    let element := Environment.standard.afterEach
      [.application "define" [.symbol "xs", .sequence [.integer 1]],
        .application "set" [.symbol "xs", .integer 0,
          .application "if" [.symbol "c", .symbol "xs", .integer 1]]]
    let branch := Environment.standard.afterEach
      [.application "define" [.symbol "y", .symbol "x"],
        .application "define" [.symbol "x", .application "if" [.symbol "c", .symbol "y", .integer 1]]]
    let deferral := Environment.standard.afterEach
      [.application "define" [.symbol "y", .symbol "x"],
        .application "define" [.symbol "x", .application "$f" [.symbol "y"]]]
    let nested := Environment.standard.afterEach
      [.application "define" [.symbol "x", .sequence [.symbol "y", .application "size" [.sequence
        [.application "define" [.symbol "y", .symbol "x"]]]]]]
    (element.get? "xs").any (·.mentions "xs") ∧
      ((branch.get? "x").any (·.mentions "y") ∧ (branch.get? "y").any (·.mentions "x")) ∧
      ((deferral.get? "x").any (·.mentions "y") ∧ (deferral.get? "y").any (·.mentions "x")) ∧
      (nested.get? "x").any (·.mentions "y") ∧ (nested.get? "y").any (·.mentions "x") := by
  decide +kernel

end SymbolicAlgebra
