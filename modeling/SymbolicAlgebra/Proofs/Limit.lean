import SymbolicAlgebra.Proofs.Simulation
import SymbolicAlgebra.Proofs.Standard

/-! The nesting limit. A candid action hands every failure of a simplification on, so that no handler
survives the failure that the limit stands for. With candid operations, a run under one limit shadows
the run under any higher one, and the failure at the limit is the only one that is excused: whatever
else a simplification ends with does not depend on the limit. -/

namespace SymbolicAlgebra

/-- The action fails where a simplification fails, and registers none but candid operations. -/
inductive Action.Candid : {α : Type} → Action Operation α → Prop
  | done {α : Type} (result : α) : Candid (.done result)
  | fail {α : Type} (failure : Failure) : Candid (.fail failure : Action Operation α)
  | simplify {α : Type} (node : Node) {next : Except Failure Node → Action Operation α} :
      (∀ answer, Candid (next (.ok answer))) → (∀ failure, next (.error failure) = .fail failure) →
      Candid (.simplify node next)
  | lookup {α : Type} (name : String) {next : Option Node → Action Operation α} :
      (∀ outcome, Candid (next outcome)) → Candid (.lookup name next)
  | assign {α : Type} (name : String) (value : Node) {next : Action Operation α} :
      Candid next → Candid (.assign name value next)
  | release {α : Type} (name : String) {next : Option Node → Action Operation α} :
      (∀ outcome, Candid (next outcome)) → Candid (.release name next)
  | register {α : Type} {operation : Operation} {next : Action Operation α} :
      (∀ args, Candid (operation.handler args)) → Candid next → Candid (.register operation next)
  | remove {α : Type} (name : String) (signature : Signature) {next : Bool → Action Operation α} :
      (∀ removed, Candid (next removed)) → Candid (.remove name signature next)
  | removeAll {α : Type} (name : String) {next : Nat → Action Operation α} :
      (∀ count, Candid (next count)) → Candid (.removeAll name next)
  | fresh {α : Type} {next : Nat → Action Operation α} :
      (∀ index, Candid (next index)) → Candid (.fresh next)
  | draw {α : Type} {next : Float → Action Operation α} :
      (∀ value, Candid (next value)) → Candid (.draw next)

def Operation.Candid (operation : Operation) : Prop :=
  ∀ args, (operation.handler args).Candid

namespace Action

variable {α β : Type}

theorem Candid.bind {first : Action Operation α} {next : α → Action Operation β} (hfirst : first.Candid)
    (hnext : ∀ a, (next a).Candid) : (first >>= next).Candid := by
  show (first.andThen next).Candid
  induction first with
  | done result => exact hnext result
  | fail failure => exact .fail failure
  | simplify node k ih =>
      cases hfirst with
      | simplify _ hk herror =>
          refine .simplify node (fun answer => ih _ (hk answer)) fun failure => ?_
          rw [herror]
          rfl
  | lookup name k ih =>
      cases hfirst with
      | lookup _ hk => exact .lookup name fun outcome => ih outcome (hk outcome)
  | assign name value k ih =>
      cases hfirst with
      | assign _ _ hk => exact .assign name value (ih hk)
  | release name k ih =>
      cases hfirst with
      | release _ hk => exact .release name fun outcome => ih outcome (hk outcome)
  | register operation k ih =>
      cases hfirst with
      | register hoperation hk => exact .register hoperation (ih hk)
  | remove name signature k ih =>
      cases hfirst with
      | remove _ _ hk => exact .remove name signature fun removed => ih removed (hk removed)
  | removeAll name k ih =>
      cases hfirst with
      | removeAll _ hk => exact .removeAll name fun count => ih count (hk count)
  | fresh k ih =>
      cases hfirst with
      | fresh hk => exact .fresh fun index => ih index (hk index)
  | draw k ih =>
      cases hfirst with
      | draw hk => exact .draw fun value => ih value (hk value)

theorem candid_ofExcept (computation : Except Failure α) : (ofExcept computation).Candid := by
  cases computation with
  | ok result => exact .done result
  | error failure => exact .fail failure

theorem candid_simplified (node : Node) : (simplified node).Candid :=
  .simplify node .done fun _ => rfl

/-- A quiet action is candid, whatever nodes it simplifies. -/
theorem QuietOn.candid {P : α → Prop} {action : Action Operation α} (h : action.QuietIn .all P) :
    action.Candid := by
  induction h with
  | done _ => exact .done _
  | fail failure => exact .fail failure
  | simplify _ _ herror ih => exact .simplify _ (fun answer => ih answer answer.within_all) herror

end Action

/-! ### The operations of an environment -/

namespace Operation

theorem candid_unary (name : String) (parameter : Parameter)
    {handler : Node → Action Operation (Option Node)} (h : ∀ a, (handler a).Candid) :
    (unary name parameter handler).Candid :=
  unary_cases (motive := fun _ action => action.Candid) (fun _ => .done none) name parameter h

theorem candid_binary (name : String) (first second : Parameter)
    {handler : Node → Node → Action Operation (Option Node)} (h : ∀ a b, (handler a b).Candid) :
    (binary name first second handler).Candid :=
  binary_cases (motive := fun _ action => action.Candid) (fun _ => .done none) name first second h

theorem candid_ternary (name : String) (first second third : Parameter)
    {handler : Node → Node → Node → Action Operation (Option Node)} (h : ∀ a b c, (handler a b c).Candid) :
    (ternary name first second third handler).Candid :=
  ternary_cases (motive := fun _ action => action.Candid) (fun _ => .done none) name first second third h

end Operation

open Operation SymbolicAlgebra.Action

namespace Definition

theorem candid_templateOperation (name : String) (aliases : List String) (body : Node) :
    (templateOperation name aliases body).Candid :=
  fun _ => .done _

theorem candid_aliases (names : List String) : (aliases names).Candid := by
  induction names with
  | nil => exact .done []
  | cons name rest ih => exact .fresh fun index => ih.bind fun others => .done _

theorem candid_installOperation (name : String) (parameters : List Node) (template : Node) :
    (installOperation name parameters template).Candid := by
  refine (candid_ofExcept _).bind fun names => (candid_aliases names).bind fun aliases => ?_
  exact .register (candid_templateOperation name aliases _) (.done ())

theorem candid_bindVariable (name : String) (value : Node) : (bindVariable name value).Candid := by
  refine (candid_simplified value).bind fun value => ?_
  split
  · exact .fail _
  · exact .assign name value (.done value)

end Definition

namespace Builtin

theorem candid_defineOperation (head template : Node) : (defineOperation head template).Candid :=
  (candid_ofExcept head.asApplication).bind fun parts =>
    (Definition.candid_installOperation parts.1 parts.2 template).bind fun _ => .done _

theorem candid_defineVariable (head value : Node) : (defineVariable head value).Candid :=
  (candid_ofExcept head.asSymbol).bind fun name =>
    (Definition.candid_bindVariable name value).bind fun _ => .done _

theorem candid_delete (head : Node) : (delete head).Candid := by
  refine (candid_ofExcept head.asSymbol).bind fun name => .removeAll name fun count =>
    .release name fun value => ?_
  split
  · exact .fail _
  · exact .done _

theorem candid_randomBetween (lower upper : Node) : (randomBetween lower upper).Candid :=
  (candid_ofExcept _).bind fun _ => (candid_ofExcept _).bind fun _ => (candid_ofExcept _).bind fun _ =>
    (candid_ofExcept _).bind fun _ => (candid_ofExcept _).bind fun _ => .draw fun _ => .done _

theorem candid_setElement (head index value : Node) : (setElement head index value).Candid := by
  refine (candid_ofExcept head.asSymbol).bind fun name => (candid_simplified index).bind fun index => ?_
  refine (candid_ofExcept index.asInteger).bind fun place => (candid_simplified value).bind fun value => ?_
  refine .lookup name fun outcome => ?_
  cases outcome with
  | none => exact .fail _
  | some bound =>
      refine (candid_simplified bound).bind fun bound => (candid_ofExcept bound.asSequence).bind
        fun elements => (candid_ofExcept _).bind fun position => ?_
      exact .assign name _ (.done _)

/-- No standard operation survives a failure of what it simplifies. -/
theorem candid_standard {operation : Operation} (hmem : operation ∈ standard.operations) :
    operation.Candid := by
  by_cases heffects : operation.name ∈ effectfulNames
  · refine effectful_cases (motive := Operation.Candid) hmem heffects ?_ ?_ ?_ ?_ ?_ ?_ ?_
    · exact candid_binary "define" .application .any candid_defineOperation
    · exact candid_binary "define" .symbol .any candid_defineVariable
    · exact fun args => .fail _
    · exact candid_unary "del" .symbol candid_delete
    · exact fun args => .draw fun _ => .done _
    · exact candid_binary "random" .number .number candid_randomBetween
    · exact candid_ternary "set" .symbol .any .any candid_setElement
  · have hsuits : Vocabulary.all.Suits := ⟨fun _ _ => trivial, fun _ _ _ _ _ => trivial⟩
    exact fun args =>
      (quietIn_standard hsuits hmem trivial heffects args fun arg _ => arg.within_all).candid

end Builtin

/-! ### Two limits -/

/-- The same environment with another limit, and candid operations. -/
def Environment.Relimited (limit : Nat) (left right : Environment) : Prop :=
  right = { left with maxDepth := limit } ∧ ∀ operation ∈ left.registry.operations, operation.Candid

/-- The failure is the one at the nesting limit. -/
def Failure.IsLimit (failure : Failure) : Prop :=
  ∃ depth, failure = .recursionLimit depth

open Evaluation

section Relimited

variable {limit : Nat}

theorem Environment.Relimited.setRegistry {left right : Environment} (h : Relimited limit left right)
    {registry : Registry} (hcandid : ∀ operation ∈ registry.operations, operation.Candid) :
    Relimited limit (left.setRegistry registry) (right.setRegistry registry) := by
  obtain ⟨rfl, _⟩ := h
  exact ⟨rfl, hcandid⟩

theorem Environment.Relimited.registry {left right : Environment} (h : Relimited limit left right) :
    left.registry = right.registry := by
  obtain ⟨rfl, _⟩ := h
  rfl

theorem Environment.Relimited.entropy {left right : Environment} (h : Relimited limit left right) :
    right.entropy = left.entropy := by
  rw [h.1]

theorem Environment.Relimited.withEntropy {left right : Environment} (h : Relimited limit left right)
    (entropy : Entropy) : Relimited limit { left with entropy } { right with entropy } := by
  obtain ⟨rfl, hcandid⟩ := h
  exact ⟨rfl, hcandid⟩

/-- A candid action under one limit shadows itself under another. -/
theorem Action.Candid.shadowed {α : Type} {action : Action Operation α} (h : action.Candid)
    {recur recur' : Simplifier}
    (hrecur : ∀ node, Shadowed Failure.IsLimit (Environment.Relimited limit) (fun _ => True)
      (recur node) (recur' node)) :
    Shadowed Failure.IsLimit (Environment.Relimited limit) (fun _ => True) (action.run recur)
      (action.run recur') := by
  induction action with
  | done result => exact shadowed_pure trivial
  | fail failure => exact shadowed_throw failure
  | simplify node next ih =>
      cases h with
      | simplify _ hnext herror =>
          intro left right hrelated
          have hshadow := hrecur node left right hrelated
          simp only [Action.run]
          rcases hleft : recur node left with ⟨answer, leftMid⟩
          rcases hright : recur' node right with ⟨other, rightMid⟩
          rw [hleft, hright] at hshadow
          rcases hshadow with ⟨failure, rfl, hexcused⟩ | ⟨rfl, _, hmid⟩
          · exact .inl ⟨failure, by simp only [herror, Action.run]; rfl, hexcused⟩
          · cases answer with
            | ok answer => exact ih _ (hnext answer) leftMid rightMid hmid
            | error failure =>
                simp only [herror]
                exact shadowed_throw failure leftMid rightMid hmid
  | lookup name next ih =>
      cases h with
      | lookup _ hnext =>
          rintro left _ ⟨rfl, hcandid⟩
          exact ih (left.get? name) (hnext _) left _ ⟨rfl, hcandid⟩
  | assign name value next ih =>
      cases h with
      | assign _ _ hnext =>
          rintro left _ ⟨rfl, hcandid⟩
          exact ih hnext (left.set name value) _ ⟨rfl, hcandid⟩
  | release name next ih =>
      cases h with
      | release _ hnext =>
          rintro left _ ⟨rfl, hcandid⟩
          have hsame : Environment.get? { left with maxDepth := limit } name = left.get? name := rfl
          rw [Action.run_release, Action.run_release, hsame]
          cases left.get? name with
          | none => exact ih none (hnext none) left _ ⟨rfl, hcandid⟩
          | some value =>
              exact ih (some value) (hnext _) (left.setBindings (left.bindings.erase name)) _
                ⟨rfl, hcandid⟩
  | register operation next ih =>
      cases h with
      | register hoperation hnext =>
          rintro left _ ⟨rfl, hcandid⟩
          refine ih hnext (left.register operation) _ ⟨rfl, fun other hmem => ?_⟩
          rcases Registry.mem_enter hmem with rfl | hmem
          · exact hoperation
          · exact hcandid other hmem
  | remove name signature next ih =>
      cases h with
      | remove _ _ hnext =>
          rintro left right hrelated
          obtain ⟨rfl, hcandid⟩ := id hrelated
          refine ih _ (hnext _) _ _ (hrelated.setRegistry fun operation hmem => ?_)
          exact hcandid operation (List.mem_of_mem_filter hmem)
  | removeAll name next ih =>
      cases h with
      | removeAll _ hnext =>
          rintro left right hrelated
          obtain ⟨rfl, hcandid⟩ := id hrelated
          refine ih _ (hnext _) _ _ (hrelated.setRegistry fun operation hmem => ?_)
          exact hcandid operation (List.mem_of_mem_filter hmem)
  | fresh next ih =>
      cases h with
      | fresh hnext =>
          rintro left _ ⟨rfl, hcandid⟩
          exact ih _ (hnext _) left.fresh.2 _ ⟨rfl, hcandid⟩
  | draw next ih =>
      cases h with
      | draw hnext =>
          intro left right hrelated
          rw [Action.run_draw, Action.run_draw, hrelated.entropy]
          generalize left.entropy.draw = drawn
          exact ih drawn.1 (hnext _) _ _ (hrelated.withEntropy drawn.2)

/-- Nothing is asked of the nodes at any stage. -/
def Stages.all : Stages where
  input _ := True
  result _ := True
  ready _ _ := True
  loose _ := True

theorem invokes_relimited {recur recur' : Simplifier}
    (hrecur : ∀ node, Shadowed Failure.IsLimit (Environment.Relimited limit) (fun _ => True)
      (recur node) (recur' node)) :
    Stages.all.Invokes Failure.IsLimit (Environment.Relimited limit) recur recur' :=
  Stages.Handles.invokes Environment.Relimited.registry <| by
    intro _ _ operation args hrelated hmem _ _
    have hshadow := (hrelated.2 operation hmem args).shadowed hrecur
    exact hshadow.imp fun _ _ _ _ => trivial

/-- Under a limit, runs shadow those with more room under another limit. -/
theorem simulation_relimited (extra : Nat) :
    Simulation .all Failure.IsLimit (Environment.Relimited limit) extra where
  alike hrelated := Registry.alike_of_eq hrelated.registry
  sameValue := by
    rintro left _ name ⟨rfl, _⟩ _
    rfl
  bound _ _ _ := trivial
  free _ _ _ := trivial
  number _ := trivial
  boolean _ := trivial
  halves _ := ⟨trivial, trivial⟩
  pair _ _ := trivial
  elements _ _ _ := trivial
  sequence _ := trivial
  unmarked _ _ := trivial
  preserved _ _ _ _ := trivial
  simplified _ _ _ _ := ⟨fun _ _ => trivial, fun _ _ => trivial⟩
  arranged _ _ := trivial
  applied _ _ := trivial
  loosened _ _ _ := trivial
  together _ _ _ _ := trivial
  refolded _ _ _ _ := trivial
  invoked hrecur := invokes_relimited fun node => hrecur node trivial
  exhausted _ left _ _ := .inl ⟨_, rfl, left.depth, rfl⟩
  deeper := by
    rintro left _ ⟨rfl, hcandid⟩
    exact ⟨rfl, hcandid⟩
  shallower := by
    rintro left _ ⟨rfl, hcandid⟩
    exact ⟨rfl, hcandid⟩

end Relimited

/-- **The nesting limit never changes a result.** With standard operations and operations defined by
templates, whatever a simplification ends with under one limit, unless that is the failure at the limit
itself, it ends with under every higher limit, and it leaves the same environment behind. -/
theorem simplify_of_le_limit (env : Environment)
    (hoperations : ∀ operation ∈ env.registry.operations, operation ∈ Builtin.standard.operations ∨
      ∃ name aliases body, operation = Definition.templateOperation name aliases body)
    {low high : Nat} (hle : low ≤ high) (node : Node) {outcome : Except Failure Node} {after : Environment}
    (hrun : simplify node { env with maxDepth := low } = (outcome, after))
    (hlimit : ∀ depth, outcome ≠ .error (.recursionLimit depth)) :
    simplify node { env with maxDepth := high } = (outcome, { after with maxDepth := high }) := by
  have hcandid (operation : Operation) (hmem : operation ∈ env.registry.operations) :
      operation.Candid := by
    rcases hoperations operation hmem with hstandard | ⟨name, aliases, body, rfl⟩
    · exact Builtin.candid_standard hstandard
    · exact Definition.candid_templateOperation name aliases body
  obtain ⟨extra, hroom⟩ : ∃ extra, high - env.depth = low - env.depth + extra := by
    exact ⟨high - env.depth - (low - env.depth), by omega⟩
  have hshadow : Shadowed Failure.IsLimit (Environment.Relimited high) (fun _ => True)
      (simplifyWithin (low - env.depth) node) (simplifyWithin (high - env.depth) node) := by
    rw [hroom]
    exact shadowed_simplifyWithin (simulation_relimited extra) _ trivial
  rcases hshadow { env with maxDepth := low } { env with maxDepth := high } ⟨rfl, hcandid⟩ with
    ⟨failure, hfails, depth, rfl⟩ | ⟨hsame, _, hafter, _⟩
  · have hfails : (simplify node { env with maxDepth := low }).1 = .error (.recursionLimit depth) := hfails
    rw [hrun] at hfails
    exact (hlimit depth hfails).elim
  · change (simplify node { env with maxDepth := low }).1 = (simplify node { env with maxDepth := high }).1
      at hsame
    change (simplify node { env with maxDepth := high }).2 =
      { (simplify node { env with maxDepth := low }).2 with maxDepth := high } at hafter
    rw [hrun] at hsame hafter
    exact Prod.ext hsame.symm hafter

/-- A recursive definition: three times two times one takes at most twenty levels of nesting, and comes
to the same under the usual limit. -/
theorem simplify_of_le_limit_product :
    let n := Node.symbol "n#1"
    let body := Node.application "if" [.application "==" [n, .integer 0], .integer 1,
      .application "*" [n, .application "product" [.application "-" [n, .integer 1]]]]
    let env := Environment.standard.register (Definition.templateOperation "product" ["n#1"] body)
    let call := Node.application "product" [.integer 3]
    ∃ outcome after, simplify call { env with maxDepth := 20 } = (outcome, after) ∧
      outcome.toOption.any (· == .integer 6) ∧
      simplify call { env with maxDepth := 256 } = (outcome, { after with maxDepth := 256 }) := by
  intro n body env call
  have hcomputed : (simplify call { env with maxDepth := 20 }).1.toOption.any (· == .integer 6) := by
    decide +kernel
  rcases hrun : simplify call { env with maxDepth := 20 } with ⟨outcome, after⟩
  rw [hrun] at hcomputed
  refine ⟨outcome, after, rfl, hcomputed, simplify_of_le_limit env ?_ (by decide) call hrun ?_⟩
  · intro operation hmem
    rcases Registry.mem_enter hmem with rfl | hmem
    · exact .inr ⟨_, _, _, rfl⟩
    · exact .inl hmem
  · rintro depth rfl
    cases hcomputed

end SymbolicAlgebra
