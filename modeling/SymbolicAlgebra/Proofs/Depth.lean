import SymbolicAlgebra.Proofs.Failures
import SymbolicAlgebra.Proofs.Frame

/-! The nesting depth. Whatever a simplification does and however it ends, it comes back to the depth it
started from. While it runs, the depth goes no further than the limit, and the failure at the limit tells
this very depth: the invariant of every computation at one level is the depth of that level, the limit, and
that operations fail in no other way. -/

namespace SymbolicAlgebra

open Evaluation

/-- Simplification under watch. Each level compares the depth with the limit, and fails at the limit. Behind
that, the depth may not be above `bound`, nor may the levels run out: otherwise `alarm` is carried out. -/
def simplifyWatched (bound : Nat) (alarm : Simplifier) : (levels : Nat) → Simplifier
  | 0, node => alarm node
  | levels + 1, node => fun env =>
    if env.maxDepth ≤ env.depth then (.error (.recursionLimit env.depth), env)
    else nested (fun deeper =>
      if bound < deeper.depth then alarm node deeper
      else simplifyStep (simplifyWatched bound alarm levels) node deeper) env

theorem simplifyWatched_run (bound : Nat) (alarm : Simplifier) (levels : Nat) (node : Node) (env : Environment) :
    simplifyWatched bound alarm (levels + 1) node env =
      if env.maxDepth ≤ env.depth then (.error (.recursionLimit env.depth), env)
      else nested (fun deeper =>
        if bound < deeper.depth then alarm node deeper
        else simplifyStep (simplifyWatched bound alarm levels) node deeper) env := rfl

/-- The environment is at this depth below this limit, and its operations fail in no way but `P`. -/
structure Environment.AtLevel (P : Failure → Prop) (depth limit : Nat) (env : Environment) : Prop where
  depth : env.depth = depth
  maxDepth : env.maxDepth = limit
  operations : ∀ operation ∈ env.registry.operations, operation.FailsIn P

namespace Environment.AtLevel

variable {P : Failure → Prop} {depth limit : Nat} {env : Environment}

theorem setBindings (h : env.AtLevel P depth limit) (bindings : Bindings) :
    (env.setBindings bindings).AtLevel P depth limit :=
  ⟨h.depth, h.maxDepth, h.operations⟩

theorem withEntropy (h : env.AtLevel P depth limit) (entropy : Entropy) :
    Environment.AtLevel P depth limit { env with entropy } :=
  ⟨h.depth, h.maxDepth, h.operations⟩

theorem register (h : env.AtLevel P depth limit) {operation : Operation} (hfails : operation.FailsIn P) :
    (env.register operation).AtLevel P depth limit := by
  refine ⟨h.depth, h.maxDepth, fun other hmem => ?_⟩
  rcases Registry.mem_enter hmem with rfl | hmem
  · exact hfails
  · exact h.operations other hmem

/-- Some operations are left out. -/
theorem setRegistry (h : env.AtLevel P depth limit) {registry : Registry}
    (hsub : ∀ operation ∈ registry.operations, operation ∈ env.registry.operations) :
    (env.setRegistry registry).AtLevel P depth limit :=
  ⟨h.depth, h.maxDepth, fun operation hmem => h.operations operation (hsub operation hmem)⟩

end Environment.AtLevel

namespace Evaluation

variable {α β : Type} {I : Environment → Prop} {P : Failure → Prop}

/-- From environments in `I`, both computations do the same, fail in no way but `P`, and end in `I`. -/
def Watched (I : Environment → Prop) (P : Failure → Prop) (x y : Evaluation α) : Prop :=
  ∀ env, I env → x env = y env ∧ I (y env).2 ∧ FailsIn P (y env).1

theorem watched_pure (a : α) : Watched I P (pure a) (pure a) :=
  fun _ henv => ⟨rfl, henv, failsIn_ok a⟩

theorem watched_throw {failure : Failure} (h : P failure) :
    Watched I P (throw failure : Evaluation α) (throw failure) :=
  fun _ henv => ⟨rfl, henv, failsIn_error h⟩

theorem watched_get : Watched I P get get :=
  fun env henv => ⟨rfl, henv, failsIn_ok env⟩

theorem watched_registry : Watched I P registry registry :=
  fun env henv => ⟨rfl, henv, failsIn_ok env.registry⟩

theorem Watched.bind {x y : Evaluation α} {f g : α → Evaluation β} (hx : Watched I P x y)
    (hf : ∀ a, Watched I P (f a) (g a)) : Watched I P (x >>= f) (y >>= g) := by
  intro env henv
  obtain ⟨hsame, hmid, hfails⟩ := hx env henv
  rw [bind_run, bind_run, hsame]
  rcases hrun : y env with ⟨failure | a, mid⟩
  · rw [hrun] at hmid hfails
    exact ⟨rfl, hmid, failsIn_error (hfails failure rfl)⟩
  · rw [hrun] at hmid
    exact hf a mid hmid

end Evaluation

section Step

variable {I : Environment → Prop} {P : Failure → Prop} {recur recur' : Simplifier}
  (hrecur : ∀ node, Watched I P (recur node) (recur' node))
include hrecur

theorem watched_simplifyEach (nodes : List Node) :
    Watched I P (simplifyEach recur nodes) (simplifyEach recur' nodes) := by
  induction nodes with
  | nil => exact watched_pure []
  | cons node rest ih =>
      rw [simplifyEach, simplifyEach]
      exact (hrecur node).bind fun _ => ih.bind fun _ => watched_pure _

theorem watched_foldWith (name : String) (first : Node) (args : List Node) :
    Watched I P (foldWith recur name first args) (foldWith recur' name first args) := by
  induction args with
  | nil => exact watched_pure none
  | cons second rest ih =>
      rw [foldWith, foldWith]
      refine (hrecur _).bind fun folded => ?_
      split
      · exact watched_pure _
      · exact ih.bind fun _ => watched_pure _

theorem watched_foldPair (name : String) (args : List Node) :
    Watched I P (foldPair recur name args) (foldPair recur' name args) := by
  induction args with
  | nil => exact watched_pure none
  | cons first rest ih =>
      rw [foldPair, foldPair]
      refine (watched_foldWith hrecur name first rest).bind fun fold => ?_
      cases fold with
      | some fold => exact watched_pure _
      | none => exact ih.bind fun _ => watched_pure _

variable (hinvokes : ∀ name args, Watched I P (invokeWith recur name args) (invokeWith recur' name args))
include hinvokes

theorem watched_regroup (name : String) (arity : Nat) (args : List Node) :
    Watched I P (regroup recur name arity args) (regroup recur' name arity args) := by
  induction args using regroup.induct name with
  | case1 args ih =>
      rw [regroup, regroup]
      refine (watched_foldPair hrecur name args).bind fun fold => ?_
      cases fold with
      | some fold =>
          dsimp only
          split
          · exact watched_pure _
          · exact watched_registry.bind fun registry => ih fold registry
      | none =>
          have hconstruct : Watched I P (do return construct (← registry) name args)
              (do return construct (← registry) name args) :=
            watched_registry.bind fun _ => watched_pure _
          dsimp only
          split
          · refine (hinvokes name args).bind fun result => ?_
            cases result with
            | some result => exact hrecur result
            | none => exact hconstruct
          · exact hconstruct

theorem watched_simplifyPrepared (name : String) (args : List Node) :
    Watched I P (simplifyPrepared recur name args) (simplifyPrepared recur' name args) := by
  refine watched_registry.bind fun registry => (hinvokes name _).bind fun result => ?_
  cases result with
  | some result => exact hrecur result
  | none =>
      refine watched_registry.bind fun registry => ?_
      split
      · exact (watched_regroup hrecur hinvokes name _ _).bind fun _ => watched_pure _
      · exact watched_pure _

theorem watched_simplifyApplication (name : String) (args : List Node) :
    Watched I P (simplifyApplication recur name args) (simplifyApplication recur' name args) := by
  rw [simplifyApplication, simplifyApplication]
  cases deferred? name with
  | some unmarked => exact watched_pure _
  | none =>
      refine watched_registry.bind fun registry => ?_
      split
      · exact watched_simplifyPrepared hrecur hinvokes name args
      · exact (watched_simplifyEach hrecur args).bind fun reduced =>
          watched_simplifyPrepared hrecur hinvokes name reduced

theorem watched_simplifyStep (node : Node) :
    Watched I P (simplifyStep recur node) (simplifyStep recur' node) := by
  cases node with
  | number value => exact watched_pure _
  | boolean value => exact watched_pure _
  | symbol name =>
      refine watched_get.bind fun env => ?_
      cases env.get? name with
      | some value => exact hrecur value
      | none => exact watched_pure _
  | pair first second =>
      exact (hrecur first).bind fun _ => (hrecur second).bind fun _ => watched_pure _
  | sequence elements =>
      exact (watched_simplifyEach hrecur elements).bind fun _ => watched_pure _
  | application name args => exact watched_simplifyApplication hrecur hinvokes name args

end Step

/-! ### Handlers -/

section Handlers

variable {P : Failure → Prop} {depth limit : Nat} {recur recur' : Simplifier}
  (hrecur : ∀ node, Watched (Environment.AtLevel P depth limit) P (recur node) (recur' node))
include hrecur

/-- A handler stays on its level, provided that the simplifier does. -/
theorem Action.FailsIn.watched {α : Type} {action : Action Operation α} (h : action.FailsIn P) :
    Watched (Environment.AtLevel P depth limit) P (action.run recur) (action.run recur') := by
  induction h with
  | done result => exact watched_pure result
  | fail hfailure => exact watched_throw hfailure
  | simplify node _ _ hok herror =>
      intro env henv
      obtain ⟨hsame, hmid, hfails⟩ := hrecur node env henv
      simp only [Action.run, hsame]
      rcases hrun : recur' node env with ⟨failure | answer, mid⟩
      · rw [hrun] at hmid hfails
        exact herror failure (hfails failure rfl) mid hmid
      · rw [hrun] at hmid
        exact hok answer mid hmid
  | lookup name _ ih => exact watched_get.bind fun env => ih (env.get? name)
  | assign name value _ ih => exact fun env henv => ih (env.set name value) (henv.setBindings _)
  | release name _ ih =>
      intro env henv
      rw [Action.run_release, Action.run_release]
      cases env.get? name with
      | none => exact ih none env henv
      | some value => exact ih (some value) _ (henv.setBindings _)
  | register hoperation _ _ ih => exact fun env henv => ih _ (henv.register hoperation)
  | remove name signature _ ih =>
      exact fun env henv => ih _ _ (henv.setRegistry fun operation => List.mem_of_mem_filter)
  | removeAll name _ ih =>
      exact fun env henv => ih _ _ (henv.setRegistry fun operation => List.mem_of_mem_filter)
  | fresh _ ih => exact fun env henv => ih _ _ ⟨henv.depth, henv.maxDepth, henv.operations⟩
  | draw _ ih =>
      intro env henv
      rw [Action.run_draw, Action.run_draw]
      generalize env.entropy.draw = drawn
      exact ih drawn.1 _ (henv.withEntropy drawn.2)

theorem watched_invokeWith (name : String) (args : List Node) :
    Watched (Environment.AtLevel P depth limit) P (invokeWith recur name args) (invokeWith recur' name args) := by
  intro env henv
  rw [invokeWith_run, invokeWith_run]
  cases hresolve : env.registry.resolve name args with
  | none => exact watched_pure none env henv
  | some operation =>
      obtain ⟨hmem, _⟩ := Registry.mem_of_resolve hresolve
      exact (henv.operations operation hmem args).watched hrecur env henv

end Handlers

/-! ### Levels -/

/-- Watched or not, simplification does the same. There is room for exactly the levels up to the limit, if the
depth is not above it, and for none otherwise. -/
theorem watched_simplifyWithin {P : Failure → Prop} (alarm : Simplifier) {limit : Nat} (room : Nat) {depth : Nat}
    (hlimit : limit ≤ depth + room) (hroom : 0 < room → depth + room = limit)
    (hP : P (.recursionLimit (depth + room))) (node : Node) :
    Watched (Environment.AtLevel P depth limit) P (simplifyWatched (depth + room) alarm (room + 1) node)
      (simplifyWithin room node) := by
  induction room generalizing depth node with
  | zero =>
      intro env henv
      have hexhausted : env.maxDepth ≤ env.depth := by
        rw [henv.depth, henv.maxDepth]
        exact hlimit
      rw [simplifyWatched_run, if_pos hexhausted]
      refine ⟨rfl, henv, failsIn_error ?_⟩
      rw [henv.depth]
      exact hP
  | succ room ih =>
      intro env henv
      have hbelow : ¬env.maxDepth ≤ env.depth := by
        have hsum := hroom (Nat.succ_pos room)
        rw [henv.depth, henv.maxDepth]
        omega
      have hnext : depth + (room + 1) = depth + 1 + room := by omega
      rw [hnext] at hlimit hroom hP ⊢
      have hrecur := ih hlimit (fun _ => hroom (Nat.succ_pos room)) hP
      have hdeeper : Environment.AtLevel P (depth + 1) limit { env with depth := env.depth + 1 } :=
        ⟨congrArg (· + 1) henv.depth, henv.maxDepth, henv.operations⟩
      obtain ⟨hsame, hafter, hfails⟩ :=
        watched_simplifyStep hrecur (watched_invokeWith hrecur) node _ hdeeper
      have hquiet : ¬depth + 1 + room < env.depth + 1 := by
        rw [henv.depth]
        omega
      rw [simplifyWatched_run, if_neg hbelow, nested_run, simplifyWithin, nested_run]
      simp only [if_neg hquiet, hsame]
      refine ⟨trivial, ⟨?_, hafter.maxDepth, hafter.operations⟩, hfails⟩
      show (simplifyStep (simplifyWithin room) node { env with depth := env.depth + 1 }).2.depth - 1 = depth
      rw [hafter.depth, Nat.add_sub_cancel]

/-- Where it is the failure at a nesting limit, it is that of this one. -/
def Failure.TellsLimit (limit : Nat) (failure : Failure) : Prop :=
  ∀ depth, failure = .recursionLimit depth → depth = limit

/-- **Depth accounting is balanced.** In every environment, simplification ends at the depth it started from
and under the same limit, whatever its outcome. No alarm goes off if the depth is watched to stay below the
limit, or at most where it was in the first place. Started at most at the limit, it fails at the nesting limit
with just this limit, if its operations are standard ones, templates, and others that make up no such failure
themselves: what they raise tells the limit, provided that what they are given by simplification does. -/
theorem simplify_balanced (env : Environment) (node : Node) :
    (simplify node env).2.depth = env.depth ∧ (simplify node env).2.maxDepth = env.maxDepth ∧
      (∀ alarm : Simplifier,
        simplifyWatched (max env.depth env.maxDepth) alarm (env.maxDepth - env.depth + 1) node env =
          simplify node env) ∧
      (env.depth ≤ env.maxDepth →
        (∀ operation ∈ env.registry.operations, operation ∈ Builtin.standard.operations ∨
          (∃ name aliases body, operation = Definition.templateOperation name aliases body) ∨
          operation.FailsIn (Failure.TellsLimit env.maxDepth)) →
        ∀ depth, (simplify node env).1 = .error (.recursionLimit depth) → depth = env.maxDepth) := by
  have hframe := keepsFrame_simplify node env
  have htop : max env.depth env.maxDepth = env.depth + (env.maxDepth - env.depth) := by omega
  have hlimit : env.maxDepth ≤ env.depth + (env.maxDepth - env.depth) := by omega
  have hroom : 0 < env.maxDepth - env.depth → env.depth + (env.maxDepth - env.depth) = env.maxDepth := by omega
  refine ⟨hframe.depth, hframe.maxDepth, fun alarm => ?_, fun hdepth hoperations depth hfails => ?_⟩
  · have hlevel : env.AtLevel (fun _ => True) env.depth env.maxDepth :=
      ⟨rfl, rfl, fun operation _ => operation.failsIn_of_forall fun _ => trivial⟩
    rw [htop]
    exact (watched_simplifyWithin alarm _ hlimit hroom trivial node env hlevel).1
  · have hother (failure : Failure) (h : ¬failure.IsLimit) : failure.TellsLimit env.maxDepth :=
      fun depth hequal => (h ⟨depth, hequal⟩).elim
    have hlevel : env.AtLevel (Failure.TellsLimit env.maxDepth) env.depth env.maxDepth := by
      refine ⟨rfl, rfl, fun operation hmem => ?_⟩
      rcases hoperations operation hmem with hstandard | ⟨name, aliases, body, rfl⟩ | hcustom
      · exact Builtin.failsIn_standard hother hstandard
      · exact Definition.failsIn_templateOperation name aliases body
      · exact hcustom
    have htells : (Failure.recursionLimit (env.depth + (env.maxDepth - env.depth))).TellsLimit env.maxDepth := by
      rintro _ ⟨⟩
      exact Nat.add_sub_cancel' hdepth
    obtain ⟨_, _, hraised⟩ := watched_simplifyWithin simplify _ hlimit hroom htells node env hlevel
    exact hraised _ hfails depth rfl

set_option maxRecDepth 10000 in
/-- A definition that calls itself without end, from the third level of twenty. An operation of its own survives
the first failure, and the second one tells the limit. -/
theorem simplify_balanced_runaway :
    let endless := Definition.templateOperation "f" ["x#1"]
      (.application "f" [.application "+" [.symbol "x#1", .integer 1]])
    let attempt := (Operation.unary "attempt" .any fun a => .simplify a fun
      | .ok result => .done (some result)
      | .error _ => .done (some (.boolean false))).preservingArguments
    let env := { (Environment.standard.register endless).register attempt with depth := 3, maxDepth := 20 }
    let call := Node.application "f" [.integer 0]
    let node := Node.application "list" [.application "attempt" [call], call]
    env.depth ≤ env.maxDepth ∧
      (∀ operation ∈ env.registry.operations, operation ∈ Builtin.standard.operations ∨
        (∃ name aliases body, operation = Definition.templateOperation name aliases body) ∨
        operation.FailsIn (Failure.TellsLimit env.maxDepth)) ∧
      ∃ after, simplify node env = (.error (.recursionLimit 20), after) ∧ after.depth = 3 ∧ after.maxDepth = 20 ∧
        simplifyWatched 20 (fun _ => throw .divisionByZero) 18 node env = (.error (.recursionLimit 20), after) := by
  intro endless attempt env call node
  have hdepth : env.depth ≤ env.maxDepth := by decide
  have hoperations : ∀ operation ∈ env.registry.operations, operation ∈ Builtin.standard.operations ∨
      (∃ name aliases body, operation = Definition.templateOperation name aliases body) ∨
      operation.FailsIn (Failure.TellsLimit env.maxDepth) := by
    intro operation (hmem : operation ∈ Registry.enter attempt (Registry.enter endless Builtin.standard.operations))
    rcases Registry.mem_enter hmem with rfl | hmem
    · refine .inr (.inr (Operation.FailsIn.preservingArguments ?_))
      exact Operation.failsIn_unary _ _ fun a => .simplify a (fun answer => .done _) fun failure _ => .done _
    · rcases Registry.mem_enter hmem with rfl | hmem
      · exact .inr (.inl ⟨_, _, _, rfl⟩)
      · exact .inl hmem
  have hfails : ∃ depth, (simplify node env).1 = .error (.recursionLimit depth) := by
    have htest : (match (simplify node env).1 with
        | .error (.recursionLimit _) => true
        | _ => false) = true := by
      decide +kernel
    split at htest
    · rename_i depth hfails
      exact ⟨depth, hfails⟩
    · cases htest
  obtain ⟨hafter, hsame, hwatched, htells⟩ := simplify_balanced env node
  have hstart : env.depth = 3 := rfl
  have htop : env.maxDepth = 20 := rfl
  have htells := htells hdepth hoperations
  rw [hstart] at hafter
  rw [htop] at hsame htells
  rw [hstart, htop] at hwatched
  obtain ⟨depth, hfails⟩ := hfails
  rcases hrun : simplify node env with ⟨outcome, after⟩
  rw [hrun] at hafter hsame hwatched htells hfails
  cases hfails
  cases htells depth rfl
  exact ⟨hdepth, hoperations, after, rfl, hafter, hsame, hwatched _⟩

/-- An operation that makes up the failure of a limit itself, and asks for no simplification: its failure is
handed on as it is, and tells a limit that the environment does not have. -/
theorem simplify_hands_on_limit :
    let own := Operation.unary "own" .any fun _ => .fail (.recursionLimit 7)
    let env := Environment.standard.register own
    env.depth ≤ env.maxDepth ∧
      ∃ depth, (simplify (.application "own" [.integer 0]) env).1 = .error (.recursionLimit depth) ∧
        depth ≠ env.maxDepth := by
  intro own env
  exact ⟨by decide, 7, rfl, by decide⟩

end SymbolicAlgebra
