import SymbolicAlgebra.Proofs.Equations
import SymbolicAlgebra.Proofs.Frame

/-! Arguments that are put off. The defer marker of an argument is taken off by the one pass of
simplification that the arguments of a call get, and nothing looks at the argument between that pass and
the handler. A template has it in the place of its parameter as it stands, and `repeat` copies it; it is
simplified wherever it has come to stand, once for each occurrence. -/

namespace SymbolicAlgebra

open Node Evaluation

/-! ### One level of nesting -/

/-- The environment one level of nesting deeper. -/
def Environment.deeper (env : Environment) : Environment :=
  { env with depth := env.depth + 1 }

section Nesting

variable {env after : Environment} {node : Node}

/-- Where the limit has been reached, nothing is simplified. -/
theorem simplify_of_no_room (hroom : env.maxDepth ≤ env.depth) (node : Node) :
    simplify node env = (.error (.recursionLimit env.depth), env) := by
  rw [simplify, Nat.sub_eq_zero_of_le hroom]
  rfl

theorem simplify_of_room (hroom : env.depth < env.maxDepth) (node : Node) :
    simplify node env =
      nested (simplifyStep (simplifyWithin (env.deeper.maxDepth - env.deeper.depth)) node) env := by
  have hsucc : env.maxDepth - env.depth = env.deeper.maxDepth - env.deeper.depth + 1 := by
    show env.maxDepth - env.depth = env.maxDepth - (env.depth + 1) + 1
    omega
  rw [simplify, hsucc]
  rfl

/-- Computations that do the same one level deeper. -/
theorem nested_congr {α : Type} {x y : Evaluation α} (h : x env.deeper = y env.deeper) :
    nested x env = nested y env := by
  rw [nested_run, nested_run]
  show ((x env.deeper).1, _) = ((y env.deeper).1, _)
  rw [show x { env with depth := env.depth + 1 } = x env.deeper from rfl, h]
  rfl

theorem simplifyAll_cons (node : Node) (rest : List Node) :
    simplifyAll (node :: rest) =
      simplify node >>= fun value => simplifyAll rest >>= fun values => pure (value :: values) := rfl

/-- A number takes a level of nesting, and nothing else. -/
theorem simplifyAll_number (value : Number) (env : Environment) :
    simplifyAll [.number value] env =
      if env.depth < env.maxDepth then (.ok [.number value], env)
      else (.error (.recursionLimit env.depth), env) := by
  rw [simplifyAll_cons]
  split
  · rename_i hroom
    have hvalue : simplify (.number value) env = (.ok (.number value), env) := by
      rw [simplify_of_room hroom]
      rfl
    rw [bind_run_ok hvalue]
    rfl
  · rename_i hroom
    exact bind_run_error (simplify_of_no_room (Nat.le_of_not_lt hroom) _) _

theorem simplifyAll_append (xs ys : List Node) :
    simplifyAll (xs ++ ys) =
      simplifyAll xs >>= fun us => simplifyAll ys >>= fun vs => pure (us ++ vs) := by
  induction xs with
  | nil => simp [simplifyAll, simplifyEach]
  | cons node rest ih => simp [simplifyAll_cons, ih]

/-- The simplifier for the room that is left is the simplifier. -/
theorem simplifyEach_eq_simplifyAll {room : Nat} (hroom : env.maxDepth - env.depth = room)
    (nodes : List Node) : simplifyEach (simplifyWithin room) nodes env = simplifyAll nodes env := by
  induction nodes generalizing env with
  | nil => rfl
  | cons node rest ih =>
      have hfirst : simplifyWithin room node env = simplify node env := by rw [simplify, hroom]
      rw [simplifyEach, simplifyAll_cons, bind_run, bind_run, hfirst]
      have hframe := keepsFrame_simplify node env
      rcases hrun : simplify node env with ⟨failure | value, mid⟩
      · rfl
      · rw [hrun] at hframe
        have hmid : mid.maxDepth - mid.depth = room := by rw [hframe.maxDepth, hframe.depth, hroom]
        dsimp only
        rw [bind_run, bind_run, ih hmid]

end Nesting

/-! ### Calls of the only operation of a name -/

section Call

variable {env after : Environment} {operation : Operation} {name : String}

/-- A call that the operation accepts becomes what its handler has made of the call. -/
theorem simplifyPrepared_of_overloads {recur : Simplifier} (hsole : env.registry.overloads name = [operation])
    (hplain : operation.attributes = {}) {args : List Node} (haccepts : operation.accepts args)
    {result : Node} (hresult : operation.handler args = .done (some result)) :
    simplifyPrepared recur name args env = recur result env := by
  have hordered : ¬env.registry.isCommutative name := by
    rw [Registry.isCommutative, Registry.hasAttribute_of_sole hsole, hplain]
    exact Bool.false_ne_true
  have hresolve : env.registry.resolve name args = some operation := by
    simp [Registry.resolve, hsole, haccepts]
  have hinvoke : invokeWith recur name args env = (.ok (some result), env) := by
    rw [invokeWith_run, hresolve]
    dsimp only
    rw [hresult]
    rfl
  exact simplifyPrepared_of_offer (arrange_of_ordered hordered args) hinvoke

/-- An argument that is put off loses its mark and changes nothing. -/
theorem simplify_marked {marked bare : String} (hmarked : deferred? marked = some bare) (args : List Node)
    (hroom : env.depth < env.maxDepth) :
    simplify (.application marked args) env = (.ok (.application bare args), env) := by
  rw [simplify_of_room hroom, nested_run, simplifyStep_application, simplifyApplication_of_deferred hmarked]
  rfl

/-- A call in which one argument is put off: the others are simplified in order, and `body` tells what the
handler makes of their values and of that argument as it is. -/
theorem simplify_call_of_marked {marked bare : String} (hmarked : deferred? marked = some bare)
    {args front behind : List Node} {body : List Node → List Node → Node} (hname : deferred? name = none)
    (hsole : env.registry.overloads name = [operation]) (hplain : operation.attributes = {})
    (hhandled : ∀ fronts behinds mid after, simplifyAll front env.deeper = (.ok fronts, mid) →
      simplifyAll behind mid = (.ok behinds, after) →
      after.registry.overloads name = [operation] ∧
        operation.accepts (fronts ++ .application bare args :: behinds) ∧
        operation.handler (fronts ++ .application bare args :: behinds) =
          .done (some (body fronts behinds)))
    (hroom : env.depth < env.maxDepth) :
    simplify (.application name (front ++ .application marked args :: behind)) env =
      nested (simplifyAll front >>= fun fronts => simplifyAll behind >>= fun behinds =>
        simplify (body fronts behinds)) env := by
  have hpreserves : ¬env.deeper.registry.preservesArguments name := by
    show ¬env.registry.hasAttribute Attributes.preservesArguments name
    rw [Registry.hasAttribute_of_sole hsole, hplain]
    exact Bool.false_ne_true
  rw [simplify_of_room hroom]
  refine nested_congr ?_
  generalize hleft : env.deeper.maxDepth - env.deeper.depth = room
  rw [simplifyStep_application, simplifyApplication_of_not_preserves hname hpreserves, bind_run,
    simplifyEach_eq_simplifyAll hleft, ← bind_run, simplifyAll_append, simplifyAll_cons]
  simp only [bind_assoc, pure_bind]
  have hframe := keepsFrame_simplifyEach keepsFrame_simplify front env.deeper
  change Environment.SameFrame env.deeper (simplifyAll front env.deeper).2 at hframe
  rcases hfront : simplifyAll front env.deeper with ⟨failure | fronts, mid⟩
  · rw [bind_run_error hfront, bind_run_error hfront]
  rw [hfront] at hframe
  rw [bind_run_ok hfront, bind_run_ok hfront]
  by_cases hmore : mid.depth < mid.maxDepth
  · rw [bind_run_ok (simplify_marked hmarked args hmore)]
    have hframe' := keepsFrame_simplifyEach keepsFrame_simplify behind mid
    change Environment.SameFrame mid (simplifyAll behind mid).2 at hframe'
    rcases hbehind : simplifyAll behind mid with ⟨failure | behinds, after⟩
    · rw [bind_run_error hbehind, bind_run_error hbehind]
    rw [hbehind] at hframe'
    rw [bind_run_ok hbehind, bind_run_ok hbehind]
    obtain ⟨hsole', haccepts, hresult⟩ := hhandled fronts behinds mid after hfront hbehind
    rw [simplifyPrepared_of_overloads hsole' hplain haccepts hresult, simplify, ← hleft,
      (hframe.trans hframe').maxDepth, (hframe.trans hframe').depth]
  · have hnone (node : Node) := simplify_of_no_room (Nat.le_of_not_lt hmore) node
    rw [bind_run_error (hnone _)]
    cases behind with
    | nil => rw [bind_run_ok (show simplifyAll [] mid = (.ok [], mid) from rfl), hnone]
    | cons node rest => rw [bind_run_error (show simplifyAll (node :: rest) mid = _ from bind_run_error (hnone node) _)]

end Call

/-! ### Templates -/

theorem Registry.mem_enter_self (operation : Operation) (operations : List Operation) :
    operation ∈ enter operation operations := by
  induction operations with
  | nil => exact List.mem_cons_self
  | cons other rest ih =>
      rw [enter]
      split
      · exact List.mem_cons_self
      · exact List.mem_cons_of_mem _ ih

/-- The only operation of the name is the one that installing the equation has registered. -/
def Environment.CallsOnly (env : Environment) (equation : Equation) : Prop :=
  ∃ origin installed operation,
    perform (Definition.installOperation equation.name (equation.parameters.map .symbol) equation.template)
      origin = (.ok (), installed) ∧
    installed.registry.overloads equation.name = [operation] ∧
    env.registry.overloads equation.name = [operation]

theorem Environment.CallsOnly.exists_operation {env : Environment} {equation : Equation}
    (h : env.CallsOnly equation) : equation.parameters.Nodup ∧
      ∃ issued, env.registry.overloads equation.name = [equation.operation issued] := by
  obtain ⟨origin, installed, operation, hinstalled, hsole, hcalled⟩ := h
  obtain ⟨hdistinct, rfl⟩ := Equation.perform_installOperation_iff.mp hinstalled
  refine ⟨hdistinct, origin.issued, ?_⟩
  have hmem : equation.operation origin.issued ∈
      (origin.install equation).registry.overloads equation.name :=
    List.mem_filter.mpr ⟨Registry.mem_enter_self _ _, beq_self_eq_true _⟩
  rw [hsole, List.mem_singleton] at hmem
  rw [hcalled, hmem]

/-- All symbols that are spelled like no alias, and all names. -/
def Vocabulary.unaliased : Vocabulary where
  symbol name := '#' ∉ name.toList
  name _ := True

/-- A call by name: the arguments in front of `arg` and behind it are simplified, and the template is
simplified with `arg` as it is and their values in the place of its parameters. -/
def Equation.callByName (equation : Equation) (front : List Node) (arg : Node) (behind : List Node) :
    Evaluation Node := do
  let fronts ← simplifyAll front
  let behinds ← simplifyAll behind
  simplify (equation.template.substitute (positional equation.parameters (fronts ++ arg :: behinds)))

theorem length_simplifyAll {nodes values : List Node} {env after : Environment}
    (h : simplifyAll nodes env = (.ok values, after)) : values.length = nodes.length := by
  induction nodes generalizing values env with
  | nil =>
      cases h
      rfl
  | cons node rest ih =>
      rw [simplifyAll_cons] at h
      obtain ⟨value, mid, _, h⟩ := of_bind_ok h
      obtain ⟨others, mid, hothers, h⟩ := of_bind_ok h
      cases h
      rw [List.length_cons, List.length_cons, ih hothers]

/-- **Arguments that are put off are called by name.** A call of an equation gives what its template gives with
the call in the place of the parameter, once the other arguments are simplified, provided that they leave the
equation as it is. To repeat the call is to simplify a sequence of as many of them. -/
theorem simplify_marked_argument {env : Environment} (hroom : env.depth < env.maxDepth)
    {marked bare : String} (hmarked : deferred? marked = some bare) (args : List Node) :
    (∀ (equation : Equation) (front behind : List Node), deferred? equation.name = none →
      equation.template.Within .unaliased →
      (front ++ .application marked args :: behind).length = equation.parameters.length →
      env.CallsOnly equation →
      (∀ values after, simplifyAll (front ++ behind) env.deeper = (.ok values, after) →
        after.registry.overloads equation.name = env.registry.overloads equation.name) →
      simplify (.application equation.name (front ++ .application marked args :: behind)) env =
        nested (equation.callByName front (.application bare args) behind) env) ∧
    ∀ times : Int64, 0 ≤ times.toInt →
      env.registry.overloads "repeat" = Builtin.standard.overloads "repeat" →
      simplify (.application "repeat" [.application marked args, .number (.small times)]) env =
        nested (simplify (.sequence (List.replicate times.toInt.toNat (.application bare args)))) env := by
  constructor
  · intro equation front behind hname htemplate hlength hcalled hkept
    obtain ⟨hdistinct, issued, hsole⟩ := hcalled.exists_operation
    refine simplify_call_of_marked hmarked hname hsole rfl ?_ hroom
    intro fronts behinds mid after hfront hbehind
    have hboth : simplifyAll (front ++ behind) env.deeper = (.ok (fronts ++ behinds), after) := by
      rw [simplifyAll_append, bind_run_ok hfront, bind_run_ok hbehind]
      rfl
    have hvalues : (fronts ++ .application bare args :: behinds).length = equation.parameters.length := by
      rw [← hlength, List.length_append, List.length_append, List.length_cons, List.length_cons,
        length_simplifyAll hfront, length_simplifyAll hbehind]
    exact ⟨(hkept _ _ hboth).trans hsole, Equation.accepts_operation_iff.mpr hvalues,
      Equation.instantiate_eq (fun _ hsymbol => hsymbol) htemplate hdistinct issued hvalues⟩
  · intro times hpositive hstandard
    let copies := Node.sequence (List.replicate times.toInt.toNat (.application bare args))
    have hsole : env.registry.overloads "repeat" = [Operation.binary "repeat" .any .integer Builtin.repeated] :=
      hstandard.trans ((Builtin.overloads_standard _).trans rfl)
    have hcopies (node : Node) : Builtin.repeated node (.number (.small times)) = .done
        (some (.sequence (List.replicate times.toInt.toNat node))) := by
      show (if times < 0 then _ else _) = _
      rw [if_neg]
      · rfl
      · rw [Int64.lt_iff_toInt_lt]
        exact Int.not_lt.mpr hpositive
    have hcall : simplify (.application "repeat" ([] ++ .application marked args :: [.number (.small times)])) env =
        nested (simplifyAll [] >>= fun _ => simplifyAll [.number (.small times)] >>= fun _ =>
          simplify copies) env := by
      refine simplify_call_of_marked hmarked (by decide) hsole rfl ?_ hroom
      intro fronts behinds mid after hfront hbehind
      cases hfront
      rw [simplifyAll_number] at hbehind
      split at hbehind <;> cases hbehind
      exact ⟨hsole, rfl, hcopies _⟩
    refine hcall.trans (nested_congr ?_)
    show (simplifyAll [.number (.small times)] >>= fun _ => simplify copies) env.deeper = _
    have htimes := simplifyAll_number (.small times) env.deeper
    split at htimes
    · rw [bind_run_ok htimes]
    · rename_i hlimit
      rw [bind_run_error htimes, simplify_of_no_room (Nat.le_of_not_lt hlimit)]

/-! ### Examples -/

/-- The equation `name(parameters) = list(parameters)`. -/
def listing (name : String) (parameters : List String) : Equation :=
  ⟨name, parameters, .application "list" (parameters.map .symbol)⟩

theorem callsOnly_install {equation : Equation} {env : Environment} (hdistinct : equation.parameters.Nodup)
    (hsole : (env.install equation).registry.overloads equation.name = [equation.operation env.issued]) :
    (env.install equation).CallsOnly equation :=
  ⟨env, env.install equation, _, Equation.perform_installOperation_iff.mpr ⟨hdistinct, rfl⟩, hsole, hsole⟩

set_option maxRecDepth 10000 in
/-- A template that has its first parameter twice gets the call twice, behind the value of a variable. -/
theorem simplify_marked_argument_twice :
    let f : Equation := ⟨"f", ["x", "y"], .application "list" [.symbol "x", .symbol "y", .symbol "x"]⟩
    let env := (Environment.standard.install f).set "z" (.integer 7)
    let marked := Node.application "$random" []
    let bare := Node.application "random" []
    env.depth < env.maxDepth ∧ deferred? "$random" = some "random" ∧ deferred? f.name = none ∧
      f.template.Within .unaliased ∧ env.CallsOnly f ∧
      (∀ values after, simplifyAll ([] ++ [.symbol "z"]) env.deeper = (.ok values, after) →
        after.registry.overloads f.name = env.registry.overloads f.name) ∧
      simplify (.application f.name ([] ++ marked :: [.symbol "z"])) env =
        nested (f.callByName [] bare [.symbol "z"]) env ∧
      simplify (.application "repeat" [marked, .number (.small 3)]) env =
        nested (simplify (.sequence [bare, bare, bare])) env := by
  intro f env marked bare
  have hcalled : env.CallsOnly f := callsOnly_install (by decide) rfl
  have htemplate : f.template.Within .unaliased := by
    have hsymbol {name : String} (hname : '#' ∉ name.toList) : (Node.symbol name).Within .unaliased :=
      within_symbol.mpr hname
    refine within_application.mpr ⟨trivial, ?_⟩
    simpa using ⟨hsymbol (by decide), hsymbol (by decide), hsymbol (by decide)⟩
  have hkept (values : List Node) (after : Environment)
      (h : simplifyAll ([] ++ [.symbol "z"]) env.deeper = (.ok values, after)) :
      after.registry.overloads f.name = env.registry.overloads f.name := by
    cases h
    rfl
  have hroom : env.depth < env.maxDepth := by decide
  obtain ⟨hcalls, hcopies⟩ := simplify_marked_argument hroom (show deferred? "$random" = some "random" by decide) []
  exact ⟨hroom, by decide, by decide, htemplate, hcalled, hkept,
    hcalls f [] [.symbol "z"] (by decide) htemplate rfl hcalled hkept,
    hcopies 3 (by decide) rfl⟩

/-- The computation ends with this node. -/
def Evaluation.gives (computation : Evaluation Node) (env : Environment) (result : Node) : Bool :=
  (computation env).1.toOption.any (· == result)

set_option maxRecDepth 10000 in
/-- Calls that are none by name: an operation whose own name is marked is not called at all, one that another
argument has removed is gone, and at the limit it is the call that fails, not what it stands for. An integer
that is not held as a word does not count copies. -/
theorem marked_argument_not_by_name :
    let marked := Node.application "$g" [.integer 1]
    let bare := Node.application "g" [.integer 1]
    let hidden := listing "$f" ["x"]
    let pairing := listing "f" ["x", "y"]
    let withHidden := Environment.standard.install hidden
    let withPairing := Environment.standard.install pairing
    let removed := Node.application "del" [.symbol "f"]
    (withHidden.CallsOnly hidden ∧
      (simplify (.application "$f" [marked])).gives withHidden (.application "f" [marked]) ∧
      (nested (hidden.callByName [] bare [])).gives withHidden (.sequence [bare]) ∧
      ¬(nested (hidden.callByName [] bare [])).gives withHidden (.application "f" [marked])) ∧
    (withPairing.CallsOnly pairing ∧
      (simplify (.application "f" [marked, removed])).gives withPairing (.application "f" [bare, .symbol "f"]) ∧
      (nested (pairing.callByName [] bare [removed])).gives withPairing (.sequence [bare, .symbol "f"]) ∧
      ¬(nested (pairing.callByName [] bare [removed])).gives withPairing
        (.application "f" [bare, .symbol "f"])) ∧
    ((simplify (.application "f" [marked, .integer 2]) { withPairing with maxDepth := 0 }).1 =
        .error (.recursionLimit 0) ∧
      (nested (pairing.callByName [] bare [.integer 2]) { withPairing with maxDepth := 0 }).1 =
        .error (.recursionLimit 1)) ∧
    (simplify (.application "repeat" [marked, .number (.big 2)])).gives Environment.standard
        (.application "repeat" [bare, .number (.big 2)]) ∧
      (nested (simplify (.sequence [bare, bare]))).gives Environment.standard (.sequence [bare, bare]) ∧
      ¬(nested (simplify (.sequence [bare, bare]))).gives Environment.standard
        (.application "repeat" [bare, .number (.big 2)]) := by
  intro marked bare hidden pairing withHidden withPairing removed
  have hhidden : withHidden.CallsOnly hidden := callsOnly_install (by decide) rfl
  have hpairing : withPairing.CallsOnly pairing := callsOnly_install (by decide) rfl
  refine ⟨⟨hhidden, ?_⟩, ⟨hpairing, ?_⟩, ⟨rfl, rfl⟩, ?_⟩
  · decide +kernel
  · decide +kernel
  · decide +kernel

end SymbolicAlgebra
