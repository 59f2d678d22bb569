import SymbolicAlgebra.Proofs.Agreement
import SymbolicAlgebra.Proofs.Standard
import SymbolicAlgebra.Proofs.Substitution

/-! Locality of bindings. What a symbol is bound to makes no difference to an expression that does not
use it, as long as no operation gives the symbol away in its result: results are simplified once more,
and a symbol that a handler puts there on its own account is then replaced by its value. The operations
that do this are the two that label their values, and `define`, which answers with the name that it
defines. -/

namespace SymbolicAlgebra

variable {K : Node → Prop}

/-! ### Templates -/

theorem Node.Kind.substitute (hK : Kind K) {image : String → Option Node} {node : Node} (h : K node)
    (himage : ∀ name, K (.symbol name) → K (imageOf image name)) : K (node.substitute image) := by
  induction node using Node.inductionOn with
  | number value => exact h
  | boolean value => exact h
  | symbol name =>
      rw [substitute_symbol]
      exact himage name h
  | application name args ih =>
      rw [Node.substitute, substituteAll_eq_map]
      refine hK.applied h (List.forall_mem_map.mpr fun arg harg => ?_)
      exact ih arg harg (hK.args h arg harg)
  | pair first second ihfirst ihsecond =>
      obtain ⟨hfirst, hsecond⟩ := hK.pair.mp h
      rw [Node.substitute]
      exact hK.pair.mpr ⟨ihfirst hfirst, ihsecond hsecond⟩
  | sequence elements ih =>
      rw [Node.substitute, substituteAll_eq_map]
      refine hK.sequence.mpr (List.forall_mem_map.mpr fun element helement => ?_)
      exact ih element helement (hK.sequence.mp h element helement)

namespace Definition

theorem local_aliases (names : List String) : (aliases names).LocalOn K fun _ => True := by
  induction names with
  | nil => exact .done trivial
  | cons name rest ih => exact .fresh fun index => ih.bind fun others _ => .done trivial

theorem not_isUniversal_templateOperation (name : String) (aliases : List String) (body : Node) :
    ¬(templateOperation name aliases body).isUniversal := by
  intro huniversal
  have hsignature : List.replicate aliases.length Parameter.any = [.universal] :=
    of_decide_eq_true huniversal
  have := List.eq_of_mem_replicate (hsignature ▸ List.mem_singleton_self Parameter.universal)
  cases this

/-- What the operation of a template of the kind makes of arguments that it takes, whatever its aliases: every
alias has an argument, so that only symbols of the template are left as they are. -/
theorem kind_templateOperation (hK : Node.Kind K) (name : String) {names aliases : List String} {template : Node}
    (h : K template) {args : List Node}
    (htakes : let operation := templateOperation name aliases (rename names aliases template)
      operation.accepts args ∨ operation.isUniversal)
    (hargs : ∀ arg ∈ args, K arg) : K (instantiate aliases (rename names aliases template) args) := by
  have haccepts : (templateOperation name aliases (rename names aliases template)).accepts args :=
    htakes.resolve_right (not_isUniversal_templateOperation name aliases _)
  have hlength : aliases.length = args.length := by
    rw [← Signature.length_eq_of_accepts haccepts]
    exact List.length_replicate.symm
  have hreplaced (symbol : String) (hsymbol : K (.symbol symbol) ∨ symbol ∈ aliases) :
      K (Node.imageOf (fun name => (aliases.zip args).lookup name) symbol) := by
    rw [Node.imageOf]
    cases hlookup : (aliases.zip args).lookup symbol with
    | some arg =>
        obtain ⟨_, _, hzip, _⟩ := List.lookup_eq_some_iff.mp hlookup
        have hmem : (symbol, arg) ∈ aliases.zip args := by simp [hzip]
        exact hargs arg (List.of_mem_zip hmem).2
    | none =>
        refine hsymbol.resolve_right fun hmem => ?_
        obtain ⟨index, hindex, rfl⟩ := List.getElem_of_mem hmem
        have hpair : (aliases[index], args[index]) ∈ aliases.zip args :=
          List.mem_iff_getElem.mpr ⟨index, by simp; omega, by simp⟩
        simpa using List.lookup_eq_none_iff.mp hlookup _ hpair
  rw [instantiate, rename, Node.substitute_substitute]
  refine hK.substitute h fun symbol hsymbol => ?_
  rw [Node.imageOf, Node.thenSubstitute, Option.getD_some, Node.imageOf]
  cases hlookup : (names.zip aliases).lookup symbol with
  | none =>
      rw [Option.map_none, Option.getD_none, Node.substitute_symbol]
      exact hreplaced symbol (.inl hsymbol)
  | some replacement =>
      obtain ⟨_, _, hzip, _⟩ := List.lookup_eq_some_iff.mp hlookup
      have hmem : (symbol, replacement) ∈ names.zip aliases := by simp [hzip]
      rw [Option.map_some, Option.getD_some, Node.substitute_symbol]
      exact hreplaced replacement (.inr (List.of_mem_zip hmem).2)

/-- The operation of a template of the kind is local. -/
theorem local_templateOperation (hK : Node.Kind K) (name : String) {names aliases : List String} {template : Node}
    (h : K template) : (templateOperation name aliases (rename names aliases template)).LocalOn K :=
  fun _ htakes hargs => .done (offered_some (kind_templateOperation hK name h htakes hargs))

theorem local_installOperation (hK : Node.Kind K) (name : String) (parameters : List Node) {template : Node}
    (h : K template) : (installOperation name parameters template).LocalOn K fun _ => True := by
  refine (Action.local_ofExcept (ensures_any _)).bind fun names _ => ?_
  refine (local_aliases names).bind fun aliases _ => ?_
  exact .register (local_templateOperation hK name h) (.done trivial)

theorem local_bindVariable {name : String} (hname : K (.symbol name)) {value : Node} (hvalue : K value) :
    (bindVariable name value).LocalOn K K := by
  refine (Action.local_simplified hvalue).bind fun value hvalue => ?_
  split
  · exact .fail _
  · exact .assign hname hvalue (.done hvalue)

end Definition

/-! ### Operations with effects -/

namespace Operation

theorem local_unary (name : String) (parameter : Parameter)
    {handler : Node → Action Operation (Option Node)}
    (h : ∀ a, K a → (handler a).LocalOn K (Offered K)) :
    (unary name parameter handler).LocalOn K := by
  intro args _
  exact unary_cases (motive := fun args action => (∀ arg ∈ args, K arg) → action.LocalOn K (Offered K))
    (fun _ _ => .done offered_none) name parameter (fun a hargs => h a (hargs a (by simp))) args

theorem local_binary (name : String) (first second : Parameter)
    {handler : Node → Node → Action Operation (Option Node)}
    (h : ∀ a b, K a → K b → (handler a b).LocalOn K (Offered K)) :
    (binary name first second handler).LocalOn K := by
  intro args _
  exact binary_cases (motive := fun args action => (∀ arg ∈ args, K arg) → action.LocalOn K (Offered K))
    (fun _ _ => .done offered_none) name first second
    (fun a b hargs => h a b (hargs a (by simp)) (hargs b (by simp))) args

theorem local_ternary (name : String) (first second third : Parameter)
    {handler : Node → Node → Node → Action Operation (Option Node)}
    (h : ∀ a b c, K a → K b → K c → (handler a b c).LocalOn K (Offered K)) :
    (ternary name first second third handler).LocalOn K := by
  intro args _
  exact ternary_cases (motive := fun args action => (∀ arg ∈ args, K arg) → action.LocalOn K (Offered K))
    (fun _ _ => .done offered_none) name first second third
    (fun a b c hargs => h a b c (hargs a (by simp)) (hargs b (by simp)) (hargs c (by simp))) args

end Operation

open Operation SymbolicAlgebra.Action Evaluation

namespace Builtin

theorem ensures_asSymbol {node : Node} (h : K node) : Ensures (fun name => K (.symbol name)) node.asSymbol := by
  cases node with
  | symbol name => exact ensures_ok h
  | _ => exact ensures_error _ _

theorem ensures_asApplication {node : Node} (h : K node) :
    Ensures (fun parts => K (.application parts.1 parts.2)) node.asApplication := by
  cases node with
  | application name args => exact ensures_ok h
  | _ => exact ensures_error _ _

/-- Defining an operation gives its name away as a symbol. -/
theorem local_defineOperation (hK : Node.Kind K)
    (hdefined : ∀ {name : String} {args : List Node}, K (.application name args) → K (.symbol name))
    {head template : Node} (hhead : K head) (htemplate : K template) :
    (defineOperation head template).LocalOn K (Offered K) := by
  refine (local_ofExcept (ensures_asApplication hhead)).bind fun parts hparts => ?_
  refine (Definition.local_installOperation hK parts.1 parts.2 htemplate).bind fun _ _ => ?_
  exact .done (offered_some (hdefined hparts))

theorem local_defineVariable {head value : Node} (hhead : K head) (hvalue : K value) :
    (defineVariable head value).LocalOn K (Offered K) := by
  refine (local_ofExcept (ensures_asSymbol hhead)).bind fun name hname => ?_
  exact (Definition.local_bindVariable hname hvalue).bind fun bound hbound => .done (offered_some hbound)

theorem local_delete {head : Node} (hhead : K head) : (delete head).LocalOn K (Offered K) := by
  refine (local_ofExcept (ensures_asSymbol hhead)).bind fun name hname => ?_
  refine .removeAll fun count => .release hname fun value => ?_
  split
  · exact .fail _
  · exact .done (offered_some hname)

theorem local_random (hK : Node.SuitedKind K) : random.LocalOn K (Offered K) :=
  .draw fun _ => .done (hK.offered_number trivial)

theorem local_randomBetween (hK : Node.SuitedKind K) (lower upper : Node) :
    (randomBetween lower upper).LocalOn K (Offered K) := by
  refine (local_ofExcept (ensures_any _)).bind fun low _ => ?_
  refine (local_ofExcept (ensures_any _)).bind fun high _ => ?_
  refine (local_ofExcept (ensures_any _)).bind fun _ _ => ?_
  refine (local_ofExcept (ensures_any _)).bind fun _ _ => ?_
  refine (local_ofExcept (ensures_any _)).bind fun _ _ => ?_
  exact .draw fun _ => .done (hK.offered_number trivial)

theorem local_setElement (hK : Node.Kind K) {head index value : Node} (hhead : K head) (hindex : K index)
    (hvalue : K value) : (setElement head index value).LocalOn K (Offered K) := by
  refine (local_ofExcept (ensures_asSymbol hhead)).bind fun name hname => ?_
  refine (local_simplified hindex).bind fun index _ => ?_
  refine (local_ofExcept (ensures_any index.asInteger)).bind fun place _ => ?_
  refine (local_simplified hvalue).bind fun value hvalue => .lookup hname fun outcome houtcome => ?_
  cases outcome with
  | none => exact .fail _
  | some bound =>
      refine (local_simplified (houtcome bound rfl)).bind fun bound hbound => ?_
      refine (local_ofExcept (ensures_asSequence hK hbound)).bind fun elements helements => ?_
      refine (local_ofExcept (ensures_any (Guard.index place.toInt elements.length))).bind
        fun position _ => ?_
      have hupdated := hK.set helements position hvalue
      exact .assign hname hupdated (.done (offered_some hupdated))

/-- Every standard operation is local to a kind that has what the standard operations write, and in which a
defined name is a symbol. -/
theorem local_standard (hK : Node.SuitedKind K)
    (hdefined : K (.application "define" []) →
      ∀ {name : String} {args : List Node}, K (.application name args) → K (.symbol name))
    {operation : Operation} (hmem : operation ∈ standard.operations) (hname : K (.application operation.name [])) :
    operation.LocalOn K := by
  by_cases heffects : operation.name ∈ effectfulNames
  · refine effectful_cases (motive := fun operation => K (.application operation.name []) → operation.LocalOn K)
      hmem heffects (fun hdefine => ?_) (fun _ => ?_) (fun _ => ?_) (fun _ => ?_) (fun _ => ?_) (fun _ => ?_)
      (fun _ => ?_) hname
    · exact local_binary "define" .application .any fun head template =>
        local_defineOperation hK.toKind (hdefined hdefine)
    · exact local_binary "define" .symbol .any fun head value => local_defineVariable
    · exact fun args _ _ => .fail _
    · exact local_unary "del" .symbol fun head => local_delete
    · exact fun args _ _ => local_random hK
    · exact local_binary "random" .number .number fun lower upper _ _ => local_randomBetween hK lower upper
    · exact local_ternary "set" .symbol .any .any fun head index value => local_setElement hK.toKind
  · exact (quietOn_standard hK hmem hname heffects).localOn

end Builtin

/-! ### Leaving a symbol out -/

/-- Some names, and all symbols but one. -/
def Vocabulary.avoiding (x : String) (names : String → Prop) : Vocabulary where
  symbol name := name ≠ x
  name := names

/-- The environment in which a variable is not bound. -/
def Environment.unbind (env : Environment) (name : String) : Environment :=
  env.setBindings (env.bindings.erase name)

/-- The environments with and without a binding of a symbol agree on what leaves the symbol out. -/
theorem Environment.agreeOn_set_unbind {env : Environment} {x : String} {names : String → Prop} (v : Node)
    (hvalues : ∀ name value, name ≠ x → env.get? name = some value → value.Within (.avoiding x names))
    (hlocal : ∀ operation ∈ env.registry.operations, names operation.name →
      operation.LocalIn (.avoiding x names)) :
    (env.set x v).AgreeOn (.avoiding x names) (env.unbind x) := by
  have hset (name : String) (hother : name ≠ x) : (env.set x v).get? name = env.get? name :=
    Bindings.get?_set_of_ne env.bindings v hother
  refine ⟨rfl, rfl, rfl, rfl, rfl, fun name hother => ?_, fun name value hother hvalue => ?_, hlocal⟩
  · exact (hset name hother).trans (Bindings.get?_erase_of_ne env.bindings hother).symm
  · exact hvalues name value hother (hset name hother ▸ hvalue)

/-- An operation that labels its values, applied to one and two. -/
def spreadOfTwo (name : String) : Node :=
  .application name [.sequence [.integer 1, .integer 2]]

/-- A label that is bound is replaced by its value, and one that is not stays. -/
theorem label_of_spreadOfTwo : ∀ x ∈ Builtin.labels, ∀ name ∈ Builtin.labellingNames,
    (simplify (spreadOfTwo name) (Environment.standard.set x (.integer 5))).1.toOption.map (·.mentions x)
      = some false ∧
    (simplify (spreadOfTwo name) (Environment.standard.unbind x)).1.toOption.map (·.mentions x)
      = some true := by
  decide +kernel

/-- The definition of an operation without parameters. -/
def definitionOf (name : String) : Node :=
  .application "define" [.application name [], .integer 1]

/-- A definition is carried out, and the name that it defines is simplified as a symbol. -/
theorem run_definitionOf (recur : Simplifier) (x : String) {env : Environment}
    (hstandard : env.registry = Builtin.standard) :
    simplifyStep recur (definitionOf x) env =
      recur (.symbol x) (env.register (Definition.templateOperation x [] (.integer 1))) := by
  have hpreserves : Builtin.standard.preservesArguments "define" := by decide +kernel
  have hordered : ¬Builtin.standard.isCommutative "define" := by decide +kernel
  have hinvoke : invokeWith recur "define" [.application x [], .integer 1] env =
      (.ok (some (.symbol x)), env.register (Definition.templateOperation x [] (.integer 1))) := by
    have hresolve : Builtin.standard.resolve "define" [.application x [], .integer 1] =
      some (Operation.binary "define" .application .any Builtin.defineOperation).preservingArguments := rfl
    rw [invokeWith_run, hstandard, hresolve]
    rfl
  rw [← hstandard] at hpreserves hordered
  rw [definitionOf, simplifyStep_application, simplifyApplication_of_preserves (by decide) hpreserves]
  exact simplifyPrepared_of_offer (arrange_of_ordered hordered _) hinvoke

/-- The name that is defined is given away as a symbol, and replaced by its value if it is bound. -/
theorem outcome_definitionOf {x : String} {env : Environment} (hstandard : env.registry = Builtin.standard)
    (hroom : env.maxDepth - env.depth = 256) (bound : Option Number)
    (hbound : env.get? x = bound.map Node.number) :
    (simplify (definitionOf x) env).1 = .ok ((bound.map Node.number).getD (.symbol x)) := by
  let deeper := { env with depth := env.depth + 1 }
  let defined := deeper.register (Definition.templateOperation x [] (.integer 1))
  have hdeeper : deeper.registry = Builtin.standard := hstandard
  let deepest := { defined with depth := defined.depth + 1 }
  have hdefinition : (simplify (definitionOf x) env).1 = (simplifyWithin 255 (.symbol x) defined).1 := by
    rw [simplify, hroom]
    show (simplifyStep (simplifyWithin 255) (definitionOf x) deeper).1 = _
    rw [run_definitionOf _ x hdeeper]
  have hsymbol : (simplifyWithin 255 (.symbol x) defined).1
      = (simplifyStep (simplifyWithin 254) (.symbol x) deepest).1 := rfl
  have hget : deepest.get? x = bound.map Node.number := hbound
  rw [hdefinition, hsymbol, simplifyStep_symbol, hget]
  cases bound <;> rfl

/-- In the standard environment with any bindings, and for expressions over a set of names that has what
the standard operations write: what `x` is bound to makes no difference to the expressions that do not
use the symbol `x`, exactly if `x` is no label or no operation that uses it as one is among the names, and
nothing is defined or `x` is not among the names. -/
theorem simplify_local_iff {x : String} {names : String → Prop}
    (hunmarked : ∀ name bare, names name → deferred? name = some bare → names bare)
    (hwritten : ∀ name ∈ Builtin.writtenNames, names name) :
    (∀ (env : Environment) (e v : Node), env.registry = Builtin.standard →
        e.Within (.avoiding x names) →
        (∀ name value, name ≠ x → env.get? name = some value → value.Within (.avoiding x names)) →
        (simplify e (env.set x v)).1 = (simplify e (env.unbind x)).1) ↔
      (x ∈ Builtin.labels → ∀ name ∈ Builtin.labellingNames, ¬names name) ∧
        (names "define" → ¬names x) := by
  constructor
  · intro hlaw
    constructor
    · intro hlabel name hlabelling hname
      obtain ⟨hbound, hunbound⟩ := label_of_spreadOfTwo x hlabel name hlabelling
      have hspread : (spreadOfTwo name).Within (.avoiding x names) := by
        refine Node.within_application.mpr ⟨hname, List.forall_mem_singleton.mpr ?_⟩
        rw [Node.within_sequence, List.forall_mem_cons, List.forall_mem_singleton]
        exact ⟨Node.within_number _, Node.within_number _⟩
      rw [hlaw .standard (spreadOfTwo name) (.integer 5) rfl hspread nofun, hunbound] at hbound
      cases hbound
    · intro hdefine hname
      have hdefinition : (definitionOf x).Within (.avoiding x names) :=
        Node.within_call hdefine (Node.within_application.mpr ⟨hname, nofun⟩) (Node.within_number _)
      have hsame := hlaw .standard (definitionOf x) (.integer 5) rfl hdefinition nofun
      have hbound : (Environment.standard.set x (.integer 5)).get? x = some (.integer 5) :=
        Bindings.get?_set_self _ x _
      have hunbound : (Environment.standard.unbind x).get? x = none := Bindings.get?_erase_self _ x
      rw [outcome_definitionOf rfl rfl (some (.ofInt 5)) hbound,
        outcome_definitionOf rfl rfl none hunbound] at hsame
      cases hsame
  · rintro ⟨hlabels, hdefine⟩ env e v hstandard he hvalues
    have hsuits : (Vocabulary.avoiding x names).Suits :=
      ⟨hwritten, fun name hlabelling hname label hlabel hsame =>
        hlabels (hsame ▸ hlabel) name hlabelling hname⟩
    have hname {name : String} {args : List Node}
        (happlied : (Node.application name args).Within (.avoiding x names)) : names name :=
      (Node.within_application.mp happlied).1
    have hdefined (hdefines : (Node.application "define" []).Within (.avoiding x names)) {name : String}
        {args : List Node} (happlied : (Node.application name args).Within (.avoiding x names)) :
        (Node.symbol name).Within (.avoiding x names) :=
      Node.within_symbol.mpr fun hsame => hdefine (hname hdefines) (hsame ▸ hname happlied)
    have hlocal (operation : Operation) (hmem : operation ∈ env.registry.operations)
        (hnamed : names operation.name) : operation.LocalIn (.avoiding x names) :=
      Builtin.local_standard hsuits.kind hdefined (hstandard ▸ hmem)
        (Node.within_application.mpr ⟨hnamed, nofun⟩)
    have hagree := Environment.agreeOn_set_unbind v hvalues hlocal
    exact (coupled_simplify (coupling_agreeOn hunmarked) he _ _ hagree).1

/-- A mean has nothing to do with what a label is bound to. -/
theorem simplify_local_mean :
    (simplify (.application "mean" [.symbol "a", .integer 2])
        (Environment.standard.set "sample" (.integer 5))).1 =
      (simplify (.application "mean" [.symbol "a", .integer 2])
        (Environment.standard.unbind "sample")).1 := by
  let names (name : String) : Prop := name ∈ "mean" :: Builtin.writtenNames
  have hplain : ∀ name ∈ "mean" :: Builtin.writtenNames, deferred? name = none := by decide
  have hunmarked (name bare : String) (hname : names name) (hbare : deferred? name = some bare) :
      names bare := by
    rw [hplain name hname] at hbare
    cases hbare
  have hwritten (name : String) (hname : name ∈ Builtin.writtenNames) : names name :=
    List.mem_cons_of_mem _ hname
  have hlabels : "sample" ∈ Builtin.labels → ∀ name ∈ Builtin.labellingNames, ¬names name := by
    decide
  have hdefine : names "define" → ¬names "sample" := by decide
  refine (simplify_local_iff hunmarked hwritten).mpr ⟨hlabels, hdefine⟩ .standard _ _ rfl ?_ nofun
  have hsymbol : (Node.symbol "a").Within (.avoiding "sample" names) :=
    Node.within_symbol.mpr (by decide : "a" ≠ "sample")
  exact Node.within_call (List.mem_cons_self : names "mean") hsymbol (Node.within_number _)

/-- The symbol `sample` occurs nowhere, and yet the variance of one and two depends on its value. -/
theorem variance_captures_sample :
    (spreadOfTwo "variance").mentions "sample" = false ∧
      (simplify (spreadOfTwo "variance") (Environment.standard.unbind "sample")).1.toOption.any
        (· == .sequence [.pair (.symbol "sample") (.real 0.5), .pair (.symbol "population") (.real 0.25)]) ∧
      (simplify (spreadOfTwo "variance") (Environment.standard.set "sample" (.integer 5))).1.toOption.any
        (· == .sequence [.pair (.integer 5) (.real 0.5), .pair (.symbol "population") (.real 0.25)]) ∧
      (simplify (spreadOfTwo "variance") (Environment.standard.set "sample" (.integer 5))).1 ≠
        (simplify (spreadOfTwo "variance") (Environment.standard.unbind "sample")).1 := by
  refine ⟨by decide, by decide +kernel, by decide +kernel, fun hsame => ?_⟩
  obtain ⟨hbound, hunbound⟩ := label_of_spreadOfTwo "sample" (by decide) "variance" (by decide)
  rw [hsame, hunbound] at hbound
  cases hbound

end SymbolicAlgebra
