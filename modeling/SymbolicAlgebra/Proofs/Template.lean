import SymbolicAlgebra.Builtin.Standard
import SymbolicAlgebra.Proofs.Evaluation
import SymbolicAlgebra.Proofs.Registry
import SymbolicAlgebra.Proofs.Substitution

/-! Operations that are defined by a template. A call replaces the parameters by the arguments all at
once, whatever the arguments hold, with one exception: the aliases that the parameters are renamed to
are ordinary symbols, and a template that spells such a symbol itself has it replaced as well. The main
statement says exactly when that happens. -/

namespace SymbolicAlgebra

/-! ### Aliases -/

namespace Definition

/-- The aliases that a parameter list gets where `issued` numbers have been handed out before. -/
def issuedAliases (issued : Nat) : List String → List String
  | [] => []
  | name :: rest => aliasOf name (issued + 1) :: issuedAliases (issued + 1) rest

theorem length_issuedAliases (issued : Nat) (names : List String) :
    (issuedAliases issued names).length = names.length := by
  induction names generalizing issued with
  | nil => rfl
  | cons name rest ih => rw [issuedAliases, List.length_cons, List.length_cons, ih]

theorem getElem?_issuedAliases (issued : Nat) (names : List String) (index : Nat) :
    (issuedAliases issued names)[index]? =
      names[index]?.map fun name => aliasOf name (issued + index + 1) := by
  induction names generalizing issued index with
  | nil => rfl
  | cons name rest ih =>
      cases index with
      | zero => rfl
      | succ index =>
          rw [issuedAliases, List.getElem?_cons_succ, List.getElem?_cons_succ, ih,
            show issued + 1 + index + 1 = issued + (index + 1) + 1 by omega]

/-- Texts with a mark in common that does not stand behind it again end alike. -/
private theorem eq_of_append_mark {mark : Char} {a b d e : List Char} (hd : mark ∉ d) (he : mark ∉ e)
    (heq : a ++ mark :: d = b ++ mark :: e) : d = e := by
  have hshift {d e c : List Char} (hd : mark ∉ d) (h : mark :: d = c ++ mark :: e) : d = e := by
    cases c with
    | nil => exact (List.cons.inj h).2
    | cons head c =>
        refine absurd ?_ hd
        rw [(List.cons.inj h).2]
        exact List.mem_append_right c List.mem_cons_self
  rcases List.append_eq_append_iff.mp heq with ⟨c, _, h⟩ | ⟨c, _, h⟩
  · exact hshift hd h
  · exact (hshift he h).symm

/-- The number of an alias can be read off its text, since no digit is a mark. -/
theorem aliasOf_injective {left right : String} {i j : Nat} (heq : aliasOf left i = aliasOf right j) :
    i = j := by
  have hmark (n : Nat) : '#' ∉ Nat.toDigits 10 n := fun hmem =>
    absurd (Nat.isDigit_of_mem_toDigits (by decide) (by decide) hmem) (by decide)
  have htext := congrArg String.toList heq
  simp only [aliasOf, String.toList_append, Nat.toString_eq_repr, Nat.toList_repr] at htext
  have hdigits := eq_of_append_mark (hmark i) (hmark j) (by simpa using htext)
  rw [← Nat.ofDigitChars_ten_toDigits (n := i), hdigits, Nat.ofDigitChars_ten_toDigits]

theorem nodup_issuedAliases (issued : Nat) (names : List String) :
    (issuedAliases issued names).Nodup := by
  induction names generalizing issued with
  | nil => exact List.nodup_nil
  | cons name rest ih =>
      rw [issuedAliases, List.nodup_cons]
      refine ⟨fun hmem => ?_, ih (issued + 1)⟩
      obtain ⟨index, hindex⟩ := List.mem_iff_getElem?.mp hmem
      rw [getElem?_issuedAliases, Option.map_eq_some_iff] at hindex
      obtain ⟨other, _, heq⟩ := hindex
      have := aliasOf_injective heq
      omega

end Definition

/-! ### What a call puts in the place of a symbol -/

section Images

open Definition Node

/-- Replaces each name by the value in the same place, all at once. -/
def positional {α : Type} (names : List String) (values : List α) (name : String) : Option α :=
  (names.zip values).lookup name

theorem positional_nil {α : Type} (names : List String) (name : String) :
    positional names ([] : List α) name = none := by
  rw [positional, List.zip_nil_right]
  rfl

theorem positional_cons {α : Type} (head : String) (names : List String) (first : α) (values : List α)
    (name : String) : positional (head :: names) (first :: values) name =
      if name = head then some first else positional names values name := by
  rw [positional, List.zip_cons_cons, List.lookup_cons]
  by_cases hname : name = head
  · rw [if_pos hname, hname, beq_self_eq_true]
  · rw [if_neg hname, beq_false_of_ne hname]
    rfl

theorem mem_of_positional {α : Type} {names : List String} {values : List α} {name : String} {value : α}
    (h : positional names values name = some value) : value ∈ values := by
  obtain ⟨_, _, hzip, _⟩ := List.lookup_eq_some_iff.mp h
  have hmem : (name, value) ∈ names.zip values := by simp [hzip]
  exact (List.of_mem_zip hmem).2

/-- With no name twice, a value is found under its name wherever it stands. -/
theorem positional_eq_some_iff {α : Type} {names : List String} (hdistinct : names.Nodup)
    (values : List α) (name : String) (value : α) :
    positional names values name = some value ↔
      ∃ index : Nat, names[index]? = some name ∧ values[index]? = some value := by
  induction names generalizing values with
  | nil => simp [positional]
  | cons head names ih =>
      obtain ⟨hnew, hdistinct⟩ := List.nodup_cons.mp hdistinct
      cases values with
      | nil => simp [positional_nil]
      | cons first values =>
          rw [positional_cons]
          by_cases hname : name = head
          · rw [if_pos hname, hname]
            constructor
            · rintro ⟨⟩
              exact ⟨0, rfl, rfl⟩
            · rintro ⟨index, hname, hvalue⟩
              cases index with
              | zero => exact hvalue
              | succ index =>
                  rw [List.getElem?_cons_succ] at hname
                  exact absurd (List.mem_of_getElem? hname) hnew
          · rw [if_neg hname, ih hdistinct]
            constructor
            · rintro ⟨index, h⟩
              exact ⟨index + 1, h⟩
            · rintro ⟨index, h⟩
              cases index with
              | zero => exact absurd (Option.some.inj h.1).symm hname
              | succ index => exact ⟨index, h⟩

theorem positional_of_not_mem {α : Type} {names : List String} {name : String} (hname : name ∉ names)
    (values : List α) : positional names values name = none := by
  rw [positional, List.lookup_eq_none_iff]
  intro entry hentry
  rw [bne_iff_ne]
  exact fun heq => hname (heq ▸ (List.of_mem_zip hentry).1)

variable (issued : Nat) (parameters : List String) (args : List Node)

/-- What becomes of a symbol of the template: a parameter is renamed to its alias, and then an alias
gives way to an argument. -/
def instanceImage : String → Option Node :=
  thenSubstitute (fun name => (positional parameters (issuedAliases issued parameters) name).map .symbol)
    (positional (issuedAliases issued parameters) args)

theorem instantiate_rename (template : Node) :
    instantiate (issuedAliases issued parameters)
        (rename parameters (issuedAliases issued parameters) template) args =
      template.substitute (instanceImage issued parameters args) :=
  substitute_substitute _ _ template

/-- A parameter becomes its argument. -/
theorem imageOf_instanceImage_parameter (hdistinct : parameters.Nodup) {index : Nat} {name : String}
    {arg : Node} (hname : parameters[index]? = some name) (harg : args[index]? = some arg) :
    imageOf (instanceImage issued parameters args) name = arg := by
  have halias : (issuedAliases issued parameters)[index]? = some (aliasOf name (issued + index + 1)) := by
    rw [getElem?_issuedAliases, hname, Option.map_some]
  have hfirst : positional parameters (issuedAliases issued parameters) name =
      some (aliasOf name (issued + index + 1)) :=
    (positional_eq_some_iff hdistinct _ _ _).mpr ⟨index, hname, halias⟩
  have hsecond : positional (issuedAliases issued parameters) args
      (aliasOf name (issued + index + 1)) = some arg :=
    (positional_eq_some_iff (nodup_issuedAliases issued parameters) _ _ _).mpr ⟨index, halias, harg⟩
  simp only [imageOf, instanceImage, thenSubstitute, hfirst, Option.map_some, Option.getD_some,
    substitute_symbol, hsecond]

/-- Another symbol becomes what its spelling as an alias makes of it. -/
theorem imageOf_instanceImage_of_not_mem {name : String} (hname : name ∉ parameters) :
    imageOf (instanceImage issued parameters args) name =
      imageOf (positional (issuedAliases issued parameters) args) name := by
  simp only [instanceImage, thenSubstitute, imageOf, positional_of_not_mem hname, Option.map_none,
    Option.getD_none, substitute_symbol, Option.getD_some]

/-- No symbol of the template that is not a parameter is spelled like the alias of one, unless the
argument for that parameter is the very symbol. -/
def Uncaptured (template : Node) : Prop :=
  ∀ (index : Nat) (parameter : String) (arg : Node),
    parameters[index]? = some parameter → args[index]? = some arg →
    template.mentions (aliasOf parameter (issued + index + 1)) →
    aliasOf parameter (issued + index + 1) ∉ parameters →
    arg = .symbol (aliasOf parameter (issued + index + 1))

/-- An instance of the template is the template with its parameters replaced exactly when no symbol is
captured. -/
theorem instantiate_rename_eq_iff (hdistinct : parameters.Nodup)
    (hlength : args.length = parameters.length) (template : Node) :
    instantiate (issuedAliases issued parameters)
        (rename parameters (issuedAliases issued parameters) template) args =
      template.substitute (positional parameters args) ↔
    Uncaptured issued parameters args template := by
  rw [instantiate_rename, substitute_eq_substitute_iff]
  constructor
  · intro heq index parameter arg hparameter harg hmentions hother
    have halias : positional (issuedAliases issued parameters) args
        (aliasOf parameter (issued + index + 1)) = some arg :=
      (positional_eq_some_iff (nodup_issuedAliases issued parameters) _ _ _).mpr
        ⟨index, by rw [getElem?_issuedAliases, hparameter, Option.map_some], harg⟩
    have himage := heq _ hmentions
    rw [imageOf_instanceImage_of_not_mem _ _ _ hother] at himage
    simpa only [imageOf, halias, positional_of_not_mem hother, Option.getD_some, Option.getD_none]
      using himage
  · intro huncaptured name hmentions
    by_cases hname : name ∈ parameters
    · obtain ⟨index, hindex, hget⟩ := List.mem_iff_getElem.mp hname
      have hparameter : parameters[index]? = some name := by
        rw [List.getElem?_eq_getElem hindex, hget]
      have harg : args[index]? = some args[index] := List.getElem?_eq_getElem (hlength ▸ hindex)
      have hpositional : positional parameters args name = some args[index] :=
        (positional_eq_some_iff hdistinct _ _ _).mpr ⟨index, hparameter, harg⟩
      rw [imageOf_instanceImage_parameter _ _ _ hdistinct hparameter harg, imageOf, hpositional,
        Option.getD_some]
    · rw [imageOf_instanceImage_of_not_mem _ _ _ hname]
      simp only [imageOf, positional_of_not_mem hname, Option.getD_none]
      cases halias : positional (issuedAliases issued parameters) args name with
      | none => rfl
      | some arg =>
          obtain ⟨index, halias, harg⟩ :=
            (positional_eq_some_iff (nodup_issuedAliases issued parameters) _ _ _).mp halias
          rw [getElem?_issuedAliases, Option.map_eq_some_iff] at halias
          obtain ⟨parameter, hparameter, rfl⟩ := halias
          exact huncaptured index parameter arg hparameter harg hmentions hname

end Images

/-! ### Installing and calling -/

open Evaluation

namespace Definition

theorem parameterNames_symbols (operation : String) (seen names : List String)
    (hdistinct : (seen ++ names).Nodup) :
    parameterNames operation seen (names.map Node.symbol) = .ok (seen ++ names) := by
  induction names generalizing seen with
  | nil => rw [List.map_nil, parameterNames, List.append_nil]
  | cons name rest ih =>
      have hnew : name ∉ seen := fun hmem =>
        (List.nodup_append.mp hdistinct).2.2 name hmem name List.mem_cons_self rfl
      have happend : seen ++ name :: rest = seen ++ [name] ++ rest := by
        rw [List.append_assoc, List.singleton_append]
      rw [happend] at hdistinct
      rw [List.map_cons, parameterNames, if_neg (by simpa using hnew), ih _ hdistinct, happend]

/-- Only symbols without repetition are taken. -/
theorem eq_of_parameterNames {operation : String} {seen result : List String} {parameters : List Node}
    (hseen : seen.Nodup) (h : parameterNames operation seen parameters = .ok result) :
    ∃ names, parameters = names.map Node.symbol ∧ result = seen ++ names ∧ result.Nodup := by
  induction parameters generalizing seen with
  | nil =>
      cases h
      exact ⟨[], rfl, (List.append_nil _).symm, hseen⟩
  | cons parameter rest ih =>
      cases parameter with
      | symbol name =>
          rw [parameterNames] at h
          split at h
          · cases h
          · rename_i hnew
            have hnew : name ∉ seen := by simpa using hnew
            have hdistinct : (seen ++ [name]).Nodup := by
              refine List.nodup_append.mpr ⟨hseen, List.pairwise_singleton _ name, ?_⟩
              rintro other hother _ hname rfl
              exact hnew (List.mem_singleton.mp hname ▸ hother)
            obtain ⟨names, rfl, rfl, hresult⟩ := ih hdistinct h
            exact ⟨name :: names, rfl, (List.append_cons _ name names).symm, hresult⟩
      | _ => cases h

/-- Aliases take the next numbers of the counter. -/
theorem run_aliases (recur : Simplifier) (names : List String) (env : Environment) :
    (aliases names).run recur env =
      (.ok (issuedAliases env.issued names), { env with issued := env.issued + names.length }) := by
  induction names generalizing env with
  | nil => rfl
  | cons name rest ih =>
      have hrest := ih env.fresh.2
      show ((aliases rest).andThen fun others => .done (aliasOf name (env.issued + 1) :: others)).run
        recur env.fresh.2 = _
      rw [Action.run_andThen, bind_run_ok hrest]
      simp only [Action.run, pure_run, Environment.fresh, issuedAliases, List.length_cons]
      rw [show env.issued + 1 + rest.length = env.issued + (rest.length + 1) by omega]

/-- The operation that a template defines where `issued` numbers have been handed out: it takes one
argument for each parameter, and the parameters are renamed to aliases with the next numbers. -/
def issuedOperation (issued : Nat) (name : String) (parameters : List String) (template : Node) : Operation :=
  let aliases := issuedAliases issued parameters
  templateOperation name aliases (rename parameters aliases template)

/-- With a list of distinct parameter names, the operation of the template is registered. -/
theorem run_installOperation (recur : Simplifier) {name : String} {parameters : List Node}
    {names : List String} (hnames : parameterNames name [] parameters = .ok names) (template : Node)
    (env : Environment) :
    (installOperation name parameters template).run recur env =
      (.ok (), { env with issued := env.issued + names.length }.register
        (issuedOperation env.issued name names template)) := by
  have haction : installOperation name parameters template =
      (Definition.aliases names).andThen fun aliases =>
        .register (templateOperation name aliases (rename names aliases template)) (.done ()) := by
    rw [installOperation, hnames]
    rfl
  rw [haction, Action.run_andThen, bind_run_ok (run_aliases recur names env)]
  rfl

/-- With anything else in the place of the parameters, nothing happens. -/
theorem run_installOperation_of_error (recur : Simplifier) {name : String} {parameters : List Node}
    {failure : Failure} (hnames : parameterNames name [] parameters = .error failure) (template : Node)
    (env : Environment) : (installOperation name parameters template).run recur env = (.error failure, env) := by
  rw [installOperation, hnames]
  rfl

/-- Installing an operation with distinct parameters always succeeds. -/
theorem perform_installOperation (name : String) {parameters : List String}
    (hdistinct : parameters.Nodup) (template : Node) (env : Environment) :
    perform (installOperation name (parameters.map Node.symbol) template) env =
      (.ok (), { env with issued := env.issued + parameters.length }.register
        (issuedOperation env.issued name parameters template)) :=
  run_installOperation simplify (parameterNames_symbols name [] parameters hdistinct) template env

/-- A call of a template goes to the template, and yields its instance at the arguments as they are. -/
theorem invoke_templateOperation {name : String} {aliases : List String} {args : List Node}
    (body : Node) (hlength : args.length = aliases.length) (env : Environment)
    (halone : ∀ operation ∈ env.registry.overloads name,
      operation.signature = List.replicate aliases.length .any) :
    let after := env.register (templateOperation name aliases body)
    invoke name args after = (.ok (some (instantiate aliases body args)), after) := by
  intro after
  have haccepts : (templateOperation name aliases body).accepts args := by
    rw [Operation.accepts, templateOperation, ← hlength]
    exact Signature.accepts_replicate_any args
  have hresolve : after.registry.resolve name args = some (templateOperation name aliases body) :=
    Registry.resolve_register haccepts fun other hother _ => halone other hother
  rw [invoke, invokeWith_run, hresolve]
  rfl

/-- **Positional substitution and its one exception.** Defining an operation by a template succeeds,
and a call of it yields a node at once. That node is the template with its parameters replaced by the
arguments, everything else left as it is, exactly when the template has no symbol of its own that is
spelled like an alias. -/
theorem call_eq_substitute_iff (env : Environment) (name : String) (parameters : List String)
    (template : Node) (args : List Node) (hdistinct : parameters.Nodup)
    (hlength : args.length = parameters.length)
    (halone : ∀ operation ∈ env.registry.overloads name,
      operation.signature = List.replicate parameters.length .any) :
    ∃ after result,
      perform (installOperation name (parameters.map Node.symbol) template) env = (.ok (), after) ∧
      invoke name args after = (.ok (some result), after) ∧
      (result = template.substitute (positional parameters args) ↔
        Uncaptured env.issued parameters args template) := by
  have hsame : args.length = (issuedAliases env.issued parameters).length := by
    rw [length_issuedAliases, hlength]
  refine ⟨_, _, perform_installOperation name hdistinct template env,
    invoke_templateOperation _ hsame _ ?_,
    instantiate_rename_eq_iff env.issued parameters args hdistinct hlength template⟩
  rw [length_issuedAliases]
  exact halone

/-- Arguments that are spelled like parameters are not replaced again. -/
theorem call_swaps_names :
    let template := Node.application "-" [.symbol "x", .symbol "y"]
    ∃ after result,
      perform (installOperation "f" [.symbol "x", .symbol "y"] template) Environment.standard =
        (.ok (), after) ∧
      invoke "f" [.symbol "y", .symbol "x"] after = (.ok (some result), after) ∧
      result = .application "-" [.symbol "y", .symbol "x"] := by
  intro template
  obtain ⟨after, result, hdefined, hcalled, hiff⟩ := call_eq_substitute_iff Environment.standard "f"
    ["x", "y"] template [.symbol "y", .symbol "x"] (by decide) rfl
    (by rw [show Environment.standard.registry.overloads "f" = [] from rfl]; simp)
  refine ⟨after, result, hdefined, hcalled, hiff.mpr ?_⟩
  intro index parameter arg hparameter _ hmentions
  match index, hparameter with
  | 0, rfl => exact absurd hmentions (by decide)
  | 1, rfl => exact absurd hmentions (by decide)

/-- A template that spells the alias of its own parameter has that symbol replaced too. -/
theorem call_captures_alias :
    let template := Node.application "list" [.symbol "x", .symbol "x#1"]
    let defined := perform (installOperation "f" [.symbol "x"] template) Environment.standard
    Environment.standard.registry.overloads "f" = [] ∧
    defined.1 = .ok () ∧
    (invoke "f" [.integer 5] defined.2).1 =
      .ok (some (.application "list" [.integer 5, .integer 5])) ∧
    template.substitute (positional ["x"] [.integer 5]) =
      .application "list" [.integer 5, .symbol "x#1"] ∧
    Node.application "list" [.integer 5, .integer 5] ≠
      .application "list" [.integer 5, .symbol "x#1"] :=
  ⟨rfl, rfl, rfl, rfl, by simp [Node.integer]⟩

end Definition

end SymbolicAlgebra
