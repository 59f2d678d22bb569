import SymbolicAlgebra.Proofs.Equations
import SymbolicAlgebra.Proofs.Frame
import SymbolicAlgebra.Proofs.Statement

/-! Expressions that define nothing leave the environment alone. Nothing else than `define`, `del` and
`set` changes variables and operations or takes numbers from the counter, and no simplification makes up
one of these names. A defer marker only puts a name off, so names count without the markers in front of
them. -/

namespace SymbolicAlgebra

/-- The name without the defer markers in front of it. -/
def bareName (name : String) : String :=
  String.ofList (name.toList.dropWhile (· = deferMarker))

theorem toList_of_deferred {name bare : String} (h : deferred? name = some bare) :
    name.toList = deferMarker :: bare.toList := by
  rw [deferred?] at h
  split at h
  · cases h
  · rename_i first rest hname
    split at h
    · rename_i hmarker
      cases h
      rw [hname, hmarker, String.toList_ofList]
    · cases h

theorem bareName_of_deferred {name bare : String} (h : deferred? name = some bare) :
    bareName bare = bareName name := by
  have hmarker : decide (deferMarker = deferMarker) = true := decide_eq_true rfl
  rw [bareName, bareName, toList_of_deferred h, List.dropWhile_cons, hmarker, if_pos rfl]

/-- All symbols, and the names that define nothing, now or when their markers are gone. -/
def Vocabulary.undefining : Vocabulary where
  symbol _ := True
  name name := bareName name ∉ definingNames

instance : DecidablePred Vocabulary.undefining.symbol := fun _ => .isTrue trivial

instance : DecidablePred Vocabulary.undefining.name := fun name =>
  inferInstanceAs (Decidable (bareName name ∉ definingNames))

theorem Vocabulary.suits_undefining : Vocabulary.undefining.Suits where
  written := by
    show ∀ name ∈ Builtin.writtenNames, bareName name ∉ definingNames
    decide
  labels _ _ _ _ _ := trivial

/-- Standard operations, operations that are defined by equations with templates of the vocabulary, and
values of the vocabulary. -/
structure Scope.ComposedIn (V : Vocabulary) (scope : Scope) : Prop where
  operations : ∀ operation ∈ scope.registry.operations, operation ∈ Builtin.standard.operations ∨
    ∃ (equation : Equation) (issued : Nat), equation.template.Within V ∧ operation = equation.operation issued
  values : ∀ name value, scope.bindings.get? name = some value → value.Within V

theorem Scope.ComposedIn.calm {scope : Scope} (h : scope.ComposedIn .undefining) :
    scope.CalmIn .undefining where
  unmarked name bare hname hmarked := by
    show bareName bare ∉ definingNames
    rw [bareName_of_deferred hmarked]
    exact hname
  operations operation hmem hname := by
    rcases h.operations operation hmem with hstandard | ⟨equation, issued, htemplate, rfl⟩
    · refine Builtin.calm_standard Vocabulary.suits_undefining hstandard hname fun hdefining => hname ?_
      have hbare : ∀ name ∈ definingNames, bareName name = name := by decide
      rw [hbare _ hdefining]
      exact hdefining
    · exact Definition.calm_templateOperation equation.name _ _ htemplate
  values name value _ hvalue := h.values name value hvalue

/-- One environment, with the scope and the counter of `origin`. -/
def Environment.Unmoved (origin left right : Environment) : Prop :=
  Environment.Keeps origin.current left right ∧ left.issued = origin.issued

theorem Environment.pins_unmoved (origin : Environment) : origin.current.Pins origin.Unmoved where
  keeps := And.left
  atDepth _ hunmoved := ⟨⟨rfl, hunmoved.1.2⟩, hunmoved.2⟩
  withEntropy _ hunmoved := ⟨⟨rfl, hunmoved.1.2⟩, hunmoved.2⟩

/-- **Expressions that define nothing leave the environment alone.** With standard operations and
operations defined by equations, if neither the expression nor the values of variables nor the templates
apply `define`, `del` or `set`, with any number of defer markers in front, then a simplification, whether
it succeeds or fails, moves nothing but the source of random doubles. -/
theorem simplify_undefining {env : Environment} {node : Node} (hscope : env.current.ComposedIn .undefining)
    (hnode : node.Within .undefining) :
    (simplify node env).2 = { env with entropy := (simplify node env).2.entropy } := by
  obtain ⟨_, _, ⟨_, hcurrent⟩, hissued⟩ :=
    coupled_simplify (hscope.calm.coupling_of env.pins_unmoved) hnode env env ⟨⟨rfl, rfl⟩, rfl⟩
  obtain ⟨hsnapshots, hbase, hmaxDepth, hdepth⟩ := keepsFrame_simplify node env
  cases hafter : (simplify node env).2
  rw [hafter] at hcurrent hissued hsnapshots hbase hmaxDepth hdepth
  cases env
  congr

/-- A recursive call and a division by zero, both put off: the expression fails, and nothing has moved. -/
theorem simplify_undefining_product :
    let n := Node.symbol "n"
    let product : Equation := ⟨"product", ["n"], .application "if" [.application "==" [n, .integer 0],
      .integer 1, .application "*" [n, .application "product" [.application "-" [n, .integer 1]]]]⟩
    let env := (Environment.standard.set "a" (.application "$product" [.integer 3])).install product
    let node := Node.application "list" [.symbol "a", .application "random" [],
      .application "+" [.application "product" [.integer 2], .application "$/" [.integer 1, .integer 0]]]
    env.current.ComposedIn .undefining ∧ node.Within .undefining ∧
      (simplify node env).1.toOption.isNone ∧
      (simplify node env).2 = { env with entropy := (simplify node env).2.entropy } := by
  intro n product env node
  have hscope : env.current.ComposedIn .undefining := by
    refine ⟨fun operation hmem => ?_, ?_⟩
    · rcases Registry.mem_enter hmem with rfl | hmem
      · exact .inr ⟨product, 0, by decide, rfl⟩
      · exact .inl hmem
    · exact Bindings.forall_get?_set (by decide) nofun
  have hnode : node.Within .undefining := by decide
  exact ⟨hscope, hnode, by decide +kernel, simplify_undefining hscope hnode⟩

end SymbolicAlgebra
