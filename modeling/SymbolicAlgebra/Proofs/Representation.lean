import SymbolicAlgebra.Proofs.Guarded
import SymbolicAlgebra.Proofs.Locality
import SymbolicAlgebra.Proofs.Session

/-! How integers are held over whole runs. If none but narrow nodes are handed in, be it as values, in
definitions or to be simplified, then all values stay narrow, every result is narrow, and no handler ever
sees an argument that is not. Integers in results are therefore equal as nodes when they are equal. -/

namespace SymbolicAlgebra

/-- The edit binds a value, defines a variable or an operation, or has a node simplified, and all that it
hands in is of the kind. -/
def Edit.HandsIn (K : Node → Prop) : Edit → Prop
  | .set _ value => K value
  | .defineVariable _ value => K value
  | .defineOperation _ parameters template => (∀ parameter ∈ parameters, K parameter) ∧ K template
  | .simplify node => K node
  | _ => False

instance (K : Node → Prop) [DecidablePred K] (edit : Edit) : Decidable (edit.HandsIn K) :=
  match edit with
  | .set _ value | .defineVariable _ value | .simplify value => inferInstanceAs (Decidable (K value))
  | .defineOperation _ parameters template =>
    inferInstanceAs (Decidable ((∀ parameter ∈ parameters, K parameter) ∧ K template))
  | .delete _ | .register _ | .remove _ _ | .removeAll _ | .defineKeyword _ | .run _ | .restoreToBase =>
    .isFalse id

/-- The environment that edits lead to from the standard one. -/
def Environment.reached (edits : List Edit) : Environment :=
  edits.foldl Edit.apply .standard

/-! ### Narrow runs -/

theorem Node.narrow_unmarked {name bare : String} {args : List Node} (h : (application name args).Narrow)
    (_ : deferred? name = some bare) : (application bare args).Narrow :=
  narrow_application.mpr (narrow_application.mp h)

theorem Node.narrow_symbol (name : String) : (symbol name).Narrow :=
  everywhere_symbol.mpr trivial

theorem Environment.localOn_standard : standard.LocalOn Node.Narrow where
  values := nofun
  operations _ hmem := Builtin.local_standard Node.narrowKind (fun _ _ _ _ => Node.narrow_symbol _) hmem
    (Node.narrow_application.mpr nofun)

/-- One edit that hands in narrow nodes keeps an environment narrow. -/
theorem Edit.localOn_apply {edit : Edit} (hedit : edit.HandsIn Node.Narrow) {env : Environment}
    (henv : env.LocalOn Node.Narrow) : (edit.apply env).LocalOn Node.Narrow := by
  have hperform {α : Type} {P : α → Prop} {action : Action Operation α} (haction : action.LocalOn Node.Narrow P) :
      (perform action env).2.LocalOn Node.Narrow :=
    henv.perform Node.narrowKind.toKind Node.narrow_unmarked haction
  cases edit with
  | set name value => exact henv.set name hedit
  | defineVariable name value => exact hperform (Definition.local_bindVariable (Node.narrow_symbol name) hedit)
  | defineOperation name parameters template =>
      exact hperform (Definition.local_installOperation Node.narrowKind.toKind name parameters hedit.2)
  | simplify node =>
      exact (simplify_guarded Node.narrowKind.toKind Node.narrow_unmarked henv hedit fun _ => .done none).2.1
  | _ => exact hedit.elim

/-- So does a run of such edits. -/
theorem Environment.localOn_reached {edits : List Edit} (hedits : ∀ edit ∈ edits, edit.HandsIn Node.Narrow) :
    (reached edits).LocalOn Node.Narrow := by
  have hrun (env : Environment) (henv : env.LocalOn Node.Narrow) :
      (edits.foldl Edit.apply env).LocalOn Node.Narrow := by
    induction edits generalizing env with
    | nil => exact henv
    | cons edit rest ih =>
        rw [List.forall_mem_cons] at hedits
        exact ih hedits.2 _ (Edit.localOn_apply hedits.1 henv)
  exact hrun .standard localOn_standard

/-- The node comes of the simplification of a narrow node behind a run of edits that hand in narrow nodes. -/
def Node.ComesOfNarrow (result : Node) : Prop :=
  ∃ (edits : List Edit) (node : Node), (∀ edit ∈ edits, edit.HandsIn Node.Narrow) ∧ node.Narrow ∧
    (simplify node (.reached edits)).1 = .ok result

theorem Node.ComesOfNarrow.narrow {result : Node} (h : result.ComesOfNarrow) : result.Narrow := by
  obtain ⟨edits, node, hedits, hnode, hresult⟩ := h
  have hguarded := simplify_guarded narrowKind.toKind narrow_unmarked (Environment.localOn_reached hedits) hnode
    fun _ => .done none
  exact hguarded.1 result hresult

/-- **Integers that fit in a word are held in one.** From the standard environment, let nodes be bound, defined
and simplified that are all narrow. Then the values before and after any simplification of a narrow node and
its result are narrow, and no handler is given an argument that is not: behind a guard that would carry out
anything at all on such arguments, the simplification does the same. Integers in two such results are
equal nodes exactly when they are equal. -/
theorem simplify_narrow {edits : List Edit} (hedits : ∀ edit ∈ edits, edit.HandsIn Node.Narrow) {node : Node}
    (hnode : node.Narrow) :
    let env := Environment.reached edits
    let after := (simplify node env).2
    Ensures Node.Narrow (simplify node env).1 ∧
      (∀ name value, env.get? name = some value ∨ after.get? name = some value → value.Narrow) ∧
      (∀ refuse, simplify node (env.guarded Node.Narrow refuse) =
        ((simplify node env).1, after.guarded Node.Narrow refuse)) ∧
      ∀ result other : Node, (simplify node env).1 = .ok result → other.ComesOfNarrow →
        ∀ a b, Node.number a ∈ result.subterms → Node.number b ∈ other.subterms →
          ∀ x y, a.toInt? = some x → b.toInt? = some y → (Node.number a == Node.number b ↔ x = y) := by
  intro env after
  have henv : env.LocalOn Node.Narrow := Environment.localOn_reached hedits
  have hrun (refuse : Handler) :=
    simplify_guarded Node.narrowKind.toKind Node.narrow_unmarked henv hnode refuse
  obtain ⟨hresult, hafter, _⟩ := hrun fun _ => .done none
  refine ⟨hresult, ?_, fun refuse => (hrun refuse).2.2, ?_⟩
  · rintro name value (hvalue | hvalue)
    · exact henv.values name value hvalue
    · exact hafter.values name value hvalue
  · intro result other hanswer hother a b ha hb x y hx hy
    exact Number.same_iff_eq_of_toInt? (hresult result hanswer _ ha) (hother.narrow _ hb) hx hy

/-- The guard does see arguments that are not narrow. -/
example : (simplify (.application "list" [.number (.big 1)])
    (Environment.standard.guarded Node.Narrow fun _ => .done (some (.boolean false)))).1.toOption.any
      (· == .boolean false) := by
  decide +kernel

/-- The variable `b` is the first integer beyond the words, and `f(b)` is the last one within them. -/
theorem simplify_narrow_return :
    let edits : List Edit :=
      [.set "a" (.integer 9223372036854775807),
        .defineVariable "b" (.application "+" [.symbol "a", .integer 1]),
        .defineOperation "f" [.symbol "x"] (.application "-" [.symbol "x", .integer 1])]
    let node := Node.application "f" [.symbol "b"]
    let env := Environment.reached edits
    let after := (simplify node env).2
    (∀ edit ∈ edits, edit.HandsIn Node.Narrow) ∧ node.Narrow ∧
      (env.get? "b").any (· == .number (.big 9223372036854775808)) ∧
      (simplify node env).1.toOption.any (· == .number (.small 9223372036854775807)) ∧
      Ensures Node.Narrow (simplify node env).1 ∧
      (∀ name value, env.get? name = some value ∨ after.get? name = some value → value.Narrow) ∧
      (∀ refuse, simplify node (env.guarded Node.Narrow refuse) =
        ((simplify node env).1, after.guarded Node.Narrow refuse)) ∧
      ∀ result other : Node, (simplify node env).1 = .ok result → other.ComesOfNarrow →
        ∀ a b, Node.number a ∈ result.subterms → Node.number b ∈ other.subterms →
          ∀ x y, a.toInt? = some x → b.toInt? = some y → (Node.number a == Node.number b ↔ x = y) := by
  intro edits node env after
  have hedits : ∀ edit ∈ edits, edit.HandsIn Node.Narrow := by decide
  have hnode : node.Narrow := by decide
  exact ⟨hedits, hnode, by decide +kernel, by decide +kernel, simplify_narrow hedits hnode⟩

end SymbolicAlgebra
