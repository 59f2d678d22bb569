import SymbolicAlgebra.Proofs.Closed
import SymbolicAlgebra.Proofs.Idempotence

/-! Simplification with the standard operations is sound. Typed expressions are effect-free, so that what
they become is what the relation says: an expression of the same type and value, and the value itself
where nothing is left open. -/

namespace SymbolicAlgebra

variable {normal : Bool} {Γ : String → ValueType} {ρ : String → Value} {τ : ValueType}

theorem Builtin.sound_registry (hρ : ∀ name, (ρ name).type = Γ name) : standard.Sound normal Γ ρ := by
  have htable : ∀ name ∈ chainNames, ∃ entry ∈ chainTypes, entry.1 = name := by
    decide
  refine ⟨fun operation => sound_standard hρ, fun name hcommutative => ?_⟩
  obtain ⟨⟨_, τ⟩, hentry, rfl⟩ := htable name (mem_chainNames_of_commutative hcommutative)
  exact ⟨τ, hentry⟩

/-- The operators of typed expressions have no effects. -/
theorem Typed.effectFree {node : Node} (h : Typed normal Γ node τ) : node.EffectFree := by
  have hnames : ∀ name ∈ Builtin.typedNames, EffectFreeName name := by
    decide
  have hname {name : String} {args : List Node} {τ : ValueType}
      (h : Typed normal Γ (.application name args) τ) : EffectFreeName name :=
    hnames name (Builtin.mem_typedNames h)
  induction h with
  | integer _ _ => exact Node.effectFree_number _
  | boolean p => exact Node.effectFree_boolean p
  | symbol _ => exact Node.effectFree_symbol _
  | chain hchain hlength hargs ih =>
      exact Node.effectFree_application.mpr ⟨hname (.chain hchain hlength hargs), ih⟩
  | unary hunary harg ih =>
      exact Node.effectFree_application.mpr ⟨hname (.unary hunary harg), List.forall_mem_singleton.mpr ih⟩
  | binary hbinary ha hb iha ihb =>
      refine Node.effectFree_application.mpr ⟨hname (.binary hbinary ha hb), ?_⟩
      exact List.forall_mem_cons.mpr ⟨iha, List.forall_mem_singleton.mpr ihb⟩
  | power hpower hbase hlow hhigh ih =>
      refine Node.effectFree_application.mpr ⟨hname (.power hpower hbase hlow hhigh), ?_⟩
      exact List.forall_mem_cons.mpr ⟨ih, List.forall_mem_singleton.mpr (Node.effectFree_number _)⟩

theorem Typed.isLiteral {node : Node} (h : Typed normal Γ node τ) (hvalue : node.IsValue) :
    IsLiteral normal node (meaning ρ node) := by
  rcases hvalue with ⟨a, rfl⟩ | ⟨p, rfl⟩
  · obtain ⟨_, x, hx, hnormal⟩ := h.of_number
    rw [meaning_number ρ hx]
    exact .integer hx hnormal
  · exact .boolean p

/-- **Simplification is sound.** With the standard operations and variables that agree with an assignment
to the symbols, what a typed expression becomes has the same type and the same value, and where all
symbols are bound it is the literal of that value. -/
theorem simplify_sound (normal : Bool) (Γ : String → ValueType) (ρ : String → Value)
    (hρ : ∀ name, (ρ name).type = Γ name) (env : Environment) (hstandard : env.registry = Builtin.standard)
    (hagree : env.bindings.Agree normal Γ ρ) (e : Node) (τ : ValueType) (htyped : Typed normal Γ e τ)
    (r : Node) (after : Environment) (hrun : simplify e env = (.ok r, after)) :
    Typed normal Γ r τ ∧ meaning ρ r = meaning ρ e ∧
      (Closed env.bindings e → IsLiteral normal r (meaning ρ e)) := by
  have hvalues (name : String) (value : Node) (hbound : env.get? name = some value) : value.EffectFree :=
    (hagree name value hbound).1.effectFree
  have hquiet := quiet_of_standard hstandard hvalues
  have hregistry : Builtin.standard.Sound normal Γ ρ := Builtin.sound_registry hρ
  have hcurrent : env.current.registry.Sound normal Γ ρ := by
    rw [show env.current.registry = Builtin.standard from hstandard]
    exact hregistry
  obtain ⟨_, hreduces, _⟩ := (simplify_eq_ok_iff hquiet htyped.effectFree).mp hrun
  obtain ⟨hresult, hmeaning⟩ := hreduces.refines hcurrent hagree τ htyped
  refine ⟨hresult, hmeaning, fun hclosed => ?_⟩
  have hliteral := hreduces.isValue hstandard hregistry hagree htyped hclosed
  exact hmeaning ▸ hresult.isLiteral hliteral

/-- A sum over nested variables leaves the range of words and is promoted. -/
theorem simplify_sound_sum :
    let env := Environment.standard.setBindings
      ⟨[("x", .integer 2), ("y", .application "+" [.symbol "x", .integer 1])]⟩
    let e := Node.application "+"
      [.symbol "y", .application "+" [.symbol "x", .integer (2 ^ 63 - 1)], .symbol "x"]
    let ρ (name : String) := Value.integer (if name = "y" then 3 else 2)
    ∃ r after, simplify e env = (.ok r, after) ∧ Typed true (fun _ => .integer) r .integer ∧
      meaning ρ r = .integer (2 ^ 63 + 6) ∧ IsLiteral true r (.integer (2 ^ 63 + 6)) := by
  intro env e ρ
  have hplus {a b : Node} (ha : Typed true (fun _ => .integer) a .integer)
      (hb : Typed true (fun _ => .integer) b .integer) :
      Typed true (fun _ => .integer) (.application "+" [a, b]) .integer :=
    .chain (by decide) (by simp) (List.forall_mem_cons.mpr ⟨ha, List.forall_mem_singleton.mpr hb⟩)
  have hbound {name : String} {value : Node} (h : env.bindings.get? name = some value) :
      name = "x" ∧ value = .integer 2 ∨ name = "y" ∧ value = .application "+" [.symbol "x", .integer 1] := by
    obtain ⟨front, back, hentries, _⟩ := List.lookup_eq_some_iff.mp h
    have hmem : (name, value) ∈ env.bindings.entries := hentries ▸ List.mem_append_right _ List.mem_cons_self
    simpa [env, Environment.setBindings, Environment.bindings] using hmem
  have hagree : env.bindings.Agree true (fun _ => .integer) ρ := by
    intro name value h
    rcases hbound h with ⟨rfl, rfl⟩ | ⟨rfl, rfl⟩
    · exact ⟨.ofInt 2, by decide⟩
    · exact ⟨hplus (.symbol rfl) (.ofInt 1), by decide⟩
  have htyped : Typed true (fun _ => .integer) e .integer := by
    have hinner : Typed true (fun _ => .integer)
        (.application "+" [.symbol "x", .integer (2 ^ 63 - 1)]) .integer :=
      hplus (.symbol rfl) (.ofInt _)
    refine .chain (by decide) (by decide) ?_
    exact List.forall_mem_cons.mpr
      ⟨.symbol rfl, List.forall_mem_cons.mpr ⟨hinner, List.forall_mem_singleton.mpr (.symbol rfl)⟩⟩
  have hclosed : Closed env.bindings e := by
    have hnames {name : String} (h : name = "x" ∨ name = "y") : env.bindings.get? name ≠ none := by
      rcases h with rfl | rfl <;> exact nofun
    refine .of_bound (fun name h => hnames ?_) fun via value hvia name h => hnames ?_
    · simp only [e, Node.mentions, Node.anyMentions, Node.integer, Bool.or_eq_true, beq_iff_eq] at h
      tauto
    · rcases hbound hvia with ⟨rfl, rfl⟩ | ⟨rfl, rfl⟩
      · cases h
      · simp only [Node.mentions, Node.anyMentions, Node.integer, Bool.or_false, beq_iff_eq] at h
        exact .inl h.symm
  have hmeaning : meaning ρ e = .integer (2 ^ 63 + 6) := by decide
  have hcomputed : (simplify e env).1.toOption.isSome = true := by
    decide +kernel
  rcases hrun : simplify e env with ⟨failure | r, after⟩
  · rw [hrun] at hcomputed
    cases hcomputed
  · obtain ⟨hresult, hsame, hliteral⟩ :=
      simplify_sound true (fun _ => .integer) ρ (fun _ => rfl) env rfl hagree e .integer htyped r after hrun
    rw [hmeaning] at hsame hliteral
    exact ⟨r, after, rfl, hresult, hsame, hliteral hclosed⟩

end SymbolicAlgebra
