import SymbolicAlgebra.Proofs.Meaning
import SymbolicAlgebra.Proofs.Standard
import SymbolicAlgebra.Proofs.Reduction

/-! The standard operators keep types and values. Whatever the handler of an operator offers for typed
arguments is a typed expression of the same type and the same value as the application, whether it
computes with literals, applies an identity or decides a connective by one side. -/

namespace SymbolicAlgebra

/-- Where `node` is typed, `other` is an expression of the same type and value. -/
def Refines (normal : Bool) (Γ : String → ValueType) (ρ : String → Value) (node other : Node) : Prop :=
  ∀ τ, Typed normal Γ node τ → Typed normal Γ other τ ∧ meaning ρ other = meaning ρ node

namespace Refines

variable {normal : Bool} {Γ : String → ValueType} {ρ : String → Value} {a b c : Node}

theorem refl (node : Node) : Refines normal Γ ρ node node :=
  fun _ h => ⟨h, rfl⟩

theorem trans (hab : Refines normal Γ ρ a b) (hbc : Refines normal Γ ρ b c) : Refines normal Γ ρ a c := by
  intro τ h
  obtain ⟨hb, hvalue⟩ := hab τ h
  obtain ⟨hc, hvalue'⟩ := hbc τ hb
  exact ⟨hc, hvalue'.trans hvalue⟩

end Refines

/-! ### Taking typed expressions apart -/

/-- The operators of two arguments, chains among them: the type of the arguments and that of the value. -/
def pairTypes : List (String × ValueType × ValueType) :=
  ("^", .integer, .integer) :: (chainTypes.map fun entry => (entry.1, entry.2, entry.2)) ++ binaryTypes

namespace Typed

variable {normal : Bool} {Γ : String → ValueType} {τ : ValueType}

theorem of_number {a : Number} (h : Typed normal Γ (.number a) τ) :
    τ = .integer ∧ ∃ x, a.toInt? = some x ∧ (normal → a = .ofInt x) := by
  cases h with
  | integer hvalue hnormal => exact ⟨rfl, _, hvalue, hnormal⟩

theorem of_boolean {p : Bool} (h : Typed normal Γ (.boolean p) τ) : τ = .boolean := by
  cases h
  rfl

theorem of_unary {name : String} {arg : Node} (h : Typed normal Γ (.application name [arg]) τ) :
    (name, τ) ∈ unaryTypes ∧ Typed normal Γ arg τ := by
  cases h with
  | unary hname harg => exact ⟨hname, harg⟩
  | chain _ hlength _ => exact absurd hlength (by simp)

theorem of_pair {name : String} {a b : Node} (h : Typed normal Γ (.application name [a, b]) τ) :
    ∃ σ, (name, σ, τ) ∈ pairTypes ∧ Typed normal Γ a σ ∧ Typed normal Γ b σ := by
  cases h with
  | chain hname _ hargs =>
      refine ⟨τ, ?_, hargs a (by simp), hargs b (by simp)⟩
      exact List.mem_append_left _ (List.mem_cons_of_mem _ (List.mem_map.mpr ⟨_, hname, rfl⟩))
  | @binary _ _ _ σ _ hname ha hb => exact ⟨σ, List.mem_append_right _ hname, ha, hb⟩
  | power hname hbase hlow hhigh =>
      rw [hname]
      exact ⟨.integer, by decide, hbase, .integer rfl fun _ => (Number.ofInt_toInt _).symm⟩

theorem of_power {base exponent : Node} (h : Typed normal Γ (.application "^" [base, exponent]) τ) :
    τ = .integer ∧ Typed normal Γ base .integer ∧
      ∃ e : Int64, exponent = .number (.small e) ∧ 0 ≤ e.toInt ∧ e.toInt < 2 ^ 32 := by
  generalize hname : "^" = name at h
  cases h with
  | chain hmem => simp [← hname, chainTypes] at hmem
  | binary hmem => simp [← hname, binaryTypes] at hmem
  | power _ hbase hlow hhigh => exact ⟨rfl, hbase, _, rfl, hlow, hhigh⟩

theorem ofInt (x : Int) : Typed normal Γ (.number (.ofInt x)) .integer :=
  .integer (Number.toInt?_ofInt x) fun _ => rfl

theorem integer_of_isValue {node : Node} (h : Typed normal Γ node .integer) (hvalue : node.IsValue) :
    ∃ a x, node = .number a ∧ a.toInt? = some x := by
  rcases hvalue with ⟨a, rfl⟩ | ⟨p, rfl⟩
  · obtain ⟨_, x, hx, _⟩ := h.of_number
    exact ⟨a, x, rfl, hx⟩
  · cases h

theorem boolean_of_isValue {node : Node} (h : Typed normal Γ node .boolean) (hvalue : node.IsValue) :
    ∃ p, node = .boolean p := by
  rcases hvalue with ⟨a, rfl⟩ | ⟨p, rfl⟩
  · cases h
  · exact ⟨p, rfl⟩

/-- A typed expression without symbols and applications is a number or a boolean. -/
theorem isValue_of_isGround {node : Node} (h : Typed normal Γ node τ) (hground : node.isGround) :
    node.IsValue := by
  cases h with
  | integer _ _ => exact .inl ⟨_, rfl⟩
  | boolean p => exact .inr ⟨p, rfl⟩
  | symbol _ => simp [Node.isGround] at hground
  | chain _ _ _ => simp [Node.isGround] at hground
  | unary _ _ => simp [Node.isGround] at hground
  | binary _ _ _ => simp [Node.isGround] at hground
  | power _ _ _ _ => simp [Node.isGround] at hground

/-- The value of a typed expression has its type. -/
theorem type_meaning {ρ : String → Value} (hρ : ∀ name, (ρ name).type = Γ name) {node : Node}
    (h : Typed normal Γ node τ) : (meaning ρ node).type = τ := by
  cases h with
  | integer _ _ => rfl
  | boolean p => rfl
  | symbol hname => exact (hρ _).trans hname
  | chain hname _ _ =>
      rcases chain_cases hname with ⟨rfl, rfl⟩ | ⟨rfl, rfl⟩ | ⟨rfl, rfl⟩ | ⟨rfl, rfl⟩ <;> rfl
  | unary hname _ =>
      simp only [unaryTypes, List.mem_cons, Prod.mk.injEq, List.not_mem_nil, or_false] at hname
      rcases hname with ⟨rfl, rfl⟩ | ⟨rfl, rfl⟩ <;> rfl
  | binary hname _ _ =>
      simp only [binaryTypes, List.mem_cons, Prod.mk.injEq, List.not_mem_nil, or_false] at hname
      rcases hname with ⟨rfl, rfl, rfl⟩ | ⟨rfl, rfl, rfl⟩ | ⟨rfl, rfl, rfl⟩ | ⟨rfl, rfl, rfl⟩ |
        ⟨rfl, rfl, rfl⟩ | ⟨rfl, rfl, rfl⟩ | ⟨rfl, rfl, rfl⟩ | ⟨rfl, rfl, rfl⟩ | ⟨rfl, rfl, rfl⟩ |
        ⟨rfl, rfl, rfl⟩ <;> rfl
  | power hname _ _ _ =>
      rw [hname]
      rfl

end Typed

theorem Value.eq_integer {v : Value} (h : v.type = .integer) : v = .integer v.toInt := by
  cases v with
  | integer x => rfl
  | boolean p => cases h

theorem Value.eq_boolean {v : Value} (h : v.type = .boolean) : v = .boolean v.toBool := by
  cases v with
  | integer x => cases h
  | boolean p => rfl

theorem meaning_ofInt (ρ : String → Value) (x : Int) : meaning ρ (.number (.ofInt x)) = .integer x := by
  rw [meaning, Number.toInt?_ofInt, Option.getD_some]

theorem meaning_number (ρ : String → Value) {a : Number} {x : Int} (h : a.toInt? = some x) :
    meaning ρ (.number a) = .integer x := by
  rw [meaning, h, Option.getD_some]

/-- Lists that are the same part by part have the same values. -/
theorem meanings_eq_of_allSame (ρ : String → Value) {xs ys : List Node}
    (hparts : ∀ x ∈ xs, ∀ y, x.same y → meaning ρ x = meaning ρ y) (h : Node.allSame xs ys) :
    meanings ρ xs = meanings ρ ys := by
  induction xs generalizing ys with
  | nil =>
      cases ys with
      | nil => rfl
      | cons y ys => simp [Node.allSame] at h
  | cons x xs ih =>
      cases ys with
      | nil => simp [Node.allSame] at h
      | cons y ys =>
          rw [Node.allSame, Bool.and_eq_true] at h
          rw [List.forall_mem_cons] at hparts
          rw [meanings, meanings, hparts.1 y h.1, ih hparts.2 h.2]

/-- Nodes that are the same have the same value. -/
theorem meaning_eq_of_same (ρ : String → Value) {a b : Node} (h : a == b) : meaning ρ a = meaning ρ b := by
  change a.same b = true at h
  induction a using Node.inductionOn generalizing b with
  | number x =>
      cases b with
      | number y =>
          rw [Node.same] at h
          rw [meaning, meaning, Number.toInt?_eq_of_same h]
      | _ => simp [Node.same] at h
  | symbol x =>
      cases b with
      | symbol y =>
          rw [Node.same, beq_iff_eq] at h
          rw [h]
      | _ => simp [Node.same] at h
  | boolean p =>
      cases b with
      | boolean q =>
          rw [Node.same, beq_iff_eq] at h
          rw [h]
      | _ => simp [Node.same] at h
  | application f xs ih =>
      cases b with
      | application g ys =>
          rw [Node.same, Bool.and_eq_true, beq_iff_eq] at h
          rw [meaning, meaning, h.1, meanings_eq_of_allSame ρ (fun x hx y => ih x hx) h.2]
      | _ => simp [Node.same] at h
  | pair first second _ _ =>
      cases b with
      | pair _ _ => rfl
      | _ => simp [Node.same] at h
  | sequence xs _ =>
      cases b with
      | sequence _ => rfl
      | _ => simp [Node.same] at h

namespace Builtin

variable {normal : Bool} {Γ : String → ValueType} {ρ : String → Value} {a b offer : Node}

theorem meaning_of_isZero (ha : Typed normal Γ a .integer) (h : isZero a) : meaning ρ a = .integer 0 := by
  cases a with
  | number x =>
      obtain ⟨_, value, hvalue, _⟩ := ha.of_number
      have hzero : value = 0 := (Number.isZero_iff hvalue).mp h
      rw [meaning_number ρ hvalue, hzero]
  | _ => cases h

theorem meaning_of_isOne (ha : Typed normal Γ a .integer) (h : isOne a) : meaning ρ a = .integer 1 := by
  cases a with
  | number x =>
      obtain ⟨_, value, hvalue, _⟩ := ha.of_number
      have hone : value = 1 := (Number.isOne_iff hvalue).mp h
      rw [meaning_number ρ hvalue, hone]
  | _ => cases h

/-- An operator of two arguments that takes and gives one type each. -/
theorem refines_of_types {name : String} (σ τ : ValueType)
    (hname : ∀ entry ∈ pairTypes, entry.1 = name → entry.2 = (σ, τ))
    (h : Typed normal Γ a σ → Typed normal Γ b σ →
      Typed normal Γ offer τ ∧ meaning ρ offer = .apply name [meaning ρ a, meaning ρ b]) :
    Refines normal Γ ρ (.application name [a, b]) offer := by
  intro τ' happlication
  obtain ⟨σ', hmem, ha, hb⟩ := happlication.of_pair
  have htypes := hname _ hmem rfl
  cases htypes
  rw [meaning_application]
  exact h ha hb

variable (hρ : ∀ name, (ρ name).type = Γ name)
include hρ

theorem refines_addIdentity (h : addIdentity a b = some offer) :
    Refines normal Γ ρ (.application "+" [a, b]) offer := by
  refine refines_of_types .integer .integer (by decide) fun ha hb => ?_
  have hvalueA := Value.eq_integer (ha.type_meaning hρ)
  have hvalueB := Value.eq_integer (hb.type_meaning hρ)
  rw [addIdentity] at h
  split_ifs at h with hzeroA hzeroB
  · cases h
    refine ⟨hb, ?_⟩
    rw [meaning_of_isZero ha hzeroA, hvalueB]
    simp [Value.apply, Value.toInt]
  · cases h
    refine ⟨ha, ?_⟩
    rw [meaning_of_isZero hb hzeroB, hvalueA]
    simp [Value.apply, Value.toInt]

theorem refines_mulIdentity (h : mulIdentity a b = some offer) :
    Refines normal Γ ρ (.application "*" [a, b]) offer := by
  refine refines_of_types .integer .integer (by decide) fun ha hb => ?_
  have hvalueA := Value.eq_integer (ha.type_meaning hρ)
  have hvalueB := Value.eq_integer (hb.type_meaning hρ)
  rw [mulIdentity] at h
  split_ifs at h with hzeroA hzeroB honeA honeB
  · cases h
    refine ⟨ha, ?_⟩
    rw [meaning_of_isZero ha hzeroA, hvalueB]
    simp [Value.apply, Value.toInt]
  · cases h
    refine ⟨hb, ?_⟩
    rw [meaning_of_isZero hb hzeroB, hvalueA]
    simp [Value.apply, Value.toInt]
  · cases h
    refine ⟨hb, ?_⟩
    rw [meaning_of_isOne ha honeA, hvalueB]
    simp [Value.apply, Value.toInt]
  · cases h
    refine ⟨ha, ?_⟩
    rw [meaning_of_isOne hb honeB, hvalueA]
    simp [Value.apply, Value.toInt]

theorem refines_subIdentity (h : subIdentity a b = some offer) :
    Refines normal Γ ρ (.application "-" [a, b]) offer := by
  refine refines_of_types .integer .integer (by decide) fun ha hb => ?_
  have hvalueA := Value.eq_integer (ha.type_meaning hρ)
  have hvalueB := Value.eq_integer (hb.type_meaning hρ)
  rw [subIdentity] at h
  split_ifs at h with hsame hzeroB hzeroA
  · cases h
    refine ⟨.ofInt 0, ?_⟩
    rw [Node.integer, meaning_ofInt, meaning_eq_of_same ρ hsame]
    simp [Value.apply]
  · cases h
    refine ⟨ha, ?_⟩
    rw [meaning_of_isZero hb hzeroB, hvalueA]
    simp [Value.apply, Value.toInt]
  · cases h
    refine ⟨.unary (by decide) hb, ?_⟩
    rw [meaning_application, List.map_singleton, meaning_of_isZero ha hzeroA]
    simp [Value.apply, Value.toInt]

theorem refines_powIdentity (h : powIdentity a b = some offer) :
    Refines normal Γ ρ (.application "^" [a, b]) offer := by
  refine refines_of_types .integer .integer (by decide) fun ha hb => ?_
  have hvalueA := Value.eq_integer (ha.type_meaning hρ)
  rw [powIdentity] at h
  split_ifs at h with honeB hzeroB
  · cases h
    refine ⟨ha, ?_⟩
    rw [meaning_of_isOne hb honeB, hvalueA]
    simp [Value.apply, Value.toInt]
  · cases h
    refine ⟨.ofInt 1, ?_⟩
    rw [Node.integer, meaning_ofInt, meaning_of_isZero hb hzeroB]
    simp [Value.apply, Value.toInt]

/-- An operator that undoes itself. -/
theorem refines_unwrap {name : String} {arg : Node}
    (hname : name = "negate" ∨ name = "not") (h : unwrap name arg = some offer) :
    Refines normal Γ ρ (.application name [arg]) offer := by
  intro τ happlication
  obtain ⟨hmem, harg⟩ := happlication.of_unary
  cases arg with
  | application inner args =>
      match args with
      | [part] =>
          rw [unwrap] at h
          split_ifs at h with hsame
          cases h
          rw [hsame] at harg ⊢
          obtain ⟨_, hpart⟩ := harg.of_unary
          refine ⟨hpart, ?_⟩
          have htype := hpart.type_meaning hρ
          rw [meaning_application, List.map_singleton, meaning_application, List.map_singleton]
          rcases hname with rfl | rfl
          · obtain rfl : τ = .integer := by simpa [unaryTypes] using hmem
            rw [Value.eq_integer htype]
            simp [Value.apply, Value.toInt]
          · obtain rfl : τ = .boolean := by simpa [unaryTypes] using hmem
            rw [Value.eq_boolean htype]
            simp [Value.apply, Value.toBool]
      | [] => cases h
      | _ :: _ :: _ => cases h
  | _ => cases h

/-- A connective that is decided by one side, or left to the other. -/
theorem refines_shortCircuit {name : String} {absorbing : Bool}
    (hname : (name, absorbing) ∈ [("and", false), ("or", true)]) (h : shortCircuit absorbing a b = some offer) :
    Refines normal Γ ρ (.application name [a, b]) offer := by
  have htypes : ∀ entry ∈ pairTypes, entry.1 = name → entry.2 = (.boolean, .boolean) := by
    simp only [List.mem_cons, Prod.mk.injEq, List.not_mem_nil, or_false] at hname
    rcases hname with ⟨rfl, _⟩ | ⟨rfl, _⟩ <;> decide
  have happly (p q : Bool) : Value.apply name [.boolean p, .boolean q] =
      .boolean (if p = absorbing then absorbing else q) := by
    simp only [List.mem_cons, Prod.mk.injEq, List.not_mem_nil, or_false] at hname
    rcases hname with ⟨rfl, rfl⟩ | ⟨rfl, rfl⟩ <;> revert p q <;> decide
  have hcomm (p q : Bool) : (if p = absorbing then absorbing else q) =
      if q = absorbing then absorbing else p := by
    clear happly h hname
    revert p q absorbing
    decide
  refine refines_of_types .boolean .boolean htypes fun ha hb => ?_
  have hvalueA := Value.eq_boolean (ha.type_meaning hρ)
  have hvalueB := Value.eq_boolean (hb.type_meaning hρ)
  rw [hvalueA, hvalueB, happly]
  unfold shortCircuit at h
  split at h
  · cases h
    exact ⟨.boolean _, rfl⟩
  · cases h
    rename_i p _
    rw [show (meaning ρ (.boolean p)).toBool = p from rfl]
    by_cases hp : p = absorbing
    · rw [if_pos hp, if_pos hp]
      exact ⟨.boolean _, rfl⟩
    · rw [if_neg hp, if_neg hp]
      exact ⟨hb, hvalueB⟩
  · cases h
    rename_i q _
    rw [hcomm, show (meaning ρ (.boolean q)).toBool = q from rfl]
    by_cases hq : q = absorbing
    · rw [if_pos hq, if_pos hq]
      exact ⟨.boolean _, rfl⟩
    · rw [if_neg hq, if_neg hq]
      exact ⟨ha, hvalueA⟩
  · cases h

theorem refines_xorIdentity (h : xorIdentity a b = some offer) :
    Refines normal Γ ρ (.application "xor" [a, b]) offer := by
  refine refines_of_types .boolean .boolean (by decide) fun ha hb => ?_
  have hvalueA := Value.eq_boolean (ha.type_meaning hρ)
  have hvalueB := Value.eq_boolean (hb.type_meaning hρ)
  unfold xorIdentity at h
  split at h
  · cases h
    refine ⟨hb, ?_⟩
    rw [hvalueB]
    simp [meaning, Value.apply, Value.toBool]
  · cases h
    refine ⟨ha, ?_⟩
    rw [hvalueA]
    simp [meaning, Value.apply, Value.toBool]
  · cases h
    refine ⟨.unary (by decide) hb, ?_⟩
    rw [meaning_application, List.map_singleton, hvalueB]
    simp [meaning, Value.apply, Value.toBool]
  · cases h
    refine ⟨.unary (by decide) ha, ?_⟩
    rw [meaning_application, List.map_singleton, hvalueA]
    simp [meaning, Value.apply, Value.toBool]
  · cases h

omit hρ in
theorem eq_of_number? {node : Node} {x : Number} (h : node.number? = some x) : node = .number x := by
  cases node with
  | number y =>
      cases h
      rfl
  | _ => cases h

omit hρ in
/-- The comparison of two integers says whether they have the same value. -/
theorem meaning_eq_of_compare {σ : ValueType} {x y : Number} (hx : Typed normal Γ (.number x) σ)
    (hy : Typed normal Γ (.number y) σ) {equal : Bool}
    (h : (x.compare? y).map (· == .eq) = some equal) :
    equal = decide (meaning ρ (.number x) = meaning ρ (.number y)) := by
  obtain ⟨_, i, hi, _⟩ := hx.of_number
  obtain ⟨_, j, hj, _⟩ := hy.of_number
  rw [Number.compare?_eq, hi, hj] at h
  cases h
  rw [meaning_number ρ hi, meaning_number ρ hj, Bool.eq_iff_iff, beq_iff_eq, decide_eq_true_iff,
    Std.LawfulEqOrd.compare_eq_iff_eq, Value.integer.injEq]

omit hρ in
/-- Whether two nodes are equal is decided by their values. -/
theorem decideEquality_eq {σ : ValueType} (ha : Typed normal Γ a σ) (hb : Typed normal Γ b σ)
    {equal : Bool} (h : decideEquality a b = some equal) :
    equal = decide (meaning ρ a = meaning ρ b) := by
  rw [decideEquality] at h
  split at h
  · rename_i hsame
    cases h
    exact (decide_eq_true (meaning_eq_of_same ρ hsame)).symm
  · rename_i hsame
    split at h
    · rename_i x y hx hy
      rw [eq_of_number? hx] at ha ⊢
      rw [eq_of_number? hy] at hb ⊢
      exact meaning_eq_of_compare ha hb h
    · rename_i hnumbers
      split_ifs at h with hground
      cases h
      rw [Bool.and_eq_true] at hground
      have hvalueA := ha.isValue_of_isGround hground.1
      have hvalueB := hb.isValue_of_isGround hground.2
      cases σ with
      | integer =>
          obtain ⟨x, _, rfl, _⟩ := ha.integer_of_isValue hvalueA
          obtain ⟨y, _, rfl, _⟩ := hb.integer_of_isValue hvalueB
          exact (hnumbers x y rfl rfl).elim
      | boolean =>
          obtain ⟨p, rfl⟩ := ha.boolean_of_isValue hvalueA
          obtain ⟨q, rfl⟩ := hb.boolean_of_isValue hvalueB
          have hdifferent : p ≠ q := by
            rintro rfl
            exact hsame (by simp [BEq.beq, Node.same])
          simp [meaning, hdifferent]

/-! ### What the handlers compute -/

section Handlers

variable {R : Node → Node → Prop}

omit hρ

theorem eq_of_asNumber {node : Node} {x : Number} (h : node.asNumber = .ok x) : node = .number x := by
  cases node with
  | number y =>
      cases h
      rfl
  | _ => cases h

theorem eq_of_asBoolean {node : Node} {p : Bool} (h : node.asBoolean = .ok p) : node = .boolean p := by
  cases node with
  | boolean q =>
      cases h
      rfl
  | _ => cases h

theorem answers_onNumbers {compute : Number → Number → Except Failure Number} {outcome : Option Node}
    (h : (onNumbers compute a b).Answers R outcome) :
    ∃ x y r, a = .number x ∧ b = .number y ∧ compute x y = .ok r ∧ outcome = some (.number r) := by
  obtain ⟨x, hx, h⟩ := Action.Answers.of_bind h
  obtain ⟨y, hy, h⟩ := Action.Answers.of_bind h
  obtain ⟨r, hr, h⟩ := Action.Answers.of_bind h
  exact ⟨x, y, r, eq_of_asNumber hx.of_ofExcept, eq_of_asNumber hy.of_ofExcept, hr.of_ofExcept, h.of_done⟩

theorem answers_ordering {test : Ordering → Bool} {outcome : Option Node}
    (h : (ordering test a b).Answers R outcome) :
    ∃ x y, a = .number x ∧ b = .number y ∧
      outcome = (x.compare? y).map fun order => .boolean (test order) := by
  obtain ⟨x, hx, h⟩ := Action.Answers.of_bind h
  obtain ⟨y, hy, h⟩ := Action.Answers.of_bind h
  exact ⟨x, y, eq_of_asNumber hx.of_ofExcept, eq_of_asNumber hy.of_ofExcept, h.of_done⟩

theorem answers_onBooleans {compute : Bool → Bool → Bool} {outcome : Option Node}
    (h : (onBooleans compute a b).Answers R outcome) :
    ∃ p q, a = .boolean p ∧ b = .boolean q ∧ outcome = some (.boolean (compute p q)) := by
  obtain ⟨p, hp, h⟩ := Action.Answers.of_bind h
  obtain ⟨q, hq, h⟩ := Action.Answers.of_bind h
  exact ⟨p, q, eq_of_asBoolean hp.of_ofExcept, eq_of_asBoolean hq.of_ofExcept, h.of_done⟩

end Handlers

/-! ### Every standard operation -/

/-- The names that a typed application can have. -/
def typedNames : List String :=
  pairTypes.map Prod.fst ++ unaryTypes.map Prod.fst

omit hρ in
theorem mem_typedNames {name : String} {args : List Node} {τ : ValueType}
    (h : Typed normal Γ (.application name args) τ) : name ∈ typedNames := by
  have hpair {σ : ValueType} (hmem : (name, σ, τ) ∈ pairTypes) : name ∈ typedNames :=
    List.mem_append_left _ (List.mem_map.mpr ⟨_, hmem, rfl⟩)
  cases h with
  | chain hname _ _ =>
      exact hpair (List.mem_append_left _ (List.mem_cons_of_mem _ (List.mem_map.mpr ⟨_, hname, rfl⟩)))
  | unary hname _ => exact List.mem_append_right _ (List.mem_map.mpr ⟨_, hname, rfl⟩)
  | binary hname _ _ => exact hpair (List.mem_append_right _ hname)
  | power hname _ _ _ =>
      rw [hname]
      decide

end Builtin

/-- What the handler offers for typed arguments has the type and the value of the application. -/
def Operation.Sound (normal : Bool) (Γ : String → ValueType) (ρ : String → Value)
    (operation : Operation) : Prop :=
  ∀ R args outcome, (operation.handler args).Answers R outcome →
    ∀ offer ∈ outcome, Refines normal Γ ρ (.application operation.name args) offer

namespace Operation

variable {normal : Bool} {Γ : String → ValueType} {ρ : String → Value}

theorem sound_of_untyped {operation : Operation} (h : operation.name ∉ Builtin.typedNames) :
    operation.Sound normal Γ ρ :=
  fun _ _ _ _ _ _ _ happlication => (h (Builtin.mem_typedNames happlication)).elim

theorem sound_unary {name : String} {parameter : Parameter}
    {handler : Node → Action Operation (Option Node)}
    (h : ∀ R a offer, (handler a).Answers R (some offer) → Refines normal Γ ρ (.application name [a]) offer) :
    (unary name parameter handler).Sound normal Γ ρ := by
  rintro R args _ hanswers offer rfl
  match args, hanswers with
  | [a], hanswers => exact h R a offer hanswers
  | [], hanswers => cases hanswers
  | _ :: _ :: _, hanswers => cases hanswers

theorem sound_binary {name : String} {first second : Parameter}
    {handler : Node → Node → Action Operation (Option Node)}
    (h : ∀ R a b offer, (handler a b).Answers R (some offer) →
      Refines normal Γ ρ (.application name [a, b]) offer) :
    (binary name first second handler).Sound normal Γ ρ := by
  rintro R args _ hanswers offer rfl
  match args, hanswers with
  | [a, b], hanswers => exact h R a b offer hanswers
  | [], hanswers => cases hanswers
  | [_], hanswers => cases hanswers
  | _ :: _ :: _ :: _, hanswers => cases hanswers

theorem sound_pure {name : String} {first second : Parameter} {offered : Node → Node → Option Node}
    (h : ∀ a b offer, offered a b = some offer → Refines normal Γ ρ (.application name [a, b]) offer) :
    (binary name first second fun a b => .done (offered a b)).Sound normal Γ ρ :=
  sound_binary fun _ a b offer hanswers => h a b offer hanswers.of_done.symm

theorem Sound.commutative {operation : Operation} (h : operation.Sound normal Γ ρ) :
    operation.commutative.Sound normal Γ ρ := h

theorem Sound.forwardCommutative {operation : Operation} (h : operation.Sound normal Γ ρ) :
    operation.forwardCommutative.Sound normal Γ ρ := h

/-- An operator on integers whose result is an exact integer. -/
theorem sound_onNumbers {name : String} {compute : Number → Number → Except Failure Number}
    (hname : ∀ entry ∈ pairTypes, entry.1 = name → entry.2 = (.integer, .integer))
    (h : ∀ a b x y r, Typed normal Γ (.application name [.number a, .number b]) .integer →
      a.toInt? = some x → b.toInt? = some y → compute a b = .ok r →
      ∃ z, r = .ofInt z ∧ Value.apply name [.integer x, .integer y] = .integer z) :
    (binary name .number .number (Builtin.onNumbers compute)).Sound normal Γ ρ := by
  refine sound_binary fun R a b offer hanswers => ?_
  obtain ⟨a, b, r, rfl, rfl, hr, hoffer⟩ := Builtin.answers_onNumbers hanswers
  cases hoffer
  intro τ happlication
  obtain ⟨σ, hmem, ha, hb⟩ := happlication.of_pair
  have htypes := hname _ hmem rfl
  cases htypes
  obtain ⟨_, x, hx, _⟩ := ha.of_number
  obtain ⟨_, y, hy, _⟩ := hb.of_number
  obtain ⟨z, rfl, hvalue⟩ := h a b x y r happlication hx hy hr
  refine ⟨.ofInt z, ?_⟩
  calc
    meaning ρ (.number (.ofInt z))
    _ = .integer z := meaning_ofInt ρ z
    _ = .apply name [.integer x, .integer y] := hvalue.symm
    _ = meaning ρ (.application name [.number a, .number b]) := by
      rw [meaning_application, List.map_cons, List.map_singleton, meaning_number ρ hx, meaning_number ρ hy]

/-- A comparison of integers that tests their order. -/
theorem sound_ordering {name : String} {test : Ordering → Bool}
    (hname : ∀ entry ∈ pairTypes, entry.1 = name → entry.2 = (.integer, .boolean))
    (h : ∀ x y : Int, Value.apply name [.integer x, .integer y] = .boolean (test (compare x y))) :
    (binary name .number .number (Builtin.ordering test)).Sound normal Γ ρ := by
  refine sound_binary fun R a b offer hanswers => ?_
  obtain ⟨a, b, rfl, rfl, hoffer⟩ := Builtin.answers_ordering hanswers
  refine Builtin.refines_of_types .integer .boolean hname fun ha hb => ?_
  obtain ⟨_, x, hx, _⟩ := ha.of_number
  obtain ⟨_, y, hy, _⟩ := hb.of_number
  rw [Number.compare?_eq, hx, hy] at hoffer
  cases hoffer
  refine ⟨.boolean _, ?_⟩
  rw [meaning_number ρ hx, meaning_number ρ hy, h]
  rfl

/-- A connective on two booleans. -/
theorem sound_onBooleans {name : String} {compute : Bool → Bool → Bool}
    (hname : ∀ entry ∈ pairTypes, entry.1 = name → entry.2 = (.boolean, .boolean))
    (h : ∀ p q, Value.apply name [.boolean p, .boolean q] = .boolean (compute p q)) :
    (binary name .boolean .boolean (Builtin.onBooleans compute)).Sound normal Γ ρ := by
  refine sound_binary fun R a b offer hanswers => ?_
  obtain ⟨p, q, rfl, rfl, hoffer⟩ := Builtin.answers_onBooleans hanswers
  cases hoffer
  exact Builtin.refines_of_types .boolean .boolean hname fun _ _ => ⟨.boolean _, (h p q).symm⟩

end Operation

namespace Builtin

open Operation

variable {normal : Bool} {Γ : String → ValueType} {ρ : String → Value}
  (hρ : ∀ name, (ρ name).type = Γ name)
include hρ

theorem sound_arithmetic : ∀ operation ∈ arithmetic, operation.Sound normal Γ ρ := by
  simp only [arithmetic, List.forall_mem_cons, List.not_mem_nil, false_implies, implies_true, and_true]
  refine ⟨(sound_onNumbers (by decide) ?_).commutative,
    (sound_pure fun _ _ _ => refines_addIdentity hρ).commutative,
    (sound_onNumbers (by decide) ?_).commutative,
    (sound_pure fun _ _ _ => refines_mulIdentity hρ).commutative,
    (sound_onNumbers (by decide) ?_).forwardCommutative,
    (sound_pure fun _ _ _ => refines_subIdentity hρ).forwardCommutative,
    sound_of_untyped (by decide), sound_of_untyped (by decide), sound_of_untyped (by decide),
    sound_onNumbers (by decide) ?_, sound_pure fun _ _ _ => refines_powIdentity hρ, ?_, ?_,
    sound_of_untyped (by decide)⟩
  · rintro a b x y r _ hx hy ⟨⟩
    exact ⟨_, Number.add_eq_ofInt hx hy, by simp [Value.apply, Value.toInt]⟩
  · rintro a b x y r _ hx hy ⟨⟩
    exact ⟨_, Number.mul_eq_ofInt hx hy, by simp [Value.apply, Value.toInt]⟩
  · rintro a b x y r _ hx hy ⟨⟩
    exact ⟨_, Number.sub_eq_ofInt hx hy, rfl⟩
  · intro a b x y r happlication hx hy hr
    obtain ⟨_, _, e, hb, hlow, hhigh⟩ := happlication.of_power
    cases hb
    cases hy
    exact ⟨_, Number.eq_ofInt_of_pow hx hlow hhigh hr, rfl⟩
  · refine sound_unary fun R a offer hanswers τ happlication => ?_
    obtain ⟨a', ha, hdone⟩ := Action.Answers.of_bind hanswers
    cases eq_of_asNumber ha.of_ofExcept
    cases hdone.of_done
    obtain ⟨hmem, harg⟩ := happlication.of_unary
    obtain ⟨rfl, x, hx, _⟩ := harg.of_number
    rw [Number.neg_eq_ofInt hx]
    refine ⟨.ofInt _, ?_⟩
    calc
      meaning ρ (.number (.ofInt (-x)))
      _ = .integer (-x) := meaning_ofInt ρ (-x)
      _ = .apply "negate" [.integer x] := rfl
      _ = meaning ρ (.application "negate" [.number a']) := by
        rw [meaning_application, List.map_singleton, meaning_number ρ hx]
  · exact sound_unary fun R a offer hanswers => refines_unwrap hρ (.inl rfl) hanswers.of_done.symm

omit hρ in
/-- Equality and its opposite are decided by value. -/
theorem refines_equality {name : String} (answer : Bool → Bool) {a b offer : Node}
    (hname : ∀ entry ∈ pairTypes, entry.1 = name → entry.2.2 = .boolean)
    (hvalue : ∀ v w, Value.apply name [v, w] = .boolean (answer (decide (v = w))))
    (h : (decideEquality a b).map (fun equal => .boolean (answer equal)) = some offer) :
    Refines normal Γ ρ (.application name [a, b]) offer := by
  intro τ happlication
  obtain ⟨σ, hmem, ha, hb⟩ := happlication.of_pair
  obtain rfl : τ = .boolean := hname _ hmem rfl
  obtain ⟨equal, hequal, rfl⟩ := Option.map_eq_some_iff.mp h
  refine ⟨.boolean _, ?_⟩
  rw [meaning_application, List.map_cons, List.map_singleton, hvalue, decideEquality_eq ha hb hequal]
  rfl

omit hρ in
theorem sound_comparison : ∀ operation ∈ comparison, operation.Sound normal Γ ρ := by
  have hcompare (x y : Int) :
      x < y ∧ compare x y = .lt ∨ x = y ∧ compare x y = .eq ∨ y < x ∧ compare x y = .gt := by
    rcases Int.lt_trichotomy x y with h | h | h
    · exact .inl ⟨h, Std.compare_eq_lt.mpr h⟩
    · exact .inr (.inl ⟨h, Std.LawfulEqOrd.compare_eq_iff_eq.mpr h⟩)
    · exact .inr (.inr ⟨h, Std.compare_eq_gt.mpr h⟩)
  simp only [comparison, List.forall_mem_cons, List.not_mem_nil, false_implies, implies_true, and_true]
  refine ⟨sound_ordering (by decide) fun x y => congrArg Value.boolean ?_,
    sound_ordering (by decide) fun x y => congrArg Value.boolean ?_,
    sound_ordering (by decide) fun x y => congrArg Value.boolean ?_,
    sound_ordering (by decide) fun x y => congrArg Value.boolean ?_,
    sound_pure fun a b offer h => refines_equality id (by decide) (fun _ _ => rfl) h,
    sound_pure fun a b offer h => refines_equality not (by decide) (fun v w => ?_) h⟩
  · show decide (x < y) = (compare x y).isLT
    rcases hcompare x y with ⟨h, horder⟩ | ⟨h, horder⟩ | ⟨h, horder⟩ <;> simp [horder] <;> omega
  · show decide (y < x) = (compare x y).isGT
    rcases hcompare x y with ⟨h, horder⟩ | ⟨h, horder⟩ | ⟨h, horder⟩ <;> simp [horder] <;> omega
  · show decide (x ≤ y) = (compare x y).isLE
    rcases hcompare x y with ⟨h, horder⟩ | ⟨h, horder⟩ | ⟨h, horder⟩ <;> simp [horder] <;> omega
  · show decide (y ≤ x) = (compare x y).isGE
    rcases hcompare x y with ⟨h, horder⟩ | ⟨h, horder⟩ | ⟨h, horder⟩ <;> simp [horder] <;> omega
  · show Value.boolean (decide (v ≠ w)) = .boolean (!decide (v = w))
    rw [decide_not]

theorem sound_logic : ∀ operation ∈ logic, operation.Sound normal Γ ρ := by
  simp only [logic, List.forall_mem_cons, List.not_mem_nil, false_implies, implies_true, and_true]
  refine ⟨(sound_onBooleans (by decide) (by decide)).commutative,
    (sound_pure fun _ _ _ => refines_shortCircuit hρ (by decide)).commutative,
    (sound_onBooleans (by decide) (by decide)).commutative,
    (sound_pure fun _ _ _ => refines_shortCircuit hρ (by decide)).commutative,
    sound_onBooleans (by decide) (by decide), sound_pure fun _ _ _ => refines_xorIdentity hρ, ?_, ?_⟩
  · refine sound_unary fun R a offer hanswers τ happlication => ?_
    obtain ⟨p, ha, hdone⟩ := Action.Answers.of_bind hanswers
    cases eq_of_asBoolean ha.of_ofExcept
    cases hdone.of_done
    obtain ⟨hmem, harg⟩ := happlication.of_unary
    cases harg.of_boolean
    exact ⟨.boolean _, rfl⟩
  · exact sound_unary fun R a offer hanswers => refines_unwrap hρ (.inr rfl) hanswers.of_done.symm

/-- Every standard operation is sound. -/
theorem sound_standard {operation : Operation} (hmem : operation ∈ standard.operations) :
    operation.Sound normal Γ ρ := by
  have huntyped : ∀ operation ∈ control ++ (collection ++ statistics ++ vector),
      operation.name ∉ typedNames := by
    decide +kernel
  rw [standard_operations, List.append_assoc _ control] at hmem
  rcases List.mem_append.mp hmem with h | h
  · simp only [List.mem_append] at h
    rcases h with (h | h) | h
    · exact sound_arithmetic hρ operation h
    · exact sound_comparison operation h
    · exact sound_logic hρ operation h
  · exact sound_of_untyped (huntyped operation h)

end Builtin

end SymbolicAlgebra
