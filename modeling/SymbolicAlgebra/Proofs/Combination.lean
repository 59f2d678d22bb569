import SymbolicAlgebra.Proofs.NormalForm

/-! Sums, products and connectives of two arguments. The handlers of such a chain compute with two
literals, let one literal absorb the other argument or give way to it, and decline everything else. That
is one rule for all chains: they decline where nothing can be done, and end with the one argument that is
left otherwise. -/

namespace SymbolicAlgebra.Chain

/-- What a literal makes of another node, if anything. -/
def absorbed (name : String) (v : Value) (other : Node) : Option Node :=
  if absorbing? name = some v then some v.node
  else if v = .apply name [] then some other
  else none

/-- What two arguments make, if anything. -/
def combined (name : String) (τ : ValueType) (a b : Node) : Option Node :=
  match a.literal? τ, b.literal? τ with
  | some v, some w => some (Value.apply name [v, w]).node
  | some v, none => absorbed name v b
  | none, some w => absorbed name w a
  | none, none => none

section Handlers

open Operation

variable {name : String} {τ : ValueType} {R : Node → Node → Prop} {a b : Node} {outcome : Option Node}

/-- A name with two operations of two arguments: the one for arguments of a kind goes first. -/
theorem resolve_of_overloads {registry : Registry} {kind : Parameter}
    {special general : Node → Node → Action Operation (Option Node)}
    (hoverloads : registry.overloads name =
      [(binary name kind kind special).commutative, (binary name .any .any general).commutative]) (a b : Node) :
    registry.resolve name [a, b] = some (if kind.accepts a ∧ kind.accepts b
      then (binary name kind kind special).commutative else (binary name .any .any general).commutative) := by
  have hany (node : Node) : Parameter.any.accepts node = true := rfl
  split <;> rename_i haccepts <;>
    simp [Registry.resolve, hoverloads, Operation.accepts, commutative, binary, Signature.accepts, haccepts, hany]

theorem outcome_of_overloads {kind : Parameter} {special : Node → Node → Action Operation (Option Node)}
    {general : Node → Node → Option Node}
    (hoverloads : Builtin.standard.overloads name = [(binary name kind kind special).commutative,
      (binary name .any .any fun a b => .done (general a b)).commutative])
    (h : Invokes Builtin.standard R name [a, b] outcome) :
    if kind.accepts a ∧ kind.accepts b then (special a b).Answers R outcome else outcome = general a b := by
  have houtcome := Invokes.of_resolve (resolve_of_overloads hoverloads a b) h
  split <;> rename_i haccepts
  · rw [if_pos haccepts] at houtcome
    exact houtcome
  · rw [if_neg haccepts] at houtcome
    exact houtcome.of_done

/-- An exact node is an integer or no number at all. -/
theorem integer_cases {node : Node} (hexact : node.Exact) :
    (∃ x, node = (Value.integer x).node) ∨
      node.number? = none ∧ node.literal? .integer = none ∧ Parameter.number.accepts node = false := by
  cases node with
  | number a =>
      obtain ⟨x, rfl⟩ := Number.exact_iff.mp (Node.exact_number.mp hexact)
      exact .inl ⟨x, rfl⟩
  | _ => exact .inr ⟨rfl, rfl, rfl⟩

theorem isZero_integer (x : Int) : Builtin.isZero (Value.integer x).node = decide (x = 0) := by
  rw [Bool.eq_iff_iff, decide_eq_true_iff]
  exact Number.isZero_iff (Number.toInt?_ofInt x)

theorem isOne_integer (x : Int) : Builtin.isOne (Value.integer x).node = decide (x = 1) := by
  rw [Bool.eq_iff_iff, decide_eq_true_iff]
  exact Number.isOne_iff (Number.toInt?_ofInt x)

/-- A node that is no number is neither zero nor one. -/
theorem not_isZero_or_isOne {node : Node} (h : node.number? = none) :
    Builtin.isZero node = false ∧ Builtin.isOne node = false := by
  rw [Builtin.isZero, Builtin.isOne, h]
  exact ⟨rfl, rfl⟩

theorem literal?_integer (x : Int) : (Value.integer x).node.literal? .integer = some (.integer x) :=
  literal?_node (.integer x)

/-- Operators on integers: two are computed with, and one makes with another node what the identities
of the operator say. -/
theorem outcome_of_numbers (compute : Number → Number → Number) (identity : Node → Node → Option Node)
    {f : Int → Int → Int}
    (hoverloads : Builtin.standard.overloads name =
      [(binary name .number .number (Builtin.onNumbers fun x y => .ok (compute x y))).commutative,
        (binary name .any .any fun a b => .done (identity a b)).commutative])
    (hcompute : ∀ x y, compute (.ofInt x) (.ofInt y) = .ofInt (f x y))
    (hvalue : ∀ x y, Value.apply name [.integer x, .integer y] = .integer (f x y))
    (hidentity : ∀ (x : Int) (other : Node), other.number? = none →
      identity (Value.integer x).node other = absorbed name (.integer x) other ∧
        identity other (Value.integer x).node = absorbed name (.integer x) other)
    (hnone : ∀ a b : Node, a.number? = none → b.number? = none → identity a b = none)
    (ha : a.Exact) (hb : b.Exact) (h : Invokes Builtin.standard R name [a, b] outcome) :
    outcome = combined name .integer a b := by
  have houtcome := outcome_of_overloads hoverloads h
  rcases integer_cases ha with ⟨x, rfl⟩ | ⟨hnumberA, hliteralA, hacceptsA⟩
  · rcases integer_cases hb with ⟨y, rfl⟩ | ⟨hnumberB, hliteralB, hacceptsB⟩
    · rw [if_pos ⟨rfl, rfl⟩] at houtcome
      obtain ⟨_, _, _, hx, hy, hr, houtcome⟩ := Builtin.answers_onNumbers houtcome
      cases hx
      cases hy
      cases hr
      rw [combined, literal?_integer, literal?_integer, houtcome, hcompute]
      exact congrArg (some ·.node) (hvalue x y).symm
    · rw [if_neg (by simp [hacceptsB])] at houtcome
      rw [combined, literal?_integer, hliteralB, houtcome]
      exact (hidentity x b hnumberB).1
  · rcases integer_cases hb with ⟨y, rfl⟩ | ⟨hnumberB, hliteralB, hacceptsB⟩
    · rw [if_neg (by simp [hacceptsA])] at houtcome
      rw [combined, literal?_integer, hliteralA, houtcome]
      exact (hidentity y a hnumberA).2
    · rw [if_neg (by simp [hacceptsA])] at houtcome
      rw [combined, hliteralA, hliteralB, houtcome]
      exact hnone a b hnumberA hnumberB

theorem outcome_sum (ha : a.Exact) (hb : b.Exact) (h : Invokes Builtin.standard R "+" [a, b] outcome) :
    outcome = combined "+" .integer a b := by
  refine outcome_of_numbers Number.add Builtin.addIdentity ((Builtin.overloads_standard _).trans rfl)
    (fun x y => Number.add_eq_ofInt (Number.toInt?_ofInt x) (Number.toInt?_ofInt y)) (fun x y => ?_)
    (fun x other hother => ?_) (fun a b ha hb => ?_) ha hb h
  · simp [Value.apply, Value.toInt]
  · obtain ⟨hzero, _⟩ := not_isZero_or_isOne hother
    simp [Builtin.addIdentity, isZero_integer, hzero, absorbed, absorbing?, Value.apply]
  · simp [Builtin.addIdentity, not_isZero_or_isOne, ha, hb]

theorem outcome_product (ha : a.Exact) (hb : b.Exact) (h : Invokes Builtin.standard R "*" [a, b] outcome) :
    outcome = combined "*" .integer a b := by
  refine outcome_of_numbers Number.mul Builtin.mulIdentity ((Builtin.overloads_standard _).trans rfl)
    (fun x y => Number.mul_eq_ofInt (Number.toInt?_ofInt x) (Number.toInt?_ofInt y)) (fun x y => ?_)
    (fun x other hother => ?_) (fun a b ha hb => ?_) ha hb h
  · simp [Value.apply, Value.toInt]
  · obtain ⟨hzero, hone⟩ := not_isZero_or_isOne hother
    simp [Builtin.mulIdentity, isZero_integer, isOne_integer, hzero, hone, absorbed, absorbing?, Value.apply,
      @eq_comm Int 0]
  · simp [Builtin.mulIdentity, not_isZero_or_isOne, ha, hb]

theorem boolean_cases (node : Node) :
    (∃ p, node = .boolean p) ∨ node.literal? .boolean = none ∧ Parameter.boolean.accepts node = false := by
  cases node with
  | boolean p => exact .inl ⟨p, rfl⟩
  | _ => exact .inr ⟨rfl, rfl⟩

theorem shortCircuit_boolean {absorbing p : Bool} {other : Node} (h : other.literal? .boolean = none) :
    Builtin.shortCircuit absorbing (.boolean p) other =
        some (if p = absorbing then .boolean absorbing else other) ∧
      Builtin.shortCircuit absorbing other (.boolean p) =
        some (if p = absorbing then .boolean absorbing else other) := by
  cases other with
  | boolean q => cases h
  | _ => exact ⟨rfl, rfl⟩

theorem shortCircuit_eq_none {absorbing : Bool} {a b : Node} (ha : a.literal? .boolean = none)
    (hb : b.literal? .boolean = none) : Builtin.shortCircuit absorbing a b = none := by
  cases a with
  | boolean p => cases ha
  | _ =>
      cases b with
      | boolean q => cases hb
      | _ => rfl

/-- Connectives: two booleans are computed with, and one absorbs another node or gives way to it. -/
theorem outcome_of_booleans (compute : Bool → Bool → Bool) (absorbing : Bool)
    (hoverloads : Builtin.standard.overloads name =
      [(binary name .boolean .boolean (Builtin.onBooleans compute)).commutative,
        (binary name .any .any fun a b => .done (Builtin.shortCircuit absorbing a b)).commutative])
    (hvalue : ∀ p q, Value.apply name [.boolean p, .boolean q] = .boolean (compute p q))
    (habsorbing : absorbing? name = some (.boolean absorbing))
    (hunit : Value.apply name [] = .boolean !absorbing)
    (h : Invokes Builtin.standard R name [a, b] outcome) : outcome = combined name .boolean a b := by
  have houtcome := outcome_of_overloads hoverloads h
  have hshort (p : Bool) (other : Node) :
      absorbed name (.boolean p) other = some (if p = absorbing then .boolean absorbing else other) := by
    rw [absorbed, habsorbing, hunit]
    cases p <;> cases absorbing <;> rfl
  have hliteral (p : Bool) : (Node.boolean p).literal? .boolean = some (.boolean p) := rfl
  rcases boolean_cases a with ⟨p, rfl⟩ | ⟨hliteralA, hacceptsA⟩
  · rcases boolean_cases b with ⟨q, rfl⟩ | ⟨hliteralB, hacceptsB⟩
    · rw [if_pos ⟨rfl, rfl⟩] at houtcome
      obtain ⟨_, _, hp, hq, houtcome⟩ := Builtin.answers_onBooleans houtcome
      cases hp
      cases hq
      rw [houtcome]
      exact congrArg (some ·.node) (hvalue p q).symm
    · rw [if_neg (by simp [hacceptsB]), (shortCircuit_boolean hliteralB).1] at houtcome
      rw [combined, hliteral, hliteralB, houtcome]
      exact (hshort p b).symm
  · rcases boolean_cases b with ⟨q, rfl⟩ | ⟨hliteralB, hacceptsB⟩
    · rw [if_neg (by simp [hacceptsA]), (shortCircuit_boolean hliteralA).2] at houtcome
      rw [combined, hliteral, hliteralA, houtcome]
      exact (hshort q a).symm
    · rw [if_neg (by simp [hacceptsA]), shortCircuit_eq_none hliteralA hliteralB] at houtcome
      rw [combined, hliteralA, hliteralB, houtcome]

/-- Invoking a chain on two exact arguments makes of them what they make. -/
theorem outcome_eq_combined (hchain : (name, τ) ∈ chainTypes) (ha : a.Exact) (hb : b.Exact)
    (h : Invokes Builtin.standard R name [a, b] outcome) : outcome = combined name τ a b := by
  rcases chain_cases hchain with ⟨rfl, rfl⟩ | ⟨rfl, rfl⟩ | ⟨rfl, rfl⟩ | ⟨rfl, rfl⟩
  · exact outcome_sum ha hb h
  · exact outcome_product ha hb h
  · exact outcome_of_booleans (· && ·) false ((Builtin.overloads_standard _).trans rfl) (by decide) rfl rfl h
  · exact outcome_of_booleans (· || ·) true ((Builtin.overloads_standard _).trans rfl) (by decide) rfl rfl h

end Handlers

/-! ### Pairs and normal forms -/

section Pairs

variable {name : String} {τ : ValueType} {xs : List Node}

theorem absorbed_spec (hchain : (name, τ) ∈ chainTypes) (hexact : ∀ node ∈ xs, node.Exact) {v : Value}
    {other : Node} (hliterals : literals τ xs = [v]) (hresidue : residue τ xs = [other]) :
    absorbed name v other = none ∧ Inert name τ xs ∨
      ∃ offer, absorbed name v other = some offer ∧ ¬Inert name τ xs ∧ normalArgs name τ xs = [offer] := by
  have hinert : Inert name τ xs ↔ absorbing? name ≠ some v ∧ v ≠ .apply name [] := by
    simp [Inert, hliterals]
  have htotal := (total_of_single_literal hchain hexact hliterals).1
  rw [absorbed, hinert, normalArgs, htotal, hresidue]
  by_cases habsorbing : absorbing? name = some v
  · rw [if_pos habsorbing, if_pos (.inl habsorbing)]
    exact .inr ⟨_, rfl, fun h => h.1 habsorbing, rfl⟩
  · have hmore : ¬(absorbing? name = some v ∨ Node.sort [other] = []) := by
      simp [habsorbing, Node.sort, Node.insertOrdered]
    rw [if_neg habsorbing, if_neg hmore]
    by_cases hunit : v = .apply name []
    · rw [if_pos hunit, if_pos hunit]
      exact .inr ⟨_, rfl, fun h => h.2 hunit, rfl⟩
    · rw [if_neg hunit]
      exact .inl ⟨rfl, habsorbing, hunit⟩

/-- Two arguments make nothing if they are inert, and otherwise the single argument that is left. -/
theorem combined_spec (hchain : (name, τ) ∈ chainTypes) {a b : Node} (ha : a.Exact) (hb : b.Exact) :
    combined name τ a b = none ∧ Inert name τ [a, b] ∨
      ∃ offer, combined name τ a b = some offer ∧ ¬Inert name τ [a, b] ∧
        normalArgs name τ [a, b] = [offer] := by
  have hexact : ∀ node ∈ [a, b], node.Exact := List.forall_mem_cons.mpr ⟨ha, List.forall_mem_singleton.mpr hb⟩
  cases hva : a.literal? τ with
  | none =>
      cases hvb : b.literal? τ with
      | none =>
          left
          simp [combined, Inert, literals, hva, hvb]
      | some w =>
          rw [combined, hva, hvb]
          exact absorbed_spec hchain hexact (by simp [literals, hva, hvb]) (by simp [residue, hva, hvb])
  | some v =>
      cases hvb : b.literal? τ with
      | none =>
          rw [combined, hva, hvb]
          exact absorbed_spec hchain hexact (by simp [literals, hva, hvb]) (by simp [residue, hva, hvb])
      | some w =>
          right
          have hliterals : literals τ [a, b] = [v, w] := by simp [literals, hva, hvb]
          have hresidue : residue τ [a, b] = [] := by simp [residue, hva, hvb]
          refine ⟨_, by rw [combined, hva, hvb], fun h => absurd h.1 (by simp [hliterals]), ?_⟩
          rw [normalArgs, total, hliterals, hresidue]
          exact if_pos (.inr rfl)

end Pairs

end SymbolicAlgebra.Chain
