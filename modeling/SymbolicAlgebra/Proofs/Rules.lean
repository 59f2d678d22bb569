import SymbolicAlgebra.Proofs.Combination
import SymbolicAlgebra.Proofs.Offers

/-! The rules of the elementary operators. Whatever an operator on numbers, booleans and sequences that is
no chain offers for elementary arguments, it offers by one of the rules listed here, and where a rule
applies the operator offers what the rule says, up to a negation that is worked out in turn. -/

namespace SymbolicAlgebra

open Chain

/-- Integers in their normal representation, booleans, symbols, sequences, and the elementary operators
applied to such expressions, a chain to two or more of them. -/
inductive Node.Elementary : Node → Prop
  | integer (x : Int) : Elementary (.number (.ofInt x))
  | boolean (p : Bool) : Elementary (.boolean p)
  | symbol (name : String) : Elementary (.symbol name)
  | sequence {elements : List Node} : (∀ element ∈ elements, Elementary element) →
      Elementary (.sequence elements)
  | chain {name : String} {τ : ValueType} {args : List Node} : (name, τ) ∈ chainTypes → 2 ≤ args.length →
      (∀ arg ∈ args, Elementary arg) → Elementary (.application name args)
  | plain {name : String} {args : List Node} : name ∈ Builtin.plainNames →
      (∀ arg ∈ args, Elementary arg) → Elementary (.application name args)

namespace Node.Elementary

variable {node : Node}

theorem exact (h : node.Elementary) : node.Exact := by
  induction h with
  | integer x => exact exact_integer x
  | boolean p => exact exact_boolean p
  | symbol name => exact exact_symbol name
  | sequence _ ih => exact exact_sequence.mpr ih
  | chain _ _ _ ih => exact exact_application.mpr ih
  | plain _ _ ih => exact exact_application.mpr ih

theorem effectFree (h : node.Elementary) : node.EffectFree := by
  have hplain : ∀ name ∈ Builtin.plainNames, EffectFreeName name := by decide
  have hchain : ∀ entry ∈ chainTypes, EffectFreeName entry.1 := by decide
  induction h with
  | integer x => exact effectFree_number _
  | boolean p => exact effectFree_boolean p
  | symbol name => exact effectFree_symbol name
  | sequence _ ih => exact effectFree_sequence.mpr ih
  | chain hname _ _ ih => exact effectFree_application.mpr ⟨hchain _ hname, ih⟩
  | plain hname _ ih => exact effectFree_application.mpr ⟨hplain _ hname, ih⟩

theorem everywhere (h : node.Elementary) : node.Everywhere Node.Elementary := by
  induction h with
  | integer x => exact everywhere_number.mpr (.integer x)
  | boolean p => exact everywhere_boolean.mpr (.boolean p)
  | symbol name => exact everywhere_symbol.mpr (.symbol name)
  | sequence helements ih => exact everywhere_sequence.mpr ⟨.sequence helements, ih⟩
  | chain hchain hlength hargs ih => exact everywhere_application.mpr ⟨.chain hchain hlength hargs, ih⟩
  | plain hplain hargs ih => exact everywhere_application.mpr ⟨.plain hplain hargs, ih⟩

theorem of_value (v : Value) : v.node.Elementary := by
  cases v with
  | integer x => exact .integer x
  | boolean p => exact .boolean p

theorem of_sequence {elements : List Node} (h : (Node.sequence elements).Elementary) :
    ∀ element ∈ elements, element.Elementary := by
  cases h with
  | sequence helements => exact helements

theorem of_application {name : String} {args : List Node} (h : (Node.application name args).Elementary) :
    ∀ arg ∈ args, arg.Elementary := by
  cases h with
  | chain _ _ hargs => exact hargs
  | plain _ hargs => exact hargs

end Node.Elementary

/-- What being elementary asks of the outermost form of a node. -/
def Node.ElementaryForm : Node → Prop
  | .number value => value.Exact
  | .application name args => name ∈ chainTypes.map Prod.fst ∧ 2 ≤ args.length ∨ name ∈ Builtin.plainNames
  | .pair _ _ => False
  | _ => True

theorem Node.elementary_iff {node : Node} : node.Elementary ↔ node.Everywhere Node.ElementaryForm := by
  constructor
  · refine fun h part hpart => ?_
    cases h.everywhere part hpart with
    | integer x => exact Number.exact_iff.mpr ⟨x, rfl⟩
    | boolean p => exact trivial
    | symbol name => exact trivial
    | sequence _ => exact trivial
    | chain hchain hlength _ => exact .inl ⟨List.mem_map_of_mem hchain, hlength⟩
    | plain hplain _ => exact .inr hplain
  · intro h
    induction node using Node.inductionOn with
    | number value =>
        obtain ⟨x, rfl⟩ := Number.exact_iff.mp h.self
        exact .integer x
    | boolean p => exact .boolean p
    | symbol name => exact .symbol name
    | pair first second => exact (Node.everywhere_pair.mp h).1.elim
    | sequence elements ih =>
        have helements := (Node.everywhere_sequence.mp h).2
        exact .sequence fun element helement => ih element helement (helements element helement)
    | application name args ih =>
        obtain ⟨hform, hargs⟩ := Node.everywhere_application.mp h
        have hargs (arg : Node) (harg : arg ∈ args) : arg.Elementary := ih arg harg (hargs arg harg)
        rcases hform with ⟨hname, hlength⟩ | hplain
        · obtain ⟨⟨_, τ⟩, hchain, rfl⟩ := List.mem_map.mp hname
          exact .chain hchain hlength hargs
        · exact .plain hplain hargs

instance (node : Node) : Decidable node.ElementaryForm :=
  match node with
  | .number value => inferInstanceAs (Decidable value.Exact)
  | .application name args =>
      inferInstanceAs (Decidable (name ∈ chainTypes.map Prod.fst ∧ 2 ≤ args.length ∨
        name ∈ Builtin.plainNames))
  | .pair _ _ => .isFalse id
  | .boolean _ | .symbol _ | .sequence _ => .isTrue trivial

instance (node : Node) : Decidable node.Elementary :=
  decidable_of_iff (∀ part ∈ node.subterms, part.ElementaryForm) Node.elementary_iff.symm

/-- What a call becomes if an offer is taken as it is. -/
def attempt (name : String) (args : List Node) : Node :=
  (Builtin.offered? name args).getD (.application name args)

/-- An offer may be an application of one argument, which is tried in turn. -/
def again : Node → Node
  | .application name [arg] => attempt name [arg]
  | node => node

/-! ### The rules -/

/-- What an operator that is no chain offers for arguments that are simple already. -/
inductive Rule : String → List Node → Node → Prop
  | subtract (x y : Int) : Rule "-" [.number (.ofInt x), .number (.ofInt y)] (.number (.ofInt (x - y)))
  | cancel (a : Node) : Rule "-" [a, a] (.number (.ofInt 0))
  | subtractZero (a : Node) : Rule "-" [a, .number (.ofInt 0)] a
  | subtractFromZero (b : Node) : Rule "-" [.number (.ofInt 0), b] (.application "negate" [b])
  | negate (x : Int) : Rule "negate" [.number (.ofInt x)] (.number (.ofInt (-x)))
  | complement (p : Bool) : Rule "not" [.boolean p] (.boolean !p)
  | unwrap {name : String} (a : Node) : name = "negate" ∨ name = "not" → Rule name [.application name [a]] a
  | exclude (p q : Bool) : Rule "xor" [.boolean p, .boolean q] (.boolean (p ^^ q))
  | falseLeft (b : Node) : Rule "xor" [.boolean false, b] b
  | falseRight (a : Node) : Rule "xor" [a, .boolean false] a
  | trueLeft (b : Node) : Rule "xor" [.boolean true, b] (.application "not" [b])
  | trueRight (a : Node) : Rule "xor" [a, .boolean true] (.application "not" [a])
  | compare {name : String} {test : Ordering → Bool} (x y : Int) : (name, test) ∈ Builtin.orderings →
      Rule name [.number (.ofInt x), .number (.ofInt y)] (.boolean (test (Ord.compare x y)))
  | equal {name : String} {answer : Bool → Bool} (a : Node) : (name, answer) ∈ Builtin.equalities →
      Rule name [a, a] (.boolean (answer true))
  | different {name : String} {answer : Bool → Bool} {a b : Node} : (name, answer) ∈ Builtin.equalities →
      Builtin.decideEquality a b = some false → Rule name [a, b] (.boolean (answer false))
  | get {elements : List Node} {index : Int64} {element : Node} :
      Builtin.element? elements index.toInt = some element →
      Rule "get" [.sequence elements, .number (.small index)] element
  | first {elements : List Node} {element : Node} : Builtin.element? elements 0 = some element →
      Rule "first" [.sequence elements] element
  | rest {elements : List Node} : (Guard.index 0 elements.length).isOk →
      Rule "rest" [.sequence elements] (.sequence (elements.drop 1))
  | size {elements : List Node} {count : Int64} : Guard.length elements.length = .ok count →
      Rule "size" [.sequence elements] (.number (.small count))
  | reverse (elements : List Node) : Rule "reverse" [.sequence elements] (.sequence elements.reverse)
  | append (elements : List Node) (element : Node) :
      Rule "append" [.sequence elements, element] (.sequence (elements ++ [element]))
  | contains (elements : List Node) (element : Node) :
      Rule "contains" [.sequence elements, element] (.boolean (elements.any (· == element)))

namespace Builtin

variable {a b offer : Node}

/-! ### Every offer is made by a rule -/

theorem eq_zero_of_isZero (ha : a.Exact) (h : isZero a) : a = .number (.ofInt 0) := by
  rcases integer_cases ha with ⟨x, rfl⟩ | ⟨hnumber, _⟩
  · rw [isZero_integer, decide_eq_true_iff] at h
    rw [h]
    rfl
  · rw [(not_isZero_or_isOne hnumber).1] at h
    cases h

theorem eq_of_unwrap {name : String} (h : unwrap name a = some offer) : a = .application name [offer] := by
  unfold unwrap at h
  split at h
  · split_ifs at h with hname
    cases h
    rw [hname]
  · cases h

theorem rule_difference (ha : a.Exact) (hb : b.Exact) (h : offered? "-" [a, b] = some offer) :
    Rule "-" [a, b] offer := by
  rw [offered_difference] at h
  split at h
  · obtain ⟨x, rfl⟩ := Number.exact_iff.mp (Node.exact_number.mp ha)
    obtain ⟨y, rfl⟩ := Number.exact_iff.mp (Node.exact_number.mp hb)
    cases h
    rw [Number.sub_eq_ofInt (Number.toInt?_ofInt x) (Number.toInt?_ofInt y)]
    exact .subtract x y
  · rw [subIdentity] at h
    split_ifs at h with hsame hzero hzero' <;> cases h
    · rw [(Node.same_iff hb).mp hsame]
      exact .cancel b
    · rw [eq_zero_of_isZero hb hzero]
      exact .subtractZero a
    · rw [eq_zero_of_isZero ha hzero']
      exact .subtractFromZero b

theorem rule_negation (ha : a.Exact) (h : offered? "negate" [a] = some offer) : Rule "negate" [a] offer := by
  rw [offered_negation] at h
  split at h
  · obtain ⟨x, rfl⟩ := Number.exact_iff.mp (Node.exact_number.mp ha)
    cases h
    rw [Number.neg_eq_ofInt (Number.toInt?_ofInt x)]
    exact .negate x
  · rw [eq_of_unwrap h]
    exact .unwrap offer (.inl rfl)

theorem rule_complement (h : offered? "not" [a] = some offer) : Rule "not" [a] offer := by
  rw [offered_complement] at h
  split at h
  · cases h
    exact .complement _
  · rw [eq_of_unwrap h]
    exact .unwrap offer (.inr rfl)

theorem rule_exclusion (h : offered? "xor" [a, b] = some offer) : Rule "xor" [a, b] offer := by
  rw [offered_exclusion] at h
  split at h
  · cases h
    exact .exclude _ _
  · unfold xorIdentity at h
    split at h <;> cases h
    · exact .falseLeft _
    · exact .falseRight _
    · exact .trueLeft _
    · exact .trueRight _

theorem rule_ordering {name : String} {test : Ordering → Bool} (hname : (name, test) ∈ orderings)
    (ha : a.Exact) (hb : b.Exact) (h : offered? name [a, b] = some offer) : Rule name [a, b] offer := by
  rw [offered_ordering hname] at h
  split at h
  · obtain ⟨x, rfl⟩ := Number.exact_iff.mp (Node.exact_number.mp ha)
    obtain ⟨y, rfl⟩ := Number.exact_iff.mp (Node.exact_number.mp hb)
    rw [Number.compare?_eq, Number.toInt?_ofInt, Number.toInt?_ofInt] at h
    cases h
    exact .compare x y hname
  · cases h

/-- What is decided to be equal is the same node. -/
theorem eq_of_decideEquality (ha : a.Exact) (hb : b.Exact) (h : decideEquality a b = some true) : a = b := by
  rw [decideEquality] at h
  split at h
  · rename_i hsame
    exact (Node.same_iff hb).mp hsame
  · split at h
    · rename_i x y hx hy
      obtain rfl := eq_of_number? hx
      obtain rfl := eq_of_number? hy
      obtain ⟨x, rfl⟩ := Number.exact_iff.mp (Node.exact_number.mp ha)
      obtain ⟨y, rfl⟩ := Number.exact_iff.mp (Node.exact_number.mp hb)
      rw [Number.compare?_eq, Number.toInt?_ofInt, Number.toInt?_ofInt] at h
      have hequal : compare x y = .eq := by simpa using h
      rw [Std.LawfulEqOrd.eq_of_compare hequal]
    · split_ifs at h
      cases h

theorem rule_equality {name : String} {answer : Bool → Bool} (hname : (name, answer) ∈ equalities)
    (ha : a.Exact) (hb : b.Exact) (h : offered? name [a, b] = some offer) : Rule name [a, b] offer := by
  rw [offered_equality hname] at h
  obtain ⟨equal, hequal, rfl⟩ := Option.map_eq_some_iff.mp h
  cases equal with
  | true =>
      rw [eq_of_decideEquality ha hb hequal]
      exact .equal b hname
  | false => exact .different hname hequal

theorem rule_get (ha : a.Elementary) (h : offered? "get" [a, b] = some offer) : Rule "get" [a, b] offer := by
  rw [offered_get] at h
  split at h
  · exact .get h
  · cases ha
  · cases h

/-- The operators of one sequence. -/
theorem rule_sequence {name : String} (hname : name ∈ ["size", "first", "rest", "reverse"])
    (h : offered? name [a] = some offer) : Rule name [a] offer := by
  simp only [List.mem_cons, List.not_mem_nil, or_false] at hname
  rcases hname with rfl | rfl | rfl | rfl
  · rw [offered_size] at h
    split at h
    · rename_i elements
      cases hcount : Guard.length elements.length with
      | error failure =>
          rw [hcount] at h
          cases h
      | ok count =>
          rw [hcount] at h
          cases h
          exact .size hcount
    · cases h
  · rw [offered_first] at h
    split at h
    · exact .first h
    · cases h
  · rw [offered_rest] at h
    split at h
    · rename_i elements
      cases hindex : Guard.index 0 elements.length with
      | error failure =>
          rw [hindex] at h
          cases h
      | ok position =>
          rw [hindex] at h
          cases h
          exact .rest (by rw [hindex]; rfl)
    · cases h
  · rw [offered_reverse] at h
    split at h
    · cases h
      exact .reverse _
    · cases h

theorem rule_append (h : offered? "append" [a, b] = some offer) : Rule "append" [a, b] offer := by
  rw [offered_append] at h
  split at h <;> cases h
  exact .append _ b

theorem rule_contains (h : offered? "contains" [a, b] = some offer) : Rule "contains" [a, b] offer := by
  rw [offered_contains] at h
  split at h <;> cases h
  exact .contains _ b

theorem rule_unary {name : String} (hname : (name, 1) ∈ plainArities) (ha : a.Elementary)
    (h : offered? name [a] = some offer) : Rule name [a] offer := by
  have hcases : name = "negate" ∨ name = "not" ∨ name ∈ ["size", "first", "rest", "reverse"] := by
    simpa [plainArities] using hname
  rcases hcases with rfl | rfl | hsequence
  · exact rule_negation ha.exact h
  · exact rule_complement h
  · exact rule_sequence hsequence h

theorem rule_binary {name : String} (hname : (name, 2) ∈ plainArities) (ha : a.Elementary)
    (hb : b.Elementary) (h : offered? name [a, b] = some offer) : Rule name [a, b] offer := by
  have hcases : name = "-" ∨ name = "xor" ∨ (name ∈ orderings.map Prod.fst ∨ name ∈ equalities.map Prod.fst) ∨
      name = "get" ∨ name = "contains" ∨ name = "append" := by
    simpa [plainArities, orderings, equalities, or_assoc] using hname
  rcases hcases with rfl | rfl | (hordering | hequality) | rfl | rfl | rfl
  · exact rule_difference ha.exact hb.exact h
  · exact rule_exclusion h
  · obtain ⟨⟨_, test⟩, hmem, rfl⟩ := List.mem_map.mp hordering
    exact rule_ordering hmem ha.exact hb.exact h
  · obtain ⟨⟨_, answer⟩, hmem, rfl⟩ := List.mem_map.mp hequality
    exact rule_equality hmem ha.exact hb.exact h
  · exact rule_get ha h
  · exact rule_contains h
  · exact rule_append h

/-- What an operator that is no chain offers for elementary arguments, it offers by a rule. -/
theorem rule_of_offered {name : String} {args : List Node} (hname : name ∈ plainNames)
    (hargs : ∀ arg ∈ args, arg.Elementary) (h : offered? name args = some offer) : Rule name args offer := by
  obtain ⟨⟨_, arity⟩, hmem, rfl⟩ := List.mem_map.mp hname
  have hlength := length_of_offered hmem h
  have harity : ∀ entry ∈ plainArities, entry.2 = 1 ∨ entry.2 = 2 := by decide
  rcases harity _ hmem with rfl | rfl
  · obtain ⟨a, rfl⟩ := List.length_eq_one_iff.mp hlength
    exact rule_unary hmem (hargs a List.mem_cons_self) h
  · obtain ⟨a, b, rfl⟩ := List.length_eq_two.mp hlength
    exact rule_binary hmem (hargs a (by simp)) (hargs b (by simp)) h

/-! ### What a rule says is what is offered -/

theorem difference_eq_subIdentity (h : a.number? = none ∨ b.number? = none) :
    offered? "-" [a, b] = subIdentity a b := by
  rw [offered_difference]
  split
  · rcases h with h | h <;> cases h
  · rfl

theorem offered_cancel (ha : a.Exact) : offered? "-" [a, a] = some (.number (.ofInt 0)) := by
  rcases integer_cases ha with ⟨x, rfl⟩ | ⟨hnumber, _⟩
  · have hsub := Number.sub_eq_ofInt (Number.toInt?_ofInt x) (Number.toInt?_ofInt x)
    rw [Int.sub_self] at hsub
    exact (offered_difference _ _).trans (congrArg (some <| Node.number ·) hsub)
  · rw [difference_eq_subIdentity (.inl hnumber), subIdentity, if_pos ((Node.same_iff ha).mpr rfl)]
    rfl

theorem offered_subtractZero (ha : a.Exact) : offered? "-" [a, .number (.ofInt 0)] = some a := by
  rcases integer_cases ha with ⟨x, rfl⟩ | ⟨hnumber, _⟩
  · have hsub := Number.sub_eq_ofInt (Number.toInt?_ofInt x) (Number.toInt?_ofInt 0)
    rw [Int.sub_zero] at hsub
    exact (offered_difference _ _).trans (congrArg (some <| Node.number ·) hsub)
  · rw [difference_eq_subIdentity (.inl hnumber), subIdentity]
    split_ifs with hsame hzero
    · rw [(Node.same_iff (Node.exact_integer 0)).mp hsame]
    · rfl
    · exact (hzero (isZero_integer 0)).elim
    · exact (hzero (isZero_integer 0)).elim

theorem offered_negate (x : Int) : offered? "negate" [.number (.ofInt x)] = some (.number (.ofInt (-x))) := by
  rw [offered_negation]
  exact congrArg (some <| Node.number ·) (Number.neg_eq_ofInt (Number.toInt?_ofInt x))

theorem offered_unwrap {name : String} (hname : name = "negate" ∨ name = "not") (a : Node) :
    offered? name [.application name [a]] = some a := by
  have hunwrap : unwrap name (.application name [a]) = some a := if_pos rfl
  rcases hname with rfl | rfl
  · exact (offered_negation _).trans hunwrap
  · exact (offered_complement _).trans hunwrap

theorem plain_of_involution {name : String} (hname : name = "negate" ∨ name = "not") : name ∈ plainNames := by
  rcases hname with rfl | rfl <;> decide

/-- A negation turns a literal into another one and back, or undoes itself. -/
theorem involution_cases {name : String} (hname : name = "negate" ∨ name = "not") (ha : a.Exact)
    (h : offered? name [a] = some offer) :
    (∃ v w : Value, a = v.node ∧ offer = w.node ∧ offered? name [w.node] = some v.node) ∨
      a = .application name [offer] := by
  rcases hname with rfl | rfl
  · rw [offered_negation] at h
    split at h
    · obtain ⟨x, rfl⟩ := Number.exact_iff.mp (Node.exact_number.mp ha)
      cases h
      rw [Number.neg_eq_ofInt (Number.toInt?_ofInt x)]
      refine .inl ⟨.integer x, .integer (-x), rfl, rfl, (offered_negate (-x)).trans ?_⟩
      rw [Int.neg_neg]
      rfl
    · exact .inr (eq_of_unwrap h)
  · rw [offered_complement] at h
    split at h
    · rename_i p
      cases h
      refine .inl ⟨.boolean p, .boolean !p, rfl, rfl, (offered_complement (.boolean !p)).trans ?_⟩
      exact congrArg (some <| Node.boolean ·) (Bool.not_not p)
    · exact .inr (eq_of_unwrap h)

theorem offered_equal {name : String} {answer : Bool → Bool} (hname : (name, answer) ∈ equalities)
    (ha : a.Exact) : offered? name [a, a] = some (.boolean (answer true)) := by
  rw [offered_equality hname, decideEquality, if_pos ((Node.same_iff ha).mpr rfl)]
  rfl

theorem offered_compare {name : String} {test : Ordering → Bool} (hname : (name, test) ∈ orderings)
    (x y : Int) :
    offered? name [.number (.ofInt x), .number (.ofInt y)] = some (.boolean (test (compare x y))) := by
  rw [offered_ordering hname]
  dsimp only
  rw [Number.compare?_eq, Number.toInt?_ofInt, Number.toInt?_ofInt]
  rfl

end Builtin

open Builtin

theorem attempt_of_offered {name : String} {args : List Node} {offer : Node}
    (h : offered? name args = some offer) : attempt name args = offer := by
  rw [attempt, h, Option.getD_some]

/-- Trying zero less an argument is trying its negation. -/
theorem again_subtractFromZero {b : Node} (hb : b.Exact) :
    again (attempt "-" [.number (.ofInt 0), b]) = attempt "negate" [b] := by
  rcases integer_cases hb with ⟨y, rfl⟩ | ⟨hnumber, _⟩
  · have hsub := Number.sub_eq_ofInt (Number.toInt?_ofInt 0) (Number.toInt?_ofInt y)
    rw [Int.zero_sub] at hsub
    have hoffered : offered? "-" [.number (.ofInt 0), .number (.ofInt y)] = some (.number (.ofInt (-y))) :=
      (offered_difference _ _).trans (congrArg (some <| Node.number ·) hsub)
    exact (congrArg again (attempt_of_offered hoffered)).trans (attempt_of_offered (offered_negate y)).symm
  · have hzero : isZero (.number (.ofInt 0)) = true := isZero_integer 0
    have hdifferent : ¬(Node.number (.ofInt 0) == b) := by
      intro hsame
      rw [← (Node.same_iff hb).mp hsame] at hnumber
      cases hnumber
    have hoffered : offered? "-" [.number (.ofInt 0), b] = some (.application "negate" [b]) := by
      rw [difference_eq_subIdentity (.inr hnumber), subIdentity, if_neg hdifferent,
        if_neg (by simp [not_isZero_or_isOne hnumber]), if_pos hzero]
    rw [attempt_of_offered hoffered]
    rfl

/-- Trying the exclusive disjunction of true and an argument is trying its complement. -/
theorem again_excludeTrue (b : Node) :
    again (attempt "xor" [.boolean true, b]) = attempt "not" [b] ∧
      again (attempt "xor" [b, .boolean true]) = attempt "not" [b] := by
  have hleft := offered_exclusion (.boolean true) b
  have hright := offered_exclusion b (.boolean true)
  cases b with
  | boolean q =>
      rw [attempt_of_offered hleft, attempt_of_offered hright,
        attempt_of_offered (offered_complement (.boolean q))]
      cases q <;> exact ⟨rfl, rfl⟩
  | _ =>
      rw [attempt_of_offered hleft, attempt_of_offered hright]
      exact ⟨rfl, rfl⟩

theorem again_excludeFalse (b : Node) :
    attempt "xor" [.boolean false, b] = b ∧ attempt "xor" [b, .boolean false] = b := by
  have hleft := offered_exclusion (.boolean false) b
  have hright := offered_exclusion b (.boolean false)
  cases b with
  | boolean q =>
      rw [attempt_of_offered hleft, attempt_of_offered hright]
      cases q <;> exact ⟨rfl, rfl⟩
  | _ =>
      rw [attempt_of_offered hleft, attempt_of_offered hright]
      exact ⟨rfl, rfl⟩

/-- Where a rule applies, an operator makes of its arguments what the rule says. -/
theorem Rule.again_attempt {name : String} {args : List Node} {offer : Node}
    (h : Rule name args offer) (hexact : ∀ arg ∈ args, arg.Exact) :
    again (attempt name args) = again offer := by
  have hoffered (h : offered? name args = some offer) : again (attempt name args) = again offer :=
    congrArg again (attempt_of_offered h)
  cases h with
  | subtract x y =>
      refine hoffered ((offered_difference _ _).trans ?_)
      exact congrArg (some <| Node.number ·)
        (Number.sub_eq_ofInt (Number.toInt?_ofInt x) (Number.toInt?_ofInt y))
  | cancel a => exact hoffered (offered_cancel (hexact a List.mem_cons_self))
  | subtractZero a => exact hoffered (offered_subtractZero (hexact _ List.mem_cons_self))
  | subtractFromZero b => exact again_subtractFromZero (hexact b (by simp))
  | negate x => exact hoffered (offered_negate x)
  | complement p => exact hoffered (offered_complement (.boolean p))
  | unwrap a hname => exact hoffered (offered_unwrap hname _)
  | exclude p q => exact hoffered (offered_exclusion (.boolean p) (.boolean q))
  | falseLeft b => rw [(again_excludeFalse offer).1]
  | falseRight a => rw [(again_excludeFalse offer).2]
  | trueLeft b => exact (again_excludeTrue b).1
  | trueRight a => exact (again_excludeTrue a).2
  | compare x y hname => exact hoffered (offered_compare hname x y)
  | equal a hname => exact hoffered (offered_equal hname (hexact a List.mem_cons_self))
  | different hname hdifferent =>
      refine hoffered ((offered_equality hname _ _).trans ?_)
      rw [hdifferent]
      rfl
  | get helement => exact hoffered ((offered_get _ _).trans helement)
  | first helement => exact hoffered ((offered_first _).trans helement)
  | @rest elements hindex =>
      refine hoffered ((offered_rest _).trans ?_)
      dsimp only
      cases hposition : Guard.index 0 elements.length with
      | ok position => rfl
      | error failure =>
          rw [hposition] at hindex
          cases hindex
  | size hcount =>
      refine hoffered ((offered_size _).trans ?_)
      dsimp only
      rw [hcount]
      rfl
  | reverse elements => exact hoffered (offered_reverse _)
  | append elements element => exact hoffered (offered_append _ element)
  | contains elements element => exact hoffered (offered_contains _ element)

end SymbolicAlgebra
