import Mathlib.Tactic.SplitIfs
import SymbolicAlgebra.Builtin.Standard
import SymbolicAlgebra.Proofs.Effects
import SymbolicAlgebra.Proofs.Narrow

/-! The handlers of the standard operations. Apart from those that are named for their effects, every
one of them is quiet on each kind of nodes that has what they write into their results: what it makes of
arguments of the kind is again of it, and where it fails or declines nothing has changed. The expressions
of a vocabulary are such a kind, and so are the nodes whose numbers are narrow. -/

namespace SymbolicAlgebra

/-- A kind that has what the standard operations write into their results on their own account: narrow
numbers, booleans, the names that they apply, and the labels of their values. -/
structure Node.SuitedKind (K : Node → Prop) : Prop extends Node.Kind K where
  number {value : Number} : value.Narrow → K (.number value)
  boolean (value : Bool) : K (.boolean value)
  written {name : String} {args : List Node} :
    name ∈ Builtin.writtenNames → (∀ arg ∈ args, K arg) → K (.application name args)
  labels {name : String} : name ∈ Builtin.labellingNames → K (.application name []) →
    ∀ label ∈ Builtin.labels, K (.symbol label)

theorem Vocabulary.Suits.kind {V : Vocabulary} (hV : V.Suits) : Node.SuitedKind (Node.Within V) where
  toKind := V.kind
  number _ := Node.within_number _
  boolean := Node.within_boolean
  written hname hargs := Node.within_application.mpr ⟨hV.written _ hname, hargs⟩
  labels hname happlied label hlabel :=
    Node.within_symbol.mpr (hV.labels _ hname (Node.within_application.mp happlied).1 label hlabel)

theorem Node.narrowKind : Node.SuitedKind Node.Narrow where
  pair := Node.narrow_pair
  sequence := Node.narrow_sequence
  args := Node.narrow_application.mp
  applied _ := Node.narrow_application.mpr
  number := Node.narrow_number.mpr
  boolean _ := Node.everywhere_boolean.mpr trivial
  written _ := Node.narrow_application.mpr
  labels _ _ _ _ := Node.everywhere_symbol.mpr trivial

variable {K : Node → Prop}

namespace Node.SuitedKind

variable (hK : SuitedKind K)
include hK

theorem offered_number {value : Number} (h : value.Narrow) : Offered K (some (.number value)) :=
  offered_some (hK.number h)

theorem offered_boolean (value : Bool) : Offered K (some (.boolean value)) :=
  offered_some (hK.boolean value)

/-- An application of one of the written names to two nodes of the kind. -/
theorem call {name : String} (hname : name ∈ Builtin.writtenNames) {first second : Node} (hfirst : K first)
    (hsecond : K second) : K (.application name [first, second]) := by
  refine hK.written hname ?_
  rw [List.forall_mem_cons, List.forall_mem_singleton]
  exact ⟨hfirst, hsecond⟩

end Node.SuitedKind

/-! ### Operations by their number of arguments -/

namespace Operation

section Cases

variable {motive : List Node → Action Operation (Option Node) → Prop} (declines : ∀ args, motive args (.done none))
include declines

/-- An operation of one argument answers it, and declines any other number of arguments. -/
theorem unary_cases (name : String) (parameter : Parameter) {handler : Node → Action Operation (Option Node)}
    (answers : ∀ a, motive [a] (handler a)) (args : List Node) :
    motive args ((unary name parameter handler).handler args) := by
  match args with
  | [a] => exact answers a
  | [] => exact declines _
  | _ :: _ :: _ => exact declines _

theorem binary_cases (name : String) (first second : Parameter)
    {handler : Node → Node → Action Operation (Option Node)}
    (answers : ∀ a b, motive [a, b] (handler a b)) (args : List Node) :
    motive args ((binary name first second handler).handler args) := by
  match args with
  | [a, b] => exact answers a b
  | [] => exact declines _
  | [_] => exact declines _
  | _ :: _ :: _ :: _ => exact declines _

theorem ternary_cases (name : String) (first second third : Parameter)
    {handler : Node → Node → Node → Action Operation (Option Node)}
    (answers : ∀ a b c, motive [a, b, c] (handler a b c)) (args : List Node) :
    motive args ((ternary name first second third handler).handler args) := by
  match args with
  | [a, b, c] => exact answers a b c
  | [] => exact declines _
  | [_] => exact declines _
  | [_, _] => exact declines _
  | _ :: _ :: _ :: _ :: _ => exact declines _

end Cases

theorem quiet_unary (name : String) (parameter : Parameter)
    {handler : Node → Action Operation (Option Node)}
    (h : ∀ a, K a → (handler a).QuietOn K (Offered K)) :
    (unary name parameter handler).QuietOn K :=
  unary_cases (motive := fun args action => (∀ arg ∈ args, K arg) → action.QuietOn K (Offered K))
    (fun _ _ => .done offered_none) name parameter fun a hargs => h a (hargs a (by simp))

theorem quiet_binary (name : String) (first second : Parameter)
    {handler : Node → Node → Action Operation (Option Node)}
    (h : ∀ a b, K a → K b → (handler a b).QuietOn K (Offered K)) :
    (binary name first second handler).QuietOn K :=
  binary_cases (motive := fun args action => (∀ arg ∈ args, K arg) → action.QuietOn K (Offered K))
    (fun _ _ => .done offered_none) name first second fun a b hargs =>
      h a b (hargs a (by simp)) (hargs b (by simp))

theorem quiet_ternary (name : String) (first second third : Parameter)
    {handler : Node → Node → Node → Action Operation (Option Node)}
    (h : ∀ a b c, K a → K b → K c →
      (handler a b c).QuietOn K (Offered K)) :
    (ternary name first second third handler).QuietOn K :=
  ternary_cases (motive := fun args action => (∀ arg ∈ args, K arg) → action.QuietOn K (Offered K))
    (fun _ _ => .done offered_none) name first second third fun a b c hargs =>
      h a b c (hargs a (by simp)) (hargs b (by simp)) (hargs c (by simp))

theorem QuietOn.commutative {operation : Operation} (h : operation.QuietOn K) :
    operation.commutative.QuietOn K := h

theorem QuietOn.forwardCommutative {operation : Operation} (h : operation.QuietOn K) :
    operation.forwardCommutative.QuietOn K := h

theorem QuietOn.preservingArguments {operation : Operation} (h : operation.QuietOn K) :
    operation.preservingArguments.QuietOn K := h

/-- A binary operation that computes its offer from the arguments alone. -/
theorem quiet_pure (name : String) (first second : Parameter) {offer : Node → Node → Option Node}
    (h : ∀ a b, K a → K b → Offered K (offer a b)) :
    (binary name first second fun a b => .done (offer a b)).QuietOn K :=
  quiet_binary name first second fun a b ha hb => .done (h a b ha hb)

end Operation

open Operation SymbolicAlgebra.Action

namespace Builtin

variable (hK : Node.SuitedKind K)
include hK

/-! ### Arithmetic and comparisons -/

omit hK in
theorem quiet_onNumbers {compute : Number → Number → Except Failure Number}
    (hcompute : ∀ x y, Ensures (fun result => K (.number result)) (compute x y)) (a b : Node) :
    (onNumbers compute a b).QuietOn K (Offered K) := by
  refine (quiet_ofExcept (ensures_any a.asNumber)).bind fun x _ => ?_
  refine (quiet_ofExcept (ensures_any b.asNumber)).bind fun y _ => ?_
  exact (quiet_ofExcept (hcompute x y)).bind fun result hresult => .done (offered_some hresult)

omit hK in
theorem offers_addIdentity {a b : Node} (ha : K a) (hb : K b) :
    Offered K (addIdentity a b) := by
  unfold addIdentity
  split
  · exact offered_some hb
  · split
    · exact offered_some ha
    · exact offered_none

omit hK in
theorem offers_mulIdentity {a b : Node} (ha : K a) (hb : K b) :
    Offered K (mulIdentity a b) := by
  have ha := offered_some ha
  have hb := offered_some hb
  unfold mulIdentity
  split_ifs
  · exact ha
  · exact hb
  · exact hb
  · exact ha
  · exact offered_none

theorem offers_subIdentity {a b : Node} (ha : K a) (hb : K b) :
    Offered K (subIdentity a b) := by
  unfold subIdentity
  split_ifs
  · exact hK.offered_number (Number.narrow_ofInt 0)
  · exact offered_some ha
  · exact offered_some (hK.written (by decide) (List.forall_mem_singleton.mpr hb))
  · exact offered_none

omit hK in
theorem offers_divIdentity {a : Node} (b : Node) (ha : K a) :
    Offered K (divIdentity a b) := by
  unfold divIdentity
  split
  · exact offered_some ha
  · exact offered_none

theorem offers_powIdentity {a : Node} (b : Node) (ha : K a) :
    Offered K (powIdentity a b) := by
  unfold powIdentity
  split_ifs
  · exact offered_some ha
  · exact hK.offered_number (Number.narrow_ofInt 1)
  · exact offered_none

theorem offers_unwrap (operation : String) {a : Node} (ha : K a) :
    Offered K (unwrap operation a) := by
  unfold unwrap
  split
  · split
    · exact offered_some (hK.args ha _ (by simp))
    · exact offered_none
  · exact offered_none

theorem quiet_arithmetic : ∀ operation ∈ arithmetic, operation.QuietOn K := by
  simp only [arithmetic, List.forall_mem_cons, List.not_mem_nil, false_implies, implies_true, and_true]
  have honNumbers (name : String) {compute : Number → Number → Except Failure Number}
      (hcompute : ∀ x y, Ensures Number.Narrow (compute x y)) :
      (binary name .number .number (onNumbers compute)).QuietOn K :=
    quiet_binary name _ _ fun a b _ _ =>
      quiet_onNumbers (fun x y result hresult => hK.number (hcompute x y result hresult)) a b
  refine ⟨(honNumbers _ fun x y => ensures_ok (x.narrow_add y)).commutative,
    (quiet_pure _ _ _ fun _ _ => offers_addIdentity).commutative,
    (honNumbers _ fun x y => ensures_ok (x.narrow_mul y)).commutative,
    (quiet_pure _ _ _ fun _ _ => offers_mulIdentity).commutative,
    (honNumbers _ fun x y => ensures_ok (x.narrow_sub y)).forwardCommutative,
    (quiet_pure _ _ _ fun _ _ => offers_subIdentity hK).forwardCommutative,
    honNumbers _ Number.narrow_div, quiet_pure _ _ _ fun _ b ha _ => offers_divIdentity b ha,
    honNumbers _ Number.narrow_rem,
    honNumbers _ Number.narrow_pow, quiet_pure _ _ _ fun _ b ha _ => offers_powIdentity hK b ha, ?_, ?_, ?_⟩
  · refine quiet_unary _ _ fun a _ => ?_
    exact (quiet_ofExcept (ensures_any a.asNumber)).bind fun x _ => .done (hK.offered_number x.narrow_neg)
  · exact quiet_unary _ _ fun a ha => .done (offers_unwrap hK _ ha)
  · refine quiet_unary _ _ fun a _ => ?_
    refine (quiet_ofExcept (ensures_any a.asNumber)).bind fun x _ => ?_
    exact (quiet_ofExcept x.narrow_factorial).bind fun _ hresult => .done (hK.offered_number hresult)

theorem offers_map_boolean {α : Type} (outcome : Option α) (test : α → Bool) :
    Offered K (outcome.map fun a => .boolean (test a)) := by
  cases outcome with
  | none => exact offered_none
  | some a => exact hK.offered_boolean _

theorem quiet_ordering (test : Ordering → Bool) (a b : Node) :
    (ordering test a b).QuietOn K (Offered K) := by
  refine (quiet_ofExcept (ensures_any a.asNumber)).bind fun x _ => ?_
  refine (quiet_ofExcept (ensures_any b.asNumber)).bind fun y _ => ?_
  exact .done (offers_map_boolean hK _ test)

theorem quiet_comparison : ∀ operation ∈ comparison, operation.QuietOn K := by
  simp only [comparison, List.forall_mem_cons, List.not_mem_nil, false_implies, implies_true, and_true]
  have hordering (name : String) (test : Ordering → Bool) :
      (binary name .number .number (ordering test)).QuietOn K :=
    quiet_binary name _ _ fun a b _ _ => quiet_ordering hK test a b
  exact ⟨hordering _ _, hordering _ _, hordering _ _, hordering _ _,
    quiet_pure _ _ _ fun a b _ _ => offers_map_boolean hK (decideEquality a b) id,
    quiet_pure _ _ _ fun a b _ _ => offers_map_boolean hK (decideEquality a b) not⟩

/-! ### Connectives -/

theorem quiet_onBooleans (compute : Bool → Bool → Bool) (a b : Node) :
    (onBooleans compute a b).QuietOn K (Offered K) := by
  refine (quiet_ofExcept (ensures_any a.asBoolean)).bind fun p _ => ?_
  refine (quiet_ofExcept (ensures_any b.asBoolean)).bind fun q _ => ?_
  exact .done (hK.offered_boolean _)

omit hK in
theorem offers_shortCircuit (hboolean : ∀ value, K (.boolean value)) (absorbing : Bool) {a b : Node}
    (ha : K a) (hb : K b) : Offered K (shortCircuit absorbing a b) := by
  unfold shortCircuit
  split
  · exact offered_some (hboolean _)
  · split
    · exact offered_some (hboolean _)
    · exact offered_some hb
  · split
    · exact offered_some (hboolean _)
    · exact offered_some ha
  · exact offered_none

theorem offers_xorIdentity {a b : Node} (ha : K a) (hb : K b) :
    Offered K (xorIdentity a b) := by
  have hnegated {node : Node} (h : K node) :
      Offered K (some (.application "not" [node])) :=
    offered_some (hK.written (by decide) (List.forall_mem_singleton.mpr h))
  unfold xorIdentity
  split
  · exact offered_some hb
  · exact offered_some ha
  · exact hnegated hb
  · exact hnegated ha
  · exact offered_none

theorem quiet_logic : ∀ operation ∈ logic, operation.QuietOn K := by
  simp only [logic, List.forall_mem_cons, List.not_mem_nil, false_implies, implies_true, and_true]
  have honBooleans (name : String) (compute : Bool → Bool → Bool) :
      (binary name .boolean .boolean (onBooleans compute)).QuietOn K :=
    quiet_binary name _ _ fun a b _ _ => quiet_onBooleans hK compute a b
  refine ⟨(honBooleans _ _).commutative,
    (quiet_pure _ _ _ fun _ _ => offers_shortCircuit hK.boolean false).commutative,
    (honBooleans _ _).commutative,
    (quiet_pure _ _ _ fun _ _ => offers_shortCircuit hK.boolean true).commutative,
    honBooleans _ _, quiet_pure _ _ _ fun _ _ => offers_xorIdentity hK, ?_, ?_⟩
  · refine quiet_unary _ _ fun a _ => ?_
    exact (quiet_ofExcept (ensures_any a.asBoolean)).bind fun p _ => .done (hK.offered_boolean _)
  · exact quiet_unary _ _ fun a ha => .done (offers_unwrap hK _ ha)

/-! ### Control and reductions -/

omit hK in
theorem quiet_branch {condition ifTrue ifFalse : Node} (hcondition : K condition)
    (htrue : K ifTrue) (hfalse : K ifFalse) :
    (branch condition ifTrue ifFalse).QuietOn K (Offered K) := by
  refine (quiet_simplified hcondition).bind fun answer _ => ?_
  split
  · exact .done (offered_some htrue)
  · exact .done (offered_some hfalse)
  · exact .done offered_none

theorem quiet_repeated {node : Node} (times : Node) (hnode : K node) :
    (repeated node times).QuietOn K (Offered K) := by
  refine (quiet_ofExcept (ensures_any times.asInteger)).bind fun count _ => ?_
  split
  · exact .fail _
  · refine .done (hK.offered_sequence fun element helement => ?_)
    rw [List.eq_of_mem_replicate helement]
    exact hnode

theorem sum_of_kind {terms : List Node} (h : ∀ term ∈ terms, K term) : K (sum terms) := by
  unfold sum
  split
  · exact hK.number (Number.narrow_ofInt 0)
  · exact h _ (by simp)
  · exact hK.written (by decide) h

theorem ensures_mean {terms : List Node} (h : ∀ term ∈ terms, K term) :
    Ensures K (mean terms) := by
  unfold mean
  split
  · exact ensures_error _ _
  · refine (ensures_any (Guard.length terms.length)).bind fun count _ => ensures_ok ?_
    exact hK.call (by decide) (sum_of_kind hK h) (hK.number trivial)

omit hK in
theorem ensures_asSequence (hK : Node.Kind K) {list : Node} (h : K list) :
    Ensures (fun elements => ∀ element ∈ elements, K element) list.asSequence := by
  cases list with
  | sequence elements => exact ensures_ok (hK.sequence.mp h)
  | _ => exact ensures_error _ _

theorem quiet_reduction (name : String) {reduce : List Node → Except Failure (Option Node)}
    (h : ∀ terms : List Node, (∀ term ∈ terms, K term) → Ensures (Offered K) (reduce terms)) :
    ∀ operation ∈ reduction name reduce, operation.QuietOn K := by
  simp only [reduction, List.forall_mem_cons, List.not_mem_nil, false_implies, implies_true, and_true]
  refine ⟨quiet_unary _ _ fun list hlist => ?_, fun args hargs => quiet_ofExcept (h args hargs)⟩
  refine (quiet_ofExcept (ensures_asSequence hK.toKind hlist)).bind fun elements helements => ?_
  exact quiet_ofExcept (h elements helements)

theorem quiet_control :
    ∀ operation ∈ control, operation.name ∉ effectfulNames → operation.QuietOn K := by
  have hmean {terms : List Node} (hterms : ∀ term ∈ terms, K term) :
      Ensures (Offered K) ((mean terms).map some) := by
    intro outcome houtcome
    cases hresult : mean terms with
    | error failure =>
        rw [hresult] at houtcome
        cases houtcome
    | ok node =>
        rw [hresult] at houtcome
        cases houtcome
        exact offered_some (ensures_mean hK hterms node hresult)
  simp only [control, List.forall_mem_append, List.forall_mem_cons, List.not_mem_nil, false_implies,
    implies_true, and_true]
  have hno {name : String} {P : Prop} (hmem : name ∈ effectfulNames) (hnot : name ∉ effectfulNames) : P :=
    (hnot hmem).elim
  refine ⟨⟨⟨⟨hno (by decide), hno (by decide), hno (by decide), hno (by decide), fun _ => ?_, fun _ => ?_,
    fun _ => ?_, hno (by decide), hno (by decide), hno (by decide)⟩, ?_⟩, ?_⟩, ?_⟩
  · exact (quiet_ternary _ _ _ _ fun _ _ _ => quiet_branch).preservingArguments
  · exact fun args hargs => .done (hK.offered_sequence hargs)
  · exact quiet_binary _ _ _ fun node times hnode _ => quiet_repeated hK times hnode
  · exact fun operation h _ => quiet_reduction hK _
      (fun terms hterms => ensures_ok (offered_some (sum_of_kind hK hterms))) operation h
  · exact fun operation h _ => quiet_reduction hK _ (fun terms => hmean) operation h
  · exact fun operation h _ => quiet_reduction hK _ (fun terms => hmean) operation h

/-! ### Collections -/

omit hK in
/-- What is made of the elements of two lists pair by pair is of the kind if each of it is. -/
theorem zipWith_of_kind {make : Node → Node → Node} {xs ys : List Node}
    (hmake : ∀ x y, K x → K y → K (make x y))
    (hxs : ∀ x ∈ xs, K x) (hys : ∀ y ∈ ys, K y) :
    ∀ node ∈ List.zipWith make xs ys, K node := by
  rw [← List.map_uncurry_zip_eq_zipWith]
  intro node hnode
  obtain ⟨⟨x, y⟩, hpair, rfl⟩ := List.mem_map.mp hnode
  obtain ⟨hx, hy⟩ := List.of_mem_zip hpair
  exact hmake x y (hxs x hx) (hys y hy)

omit hK in
theorem ensures_elementAt {P : Node → Prop} {elements : List Node} (index : Int)
    (h : ∀ element ∈ elements, P element) :
    Ensures (fun outcome => ∀ node ∈ outcome, P node) (elementAt elements index) := by
  refine (ensures_any (Guard.index index elements.length)).bind fun position _ => ensures_ok ?_
  intro node hnode
  exact h node (List.mem_of_getElem? hnode)

theorem ensures_getElement {list : Node} (index : Node) (h : K list) :
    Ensures (Offered K) (getElement list index) :=
  (ensures_asSequence hK.toKind h).bind fun _ helements =>
    (ensures_any index.asInteger).bind fun place _ => ensures_elementAt place.toInt helements

omit hK in
theorem ensures_asPair (hK : Node.Kind K) {pair : Node} (h : K pair) :
    Ensures (fun halves => K halves.1 ∧ K halves.2) pair.asPair := by
  cases pair with
  | pair first second => exact ensures_ok (hK.pair.mp h)
  | _ => exact ensures_error _ _

theorem ensures_getHalf {pair : Node} (index : Node) (h : K pair) :
    Ensures (Offered K) (getHalf pair index) := by
  refine (ensures_asPair hK.toKind h).bind fun halves hhalves => ?_
  refine (ensures_any index.asInteger).bind fun place _ => ensures_elementAt place.toInt ?_
  rw [List.forall_mem_cons, List.forall_mem_singleton]
  exact hhalves

theorem ensures_zipped {xs ys : Node} (hxs : K xs) (hys : K ys) :
    Ensures (Offered K) (zipped xs ys) := by
  refine (ensures_asSequence hK.toKind hxs).bind fun first hfirst => ?_
  refine (ensures_asSequence hK.toKind hys).bind fun second hsecond => ?_
  refine (ensures_any (Guard.dimension first.length second.length)).bind fun _ _ => ensures_ok ?_
  have hpair (x y : Node) (hx : K x) (hy : K y) : K (.pair x y) :=
    hK.pair.mpr ⟨hx, hy⟩
  exact hK.offered_sequence (zipWith_of_kind hpair hfirst hsecond)

theorem ensures_firstElement {list : Node} (h : K list) :
    Ensures (Offered K) (firstElement list) :=
  (ensures_asSequence hK.toKind h).bind fun _ helements => ensures_elementAt 0 helements

theorem ensures_restOf {list : Node} (h : K list) : Ensures (Offered K) (restOf list) := by
  refine (ensures_asSequence hK.toKind h).bind fun elements helements => ?_
  refine (ensures_any (Guard.index 0 elements.length)).bind fun _ _ => ensures_ok ?_
  exact hK.offered_sequence fun element helement => helements element (List.mem_of_mem_drop helement)

theorem quiet_collection : ∀ operation ∈ collection, operation.QuietOn K := by
  simp only [collection, List.forall_mem_cons, List.not_mem_nil, false_implies, implies_true, and_true]
  refine ⟨fun args hargs => .done (hK.offered_sequence hargs),
    quiet_pure _ _ _ fun a b ha hb => offered_some (hK.pair.mpr ⟨ha, hb⟩),
    quiet_binary _ _ _ fun _ index hlist _ => quiet_ofExcept (ensures_getElement hK index hlist),
    quiet_binary _ _ _ fun _ index hpair _ => quiet_ofExcept (ensures_getHalf hK index hpair),
    quiet_unary _ _ fun list hlist => ?_, quiet_binary _ _ _ fun list element hlist helement => ?_,
    quiet_binary _ _ _ fun list element hlist _ => ?_, quiet_unary _ _ fun list hlist => ?_,
    quiet_binary _ _ _ fun _ _ hxs hys => quiet_ofExcept (ensures_zipped hK hxs hys),
    quiet_unary _ _ fun _ hlist => quiet_ofExcept (ensures_firstElement hK hlist),
    quiet_unary _ _ fun _ hlist => quiet_ofExcept (ensures_restOf hK hlist)⟩
  · refine (quiet_ofExcept (ensures_asSequence hK.toKind hlist)).bind fun elements _ => ?_
    refine (quiet_ofExcept (ensures_any (Guard.length elements.length))).bind fun count _ => ?_
    exact .done (hK.offered_number trivial)
  · refine (quiet_ofExcept (ensures_asSequence hK.toKind hlist)).bind fun elements helements => ?_
    refine .done (hK.offered_sequence fun other hother => ?_)
    rcases List.mem_append.mp hother with hother | hother
    · exact helements other hother
    · exact List.mem_singleton.mp hother ▸ helement
  · refine (quiet_ofExcept (ensures_asSequence hK.toKind hlist)).bind fun elements _ => ?_
    exact .done (hK.offered_boolean _)
  · refine (quiet_ofExcept (ensures_asSequence hK.toKind hlist)).bind fun elements helements => ?_
    exact .done (hK.offered_sequence fun element helement =>
      helements element (List.mem_reverse.mp helement))

/-! ### Statistics and vectors -/

theorem offers_labelled (hlabels : ∀ label ∈ labels, K (.symbol label)) (sample population : Float) :
    Offered K (some (labelled sample population)) := by
  have hlabelled {label : String} (hlabel : label ∈ labels) (value : Float) :
      K (.pair (.symbol label) (.real value)) :=
    hK.pair.mpr ⟨hlabels label hlabel, hK.number trivial⟩
  refine hK.offered_sequence ?_
  rw [List.forall_mem_cons, List.forall_mem_singleton]
  exact ⟨hlabelled (by decide) sample, hlabelled (by decide) population⟩

theorem ensures_variance (hlabels : ∀ label ∈ labels, K (.symbol label)) (list : Node) :
    Ensures (Offered K) (variance list) :=
  (ensures_any list.asReals).bind fun values _ =>
    (ensures_any (variances values)).bind fun _ _ => ensures_ok (offers_labelled hK hlabels _ _)

theorem ensures_standardDeviation (hlabels : ∀ label ∈ labels, K (.symbol label)) (list : Node) :
    Ensures (Offered K) (standardDeviation list) :=
  (ensures_any list.asReals).bind fun values _ =>
    (ensures_any (variances values)).bind fun spread _ =>
      (ensures_any (Guard.nonNegative spread.1)).bind fun _ _ =>
        ensures_ok (offers_labelled hK hlabels _ _)

omit hK in
/-- Numbers that are read off nodes of the kind are of the kind. -/
theorem kind_of_numbers? {nodes : List Node} (h : ∀ node ∈ nodes, K node) {values : List Number}
    (hvalues : numbers? nodes = some values) : ∀ value ∈ values, K (.number value) := by
  induction nodes generalizing values with
  | nil =>
      cases hvalues
      exact nofun
  | cons node rest ih =>
      rw [List.forall_mem_cons] at h
      cases node with
      | number value =>
          rw [numbers?, List.mapM_cons] at hvalues
          cases hrest : numbers? rest with
          | none =>
              rw [numbers?] at hrest
              simp [Node.number?, hrest] at hvalues
          | some others =>
              rw [numbers?] at hrest
              simp only [Node.number?, hrest] at hvalues
              cases hvalues
              exact List.forall_mem_cons.mpr ⟨h.1, ih h.2 hrest⟩
      | _ => simp [numbers?, Node.number?] at hvalues

omit hK in
/-- The extreme number is the first or one behind it. -/
theorem ensures_better (wanted : Ordering) {P : Number → Prop} {best : Number} {values : List Number}
    (hbest : P best) (hvalues : ∀ value ∈ values, P value) :
    Ensures P (values.foldlM (better wanted) best) := by
  induction values generalizing best with
  | nil => exact ensures_ok hbest
  | cons value rest ih =>
      rw [List.forall_mem_cons] at hvalues
      rw [List.foldlM_cons]
      have hbetter : Ensures P (better wanted best value) := by
        unfold better
        split
        · refine ensures_ok ?_
          split
          · exact hvalues.1
          · exact hbest
        · exact ensures_error _ _
      exact hbetter.bind fun next hnext => ih hnext hvalues.2

omit hK in
theorem ensures_extreme (wanted : Ordering) {nodes : List Node} (h : ∀ node ∈ nodes, K node) :
    Ensures (Offered K) (extreme wanted nodes) := by
  unfold extreme
  split
  · exact ensures_ok offered_none
  · exact ensures_error _ _
  · rename_i first rest hnumbers
    have hvalues := kind_of_numbers? h hnumbers
    rw [List.forall_mem_cons] at hvalues
    exact (ensures_better wanted hvalues.1 hvalues.2).bind fun best hbest => ensures_ok (offered_some hbest)

omit hK in
theorem sortNumbers_perm (values : List Number) : (sortNumbers values).Perm values := by
  have hinsert (a : Number) (values : List Number) : (insertNumber a values).Perm (a :: values) := by
    induction values with
    | nil => exact .refl _
    | cons b rest ih =>
        rw [insertNumber]
        split
        · exact .refl _
        · exact (ih.cons b).trans (.swap a b rest)
  induction values with
  | nil => exact .refl _
  | cons a rest ih => exact (hinsert a _).trans (ih.cons a)

theorem ensures_median {nodes : List Node} (h : ∀ node ∈ nodes, K node) :
    Ensures (Offered K) (median nodes) := by
  unfold median
  split
  · exact ensures_ok offered_none
  · rename_i values hnumbers
    have hvalues := kind_of_numbers? h hnumbers
    refine (ensures_any (checkSample values.length 1)).bind fun _ _ => ?_
    dsimp only
    split
    · refine ensures_ok fun node hnode => ?_
      obtain ⟨value, hvalue, rfl⟩ := Option.map_eq_some_iff.mp hnode
      exact hvalues value ((sortNumbers_perm values).mem_iff.mp (List.mem_of_getElem? hvalue))
    · split
      · exact (Number.narrow_div _ _).bind fun middle hmiddle => ensures_ok (hK.offered_number hmiddle)
      · exact ensures_ok offered_none

theorem quiet_statistics :
    ∀ operation ∈ statistics, K (.application operation.name []) → operation.QuietOn K := by
  simp only [statistics, List.forall_mem_append, List.forall_mem_cons, List.not_mem_nil, false_implies,
    implies_true, and_true]
  have hlabels {name : String} (hname : K (.application name [])) (hmem : name ∈ labellingNames) :
      ∀ label ∈ labels, K (.symbol label) :=
    hK.labels hmem hname
  refine ⟨⟨⟨fun _ => quiet_unary _ _ fun list _ => ?_,
    fun hname => quiet_unary _ _ fun list _ =>
      quiet_ofExcept (ensures_variance hK (hlabels hname (by decide)) list),
    fun hname => quiet_unary _ _ fun list _ =>
      quiet_ofExcept (ensures_standardDeviation hK (hlabels hname (by decide)) list),
    fun _ => quiet_unary _ _ fun list hlist => ?_⟩,
    fun operation h _ => quiet_reduction hK _ (fun _ => ensures_extreme _) operation h⟩,
    fun operation h _ => quiet_reduction hK _ (fun _ => ensures_extreme _) operation h⟩
  · refine (quiet_ofExcept (ensures_any list.asReals)).bind fun values _ => ?_
    refine (quiet_ofExcept (ensures_any (squaredDeviations values))).bind fun squares _ => ?_
    exact .done (hK.offered_number trivial)
  · refine (quiet_ofExcept (ensures_asSequence hK.toKind hlist)).bind fun elements helements => ?_
    exact quiet_ofExcept (ensures_median hK helements)

theorem product_of_kind {a b : Node} (ha : K a) (hb : K b) : K (product a b) :=
  hK.call (by decide) ha hb

theorem minor_of_kind {a b c d : Node} (ha : K a) (hb : K b) (hc : K c) (hd : K d) : K (minor a b c d) :=
  hK.call (by decide) (product_of_kind hK ha hd) (product_of_kind hK hc hb)

theorem ensures_dotProduct {a b : List Node} (ha : ∀ node ∈ a, K node)
    (hb : ∀ node ∈ b, K node) : Ensures K (dotProduct a b) := by
  refine (ensures_any (Guard.dimension a.length b.length)).bind fun _ _ => ensures_ok ?_
  refine hK.written (by decide) (List.forall_mem_singleton.mpr (hK.sequence.mpr ?_))
  exact zipWith_of_kind (fun _ _ => product_of_kind hK) ha hb

theorem ensures_crossProduct {a b : List Node} (ha : ∀ node ∈ a, K node)
    (hb : ∀ node ∈ b, K node) : Ensures K (crossProduct a b) := by
  refine (ensures_any (Guard.dimension a.length b.length)).bind fun _ _ => ?_
  split
  · simp only [List.forall_mem_cons] at ha hb
    exact ensures_ok (minor_of_kind hK ha.1 hb.1 ha.2.1 hb.2.1)
  · simp only [List.forall_mem_cons] at ha hb
    refine ensures_ok (hK.sequence.mpr ?_)
    simp only [List.forall_mem_cons, List.not_mem_nil, false_implies, implies_true, and_true]
    exact ⟨minor_of_kind hK ha.2.1 hb.2.1 ha.2.2.1 hb.2.2.1, minor_of_kind hK ha.2.2.1 hb.2.2.1 ha.1 hb.1,
      minor_of_kind hK ha.1 hb.1 ha.2.1 hb.2.1⟩
  · exact ensures_error _ _

theorem ensures_magnitude {v : Node} (h : K v) : Ensures (Offered K) (magnitude v) := by
  unfold magnitude
  split
  · exact ensures_ok (hK.offered_number trivial)
  · refine (ensures_asSequence hK.toKind h).bind fun elements helements => ?_
    refine (ensures_dotProduct hK helements helements).bind fun squares hsquares => ensures_ok ?_
    exact offered_some (hK.call (by decide) hsquares (hK.number trivial))

theorem quiet_vector : ∀ operation ∈ vector, operation.QuietOn K := by
  simp only [vector, List.forall_mem_cons, List.not_mem_nil, false_implies, implies_true, and_true]
  refine ⟨quiet_binary _ _ _ fun a b ha hb => ?_, quiet_binary _ _ _ fun a b ha hb => ?_,
    quiet_unary _ _ fun v hv => quiet_ofExcept (ensures_magnitude hK hv)⟩
  · refine (quiet_ofExcept (ensures_asSequence hK.toKind ha)).bind fun xs hxs => ?_
    refine (quiet_ofExcept (ensures_asSequence hK.toKind hb)).bind fun ys hys => ?_
    refine (quiet_ofExcept (ensures_dotProduct hK hxs hys)).bind fun result hresult => ?_
    exact .done (offered_some hresult)
  · refine (quiet_ofExcept (ensures_asSequence hK.toKind ha)).bind fun xs hxs => ?_
    refine (quiet_ofExcept (ensures_asSequence hK.toKind hb)).bind fun ys hys => ?_
    refine (quiet_ofExcept (ensures_crossProduct hK hxs hys)).bind fun result hresult => ?_
    exact .done (offered_some hresult)

end Builtin

end SymbolicAlgebra
