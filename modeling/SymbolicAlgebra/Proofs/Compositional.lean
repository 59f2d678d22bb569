import SymbolicAlgebra.Proofs.Confluence
import SymbolicAlgebra.Proofs.Rules

/-! Elementary expressions are simplified part by part. What an application of an elementary operator
becomes is a function of what its arguments become: a chain takes the normal form of their leaves, and
for the other operators it is what the operation offers, if anything. Put together over the tree this is
a total function, which leaves an application that fails as it is. Whatever the simplifier ends with, in
a scope whose variables are bound to literals, is the value of this function. -/

namespace SymbolicAlgebra

open Chain

/-- What an application becomes, given what its arguments have become. -/
def respond (name : String) (args : List Node) : Node :=
  match chainTypes.lookup name with
  | some τ => normalForm name τ (args.flatMap (leaves name))
  | none => again (attempt name args)

mutual

/-- What an expression becomes where the symbols stand for what `σ` gives for them. -/
def reduct (σ : String → Option Node) : Node → Node
  | .number a => .number a
  | .boolean p => .boolean p
  | .symbol name => (σ name).getD (.symbol name)
  | .application name args => respond name (reducts σ args)
  | .pair first second => .pair (reduct σ first) (reduct σ second)
  | .sequence elements => .sequence (reducts σ elements)

def reducts (σ : String → Option Node) : List Node → List Node
  | [] => []
  | node :: rest => reduct σ node :: reducts σ rest

end

/-- The symbols with a value stand for literals. -/
def Literals (σ : String → Option Node) : Prop :=
  ∀ name value, σ name = some value → ∃ v : Value, value = v.node

/-! ### Elementary expressions -/

section Names

theorem lookup_of_chain {name : String} {τ : ValueType} (hchain : (name, τ) ∈ chainTypes) :
    chainTypes.lookup name = some τ := by
  rcases chain_cases hchain with ⟨rfl, rfl⟩ | ⟨rfl, rfl⟩ | ⟨rfl, rfl⟩ | ⟨rfl, rfl⟩ <;> rfl

theorem lookup_of_plain {name : String} (hplain : name ∈ Builtin.plainNames) :
    chainTypes.lookup name = none := by
  revert name
  decide

theorem respond_chain {name : String} {τ : ValueType} (hchain : (name, τ) ∈ chainTypes)
    (args : List Node) : respond name args = normalForm name τ (args.flatMap (leaves name)) := by
  rw [respond, lookup_of_chain hchain]

theorem respond_plain {name : String} (hplain : name ∈ Builtin.plainNames) (args : List Node) :
    respond name args = again (attempt name args) := by
  rw [respond, lookup_of_plain hplain]

end Names

section Evaluate

variable (σ : String → Option Node)

theorem reducts_eq_map (nodes : List Node) : reducts σ nodes = nodes.map (reduct σ) := by
  induction nodes with
  | nil => rfl
  | cons node rest ih => rw [reducts, ih, List.map_cons]

theorem reduct_application (name : String) (args : List Node) :
    reduct σ (.application name args) = respond name (args.map (reduct σ)) := by
  rw [reduct, reducts_eq_map]

theorem reduct_sequence (elements : List Node) :
    reduct σ (.sequence elements) = .sequence (elements.map (reduct σ)) := by
  rw [reduct, reducts_eq_map]

theorem reduct_value (v : Value) : reduct σ v.node = v.node := by
  cases v <;> rfl

end Evaluate

/-! ### Reduced expressions -/

/-- Elementary expressions of which nothing simpler is made. -/
inductive Reduced (σ : String → Option Node) : Node → Prop
  | integer (x : Int) : Reduced σ (.number (.ofInt x))
  | boolean (p : Bool) : Reduced σ (.boolean p)
  | symbol {name : String} : σ name = none → Reduced σ (.symbol name)
  | sequence {elements : List Node} : (∀ element ∈ elements, Reduced σ element) →
      Reduced σ (.sequence elements)
  | chain {name : String} {τ : ValueType} {args : List Node} : (name, τ) ∈ chainTypes → 2 ≤ args.length →
      normalArgs name τ args = args → (∀ arg ∈ args, isApplicationOf name arg = false) →
      (∀ arg ∈ args, Reduced σ arg) → Reduced σ (.application name args)
  | plain {name : String} {args : List Node} : name ∈ Builtin.plainNames →
      Builtin.offered? name args = none → (∀ arg ∈ args, Reduced σ arg) → Reduced σ (.application name args)

namespace Reduced

variable {σ : String → Option Node} {node : Node}

theorem elementary (h : Reduced σ node) : node.Elementary := by
  induction h with
  | integer x => exact .integer x
  | boolean p => exact .boolean p
  | symbol _ => exact .symbol _
  | sequence _ ih => exact .sequence ih
  | chain hchain hlength _ _ _ ih => exact .chain hchain hlength ih
  | plain hplain _ _ ih => exact .plain hplain ih

theorem exact (h : Reduced σ node) : node.Exact := h.elementary.exact

theorem of_value (v : Value) : Reduced σ v.node := by
  cases v with
  | integer x => exact .integer x
  | boolean p => exact .boolean p

theorem of_sequence {elements : List Node} (h : Reduced σ (.sequence elements)) :
    ∀ element ∈ elements, Reduced σ element := by
  cases h with
  | sequence helements => exact helements

theorem of_application {name : String} {args : List Node} (h : Reduced σ (.application name args)) :
    ∀ arg ∈ args, Reduced σ arg := by
  cases h with
  | chain _ _ _ _ hargs => exact hargs
  | plain _ _ hargs => exact hargs

theorem of_chain {name : String} {τ : ValueType} {args : List Node} (hchain : (name, τ) ∈ chainTypes)
    (h : Reduced σ (.application name args)) :
    normalArgs name τ args = args ∧ 2 ≤ args.length ∧ ∀ arg ∈ args, isApplicationOf name arg = false := by
  cases h with
  | chain hchain' hlength hnormal hflat _ =>
      have hsame := (lookup_of_chain hchain).symm.trans (lookup_of_chain hchain')
      cases hsame
      exact ⟨hnormal, hlength, hflat⟩
  | plain hplain _ _ =>
      have hsame := (lookup_of_chain hchain).symm.trans (lookup_of_plain hplain)
      cases hsame

theorem of_plain {name : String} {args : List Node} (hplain : name ∈ Builtin.plainNames)
    (h : Reduced σ (.application name args)) : Builtin.offered? name args = none := by
  cases h with
  | chain hchain _ _ _ _ =>
      have hsame := (lookup_of_chain hchain).symm.trans (lookup_of_plain hplain)
      cases hsame
  | plain _ hnone _ => exact hnone

/-- There is nothing to try in a reduced expression. -/
theorem again_eq (h : Reduced σ node) : again node = node := by
  match node, h with
  | .application name [arg], .chain _ hlength _ _ _ => exact absurd hlength (by simp)
  | .application name [arg], .plain _ hnone _ => rw [again, attempt, hnone, Option.getD_none]
  | .application name [], _ => rfl
  | .application name (_ :: _ :: _), _ => rfl
  | .number _, _ => rfl
  | .boolean _, _ => rfl
  | .symbol _, _ => rfl
  | .sequence _, _ => rfl

/-! ### Chains -/

section Chains

variable {name : String} {τ : ValueType} (hchain : (name, τ) ∈ chainTypes)
include hchain

/-- The leaves of a reduced expression are reduced, and it is their normal form. -/
theorem leaves_spec (h : Reduced σ node) :
    normalForm name τ (leaves name node) = node ∧
      ∀ leaf ∈ leaves name node, Reduced σ leaf ∧ isApplicationOf name leaf = false := by
  cases hflat : isApplicationOf name node with
  | false =>
      rw [leaves_of_not_isApplicationOf hflat, List.forall_mem_singleton]
      exact ⟨normalForm_singleton hchain h.exact, h, hflat⟩
  | true =>
      match node, h, hflat with
      | .application inner args, h, hflat =>
          obtain rfl : inner = name := by simpa [isApplicationOf, Node.applied?] using hflat
          obtain ⟨hnormal, hlength, hflat⟩ := h.of_chain hchain
          rw [leaves_application, flatMap_leaves hflat, normalForm, hnormal, bundle_of_two_le hlength]
          exact ⟨rfl, fun arg harg => ⟨h.of_application arg harg, hflat arg harg⟩⟩

theorem leaves_flatMap {args : List Node} (hargs : ∀ arg ∈ args, Reduced σ arg) :
    ∀ leaf ∈ args.flatMap (leaves name), Reduced σ leaf ∧ isApplicationOf name leaf = false := by
  rw [List.forall_mem_flatMap]
  exact fun arg harg => ((hargs arg harg).leaves_spec hchain).2

/-- Reduced leaves have a reduced normal form. -/
theorem normalForm_of_leaves {xs : List Node}
    (hleaves : ∀ leaf ∈ xs, Reduced σ leaf ∧ isApplicationOf name leaf = false) :
    Reduced σ (normalForm name τ xs) := by
  have hvalue (v : Value) : Reduced σ v.node ∧ isApplicationOf name v.node = false := by
    refine ⟨.of_value v, ?_⟩
    cases v <;> rfl
  have hmem : ∀ node ∈ normalArgs name τ xs, Reduced σ node ∧ isApplicationOf name node = false := by
    intro node hnode
    rcases mem_normalArgs hnode with hleaf | rfl
    · exact hleaves node hleaf
    · exact hvalue _
  have hnormal : normalArgs name τ (normalArgs name τ xs) = normalArgs name τ xs :=
    (alike_normalArgs hchain xs).normalArgs_eq fun node hnode => (hmem node hnode).1.exact
  rw [normalForm]
  rcases hargs : normalArgs name τ xs with _ | ⟨node, _ | ⟨other, rest⟩⟩
  · exact (normalArgs_ne_nil hargs).elim
  · exact (hmem node (by simp [hargs])).1
  · rw [hargs] at hmem hnormal
    exact .chain hchain (by simp) hnormal (fun node hnode => (hmem node hnode).2)
      fun node hnode => (hmem node hnode).1

theorem respond_of_chain {args : List Node} (hargs : ∀ arg ∈ args, Reduced σ arg) :
    Reduced σ (respond name args) := by
  rw [respond_chain hchain]
  exact normalForm_of_leaves hchain (leaves_flatMap hchain hargs)

end Chains

/-! ### Other operators -/

/-- What a negation or a complement becomes. -/
theorem attempt_involution {name : String} (hname : name = "negate" ∨ name = "not") (h : Reduced σ node) :
    Reduced σ (attempt name [node]) := by
  cases hoffered : Builtin.offered? name [node] with
  | none =>
      rw [attempt, hoffered, Option.getD_none]
      exact .plain (Builtin.plain_of_involution hname) hoffered (List.forall_mem_singleton.mpr h)
  | some offer =>
      rw [attempt_of_offered hoffered]
      rcases Builtin.involution_cases hname h.exact hoffered with ⟨_, w, _, rfl, _⟩ | rfl
      · exact .of_value w
      · exact h.of_application offer List.mem_cons_self

/-- What a rule makes of reduced arguments is reduced, or the negation or complement of a reduced
expression. -/
theorem of_rule {name : String} {args : List Node} {offer : Node} (h : Rule name args offer)
    (hargs : ∀ arg ∈ args, Reduced σ arg) :
    Reduced σ offer ∨ ∃ inner b, (inner = "negate" ∨ inner = "not") ∧ offer = .application inner [b] ∧
      Reduced σ b := by
  cases h with
  | subtract x y => exact .inl (.integer _)
  | cancel a => exact .inl (.integer _)
  | subtractZero a => exact .inl (hargs _ List.mem_cons_self)
  | subtractFromZero b => exact .inr ⟨_, b, .inl rfl, rfl, hargs b (by simp)⟩
  | negate x => exact .inl (.integer _)
  | complement p => exact .inl (.boolean _)
  | unwrap a hname => exact .inl ((hargs _ List.mem_cons_self).of_application _ List.mem_cons_self)
  | exclude p q => exact .inl (.boolean _)
  | falseLeft b => exact .inl (hargs _ (by simp))
  | falseRight a => exact .inl (hargs _ List.mem_cons_self)
  | trueLeft b => exact .inr ⟨_, b, .inr rfl, rfl, hargs b (by simp)⟩
  | trueRight a => exact .inr ⟨_, a, .inr rfl, rfl, hargs a List.mem_cons_self⟩
  | compare x y hname => exact .inl (.boolean _)
  | equal a hname => exact .inl (.boolean _)
  | different hname hdifferent => exact .inl (.boolean _)
  | get helement =>
      exact .inl ((hargs _ List.mem_cons_self).of_sequence _ (Builtin.mem_of_element helement))
  | first helement =>
      exact .inl ((hargs _ List.mem_cons_self).of_sequence _ (Builtin.mem_of_element helement))
  | rest hindex =>
      refine .inl (.sequence fun element helement => ?_)
      exact (hargs _ List.mem_cons_self).of_sequence element (List.mem_of_mem_drop helement)
  | size hcount =>
      rw [← Number.ofInt_toInt]
      exact .inl (.integer _)
  | reverse elements =>
      refine .inl (.sequence fun element helement => ?_)
      exact (hargs _ List.mem_cons_self).of_sequence element (List.mem_reverse.mp helement)
  | append elements element =>
      rw [List.forall_mem_cons, List.forall_mem_singleton] at hargs
      refine .inl (.sequence (List.forall_mem_append.mpr ⟨hargs.1.of_sequence, ?_⟩))
      exact List.forall_mem_singleton.mpr hargs.2
  | contains elements element => exact .inl (.boolean _)

/-- Once a negation in it is worked out, what a rule makes of reduced arguments is reduced. -/
theorem again_of_rule {name : String} {args : List Node} {offer : Node} (h : Rule name args offer)
    (hargs : ∀ arg ∈ args, Reduced σ arg) : Reduced σ (again offer) := by
  rcases of_rule h hargs with hreduced | ⟨inner, b, hinner, rfl, hb⟩
  · rwa [hreduced.again_eq]
  · exact attempt_involution hinner hb

theorem respond_of_plain {name : String} (hplain : name ∈ Builtin.plainNames) {args : List Node}
    (hargs : ∀ arg ∈ args, Reduced σ arg) : Reduced σ (respond name args) := by
  rw [respond_plain hplain]
  cases hoffered : Builtin.offered? name args with
  | none =>
      have hreduced : Reduced σ (.application name args) := .plain hplain hoffered hargs
      rwa [attempt, hoffered, Option.getD_none, hreduced.again_eq]
  | some offer =>
      rw [attempt_of_offered hoffered]
      have hrule := Builtin.rule_of_offered hplain (fun arg harg => (hargs arg harg).elementary) hoffered
      exact again_of_rule hrule hargs

end Reduced

/-- What an elementary expression becomes is reduced. -/
theorem reduced_reduct {σ : String → Option Node} (hσ : Literals σ) {e : Node} (he : e.Elementary) :
    Reduced σ (reduct σ e) := by
  induction he with
  | integer x => exact .integer x
  | boolean p => exact .boolean p
  | symbol name =>
      rw [reduct]
      cases hvalue : σ name with
      | none => exact .symbol hvalue
      | some value =>
          obtain ⟨v, rfl⟩ := hσ name value hvalue
          exact .of_value v
  | sequence _ ih =>
      rw [reduct_sequence]
      exact .sequence (List.forall_mem_map.mpr ih)
  | chain hchain _ _ ih =>
      rw [reduct_application]
      exact .respond_of_chain hchain (List.forall_mem_map.mpr ih)
  | plain hplain _ ih =>
      rw [reduct_application]
      exact .respond_of_plain hplain (List.forall_mem_map.mpr ih)

/-- A reduced expression stays as it is. -/
theorem Reduced.reduct_eq {σ : String → Option Node} {node : Node} (h : Reduced σ node) :
    reduct σ node = node := by
  have hmap {nodes : List Node} (h : ∀ node ∈ nodes, reduct σ node = node) : nodes.map (reduct σ) = nodes :=
    (List.map_congr_left h).trans (List.map_id' nodes)
  induction h with
  | integer x => rfl
  | boolean p => rfl
  | symbol hfree => rw [reduct, hfree, Option.getD_none]
  | sequence _ ih => rw [reduct_sequence, hmap ih]
  | @chain name τ args hchain hlength hnormal hflat hargs ih =>
      have hleaves := ((Reduced.chain hchain hlength hnormal hflat hargs).leaves_spec hchain).1
      rw [reduct_application, hmap ih, respond_chain hchain, ← leaves_application, hleaves]
  | @plain name args hplain hnone hargs ih =>
      have hreduced : Reduced σ (.application name args) := .plain hplain hnone hargs
      rw [reduct_application, hmap ih, respond_plain hplain, attempt, hnone, Option.getD_none,
        hreduced.again_eq]

/-! ### The simplifier -/

/-- The offer of a rule is an elementary expression, which becomes what it is when it is tried in turn. -/
theorem reduct_offer {σ : String → Option Node} {name : String} {args : List Node} {offer : Node}
    (h : Rule name args offer) (hargs : ∀ arg ∈ args, Reduced σ arg) :
    offer.Elementary ∧ reduct σ offer = again offer := by
  rcases Reduced.of_rule h hargs with hreduced | ⟨inner, b, hinner, rfl, hb⟩
  · exact ⟨hreduced.elementary, hreduced.reduct_eq.trans hreduced.again_eq.symm⟩
  · have hplain := Builtin.plain_of_involution hinner
    refine ⟨.plain hplain (List.forall_mem_singleton.mpr hb.elementary), ?_⟩
    rw [reduct_application, List.map_singleton, hb.reduct_eq, respond_plain hplain,
      (Reduced.attempt_involution hinner hb).again_eq]
    rfl

/-- An application goes through its arguments: with other arguments that become the same, it becomes the
same. -/
theorem Step.of_application {scope : Scope} {R : Node → Node → Prop} {name : String} {args : List Node}
    {r : Node} (hpreserves : ¬scope.registry.preservesArguments name)
    (h : Step scope R (.application name args) r) :
    ∃ reduced, List.Forall₂ R args reduced ∧
      ∀ args', List.Forall₂ R args' reduced → Step scope R (.application name args') r := by
  have hsimplified {prepared : List Node} (h : Prepares scope.registry R name args prepared) :
      ∃ reduced, List.Forall₂ R args reduced ∧
        ∀ args', List.Forall₂ R args' reduced → Prepares scope.registry R name args' prepared := by
    cases h with
    | preserved h => exact (hpreserves h).elim
    | @simplified reduced _ hreduced => exact ⟨reduced, hreduced, fun _ => .simplified hpreserves⟩
  cases h with
  | rewritten hname hprepares hoffer hresult =>
      obtain ⟨reduced, hreduced, hagain⟩ := hsimplified hprepares
      exact ⟨reduced, hreduced, fun args' h => .rewritten hname (hagain args' h) hoffer hresult⟩
  | undecided hname hprepares hnone hsmall =>
      obtain ⟨reduced, hreduced, hagain⟩ := hsimplified hprepares
      exact ⟨reduced, hreduced, fun args' h => .undecided hname (hagain args' h) hnone hsmall⟩
  | regrouped hname hprepares hnone hlong hcommutative hgrouped =>
      obtain ⟨reduced, hreduced, hagain⟩ := hsimplified hprepares
      exact ⟨reduced, hreduced, fun args' h =>
        .regrouped hname (hagain args' h) hnone hlong hcommutative hgrouped⟩

section Simplifier

variable {scope : Scope} {room : Nat} (hstandard : scope.registry = Builtin.standard)
include hstandard

/-- A reduced argument of a chain that becomes itself is a tree of items. -/
theorem tree_of_reduced {σ : String → Option Node} {name : String} {τ : ValueType}
    (hchain : (name, τ) ∈ chainTypes) {node : Node} (hnode : Reduced σ node)
    (hsettled : Settled scope.registry (Reduces scope room) node) : Tree name (Item scope name) node := by
  cases hflat : isApplicationOf name node with
  | false => exact .leaf hflat ⟨hnode.exact, hflat, room, hsettled.same⟩
  | true =>
      match node, hnode, hsettled, hflat with
      | .application inner args, hnode, hsettled, hflat =>
          obtain rfl : inner = name := by simpa [isApplicationOf, Node.applied?] using hflat
          obtain ⟨_, hlength, hflats⟩ := hnode.of_chain hchain
          have hpreserves : ¬scope.registry.preservesArguments inner := by
            rw [hstandard]
            exact (Builtin.foldsByPairs_standard inner (commutative_of_chain hchain)).1
          refine .branch hlength fun arg harg => .leaf (hflats arg harg) ?_
          exact ⟨(hnode.of_application arg harg).exact, hflats arg harg, room,
            (hsettled.of_mem hpreserves arg harg).same⟩

theorem not_preservesArguments {name : String} {args : List Node}
    (h : (Node.application name args).Elementary) : ¬scope.registry.preservesArguments name := by
  have hplain : ∀ name ∈ Builtin.plainNames, Builtin.standard.preservesArguments name = false := by
    decide +kernel
  rw [hstandard]
  cases h with
  | chain hchain _ _ => exact (Builtin.foldsByPairs_standard name (commutative_of_chain hchain)).1
  | plain hname _ =>
      rw [hplain name hname]
      exact Bool.false_ne_true

theorem arrange_of_plain {name : String} (hplain : name ∈ Builtin.plainNames) (args : List Node) :
    scope.registry.isCommutative name = false ∧ arrange scope.registry name args = args := by
  have hordered : ∀ name ∈ Builtin.plainNames, Builtin.standard.isCommutative name = false := by
    decide +kernel
  rw [hstandard, arrange, hordered name hplain]
  exact ⟨rfl, rfl⟩

/-- An application of an operator that is no chain becomes what the operator makes of its arguments. -/
theorem eq_respond_of_step {σ : String → Option Node} {R : Node → Node → Prop} {name : String}
    {args : List Node} {r : Node} (hplain : name ∈ Builtin.plainNames)
    (hlevel : ∀ e r, R e r → e.Elementary → r = reduct σ e)
    (hargs : ∀ arg ∈ args, Reduced σ arg) (h : Step scope R (.application name args) r) :
    r = respond name args := by
  have helementary : (Node.application name args).Elementary :=
    .plain hplain fun arg harg => (hargs arg harg).elementary
  have hprepared {prepared : List Node} (h : Prepares scope.registry R name args prepared) :
      prepared = args := by
    cases h with
    | preserved h => exact (not_preservesArguments hstandard helementary h).elim
    | @simplified reduced _ hreduced =>
        have hmap := eq_map_of_forall₂ hreduced fun arg harg result hresult =>
          hlevel arg result hresult (hargs arg harg).elementary
        rw [(arrange_of_plain hstandard hplain reduced).2, hmap]
        exact (List.map_congr_left fun arg harg => (hargs arg harg).reduct_eq).trans (List.map_id' args)
  rw [respond_plain hplain]
  cases h with
  | rewritten _ hprepares hoffer hresult =>
      rw [hprepared hprepares, hstandard] at hoffer
      have hoffered := (Builtin.outcome_eq_offered hplain hoffer).symm
      have hrule := Builtin.rule_of_offered hplain (fun arg harg => (hargs arg harg).elementary) hoffered
      obtain ⟨hoffer, hagain⟩ := reduct_offer hrule hargs
      rw [attempt_of_offered hoffered, ← hagain]
      exact hlevel _ _ hresult hoffer
  | undecided _ hprepares hnone _ =>
      rw [hprepared hprepares, hstandard] at hnone
      have hnothing := (Builtin.outcome_eq_offered hplain hnone).symm
      rw [hprepared hprepares, attempt, hnothing, Option.getD_none]
      exact (Reduced.plain hplain hnothing hargs).again_eq.symm
  | regrouped _ _ _ _ hcommutative _ =>
      rw [(arrange_of_plain hstandard hplain args).1] at hcommutative
      cases hcommutative

/-- **Simplification is compositional.** Where the variables are bound to literals, whatever the simplifier
ends with for an elementary expression is the value of `reduct`. -/
theorem eq_reduct_of_reduces (hvalues : Literals scope.bindings.get?) {e r : Node} (he : e.Elementary)
    (h : Reduces scope room e r) : r = reduct scope.bindings.get? e := by
  induction room generalizing e r with
  | zero => exact h.elim
  | succ room ih =>
      have hlevel (e r : Node) (h : Reduces scope room e r) (he : e.Elementary) :
          r = reduct scope.bindings.get? e := ih he h
      cases e with
      | number a =>
          cases h
          rfl
      | boolean p =>
          cases h
          rfl
      | symbol name =>
          cases h with
          | free hfree => rw [reduct, hfree, Option.getD_none]
          | bound hbound hresult =>
              obtain ⟨v, rfl⟩ := hvalues name _ hbound
              rw [hlevel _ r hresult (.of_value v), reduct_value, reduct, hbound, Option.getD_some]
      | pair first second => cases he
      | sequence elements =>
          cases h with
          | sequence helements =>
              rw [reduct_sequence, eq_map_of_forall₂ helements fun element helement result hresult =>
                hlevel element result hresult (he.of_sequence element helement)]
      | application name args =>
          obtain ⟨reduced, hreduced, hagain⟩ := Step.of_application (not_preservesArguments hstandard he) h
          have hpairs : scope.registry.FoldsByPairs := by
            rw [hstandard]
            exact Builtin.foldsByPairs_standard
          have hsettled := settled_of_forall₂ (fun _ _ h => Reduces.settled hpairs h) hreduced
          have hstep := hagain reduced (forall₂_of_settled hsettled)
          have hmap := eq_map_of_forall₂ hreduced fun arg harg result hresult =>
            hlevel arg result hresult (he.of_application arg harg)
          have hargs : ∀ arg ∈ reduced, Reduced scope.bindings.get? arg := by
            rw [hmap, List.forall_mem_map]
            exact fun arg harg => reduced_reduct hvalues (he.of_application arg harg)
          rw [reduct_application, ← hmap]
          cases he with
          | chain hchain hlength _ =>
              rw [respond_chain hchain, ← leaves_application]
              have hreduces : Reduces scope (room + 1) (.application name reduced) r := hstep
              refine eq_normalForm_of_reduces hstandard hchain hreduces (.branch ?_ ?_)
              · rwa [hmap, List.length_map]
              · exact fun arg harg => tree_of_reduced hstandard hchain (hargs arg harg) (hsettled arg harg)
          | plain hplain _ => exact eq_respond_of_step hstandard hplain hlevel hargs hstep

end Simplifier

end SymbolicAlgebra
