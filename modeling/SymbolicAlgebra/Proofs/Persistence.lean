import SymbolicAlgebra.Proofs.Agreement
import SymbolicAlgebra.Proofs.Compositional

/-! What is decided stays decided. Binding more symbols in what an expression has become comes to the same
as binding them in the expression: the rules of the elementary operators and the normal forms of chains
commute with it. The one exception is a membership that is denied while it is still open. So a boolean or
an integer, once it has been found, is found under every later binding as well. -/

namespace SymbolicAlgebra

open Builtin Chain

/-! ### Negations -/

section Involution

variable {σ : String → Option Node} {name : String} {node : Node}

/-- Negating twice changes nothing. -/
theorem attempt_attempt (hname : name = "negate" ∨ name = "not") (h : Reduced σ node) :
    attempt name [attempt name [node]] = node := by
  cases hoffered : offered? name [node] with
  | none =>
      rw [show attempt name [node] = .application name [node] by rw [attempt, hoffered, Option.getD_none]]
      exact attempt_of_offered (offered_unwrap hname node)
  | some offer =>
      rw [attempt_of_offered hoffered]
      rcases involution_cases hname h.exact hoffered with ⟨v, w, rfl, rfl, hback⟩ | rfl
      · exact attempt_of_offered hback
      · rw [attempt, h.of_plain (plain_of_involution hname), Option.getD_none]

end Involution

/-! ### Later bindings -/

section Later

variable {now later : String → Option Node} (hlater : Literals later)

/-- The symbols that have a value keep it. -/
def Extends (now later : String → Option Node) : Prop :=
  ∀ name value, now name = some value → later name = some value

theorem respond_involution {name : String} (hname : name = "negate" ∨ name = "not") {node : Node}
    (h : Reduced later node) : respond name [node] = attempt name [node] := by
  rw [respond_plain (plain_of_involution hname), (Reduced.attempt_involution hname h).again_eq]

include hlater

/-- A negation may be worked out before more symbols are bound. -/
theorem reduct_attempt {name : String} (hname : name = "negate" ∨ name = "not") {node : Node}
    (h : Reduced now node) :
    reduct later (attempt name [node]) = attempt name [reduct later node] := by
  have hreduct {node : Node} (h : Reduced now node) :
      reduct later (.application name [node]) = attempt name [reduct later node] := by
    rw [reduct_application, List.map_singleton,
      respond_involution hname (reduced_reduct hlater h.elementary)]
  cases hoffered : offered? name [node] with
  | none => rw [attempt, hoffered, Option.getD_none, hreduct h]
  | some offer =>
      rw [attempt_of_offered hoffered]
      rcases involution_cases hname h.exact hoffered with ⟨v, w, rfl, rfl, hback⟩ | rfl
      · rw [reduct_value, reduct_value, attempt_of_offered hoffered]
      · have hoffer : Reduced now offer := h.of_application offer List.mem_cons_self
        rw [hreduct hoffer, attempt_attempt hname (reduced_reduct hlater hoffer.elementary)]

omit hlater in
/-- Later bindings do not touch what has no symbols. -/
theorem reduct_of_isGround {node : Node} (h : Reduced now node) (hground : node.isGround) :
    reduct later node = node := by
  have hall {nodes : List Node} (hground : Node.allGround nodes)
      (h : ∀ node ∈ nodes, node.isGround → reduct later node = node) : nodes.map (reduct later) = nodes := by
    induction nodes with
    | nil => rfl
    | cons node rest ih =>
        rw [Node.allGround, Bool.and_eq_true] at hground
        rw [List.forall_mem_cons] at h
        rw [List.map_cons, h.1 hground.1, ih hground.2 h.2]
  induction h with
  | integer x => rfl
  | boolean p => rfl
  | symbol _ => cases hground
  | sequence _ ih => rw [reduct_sequence, hall hground ih]
  | chain _ _ _ _ _ _ => cases hground
  | plain _ _ _ _ => cases hground

omit hlater in
/-- Nor what has been decided to be different. -/
theorem reduct_of_different {a b : Node} (ha : Reduced now a) (hb : Reduced now b)
    (h : decideEquality a b = some false) : reduct later a = a ∧ reduct later b = b := by
  rw [decideEquality] at h
  split at h
  · cases h
  · split at h
    · rename_i x y hx hy
      rw [eq_of_number? hx, eq_of_number? hy]
      exact ⟨rfl, rfl⟩
    · split_ifs at h with hground
      rw [Bool.and_eq_true] at hground
      exact ⟨reduct_of_isGround ha hground.1, reduct_of_isGround hb hground.2⟩

/-- The membership of the element is settled: it stands in the list, or it is decided to be different from
everything there. -/
def MembershipDecided (elements : List Node) (element : Node) : Prop :=
  (∃ other ∈ elements, other == element) ∨ ∀ other ∈ elements, decideEquality other element = some false

/-- A settled membership has one answer whatever is bound later. -/
theorem contains_map {elements : List Node} {element : Node}
    (helements : ∀ other ∈ elements, Reduced now other) (helement : Reduced now element)
    (hdecided : MembershipDecided elements element) :
    (elements.map (reduct later)).any (· == reduct later element) = elements.any (· == element) := by
  rw [Bool.eq_iff_iff, List.any_eq_true, List.any_eq_true]
  rcases hdecided with ⟨other, hmem, hsame⟩ | hdifferent
  · obtain rfl := (Node.same_iff helement.exact).mp hsame
    have hexact := (reduced_reduct hlater helement.elementary).exact
    exact iff_of_true ⟨_, List.mem_map_of_mem hmem, (Node.same_iff hexact).mpr rfl⟩ ⟨other, hmem, hsame⟩
  · have hfixed (other : Node) (hmem : other ∈ elements) :=
      @reduct_of_different now later _ _ (helements other hmem) helement (hdifferent other hmem)
    constructor
    · rintro ⟨_, hmem, hsame⟩
      obtain ⟨other, hother, rfl⟩ := List.mem_map.mp hmem
      rw [(hfixed other hother).1, (hfixed other hother).2] at hsame
      exact ⟨other, hother, hsame⟩
    · rintro ⟨other, hother, hsame⟩
      refine ⟨_, List.mem_map_of_mem hother, ?_⟩
      rwa [(hfixed other hother).1, (hfixed other hother).2]

/-- Symbols may be bound after a rule has been applied. -/
theorem reduct_again_of_rule {name : String} {args : List Node} {offer : Node} (hplain : name ∈ plainNames)
    (h : Rule name args offer) (hargs : ∀ arg ∈ args, Reduced now arg)
    (hdecided : ∀ elements element, name = "contains" → args = [.sequence elements, element] →
      MembershipDecided elements element) :
    reduct later (again offer) = respond name (args.map (reduct later)) := by
  have hreduced : ∀ arg ∈ args, Reduced later (reduct later arg) :=
    fun arg harg => reduced_reduct hlater (hargs arg harg).elementary
  have hagain {other : Node} (h : Rule name (args.map (reduct later)) other)
      (heq : reduct later (again offer) = again other) :
      reduct later (again offer) = respond name (args.map (reduct later)) := by
    rw [respond_plain hplain, h.again_attempt, heq]
    exact List.forall_mem_map.mpr fun arg harg => (hreduced arg harg).exact
  have hsame (hoffer : Reduced now offer) (h : Rule name (args.map (reduct later)) (reduct later offer)) :
      reduct later (again offer) = respond name (args.map (reduct later)) := by
    refine hagain h ?_
    rw [hoffer.again_eq, (reduced_reduct hlater hoffer.elementary).again_eq]
  have hoffer := Reduced.of_rule h hargs
  cases h with
  | subtract x y => exact hsame (.integer _) (.subtract x y)
  | cancel a => exact hsame (.integer _) (.cancel _)
  | subtractZero a => exact hsame (hargs _ List.mem_cons_self) (.subtractZero _)
  | subtractFromZero b =>
      exact hagain (.subtractFromZero _) (reduct_attempt hlater (.inl rfl) (hargs b (by simp)))
  | negate x => exact hsame (.integer _) (.negate x)
  | complement p => exact hsame (.boolean _) (.complement p)
  | unwrap a hname =>
      have ha : Reduced now offer := (hargs _ List.mem_cons_self).of_application _ List.mem_cons_self
      have ha' := reduced_reduct hlater ha.elementary
      rw [ha.again_eq, List.map_singleton, reduct_application, List.map_singleton,
        respond_involution hname ha', respond_involution hname (Reduced.attempt_involution hname ha'),
        attempt_attempt hname ha']
  | exclude p q => exact hsame (.boolean _) (.exclude p q)
  | falseLeft b => exact hsame (hargs _ (by simp)) (.falseLeft _)
  | falseRight a => exact hsame (hargs _ List.mem_cons_self) (.falseRight _)
  | trueLeft b =>
      exact hagain (.trueLeft _) (reduct_attempt hlater (.inr rfl) (hargs b (by simp)))
  | trueRight a =>
      exact hagain (.trueRight _) (reduct_attempt hlater (.inr rfl) (hargs a List.mem_cons_self))
  | compare x y hname => exact hsame (.boolean _) (.compare x y hname)
  | equal a hname => exact hsame (.boolean _) (.equal _ hname)
  | different hname hdifferent =>
      rw [List.forall_mem_cons, List.forall_mem_singleton] at hargs
      obtain ⟨ha, hb⟩ := @reduct_of_different now later _ _ hargs.1 hargs.2 hdifferent
      refine hsame (.boolean _) ?_
      rw [List.map_cons, List.map_singleton, ha, hb]
      exact .different hname hdifferent
  | get helement =>
      refine hsame ((hargs _ List.mem_cons_self).of_sequence _ (mem_of_element helement)) ?_
      rw [List.map_cons, reduct_sequence]
      exact .get (by rw [element_map, helement]; rfl)
  | first helement =>
      refine hsame ((hargs _ List.mem_cons_self).of_sequence _ (mem_of_element helement)) ?_
      rw [List.map_cons, reduct_sequence]
      exact .first (by rw [element_map, helement]; rfl)
  | @rest elements hindex =>
      refine hsame (hoffer.resolve_right (by simp)) ?_
      rw [List.map_singleton, reduct_sequence, reduct_sequence, List.map_drop]
      exact .rest (by rwa [List.length_map])
  | @size elements count hcount =>
      refine hsame (hoffer.resolve_right (by simp)) ?_
      rw [List.map_singleton, reduct_sequence]
      exact .size (by rwa [List.length_map])
  | reverse elements =>
      refine hsame (hoffer.resolve_right (by simp)) ?_
      rw [List.map_singleton, reduct_sequence, reduct_sequence, List.map_reverse]
      exact .reverse _
  | append elements element =>
      refine hsame (hoffer.resolve_right (by simp)) ?_
      rw [List.map_cons, List.map_singleton, reduct_sequence, reduct_sequence, List.map_append,
        List.map_singleton]
      exact .append _ _
  | contains elements element =>
      rw [List.forall_mem_cons, List.forall_mem_singleton] at hargs
      refine hsame (.boolean _) ?_
      rw [List.map_cons, List.map_singleton, reduct_sequence, reduct,
        ← contains_map hlater hargs.1.of_sequence hargs.2 (hdecided elements element rfl rfl)]
      exact .contains _ _

/-! ### Chains -/

/-- The leaves of what a node becomes. -/
def reductLeaves (σ : String → Option Node) (name : String) (node : Node) : List Node :=
  leaves name (reduct σ node)

omit hlater in
theorem reductLeaves_value (σ : String → Option Node) (name : String) (v : Value) :
    reductLeaves σ name v.node = [v.node] := by
  rw [reductLeaves, reduct_value]
  refine leaves_of_not_isApplicationOf ?_
  cases v <;> rfl

section Chain

variable {name : String} {τ : ValueType} (hchain : (name, τ) ∈ chainTypes)
include hchain

theorem reductLeaves_flatMap {nodes : List Node} (h : ∀ node ∈ nodes, node.Elementary) :
    ∀ leaf ∈ nodes.flatMap (reductLeaves later name),
      Reduced later leaf ∧ isApplicationOf name leaf = false := by
  rw [List.forall_mem_flatMap]
  exact fun node hnode => ((reduced_reduct hlater (h node hnode)).leaves_spec hchain).2

/-- Symbols may be bound in a normal form or in its leaves. -/
theorem reduct_normalForm {xs : List Node} (hxs : ∀ leaf ∈ xs, leaf.Elementary) :
    reduct later (normalForm name τ xs) = normalForm name τ (xs.flatMap (reductLeaves later name)) := by
  have hargs : ∀ node ∈ normalArgs name τ xs, node.Elementary := by
    intro node hnode
    rcases mem_normalArgs hnode with hleaf | rfl
    · exact hxs node hleaf
    · exact .of_value _
  have halike := (alike_normalArgs hchain xs).flatMap hchain (fun node hnode => (hargs node hnode).exact)
    (fun leaf hleaf => (hxs leaf hleaf).exact) (reductLeaves_value later name)
  rw [← halike.normalForm_eq fun leaf hleaf => (reductLeaves_flatMap hlater hchain hargs leaf hleaf).1.exact]
  rw [normalForm]
  rcases hnormal : normalArgs name τ xs with _ | ⟨node, _ | ⟨other, rest⟩⟩
  · exact (normalArgs_ne_nil hnormal).elim
  · have hnode : node.Elementary := hargs node (by simp [hnormal])
    rw [List.flatMap_singleton, reductLeaves, ((reduced_reduct hlater hnode).leaves_spec hchain).1]
    rfl
  · rw [bundle_of_two_le (by simp), reduct_application, respond_chain hchain, List.flatMap_map]
    rfl

/-- Symbols may be bound after a chain has been brought into normal form. -/
theorem reduct_respond_chain {args : List Node} (hargs : ∀ arg ∈ args, Reduced now arg) :
    reduct later (respond name args) = respond name (args.map (reduct later)) := by
  have hleaves : ∀ leaf ∈ args.flatMap (leaves name), leaf.Elementary :=
    fun leaf hleaf => (Reduced.leaves_flatMap hchain hargs leaf hleaf).1.elementary
  have halike : Alike name τ (args.flatMap fun arg => (leaves name arg).flatMap (reductLeaves later name))
      (args.flatMap (reductLeaves later name)) := by
    refine alike_flatMap hchain fun arg harg => ?_
    obtain ⟨hnormal, hparts⟩ := (hargs arg harg).leaves_spec hchain
    have hparts (leaf : Node) (hleaf : leaf ∈ leaves name arg) : leaf.Elementary :=
      (hparts leaf hleaf).1.elementary
    have hreduct := reduct_normalForm hlater hchain hparts
    rw [hnormal] at hreduct
    rw [reductLeaves, hreduct, leaves_normalForm]
    · exact (alike_normalArgs hchain _).symm
    · exact fun leaf hleaf => (reductLeaves_flatMap hlater hchain hparts leaf hleaf).2
  rw [respond_chain hchain, respond_chain hchain, reduct_normalForm hlater hchain hleaves, List.flatMap_map,
    List.flatMap_assoc]
  refine halike.normalForm_eq ?_
  rw [← List.flatMap_assoc]
  exact fun leaf hleaf => (reductLeaves_flatMap hlater hchain hleaves leaf hleaf).1.exact

end Chain

/-! ### Expressions -/

/-- Every membership that is asked for in the expression is settled, where the symbols stand for what `σ`
gives for them. -/
def MembershipsDecided (σ : String → Option Node) (e : Node) : Prop :=
  e.Everywhere fun part => ∀ list element elements, part = .application "contains" [list, element] →
    reduct σ list = .sequence elements → MembershipDecided elements (reduct σ element)

/-- Binding symbols before or after an expression is simplified comes to the same. -/
theorem reduct_reduct (hnow : Literals now) (hextends : Extends now later) {e : Node} (he : e.Elementary)
    (hdecided : MembershipsDecided now e) : reduct later (reduct now e) = reduct later e := by
  have hmap {nodes : List Node} (h : ∀ node ∈ nodes, reduct later (reduct now node) = reduct later node) :
      (nodes.map (reduct now)).map (reduct later) = nodes.map (reduct later) := by
    rw [List.map_map]
    exact List.map_congr_left h
  induction he with
  | integer x => rfl
  | boolean p => rfl
  | symbol name =>
      cases hvalue : now name with
      | none =>
          rw [show reduct now (.symbol name) = .symbol name by rw [reduct, hvalue, Option.getD_none]]
      | some value =>
          obtain ⟨v, rfl⟩ := hnow name value hvalue
          rw [reduct, hvalue, Option.getD_some, reduct_value, reduct, hextends name _ hvalue,
            Option.getD_some]
  | sequence _ ih =>
      have helements := (Node.everywhere_sequence.mp hdecided).2
      rw [reduct_sequence, reduct_sequence, reduct_sequence,
        hmap fun element helement => ih element helement (helements element helement)]
  | chain hchain _ hargs ih =>
      have hparts := (Node.everywhere_application.mp hdecided).2
      rw [reduct_application, reduct_respond_chain hlater hchain, reduct_application,
        hmap fun arg harg => ih arg harg (hparts arg harg)]
      exact List.forall_mem_map.mpr fun arg harg => reduced_reduct hnow (hargs arg harg)
  | @plain name args hplain hargs ih =>
      obtain ⟨hquestion, hparts⟩ := Node.everywhere_application.mp hdecided
      have hreduced : ∀ arg ∈ args.map (reduct now), Reduced now arg :=
        List.forall_mem_map.mpr fun arg harg => reduced_reduct hnow (hargs arg harg)
      rw [reduct_application, reduct_application, ← hmap fun arg harg => ih arg harg (hparts arg harg)]
      cases hoffered : offered? name (args.map (reduct now)) with
      | none =>
          have hnode : Reduced now (.application name (args.map (reduct now))) :=
            .plain hplain hoffered hreduced
          rw [respond_plain hplain, attempt, hoffered, Option.getD_none, hnode.again_eq, reduct_application]
      | some offer =>
          have hrule := rule_of_offered hplain (fun arg harg => (hreduced arg harg).elementary) hoffered
          rw [respond_plain hplain, attempt_of_offered hoffered]
          refine reduct_again_of_rule hlater hplain hrule hreduced fun elements element hname hsame => ?_
          obtain ⟨list, others, rfl, hlist, hothers⟩ := List.map_eq_cons_iff.mp hsame
          obtain ⟨other, _, rfl, helement, hnil⟩ := List.map_eq_cons_iff.mp hothers
          cases List.map_eq_nil_iff.mp hnil
          rw [hname] at hquestion
          exact helement ▸ hquestion list other elements rfl hlist

end Later

/-! ### The simplifier -/

section Simplifier

variable {scope : Scope} (hstandard : scope.registry = standard)
include hstandard

/-- Where an elementary expression becomes something, so does every part of it. -/
theorem everywhere_reduces {room : Nat} {e r : Node} (he : e.Elementary) (h : Reduces scope room e r) :
    e.Everywhere fun part => ∃ result, Reduces scope room part result := by
  induction room generalizing e r with
  | zero => exact h.elim
  | succ room ih =>
      have hparts {nodes results : List Node} (hnodes : ∀ node ∈ nodes, node.Elementary)
          (h : List.Forall₂ (Reduces scope room) nodes results) :
          ∀ node ∈ nodes, node.Everywhere fun part => ∃ result, Reduces scope (room + 1) part result := by
        induction h with
        | nil => nofun
        | cons hhead _ ihrest =>
            rw [List.forall_mem_cons] at hnodes
            refine List.forall_mem_cons.mpr ⟨fun part hpart => ?_, ihrest hnodes.2⟩
            exact (ih hnodes.1 hhead part hpart).imp fun _ h => h.succ
      cases e with
      | number a => exact Node.everywhere_number.mpr ⟨r, h⟩
      | boolean p => exact Node.everywhere_boolean.mpr ⟨r, h⟩
      | symbol name => exact Node.everywhere_symbol.mpr ⟨r, h⟩
      | pair first second => cases he
      | sequence elements =>
          refine Node.everywhere_sequence.mpr ⟨⟨r, h⟩, ?_⟩
          cases h with
          | sequence helements => exact hparts he.of_sequence helements
      | application name args =>
          obtain ⟨_, hreduced, _⟩ := Step.of_application (not_preservesArguments hstandard he) h
          exact Node.everywhere_application.mpr ⟨⟨r, h⟩, hparts he.of_application hreduced⟩

end Simplifier

/-- What the simplifier makes of an elementary expression, and of every part of it, where the variables
are bound to literals. -/
theorem simplify_spec {env : Environment} (hstandard : env.registry = standard)
    (hvalues : Literals env.get?) {e r : Node} (he : e.Elementary) (hrun : (simplify e env).1 = .ok r) :
    r = reduct env.get? e ∧ e.Everywhere fun part => (simplify part env).1 = .ok (reduct env.get? part) := by
  have hfree (name : String) (value : Node) (hvalue : env.get? name = some value) : value.EffectFree := by
    obtain ⟨v, rfl⟩ := hvalues name value hvalue
    exact (Node.Elementary.of_value v).effectFree
  have hquiet := quiet_of_standard hstandard hfree
  have hreduct {room : Nat} {e r : Node} (he : e.Elementary) (h : Reduces env.current room e r) :
      r = reduct env.get? e :=
    eq_reduct_of_reduces hstandard hvalues he h
  obtain ⟨_, hreduces, _⟩ := (simplify_eq_ok_iff hquiet he.effectFree).mp (Prod.ext hrun rfl)
  refine ⟨hreduct he hreduces, fun part hpart => ?_⟩
  have hpartElementary := he.everywhere part hpart
  obtain ⟨result, hresult⟩ := everywhere_reduces hstandard he hreduces part hpart
  obtain rfl := hreduct hpartElementary hresult
  have hfree := (reduced_reduct hvalues hpartElementary).elementary.effectFree
  exact congrArg Prod.fst ((simplify_eq_ok_iff hquiet hpartElementary.effectFree).mpr ⟨rfl, hresult, hfree⟩)

/-- **A decided answer is kept under later bindings.** Let the standard operations simplify an elementary
expression to an integer or a boolean, where every membership that is asked for in it has been settled:
the element stands in the list, or equality decides that it is none of the list's elements. If more
symbols are bound to integers and booleans, and simplification succeeds, the result is the same. -/
theorem decided_answer_kept (env later : Environment) (hstandard : env.registry = standard)
    (hstandard' : later.registry = standard)
    (hvalues : ∀ name value, later.get? name = some value → ∃ v : Value, value = v.node)
    (hextends : ∀ name value, env.get? name = some value → later.get? name = some value)
    (e : Node) (he : e.Elementary)
    (hdecided : ∀ list element elements value, .application "contains" [list, element] ∈ e.subterms →
      (simplify list env).1 = .ok (.sequence elements) → (simplify element env).1 = .ok value →
      MembershipDecided elements value)
    (v : Value) (hrun : (simplify e env).1 = .ok v.node)
    (r : Node) (hrun' : (simplify e later).1 = .ok r) : r = v.node := by
  have hnow : Literals env.get? := fun name value hvalue => hvalues name value (hextends name value hvalue)
  obtain ⟨hresult, hparts⟩ := simplify_spec hstandard hnow he hrun
  have hmemberships : MembershipsDecided env.get? e := by
    rintro _ hpart list element elements rfl hlist
    have hquestion := (simplify_spec hstandard hnow (he.everywhere _ hpart) (hparts _ hpart)).2
    have hargs := (Node.everywhere_application.mp hquestion).2
    rw [List.forall_mem_cons, List.forall_mem_singleton] at hargs
    refine hdecided list element elements _ hpart ?_ hargs.2.self
    rw [hargs.1.self, hlist]
  calc
    r = reduct later.get? e := (simplify_spec hstandard' hvalues he hrun').1
    _ = reduct later.get? (reduct env.get? e) := (reduct_reduct hvalues hnow hextends he hmemberships).symm
    _ = v.node := by rw [← hresult, reduct_value]

/-- One more symbol may be bound to a literal. -/
theorem literals_set {env : Environment} (h : Literals env.get?) (name : String) (v : Value) :
    Literals (env.set name v.node).get? :=
  Bindings.forall_get?_set ⟨v, rfl⟩ h

/-- Two sums of two symbols in either order, a membership that is affirmed next to an open element, and one
that is denied for good: whatever the symbols are bound to, be it a boolean in a sum, the answer is yes. -/
theorem decided_answer_kept_conjunction :
    let x := Node.symbol "x"
    let y := Node.symbol "y"
    let difference := Node.application "-" [.application "+" [x, y], .application "+" [y, x]]
    let pair := Node.sequence [x, y]
    let affirmed := Node.application "contains" [.sequence [x, .integer 2], .application "size" [pair]]
    let numbers := Node.sequence [.application "+" [.integer 1, .integer 1], .integer 3]
    let denied := Node.application "contains" [numbers, .integer 1]
    let e := Node.application "and"
      [.application "==" [difference, .integer 0], affirmed, .application "not" [denied]]
    let later := (Environment.standard.set "x" (.integer 5)).set "y" (.boolean true)
    (simplify e Environment.standard).1 = .ok (.boolean true) ∧
      (simplify e later).1 = .ok (.boolean true) := by
  intro x y difference pair affirmed numbers denied e later
  have hrun : (simplify e Environment.standard).1 = .ok (.boolean true) :=
    eq_ok_of_same (by decide) (by decide +kernel)
  have hfree : Literals Environment.standard.get? := nofun
  have hvalues : Literals later.get? :=
    literals_set (literals_set hfree "x" (.integer 5)) "y" (.boolean true)
  have hdecided : ∀ list element elements value, .application "contains" [list, element] ∈ e.subterms →
      (simplify list Environment.standard).1 = .ok (.sequence elements) →
      (simplify element Environment.standard).1 = .ok value → MembershipDecided elements value := by
    intro list element elements value hmem hlist helement
    have hcases : list = .sequence [x, .integer 2] ∧ element = .application "size" [pair] ∨
        list = numbers ∧ element = .integer 1 := by
      simpa [e, difference, affirmed, denied, x, y, pair, numbers, Node.integer, Node.subterms,
        Node.allSubterms] using hmem
    have hresult {node result : Node} (h : (simplify node Environment.standard).1 = .ok result)
        (other : Node) (hexact : other.Exact)
        (hrun : (simplify node Environment.standard).1.toOption.any (· == other)) : result = other :=
      Except.ok.inj (h.symm.trans (eq_ok_of_same hexact hrun))
    rcases hcases with ⟨rfl, rfl⟩ | ⟨rfl, rfl⟩
    · cases hresult hlist (.sequence [x, .integer 2]) (by decide) (by decide +kernel)
      cases hresult helement (.integer 2) (by decide) (by decide +kernel)
      exact .inl ⟨.integer 2, by simp, by decide⟩
    · cases hresult hlist (.sequence [.integer 2, .integer 3]) (by decide) (by decide +kernel)
      cases hresult helement (.integer 1) (by decide) (by decide +kernel)
      exact .inr (by decide)
  have hsucceeds : (simplify e later).1.toOption.isSome := by
    decide +kernel
  refine ⟨hrun, ?_⟩
  cases hrun' : (simplify e later).1 with
  | error failure =>
      rw [hrun'] at hsucceeds
      cases hsucceeds
  | ok r =>
      exact congrArg Except.ok (decided_answer_kept Environment.standard later rfl rfl hvalues nofun e
        (by decide) hdecided (.boolean true) hrun r hrun')

/-- Whether one is in a list with an unbound symbol is denied at once, although the symbol may turn out to be
one; equality leaves the same question open. And an addition of one argument, which nothing simplifies, is
dissolved in a longer one, so that a difference of equals is no longer seen. -/
theorem denied_membership_affirmed :
    let x := Node.symbol "x"
    let later := Environment.standard.set "x" (.integer 1)
    let membership := Node.application "contains" [.sequence [x], .integer 1]
    let equality := Node.application "==" [x, .integer 1]
    let three := Node.application "+" [.integer 3]
    let product := Node.application "*" [x, three]
    let difference := Node.application "-" [.application "+" [product, .integer 0], product]
    (simplify membership Environment.standard).1 = .ok (.boolean false) ∧
      (simplify membership later).1 = .ok (.boolean true) ∧
      (simplify equality Environment.standard).1 = .ok equality ∧
      (simplify difference Environment.standard).1 = .ok (.integer 0) ∧
      (simplify difference later).1 = .ok (.application "-" [.integer 3, three]) := by
  intro x later membership equality three product difference
  exact ⟨eq_ok_of_same (by decide) (by decide +kernel), eq_ok_of_same (by decide) (by decide +kernel),
    eq_ok_of_same (by decide) (by decide +kernel), eq_ok_of_same (by decide) (by decide +kernel),
    eq_ok_of_same (by decide) (by decide +kernel)⟩

end SymbolicAlgebra
