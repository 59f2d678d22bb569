import SymbolicAlgebra.Proofs.RoundTrip

/-! Unnesting. The arguments of a commutative application that stands directly in an application of the same
name are inlined, at every level. The operands are written in the same order then, but the first one of an
inlined application stands behind an operator and may need parentheses that it did not need in front. So the
text can only grow, and it stays what it is exactly if no inlined application begins with such an operand. -/

namespace SymbolicAlgebra

open Builtin (keywords standard)
open Render (needsParentheses)

namespace Node

mutual

/-- Inlines the arguments of every commutative application that stands directly in an application of the same
name. -/
def unnest : Node → Node
  | .application name args =>
    .application name (if standard.isCommutative name then flatten name (unnestAll args) else unnestAll args)
  | .pair first second => .pair first.unnest second.unnest
  | .sequence elements => .sequence (unnestAll elements)
  | leaf => leaf

def unnestAll : List Node → List Node
  | [] => []
  | node :: rest => node.unnest :: unnestAll rest

end

/-- The operand that the text of a chain of `name` begins with. -/
def leading (name : String) : Node → Node
  | .application other (first :: rest) =>
    if other = name then leading name first else .application other (first :: rest)
  | node => node

/-- An application that is inlined behind an operator does not begin with an operand that needs parentheses
there and has none. -/
def SteadyForm : Node → Prop
  | .application name (_ :: others) => standard.isCommutative name → ∀ arg ∈ others, isApplicationOf name arg →
      needsParentheses standard name 1 (leading name arg) → needsParentheses standard name 0 (leading name arg)
  | _ => True

instance : DecidablePred SteadyForm
  | .application name (_ :: others) =>
    inferInstanceAs (Decidable (standard.isCommutative name → ∀ arg ∈ others, isApplicationOf name arg →
      needsParentheses standard name 1 (leading name arg) → needsParentheses standard name 0 (leading name arg)))
  | .application _ [] | .number _ | .symbol _ | .boolean _ | .pair _ _ | .sequence _ =>
    inferInstanceAs (Decidable True)

/-- No operand loses the parentheses that it needs where it stands in the text. -/
def Steady (node : Node) : Prop :=
  node.Everywhere SteadyForm

instance (node : Node) : Decidable node.Steady :=
  inferInstanceAs (Decidable (∀ part ∈ node.subterms, SteadyForm part))

variable {name : String} {node : Node} {args : List Node}

/-! ### What is left of the nesting -/

theorem unnestAll_eq_map (nodes : List Node) : unnestAll nodes = nodes.map unnest := by
  induction nodes with
  | nil => rfl
  | cons node rest ih => rw [unnestAll, ih, List.map_cons]

theorem unnest_application (hcommutative : standard.isCommutative name = false) (args : List Node) :
    (application name args).unnest = .application name (args.map unnest) := by
  rw [unnest, unnestAll_eq_map, hcommutative, if_neg Bool.false_ne_true]

theorem unnest_chain (hcommutative : standard.isCommutative name) (args : List Node) :
    (application name args).unnest = .application name (flatten name (args.map unnest)) := by
  rw [unnest, unnestAll_eq_map, if_pos hcommutative]

theorem unnest_sequence (elements : List Node) : (sequence elements).unnest = .sequence (elements.map unnest) := by
  rw [unnest, unnestAll_eq_map]

theorem isApplicationOf_unnest (name : String) (node : Node) :
    isApplicationOf name node.unnest = isApplicationOf name node := by
  cases node <;> rfl

theorem flat_application (hcommutative : standard.isCommutative name = false) :
    (application name args).Flat ↔ ∀ arg ∈ args, arg.Flat := by
  refine everywhere_application.trans (and_iff_right fun h => ?_)
  rw [hcommutative] at h
  cases h

/-- What a flat node contributes to a chain has no more to contribute. -/
theorem Flat.not_isApplicationOf_inlined (h : node.Flat) (hcommutative : standard.isCommutative name) :
    ∀ arg ∈ inlined name node, isApplicationOf name arg = false := by
  rcases inlined_cases name node with ⟨args, rfl, hinlined⟩ | ⟨hother, hinlined⟩
  · rw [hinlined]
    exact h.self hcommutative
  · rw [hinlined]
    exact List.forall_mem_singleton.mpr hother

/-- Nothing is nested in what is unnested. -/
theorem flat_unnest (node : Node) : node.unnest.Flat := by
  induction node using inductionOn with
  | number value => exact everywhere_number.mpr trivial
  | symbol name => exact everywhere_symbol.mpr trivial
  | boolean value => exact everywhere_boolean.mpr trivial
  | application name args ih =>
      have hargs : ∀ arg ∈ args.map unnest, arg.Flat := List.forall_mem_map.mpr ih
      cases hcommutative : standard.isCommutative name with
      | false =>
          rw [unnest_application hcommutative]
          exact (flat_application hcommutative).mpr hargs
      | true =>
          rw [unnest_chain hcommutative]
          refine everywhere_application.mpr ⟨fun _ => ?_, ?_⟩
          · exact List.forall_mem_flatMap.mpr fun arg harg => (hargs arg harg).not_isApplicationOf_inlined hcommutative
          · exact List.forall_mem_flatMap.mpr fun arg harg =>
              forall_mem_inlined (fun _ h => (everywhere_application.mp h).2) (hargs arg harg)
  | pair first second ihfirst ihsecond => exact everywhere_pair.mpr ⟨trivial, ihfirst, ihsecond⟩
  | sequence elements ih =>
      rw [unnest_sequence]
      exact everywhere_sequence.mpr ⟨trivial, List.forall_mem_map.mpr ih⟩

/-- What is flat stays as it is. -/
theorem Flat.unnest_eq (h : node.Flat) : node.unnest = node := by
  have hlist {nodes : List Node} (ih : ∀ node ∈ nodes, node.unnest = node) : nodes.map unnest = nodes :=
    (List.map_congr_left ih).trans (List.map_id' nodes)
  induction node using inductionOn with
  | application name args ih =>
      obtain ⟨hform, hargs⟩ := everywhere_application.mp h
      have hsame := hlist fun arg harg => ih arg harg (hargs arg harg)
      cases hcommutative : standard.isCommutative name with
      | false => rw [unnest_application hcommutative, hsame]
      | true => rw [unnest_chain hcommutative, hsame, flatten_of_flat (hform hcommutative)]
  | pair first second ihfirst ihsecond =>
      obtain ⟨-, hfirst, hsecond⟩ := everywhere_pair.mp h
      rw [unnest, ihfirst hfirst, ihsecond hsecond]
  | sequence elements ih =>
      obtain ⟨-, helements⟩ := everywhere_sequence.mp h
      rw [unnest_sequence, hlist fun element helement => ih element helement (helements element helement)]
  | _ => rfl

theorem Flat.steady (h : node.Flat) : node.Steady := by
  intro part hpart
  have hform := h part hpart
  match part, hform with
  | .application name (first :: others), hform =>
      intro hcommutative arg harg happlication
      rw [hform hcommutative arg (List.mem_cons_of_mem _ harg)] at happlication
      cases happlication
  | .application name [], _ => trivial
  | .number _, _ | .symbol _, _ | .boolean _, _ | .pair _ _, _ | .sequence _, _ => trivial

/-! ### Steadiness of the parts -/

theorem steady_pair {first second : Node} : (pair first second).Steady ↔ first.Steady ∧ second.Steady :=
  everywhere_pair.trans (and_iff_right trivial)

theorem steady_sequence {elements : List Node} :
    (sequence elements).Steady ↔ ∀ element ∈ elements, element.Steady :=
  everywhere_sequence.trans (and_iff_right trivial)

theorem steady_application (hcommutative : standard.isCommutative name = false) :
    (application name args).Steady ↔ ∀ arg ∈ args, arg.Steady := by
  refine everywhere_application.trans (and_iff_right ?_)
  cases args with
  | nil => trivial
  | cons first others =>
      intro h
      rw [hcommutative] at h
      cases h

theorem steady_chain (hcommutative : standard.isCommutative name) {first : Node} {others : List Node} :
    (application name (first :: others)).Steady ↔ first.Steady ∧ ∀ arg ∈ others, arg.Steady ∧
      (isApplicationOf name arg → needsParentheses standard name 1 (leading name arg) →
        needsParentheses standard name 0 (leading name arg)) := by
  refine everywhere_application.trans ?_
  simp only [SteadyForm, hcommutative, true_implies, List.forall_mem_cons, forall_and, and_comm, and_assoc]
  rfl

end Node

namespace Legible

variable {name : String} {node : Node} {args : List Node}

/-- A commutative operator has at least two operands. -/
theorem exists_chain (h : Legible (.application name args)) (hcommutative : standard.isCommutative name) :
    ∃ first second others, args = first :: second :: others := by
  cases hwriting : standard.writing? name with
  | none =>
      rw [Builtin.isCommutative_eq_false_of_writing? hwriting] at hcommutative
      cases hcommutative
  | some keyword =>
      obtain ⟨hmem, rfl⟩ := Builtin.mem_keywords_of_writing? hwriting
      obtain ⟨hfixity, -⟩ | ⟨-, first, second, others, hargs, -⟩ := h.operands hwriting
      · rw [Builtin.isCommutative_eq_false hmem hfixity] at hcommutative
        cases hcommutative
      · exact ⟨first, second, others, hargs⟩

/-- An operand contributes at least one operand to a chain. -/
theorem exists_inlined (h : Legible node) (hcommutative : standard.isCommutative name) :
    ∃ first others, inlined name node = first :: others := by
  rcases inlined_cases name node with ⟨args, rfl, hinlined⟩ | ⟨_, hinlined⟩
  · obtain ⟨first, second, others, rfl⟩ := h.exists_chain hcommutative
    exact ⟨first, second :: others, hinlined⟩
  · exact ⟨node, [], hinlined⟩

theorem unnest (h : Legible node) : Legible node.unnest := by
  induction h using inductionOn with
  | integer value => exact .integer value
  | boolean value => exact .boolean value
  | symbol hword hfree => exact .symbol hword hfree
  | pair _ _ ihfirst ihsecond => exact .pair ihfirst ihsecond
  | sequence _ ih =>
      rw [Node.unnest_sequence]
      exact .sequence (List.forall_mem_map.mpr ih)
  | call hword hname _ ih =>
      rw [Node.unnest_application (Builtin.isCommutative_eq_false_of_writing? hname)]
      exact .call hword hname (List.forall_mem_map.mpr ih)
  | @between keyword first second others hmem hfixity hlong _ ih =>
      have hargs := List.forall_mem_map.mpr ih
      cases hcommutative : standard.isCommutative keyword.operation with
      | false =>
          rw [Node.unnest_application hcommutative]
          refine .between hmem hfixity (hlong.imp ?_ ?_) hargs
          · rintro rfl
            rfl
          · exact id
      | true =>
          obtain ⟨one, more, hone⟩ := (ih first (by simp)).exists_inlined hcommutative
          obtain ⟨other, rest, hother⟩ := (ih second (by simp)).exists_inlined hcommutative
          rw [Node.unnest_chain hcommutative]
          refine .chain (Builtin.mem_chainNames_of_commutative hcommutative) ?_ ?_
          · simp only [flatten, List.map_cons, List.flatMap_cons, hone, hother, List.length_append, List.length_cons]
            omega
          · exact List.forall_mem_flatMap.mpr fun arg harg => forall_mem_inlined (fun _ => of_mem_args) (hargs arg harg)
  | @unary keyword arg hmem hfixity _ ih =>
      rw [Node.unnest_application (Builtin.isCommutative_eq_false hmem hfixity)]
      exact .unary hmem hfixity ih

end Legible

end SymbolicAlgebra
