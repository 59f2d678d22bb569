import SymbolicAlgebra.Proofs.Unnesting

/-! How the text changes when an expression is unnested. Parentheses can appear around operands that come to
stand behind an operator, and nothing else changes. -/

namespace SymbolicAlgebra

open Builtin (keywords standard)
open Render (needsParentheses)

namespace Reading

/-! ### Growth -/

/-- The one text is the other with characters taken away: with none taken away exactly if `same` holds. -/
structure Grows (same : Prop) (one other : List Char) : Prop where
  sublist : one.Sublist other
  eq_iff : one = other ↔ same

namespace Grows

variable {same same' : Prop} {one other third one' other' : List Char}

theorem refl (text : List Char) : Grows True text text :=
  ⟨List.Sublist.refl text, iff_true_intro rfl⟩

theorem congr (h : Grows same one other) (hiff : same ↔ same') : Grows same' one other :=
  ⟨h.sublist, h.eq_iff.trans hiff⟩

theorem trans (h : Grows same one other) (h' : Grows same' other third) : Grows (same ∧ same') one third := by
  refine ⟨h.sublist.trans h'.sublist, ?_⟩
  rw [← h.eq_iff, ← h'.eq_iff]
  constructor
  · rintro rfl
    have heq := h.sublist.antisymm h'.sublist
    exact ⟨heq, heq.symm⟩
  · rintro ⟨rfl, rfl⟩
    rfl

theorem append (h : Grows same one other) (h' : Grows same' one' other') :
    Grows (same ∧ same') (one ++ one') (other ++ other') := by
  refine ⟨h.sublist.append h'.sublist, ?_⟩
  rw [← h.eq_iff, ← h'.eq_iff]
  constructor
  · intro heq
    have hlength := congrArg List.length heq
    have hle := h.sublist.length_le
    have hle' := h'.sublist.length_le
    rw [List.length_append, List.length_append] at hlength
    exact ⟨h.sublist.eq_of_length (by omega), h'.sublist.eq_of_length (by omega)⟩
  · rintro ⟨rfl, rfl⟩
    rfl

theorem prepend (h : Grows same one other) (front : List Char) : Grows same (front ++ one) (front ++ other) :=
  ((refl front).append h).congr (and_iff_right trivial)

/-- What stands around a text does not matter. -/
theorem around (h : Grows same one other) (front back : List Char) :
    Grows same (front ++ (one ++ back)) (front ++ (other ++ back)) :=
  ((h.append (refl back)).prepend front).congr (and_iff_left trivial)

/-- Texts one after the other grow each by itself. -/
theorem flatMap {α β : Type} {nodes : List α} {image : α → β} {holds : α → Prop} {text : α → List Char}
    {text' : β → List Char} (h : ∀ node ∈ nodes, Grows (holds node) (text node) (text' (image node))) :
    Grows (∀ node ∈ nodes, holds node) (nodes.flatMap text) ((nodes.map image).flatMap text') := by
  induction nodes with
  | nil => exact (refl []).congr (by simp)
  | cons node nodes ih =>
      rw [List.forall_mem_cons] at h
      exact (h.1.append (ih h.2)).congr (by simp)

end Grows

/-! ### Parentheses -/

/-- Two nodes need parentheses in the same places. -/
def Alike (node other : Node) : Prop :=
  ∀ parent position, needsParentheses standard parent position node = needsParentheses standard parent position other

variable {node : Node} {name parent : String}

theorem alike_application {args others : List Node} (hlength : args.length = 1 ↔ others.length = 1) :
    Alike (.application name args) (.application name others) := by
  intro parent position
  simp only [needsParentheses, hlength]

/-- Inlining the operands of a chain leaves it a chain. -/
theorem alike_unnest (h : Legible node) : Alike node.unnest node := by
  cases node with
  | application name args =>
      have hlegible := h.unnest
      cases hcommutative : standard.isCommutative name with
      | false =>
          rw [Node.unnest_application hcommutative]
          exact alike_application (by rw [List.length_map])
      | true =>
          rw [Node.unnest_chain hcommutative] at hlegible ⊢
          obtain ⟨first, second, others, hargs⟩ := hlegible.exists_chain hcommutative
          obtain ⟨first', second', others', rfl⟩ := h.exists_chain hcommutative
          rw [hargs]
          exact alike_application (by simp)
  | _ => exact fun _ _ => rfl

/-- What needs parentheses in front of an operator needs them behind it. -/
theorem needsParentheses_behind (h : needsParentheses standard parent 0 node) :
    needsParentheses standard parent 1 node := by
  cases node with
  | application name args =>
      rw [needsParentheses] at h ⊢
      split at h
      · simp only [if_true, Nat.one_ne_zero, if_false] at h ⊢
        split
        · rwa [if_pos ‹_›] at h
        · rw [if_neg ‹_›] at h
          split at h
          · rw [if_pos ‹_›]
          · cases h
      · cases h
  | _ => cases h

theorem grows_behind (parent : String) (node : Node) :
    Grows (needsParentheses standard parent 1 node → needsParentheses standard parent 0 node)
      (operandChars parent 0 node) (operandChars parent 1 node) := by
  rw [operandChars, operandChars]
  by_cases hfront : needsParentheses standard parent 0 node
  · rw [if_pos hfront, if_pos (needsParentheses_behind hfront)]
    exact (Grows.refl _).congr (by simp [hfront])
  · rw [if_neg hfront]
    by_cases hbehind : needsParentheses standard parent 1 node
    · rw [if_pos hbehind]
      refine ⟨(List.sublist_append_left _ _).cons _, ?_⟩
      constructor
      · intro heq
        have hlength := congrArg List.length heq
        rw [List.length_cons, List.length_append] at hlength
        omega
      · exact fun h => absurd (h hbehind) hfront
    · rw [if_neg hbehind]
      exact (Grows.refl _).congr (by simp [hbehind])

theorem Grows.operandChars {same : Prop} {other : Node} (h : Grows same (chars node) (chars other))
    (halike : Alike other node) (parent : String) (position : Nat) :
    Grows same (operandChars parent position node) (operandChars parent position other) := by
  rw [Reading.operandChars, Reading.operandChars, halike]
  split
  · exact h.around ['('] [')']
  · exact h

theorem behindChars_eq (keyword : Keyword) (arg : Node) : behindChars keyword arg =
    ' ' :: (keyword.symbol.toList ++ [' ']) ++ operandChars keyword.operation 1 arg := by
  rw [behindChars, List.cons_append, List.append_assoc]
  rfl

/-! ### Chains -/

section Chains

variable {keyword : Keyword} (hmem : keyword ∈ keywords) (hcommutative : standard.isCommutative keyword.operation)

include hmem hcommutative

/-- As an operand of itself a chain has no parentheses. -/
theorem operandChars_chain {args : List Node} (h : Legible (.application keyword.operation args)) (position : Nat) :
    operandChars keyword.operation position (.application keyword.operation args) =
      chars (.application keyword.operation args) := by
  have hnot := Builtin.isForwardCommutative_eq_false (Builtin.mem_chainNames_of_commutative hcommutative)
  obtain ⟨first, second, others, rfl⟩ := h.exists_chain hcommutative
  rw [operandChars, if_neg]
  simp [needsParentheses, Builtin.writing?_standard hmem, hcommutative, hnot]

theorem chars_chain {args : List Node} (h : Legible (.application keyword.operation args)) :
    chars (.application keyword.operation args) = chainChars keyword 0 args := by
  obtain ⟨first, second, others, rfl⟩ := h.exists_chain hcommutative
  exact chars_operands hmem h

/-- In front of a chain it makes no difference whether an operand is inlined. -/
theorem chainChars_inlined (h : Legible node) (others : List Node) :
    chainChars keyword 0 (inlined keyword.operation node ++ others) = chainChars keyword 0 (node :: others) := by
  rcases inlined_cases keyword.operation node with ⟨args, rfl, hinlined⟩ | ⟨_, hinlined⟩
  · rw [hinlined, chainChars, operandChars_chain hmem hcommutative h, chars_chain hmem hcommutative h]
    obtain ⟨first, second, rest, rfl⟩ := h.exists_chain hcommutative
    rw [List.cons_append, chainChars, chainChars, List.flatMap_append, List.append_assoc]
  · rw [hinlined]
    rfl

end Chains

/-! ### The text of what is unnested -/

/-- What a node contributes to a chain begins like the node. -/
theorem inlined_unnest (hcommutative : standard.isCommutative name) (h : Legible node) :
    ∃ first others, inlined name node.unnest = first :: others ∧ Alike first (node.leading name) := by
  induction node using Node.inductionOn with
  | application applied args ih =>
      by_cases hsame : applied = name
      · subst hsame
        obtain ⟨head, second, rest, rfl⟩ := h.exists_chain hcommutative
        obtain ⟨first, others, hinlined, halike⟩ := ih head (by simp) (h.of_mem_args head (by simp))
        refine ⟨first, others ++ flatten applied ((second :: rest).map Node.unnest), ?_, ?_⟩
        · rw [Node.unnest_chain hcommutative, inlined, if_pos rfl, List.map_cons, flatten, List.flatMap_cons, hinlined]
          rfl
        · rw [Node.leading, if_pos rfl]
          exact halike
      · refine ⟨_, [], inlined_of_not_isApplicationOf ?_, ?_⟩
        · rw [Node.isApplicationOf_unnest]
          simp [isApplicationOf, Node.applied?, hsame]
        · have hleading : (Node.application applied args).leading name = .application applied args := by
            cases args with
            | nil => rfl
            | cons first rest => rw [Node.leading, if_neg hsame]
          rw [hleading]
          exact alike_unnest h
  | _ => exact ⟨_, [], rfl, fun _ _ => rfl⟩

/-- An operand behind an operator, and the operands that are inlined for it. -/
theorem grows_inlined {keyword : Keyword} (hmem : keyword ∈ keywords)
    (hcommutative : standard.isCommutative keyword.operation) (h : Legible node) :
    Grows (isApplicationOf keyword.operation node →
        needsParentheses standard keyword.operation 1 (node.leading keyword.operation) →
        needsParentheses standard keyword.operation 0 (node.leading keyword.operation))
      (behindChars keyword node.unnest) ((inlined keyword.operation node.unnest).flatMap (behindChars keyword)) := by
  by_cases happlication : isApplicationOf keyword.operation node
  · obtain ⟨args, rfl⟩ := Node.isApplicationOf_iff.mp happlication
    obtain ⟨first, others, hinlined, halike⟩ := inlined_unnest hcommutative h
    have hlegible := h.unnest
    rw [Node.unnest_chain hcommutative] at hlegible hinlined ⊢
    rw [inlined, if_pos rfl] at hinlined ⊢
    rw [hinlined] at hlegible ⊢
    rw [behindChars_eq, operandChars_chain hmem hcommutative hlegible, chars_chain hmem hcommutative hlegible,
      chainChars, List.flatMap_cons, behindChars_eq, List.append_assoc]
    refine ((grows_behind keyword.operation first).around _ _).congr ?_
    rw [halike, halike]
    simp only [happlication, true_implies]
  · have hother := Bool.eq_false_iff.mpr happlication
    rw [← Node.isApplicationOf_unnest] at hother
    rw [inlined_of_not_isApplicationOf hother, List.flatMap_singleton]
    exact (Grows.refl _).congr (by simp [happlication])

theorem grows_listChars {nodes : List Node}
    (h : ∀ node ∈ nodes, Grows node.Steady (chars node) (chars node.unnest)) :
    Grows (∀ node ∈ nodes, node.Steady) (listChars nodes) (listChars (nodes.map Node.unnest)) := by
  cases nodes with
  | nil => exact (Grows.refl _).congr (by simp)
  | cons first others =>
      rw [List.forall_mem_cons] at h
      rw [List.map_cons, listChars_cons, listChars_cons]
      refine (h.1.append (Grows.flatMap fun other hother => ?_)).congr List.forall_mem_cons.symm
      exact (h.2 other hother).prepend [',', ' ']

/-- Operators between their operands. In front of a nested chain nothing changes when it is inlined, and each
operand behind an operator grows by itself. -/
theorem grows_between {keyword : Keyword} (hmem : keyword ∈ keywords) (hfixity : keyword.fixity = .between)
    {first second : Node} {others : List Node} (hlong : others = [] ∨ standard.isCommutative keyword.operation)
    (hlegible : ∀ arg ∈ first :: second :: others, Legible arg)
    (h : ∀ arg ∈ first :: second :: others, Grows arg.Steady (chars arg) (chars arg.unnest)) :
    Grows (Node.application keyword.operation (first :: second :: others)).Steady
      (chars (.application keyword.operation (first :: second :: others)))
      (chars (Node.application keyword.operation (first :: second :: others)).unnest) := by
  have hoperand (position : Nat) (arg : Node) (harg : arg ∈ first :: second :: others) :
      Grows arg.Steady (operandChars keyword.operation position arg)
        (operandChars keyword.operation position arg.unnest) :=
    (h arg harg).operandChars (alike_unnest (hlegible arg harg)) keyword.operation position
  have hbehind (arg : Node) (harg : arg ∈ first :: second :: others) :
      Grows arg.Steady (behindChars keyword arg) (behindChars keyword arg.unnest) := by
    rw [behindChars_eq, behindChars_eq]
    exact (hoperand 1 arg harg).prepend _
  rw [chars_between hmem hfixity hlong, chainChars]
  cases hcommutative : standard.isCommutative keyword.operation with
  | false =>
      have hnone : others = [] := by
        rw [hcommutative] at hlong
        exact hlong.resolve_right Bool.false_ne_true
      subst hnone
      rw [Node.unnest_application hcommutative, List.map_cons, List.map_cons, List.map_nil,
        chars_between hmem hfixity (.inl rfl), chainChars, Node.steady_application hcommutative, List.forall_mem_cons]
      exact (hoperand 0 first (by simp)).append (Grows.flatMap fun arg harg => hbehind arg (by simp_all))
  | true =>
      have hunnested := Legible.unnest (.between hmem hfixity hlong hlegible)
      rw [Node.unnest_chain hcommutative] at hunnested ⊢
      have htext : chars (.application keyword.operation (flatten keyword.operation
          ((first :: second :: others).map Node.unnest))) = operandChars keyword.operation 0 first.unnest ++
            ((second :: others).map Node.unnest).flatMap fun arg =>
              (inlined keyword.operation arg).flatMap (behindChars keyword) := by
        rw [chars_chain hmem hcommutative hunnested, List.map_cons, flatten, List.flatMap_cons,
          chainChars_inlined hmem hcommutative (hlegible first (by simp)).unnest, chainChars,
          List.flatMap_assoc]
      rw [htext, Node.steady_chain hcommutative]
      refine (hoperand 0 first (by simp)).append (Grows.flatMap fun arg harg => ?_)
      have harg := List.mem_cons_of_mem first harg
      exact (hbehind arg harg).trans (grows_inlined hmem hcommutative (hlegible arg harg))

/-- The text of an expression grows when it is unnested, and stays what it is exactly if it is steady. -/
theorem grows_unnest (h : Legible node) : Grows node.Steady (chars node) (chars node.unnest) := by
  induction h using Legible.inductionOn with
  | integer value => exact (Grows.refl _).congr (iff_of_true trivial (Node.everywhere_number.mpr trivial))
  | boolean value => exact (Grows.refl _).congr (iff_of_true trivial (Node.everywhere_boolean.mpr trivial))
  | symbol => exact (Grows.refl _).congr (iff_of_true trivial (Node.everywhere_symbol.mpr trivial))
  | pair _ _ ihfirst ihsecond =>
      rw [Node.unnest, chars_pair, chars_pair]
      exact ((ihfirst.append (ihsecond.around [' ', ':', ' '] [')'])).prepend ['(']).congr Node.steady_pair.symm
  | sequence _ ih =>
      rw [Node.unnest_sequence, chars_sequence, chars_sequence]
      exact ((grows_listChars ih).around ['\x7b'] ['\x7d']).congr Node.steady_sequence.symm
  | @call name args _ hname _ ih =>
      have hcommutative := Builtin.isCommutative_eq_false_of_writing? hname
      rw [Node.unnest_application hcommutative, chars_call hname, chars_call hname]
      exact (((grows_listChars ih).around ['('] [')']).prepend name.toList).congr
        (Node.steady_application hcommutative).symm
  | between hmem hfixity hlong hlegible ih => exact grows_between hmem hfixity hlong hlegible ih
  | @unary keyword arg hmem hfixity hlegible ih =>
      have hcommutative := Builtin.isCommutative_eq_false hmem hfixity
      obtain ⟨front, back, htext⟩ := chars_beside hmem hfixity
      rw [Node.unnest_application hcommutative, List.map_singleton, htext, htext]
      refine ((ih.operandChars (alike_unnest hlegible) keyword.operation 0).around front back).congr ?_
      rw [Node.steady_application hcommutative, List.forall_mem_singleton]

end Reading

end SymbolicAlgebra
