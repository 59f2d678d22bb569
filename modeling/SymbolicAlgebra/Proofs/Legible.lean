import SymbolicAlgebra.Proofs.Integers
import SymbolicAlgebra.Proofs.Reading
import SymbolicAlgebra.Proofs.Tree

/-! Expressions written with the standard operators, and the characters of their text. The operands of an
operator are written one after the other with the operator between them, each in parentheses if it needs
them in its place. -/

namespace SymbolicAlgebra

open Builtin (keywords standard chainNames)

/-! ### Expressions that are written with operators -/

/-- A name that stands for itself: not the spelling of a keyword or of a boolean. -/
def IsFree (name : String) : Prop :=
  name ∉ "true" :: "false" :: keywords.map (·.symbol)

instance (name : String) : Decidable (IsFree name) :=
  inferInstanceAs (Decidable (_ ∉ _))

/-- Expressions of integers, booleans and names, built with calls and with the standard operators: between
two operands, between more where the operator is commutative, and beside one. -/
inductive Legible : Node → Prop
  | integer (value : Int) : Legible (.integer value)
  | boolean (value : Bool) : Legible (.boolean value)
  | symbol {name : String} : Reading.isWord name.toList → IsFree name → Legible (.symbol name)
  | pair {first second : Node} : Legible first → Legible second → Legible (.pair first second)
  | sequence {elements : List Node} : (∀ element ∈ elements, Legible element) → Legible (.sequence elements)
  | call {name : String} {args : List Node} : Reading.isWord name.toList → standard.writing? name = none →
      (∀ arg ∈ args, Legible arg) → Legible (.application name args)
  | binary {keyword : Keyword} {left right : Node} : keyword ∈ keywords → keyword.fixity = .between →
      Legible left → Legible right → Legible (.application keyword.operation [left, right])
  | chain {name : String} {args : List Node} : name ∈ chainNames → 2 ≤ args.length →
      (∀ arg ∈ args, Legible arg) → Legible (.application name args)
  | unary {keyword : Keyword} {arg : Node} : keyword ∈ keywords → keyword.fixity ≠ .between →
      Legible arg → Legible (.application keyword.operation [arg])

namespace Reading

open Render (needsParentheses)

/-- The text of a node with the standard operators. -/
def chars (node : Node) : List Char :=
  (render standard node).toList

/-- The text of an argument in its place, with the parentheses that it needs there. -/
def operandChars (parent : String) (position : Nat) (arg : Node) : List Char :=
  if needsParentheses standard parent position arg then '(' :: (chars arg ++ [')']) else chars arg

/-- An operator and the operand behind it. -/
def behindChars (keyword : Keyword) (arg : Node) : List Char :=
  ' ' :: (keyword.symbol.toList ++ ' ' :: operandChars keyword.operation 1 arg)

/-- Operands with the operator between them, from the given position on. -/
def chainChars (keyword : Keyword) (position : Nat) : List Node → List Char
  | [] => []
  | first :: others => operandChars keyword.operation position first ++ others.flatMap (behindChars keyword)

/-- Expressions with commas between them. -/
def listChars (nodes : List Node) : List Char :=
  [',', ' '].intercalate (nodes.map chars)

end Reading

namespace Legible

variable {keyword : Keyword} {name : String} {first second : Node} {others args : List Node}

/-- Operators between their operands. There are more than two only if they make a chain. -/
theorem between (hmem : keyword ∈ keywords) (hfixity : keyword.fixity = .between)
    (hlong : others = [] ∨ standard.isCommutative keyword.operation)
    (h : ∀ arg ∈ first :: second :: others, Legible arg) :
    Legible (.application keyword.operation (first :: second :: others)) := by
  rcases hlong with rfl | hcommutative
  · exact .binary hmem hfixity (h first (by simp)) (h second (by simp))
  · exact .chain (Builtin.mem_chainNames_of_commutative hcommutative) (by simp) h

theorem of_mem_args (h : Legible (.application name args)) : ∀ arg ∈ args, Legible arg := by
  cases h with
  | call _ _ hargs => exact hargs
  | binary _ _ hleft hright => exact List.forall_mem_cons.mpr ⟨hleft, List.forall_mem_singleton.mpr hright⟩
  | chain _ _ hargs => exact hargs
  | unary _ _ harg => exact List.forall_mem_singleton.mpr harg

/-- An operator has the operands that it is written with. -/
theorem operands (h : Legible (.application name args)) (hwriting : standard.writing? name = some keyword) :
    (keyword.fixity ≠ .between ∧ ∃ arg, args = [arg]) ∨
    (keyword.fixity = .between ∧ ∃ first second others, args = first :: second :: others ∧
      (others = [] ∨ standard.isCommutative name)) := by
  cases h with
  | call _ hname =>
      rw [hname] at hwriting
      cases hwriting
  | @binary written left right hmem hfixity =>
      rw [Builtin.writing?_standard hmem, Option.some.injEq] at hwriting
      exact .inr ⟨hwriting ▸ hfixity, left, right, [], rfl, .inl rfl⟩
  | chain hname hlength =>
      obtain ⟨written, hmem, rfl, hfixity⟩ := Builtin.keyword_of_mem_chainNames hname
      rw [Builtin.writing?_standard hmem, Option.some.injEq] at hwriting
      match args, hlength with
      | first :: second :: others, _ =>
          exact .inr ⟨hwriting ▸ hfixity, first, second, others, rfl, .inr (Builtin.isCommutative_of_mem hname)⟩
  | @unary written arg hmem hfixity =>
      rw [Builtin.writing?_standard hmem, Option.some.injEq] at hwriting
      exact .inl ⟨hwriting ▸ hfixity, arg, rfl⟩

/-- Induction on an expression, with one case for operators between two operands and in chains. -/
@[elab_as_elim]
theorem inductionOn {motive : (node : Node) → Legible node → Prop} {node : Node} (h : Legible node)
    (integer : ∀ value, motive (.integer value) (.integer value))
    (boolean : ∀ value, motive (.boolean value) (.boolean value))
    (symbol : ∀ {name} (hword : Reading.isWord name.toList) (hfree : IsFree name),
      motive (.symbol name) (.symbol hword hfree))
    (pair : ∀ {first second} (hfirst : Legible first) (hsecond : Legible second),
      motive first hfirst → motive second hsecond → motive (.pair first second) (.pair hfirst hsecond))
    (sequence : ∀ {elements} (helements : ∀ element ∈ elements, Legible element),
      (∀ element helement, motive element (helements element helement)) →
      motive (.sequence elements) (.sequence helements))
    (call : ∀ {name args} (hword : Reading.isWord name.toList) (hname : standard.writing? name = none)
      (hargs : ∀ arg ∈ args, Legible arg), (∀ arg harg, motive arg (hargs arg harg)) →
      motive (.application name args) (.call hword hname hargs))
    (between : ∀ {keyword first second others} (hmem : keyword ∈ keywords) (hfixity : keyword.fixity = .between)
      (hlong : others = [] ∨ standard.isCommutative keyword.operation)
      (hargs : ∀ arg ∈ first :: second :: others, Legible arg), (∀ arg harg, motive arg (hargs arg harg)) →
      motive (.application keyword.operation (first :: second :: others)) (.between hmem hfixity hlong hargs))
    (unary : ∀ {keyword arg} (hmem : keyword ∈ keywords) (hfixity : keyword.fixity ≠ .between)
      (harg : Legible arg), motive arg harg →
      motive (.application keyword.operation [arg]) (.unary hmem hfixity harg)) : motive node h := by
  induction h with
  | integer value => exact integer value
  | boolean value => exact boolean value
  | symbol hword hfree => exact symbol hword hfree
  | pair hfirst hsecond ihfirst ihsecond => exact pair hfirst hsecond ihfirst ihsecond
  | sequence helements ih => exact sequence helements ih
  | call hword hname hargs ih => exact call hword hname hargs ih
  | binary hmem hfixity hleft hright ihleft ihright =>
      refine between hmem hfixity (.inl rfl) (Legible.binary hmem hfixity hleft hright).of_mem_args ?_
      rintro arg harg
      simp only [List.mem_cons, List.not_mem_nil, or_false] at harg
      obtain rfl | rfl := harg
      · exact ihleft
      · exact ihright
  | @chain name args hname hlength hargs ih =>
      obtain ⟨keyword, hmem, rfl, hfixity⟩ := Builtin.keyword_of_mem_chainNames hname
      match args, hlength with
      | first :: second :: others, _ =>
          exact between hmem hfixity (.inr (Builtin.isCommutative_of_mem hname)) hargs ih
  | unary hmem hfixity harg ih => exact unary hmem hfixity harg ih

end Legible

/-! ### The characters of a text -/

namespace Reading

open Render (needsParentheses)

theorem intercalate_cons {α : Type} (separator first : List α) (others : List (List α)) :
    separator.intercalate (first :: others) = first ++ others.flatMap (separator ++ ·) := by
  induction others generalizing first with
  | nil => simp
  | cons second others ih => rw [List.intercalate_cons_cons, ih, List.flatMap_cons, List.append_assoc, List.append_assoc]

theorem map_toList_renderAll (nodes : List Node) :
    (renderAll standard nodes).map String.toList = nodes.map chars := by
  rw [renderAll_eq_map, List.map_map]
  rfl

/-- Only the first place differs from the others. -/
theorem needsParentheses_succ (parent : String) (position : Nat) (arg : Node) :
    needsParentheses standard parent (position + 1) arg = needsParentheses standard parent 1 arg := by
  cases arg <;> rfl

theorem operands_succ (parent : String) (position : Nat) (args : List Node) :
    (Render.operands standard parent (position + 1) args (renderAll standard args)).map String.toList =
      args.map (operandChars parent 1) := by
  induction args generalizing position with
  | nil => rfl
  | cons arg args ih =>
      rw [renderAll, Render.operands, List.map_cons, List.map_cons, ih, needsParentheses_succ, operandChars]
      split
      · rw [String.toList_append, String.toList_append]
        rfl
      · rfl

theorem operands_cons (parent : String) (first : Node) (args : List Node) :
    (Render.operands standard parent 0 (first :: args) (renderAll standard (first :: args))).map String.toList =
      operandChars parent 0 first :: args.map (operandChars parent 1) := by
  rw [renderAll, Render.operands, List.map_cons, operands_succ, operandChars]
  split
  · rw [String.toList_append, String.toList_append]
    rfl
  · rfl

theorem operands_singleton (parent : String) (arg : Node) :
    ∃ text, Render.operands standard parent 0 [arg] (renderAll standard [arg]) = [text] ∧
      text.toList = operandChars parent 0 arg := by
  have hoperands := operands_cons parent arg []
  simpa [List.map_eq_cons_iff] using hoperands

theorem chars_integer (value : Int) : chars (.integer value) = (Number.intText value).toList := by
  have htext : (Number.ofInt value).text = Number.intText value := by
    rw [Number.ofInt]
    cases hword : Word.ofInt? value with
    | some word => rw [Number.text, Word.toInt_of_ofInt? hword]
    | none => rfl
  rw [← htext]
  rfl

theorem chars_pair (first second : Node) :
    chars (.pair first second) = '(' :: (chars first ++ ' ' :: ':' :: ' ' :: (chars second ++ [')'])) := by
  rw [chars, render_pair]
  simp [chars]

theorem chars_sequence (elements : List Node) :
    chars (.sequence elements) = '\x7b' :: (listChars elements ++ ['\x7d']) := by
  rw [chars, render_sequence]
  simp [listChars, map_toList_renderAll]

theorem chars_call {name : String} (hname : standard.writing? name = none) (args : List Node) :
    chars (.application name args) = name.toList ++ '(' :: (listChars args ++ [')']) := by
  rw [chars, render_application, Render.application, hname]
  simp [Render.call, listChars, map_toList_renderAll]

section Keywords

variable {keyword : Keyword} (hmem : keyword ∈ keywords)

include hmem

/-- Operators between their operands. -/
theorem chars_between (hfixity : keyword.fixity = .between) {first second : Node} {rest : List Node}
    (hlong : rest = [] ∨ standard.isCommutative keyword.operation) :
    chars (.application keyword.operation (first :: second :: rest)) =
      chainChars keyword 0 (first :: second :: rest) := by
  have hoperands := operands_cons keyword.operation first (second :: rest)
  rw [chars, render_application, Render.application, Builtin.writing?_standard hmem]
  simp only [hfixity]
  generalize Render.operands standard keyword.operation 0 _ _ = texts at hoperands ⊢
  obtain ⟨one, texts, rfl⟩ : ∃ one others, texts = one :: others :=
    List.exists_cons_of_ne_nil fun hnil => by simp [hnil] at hoperands
  obtain ⟨other, texts, rfl⟩ : ∃ other others, texts = other :: others :=
    List.exists_cons_of_ne_nil fun hnil => by simp [hnil] at hoperands
  rw [List.map_cons, List.cons.injEq] at hoperands
  have hwritten : texts.isEmpty || standard.isCommutative keyword.operation := by
    rcases hlong with rfl | hcommutative
    · have hnone : texts = [] := List.map_eq_nil_iff.mp (List.cons.inj hoperands.2).2
      rw [hnone]
      rfl
    · rw [hcommutative, Bool.or_true]
  dsimp only
  rw [if_pos hwritten, String.toList_intercalate, List.map_cons, intercalate_cons, hoperands.1, hoperands.2,
    List.flatMap_map, chainChars]
  congr 2
  funext arg
  simp [behindChars]

/-- An operator between its operands takes as many as are written with it. -/
theorem chars_operands {first second : Node} {others : List Node}
    (h : Legible (.application keyword.operation (first :: second :: others))) :
    chars (.application keyword.operation (first :: second :: others)) =
      chainChars keyword 0 (first :: second :: others) := by
  obtain ⟨-, _, heq⟩ | ⟨hfixity, _, _, _, heq, hlong⟩ := h.operands (Builtin.writing?_standard hmem)
  · cases heq
  · cases heq
    exact chars_between hmem hfixity hlong

/-- Operators in front of their operand, which are words. -/
theorem chars_before (hfixity : keyword.fixity = .before) (arg : Node) :
    chars (.application keyword.operation [arg]) =
      keyword.symbol.toList ++ ' ' :: operandChars keyword.operation 0 arg := by
  have htable : ∀ keyword ∈ keywords, keyword.fixity = .before →
      keyword.symbol.toList.all Text.isAlphanumeric = true := by
    decide
  obtain ⟨text, htexts, htext⟩ := operands_singleton keyword.operation arg
  rw [chars, render_application, Render.application, Builtin.writing?_standard hmem]
  simp only [hfixity, htexts, htable keyword hmem hfixity]
  simp [htext]

/-- Operators behind their operand, which are no words. -/
theorem chars_after (hfixity : keyword.fixity = .after) (arg : Node) :
    chars (.application keyword.operation [arg]) =
      operandChars keyword.operation 0 arg ++ keyword.symbol.toList := by
  have htable : ∀ keyword ∈ keywords, keyword.fixity = .after →
      keyword.symbol.toList.all Text.isAlphanumeric = false := by
    decide
  obtain ⟨text, htexts, htext⟩ := operands_singleton keyword.operation arg
  rw [chars, render_application, Render.application, Builtin.writing?_standard hmem]
  simp only [hfixity, htexts, htable keyword hmem hfixity]
  simp [htext]

/-- What stands beside the operand of an operator with one operand does not depend on it. -/
theorem chars_beside (hfixity : keyword.fixity ≠ .between) : ∃ front back, ∀ arg,
    chars (.application keyword.operation [arg]) = front ++ (operandChars keyword.operation 0 arg ++ back) := by
  cases hcase : keyword.fixity with
  | before =>
      refine ⟨keyword.symbol.toList ++ [' '], [], fun arg => ?_⟩
      rw [chars_before hmem hcase, List.append_nil, List.append_assoc, List.singleton_append]
  | after => exact ⟨[], keyword.symbol.toList, chars_after hmem hcase⟩
  | between => exact absurd hcase hfixity
  | call => exact absurd hcase (Builtin.fixity_ne_call hmem)

end Keywords

end Reading

end SymbolicAlgebra
