import SymbolicAlgebra.Proofs.Brackets
import SymbolicAlgebra.Proofs.Legible

/-! Expressions that are written with the standard operations, applied to any number of operands. Their texts
have balanced parentheses and no commas outside of them, and which operator one of them begins with is decided
by what is behind it. -/

namespace SymbolicAlgebra

open Builtin (keywords standard)

open Reading

/-- Whether the text is an identifier: letters, digits and underscores, with no digit in front. -/
def isIdentifier : List Char → Bool
  | [] => false
  | first :: rest => !first.isDigit && (first :: rest).all isWordChar

/-- Integers, identifiers that are no keywords, and applications of the standard operations to any number of
such expressions. -/
inductive Written : Node → Prop
  | integer (value : Int) : Written (.integer value)
  | symbol {name : String} : isIdentifier name.toList → name ∉ keywords.map (·.symbol) → Written (.symbol name)
  | application {name : String} {args : List Node} : standard.contains name → (∀ arg ∈ args, Written arg) →
      Written (.application name args)

theorem Written.of_mem_args {name : String} {args : List Node} (h : Written (.application name args)) :
    ∀ arg ∈ args, Written arg := by
  cases h with
  | application _ hargs => exact hargs

/-! ### The forms of a text -/

namespace Reading

open Render (needsParentheses)

theorem length_operands (parent : String) (args : List Node) :
    (Render.operands standard parent 0 args (renderAll standard args)).length = args.length := by
  cases args with
  | nil => rfl
  | cons first args =>
      have hlength := congrArg List.length (operands_cons parent first args)
      simpa using hlength

section Keywords

variable {keyword : Keyword} (hmem : keyword ∈ keywords)

include hmem

theorem contains_operation : standard.contains keyword.operation := by
  have htable : ∀ keyword ∈ keywords, standard.contains keyword.operation := by
    decide +kernel
  exact htable keyword hmem

/-- In front of a single operand the operator is not set apart. -/
theorem chars_unaryInfix (hfixity : keyword.fixity = .between) (arg : Node) :
    chars (.application keyword.operation [arg]) =
      keyword.symbol.toList ++ operandChars keyword.operation 0 arg := by
  obtain ⟨text, htexts, htext⟩ := operands_singleton keyword.operation arg
  rw [chars, render_application, Render.application, Builtin.writing?_standard hmem]
  simp only [hfixity, htexts]
  rw [String.toList_append, htext]

/-- A single operand is in front of its operator or behind it. -/
theorem chars_unary (arg : Node) :
    (keyword.fixity = .between ∧ chars (.application keyword.operation [arg]) =
      keyword.symbol.toList ++ operandChars keyword.operation 0 arg) ∨
    (keyword.fixity = .before ∧ chars (.application keyword.operation [arg]) =
      keyword.symbol.toList ++ ' ' :: operandChars keyword.operation 0 arg) ∨
    (keyword.fixity = .after ∧ chars (.application keyword.operation [arg]) =
      operandChars keyword.operation 0 arg ++ keyword.symbol.toList) := by
  cases hfixity : keyword.fixity with
  | between => exact .inl ⟨rfl, chars_unaryInfix hmem hfixity arg⟩
  | before => exact .inr (.inl ⟨rfl, chars_before hmem hfixity arg⟩)
  | after => exact .inr (.inr ⟨rfl, chars_after hmem hfixity arg⟩)
  | call => exact absurd hfixity (Builtin.fixity_ne_call hmem)

/-- An operator with a number of operands that it is not written with is written as a call. -/
theorem chars_misfit {args : List Node} (hcount : args.length ≠ 1)
    (hmisfit : keyword.fixity = .between → 2 ≤ args.length →
      args.length ≠ 2 ∧ standard.isCommutative keyword.operation = false) :
    chars (.application keyword.operation args) =
      keyword.operation.toList ++ '(' :: (listChars args ++ [')']) := by
  have hcall : Render.application standard keyword.operation args (renderAll standard args) =
      Render.call keyword.operation (renderAll standard args) := by
    have hlength := length_operands keyword.operation args
    rw [Render.application, Builtin.writing?_standard hmem]
    dsimp only
    generalize Render.operands standard keyword.operation 0 args _ = texts at hlength ⊢
    rw [← hlength] at hcount hmisfit
    rcases texts with _ | ⟨first, _ | ⟨second, rest⟩⟩
    · cases keyword.fixity <;> rfl
    · exact absurd rfl hcount
    · cases hfixity : keyword.fixity with
      | between =>
          obtain ⟨hlong, hordered⟩ := hmisfit hfixity (Nat.le_add_left 2 _)
          have hrest : rest ≠ [] := by
            rintro rfl
            exact hlong rfl
          simp [hordered, hrest]
      | _ => rfl
  rw [chars, render_application, hcall]
  simp [Render.call, listChars, map_toList_renderAll]

end Keywords

end Reading

/-- Induction on a written expression, with one case for each form of its text. -/
@[elab_as_elim]
theorem Written.inductionOn {motive : (node : Node) → Written node → Prop} {node : Node} (h : Written node)
    (integer : ∀ value, motive (.integer value) (.integer value))
    (symbol : ∀ {name} (hword : isIdentifier name.toList) (hfree : name ∉ keywords.map (·.symbol)),
      motive (.symbol name) (.symbol hword hfree))
    (call : ∀ {name args} (hname : standard.contains name),
      standard.writing? name = none ∨ args.length ≠ 1 ∧ name ∈ keywords.map (·.operation) →
      chars (.application name args) = name.toList ++ '(' :: (listChars args ++ [')']) →
      ∀ hargs : ∀ arg ∈ args, Written arg, (∀ arg harg, motive arg (hargs arg harg)) →
      motive (.application name args) (.application hname hargs))
    (between : ∀ {keyword first second others} (hmem : keyword ∈ keywords), keyword.fixity = .between →
      others = [] ∨ standard.isCommutative keyword.operation →
      ∀ hargs : ∀ arg ∈ first :: second :: others, Written arg, (∀ arg harg, motive arg (hargs arg harg)) →
      motive (.application keyword.operation (first :: second :: others))
        (.application (contains_operation hmem) hargs))
    (unary : ∀ {keyword arg} (hmem : keyword ∈ keywords) (harg : Written arg), motive arg harg →
      motive (.application keyword.operation [arg])
        (.application (contains_operation hmem) (List.forall_mem_singleton.mpr harg))) : motive node h := by
  induction h with
  | integer value => exact integer value
  | symbol hword hfree => exact symbol hword hfree
  | @application name args hname hargs ih =>
      cases hwriting : standard.writing? name with
      | none => exact call hname (.inl hwriting) (chars_call hwriting args) hargs ih
      | some keyword =>
          obtain ⟨hmem, rfl⟩ := Builtin.mem_keywords_of_writing? hwriting
          have hoperation := List.mem_map_of_mem (f := Keyword.operation) hmem
          match args, hargs, ih with
          | [], hargs, ih =>
              have hcount : ([] : List Node).length ≠ 1 := Nat.zero_ne_one
              exact call hname (.inr ⟨hcount, hoperation⟩)
                (chars_misfit hmem hcount fun _ htwo => absurd htwo (by decide)) hargs ih
          | [arg], hargs, ih => exact unary hmem (hargs arg List.mem_cons_self) (ih arg List.mem_cons_self)
          | first :: second :: others, hargs, ih =>
              by_cases hfits : keyword.fixity = .between ∧ (others = [] ∨ standard.isCommutative keyword.operation)
              · exact between hmem hfits.1 hfits.2 hargs ih
              · have hcount : (first :: second :: others).length ≠ 1 := by simp
                refine call hname (.inr ⟨hcount, hoperation⟩) (chars_misfit hmem hcount fun hbetween _ => ?_) hargs ih
                obtain ⟨hothers, hordered⟩ := not_or.mp fun h => hfits ⟨hbetween, h⟩
                exact ⟨by simpa using hothers, Bool.eq_false_iff.mpr hordered⟩

namespace Reading

open Brackets

variable {name : String} {keyword other : Keyword} {node : Node} {args : List Node} {text rest : List Char}

/-! ### Names and integers -/

theorem isWordChar_of_isIdentifier (h : isIdentifier text) : ∀ c ∈ text, isWordChar c := by
  cases text with
  | nil => cases h
  | cons first rest =>
      rw [isIdentifier, Bool.and_eq_true, List.all_eq_true] at h
      exact h.2

/-- An identifier begins with a letter or an underscore. -/
theorem exists_cons_of_isIdentifier (h : isIdentifier text) :
    ∃ c rest, text = c :: rest ∧ isWordChar c ∧ ¬c.isDigit := by
  cases text with
  | nil => cases h
  | cons first rest =>
      rw [isIdentifier, Bool.and_eq_true, List.all_eq_true, Bool.not_eq_true'] at h
      exact ⟨first, rest, rfl, h.2 first List.mem_cons_self, Bool.eq_false_iff.mp h.1⟩

theorem isIdentifier_append (h : isIdentifier text) (hrest : ∀ c ∈ rest, isWordChar c) :
    isIdentifier (text ++ rest) := by
  cases text with
  | nil => cases h
  | cons first more =>
      rw [isIdentifier, Bool.and_eq_true, List.all_eq_true] at h
      rw [List.cons_append, isIdentifier, Bool.and_eq_true, List.all_eq_true]
      exact ⟨h.1, fun c hc => (List.mem_append.mp hc).elim (h.2 c) (hrest c)⟩

theorem isWordChar_of_isDigit {c : Char} (h : c.isDigit) : isWordChar c := by
  have hsmall : c.toNat < 128 := by
    rw [Char.isDigit, Bool.and_eq_true, decide_eq_true_eq, decide_eq_true_eq, UInt32.le_iff_toNat_le] at h
    exact Nat.lt_of_le_of_lt h.2 (by decide)
  rw [isWordChar, Text.isAlphanumeric, if_pos hsmall, Char.isAlphanum, h, Bool.or_true, Bool.true_or]

/-- Marks that no name, operator or integer has in it. -/
def marks : List Char :=
  ['(', ')', ',', ' ']

theorem not_isWordChar_of_mem_marks : ∀ c ∈ marks, ¬isWordChar c := by
  have hmarks : marks.all (!isWordChar ·) := by
    decide +kernel
  intro c hc hword
  have hother := List.all_eq_true.mp hmarks c hc
  rw [hword] at hother
  cases hother

theorem not_mem_marks_of_isIdentifier (h : isIdentifier text) : ∀ c ∈ text, c ∉ marks :=
  fun c hc hmark => not_isWordChar_of_mem_marks c hmark (isWordChar_of_isIdentifier h c hc)

theorem not_mem_marks_of_contains (h : standard.contains name) : ∀ c ∈ name.toList, c ∉ marks := by
  have htable : ∀ operation ∈ standard.operations, operation.name.toList.all (· ∉ marks) := by
    decide +kernel
  obtain ⟨operation, hmem, rfl⟩ := Registry.exists_of_contains h
  exact fun c hc => of_decide_eq_true (List.all_eq_true.mp (htable operation hmem) c hc)

theorem not_mem_marks_of_keyword (hmem : keyword ∈ keywords) : ∀ c ∈ keyword.symbol.toList, c ∉ marks := by
  have htable : ∀ keyword ∈ keywords, keyword.symbol.toList.all (· ∉ marks) := by
    decide
  exact fun c hc => of_decide_eq_true (List.all_eq_true.mp (htable keyword hmem) c hc)

theorem not_mem_marks_integer (value : Int) : ∀ c ∈ chars (.integer value), c ∉ marks := by
  have hmarks : marks.all (!isNumeral ·) := by
    decide
  rw [chars_integer]
  intro c hc hmark
  have hother := List.all_eq_true.mp hmarks c hmark
  rw [isNumeral_of_mem_intText value c hc] at hother
  cases hother

theorem undivided_of_marks (h : ∀ c ∈ text, c ∉ marks) : Undivided text :=
  .of_forall fun c hc hmark => h c hc (List.mem_append_left [' '] hmark)

theorem plain_of_marks (h : ∀ c ∈ text, c ∉ marks) : Plain text ∧ ' ' ∉ text :=
  ⟨⟨fun hc => h _ hc (by decide), fun hc => h _ hc (by decide)⟩, fun hc => h _ hc (by decide)⟩

theorem undivided_space : Undivided [' '] :=
  .of_forall (List.forall_mem_singleton.mpr (by decide))

theorem undivided_symbol (hmem : keyword ∈ keywords) : Undivided keyword.symbol.toList :=
  undivided_of_marks (not_mem_marks_of_keyword hmem)

theorem plain_symbol (hmem : keyword ∈ keywords) : Plain keyword.symbol.toList ∧ ' ' ∉ keyword.symbol.toList :=
  plain_of_marks (not_mem_marks_of_keyword hmem)

/-- A positive number is not written with a zero in front. -/
theorem toDigits_of_pos {n : Nat} (h : 0 < n) : ∃ c rest, Nat.toDigits 10 n = c :: rest ∧ c ≠ '0' := by
  induction n using Nat.strongRecOn with
  | ind n ih =>
      rcases Nat.lt_or_ge n 10 with hsmall | hlarge
      · have htable : ∀ n < 10, 0 < n → Nat.digitChar n ≠ '0' := by
          decide
        exact ⟨Nat.digitChar n, [], Nat.toDigits_of_lt_base hsmall, htable n hsmall h⟩
      · obtain ⟨c, rest, htext, hc⟩ := ih (n / 10) (Nat.div_lt_self h (by decide)) (Nat.div_pos hlarge (by decide))
        refine ⟨c, rest ++ [Nat.digitChar (n % 10)], ?_, hc⟩
        rw [Nat.toDigits_of_base_le (by decide) hlarge, htext]
        rfl

theorem chars_integer_ofNat (n : Nat) : chars (.integer n) = Nat.toDigits 10 n := by
  rw [chars_integer]
  exact natText_toList n

theorem chars_integer_negSucc (n : Nat) : chars (.integer (.negSucc n)) = '-' :: Nat.toDigits 10 (n + 1) := by
  rw [chars_integer, Number.intText, String.toList_append, natText_toList]
  rfl

/-- An integer is written with a digit in front, or with a minus sign and a digit that is not zero. -/
theorem chars_integer_cons (value : Int) : ∃ c rest, c.isDigit ∧
    (chars (.integer value) = c :: rest ∨ chars (.integer value) = '-' :: c :: rest ∧ c ≠ '0') := by
  cases value with
  | ofNat n =>
      obtain ⟨c, rest, htext⟩ := List.exists_cons_of_ne_nil (Nat.toDigits_ne_nil : Nat.toDigits 10 n ≠ [])
      exact ⟨c, rest, isDigit_of_mem_toDigits c (htext ▸ List.mem_cons_self), .inl (htext ▸ chars_integer_ofNat n)⟩
  | negSucc n =>
      obtain ⟨c, rest, htext, hc⟩ := toDigits_of_pos (Nat.succ_pos n)
      exact ⟨c, rest, isDigit_of_mem_toDigits c (htext ▸ List.mem_cons_self),
        .inr ⟨htext ▸ chars_integer_negSucc n, hc⟩⟩

/-! ### Parentheses and commas -/

theorem undivided_operandChars (h : Undivided (chars node)) (parent : String) (position : Nat) :
    Undivided (operandChars parent position node) := by
  rw [operandChars]
  split
  · exact .grouped h.matched
  · exact h

theorem undivided_behindChars (hmem : keyword ∈ keywords) (h : Undivided (chars node)) :
    Undivided (behindChars keyword node) := by
  have hoperand := undivided_operandChars h keyword.operation 1
  exact undivided_space.append ((undivided_symbol hmem).append (undivided_space.append hoperand))

theorem matched_listChars (h : ∀ arg ∈ args, Matched (chars arg)) : Matched (listChars args) := by
  have hseparator : Plain [',', ' '] := by
    decide
  cases args with
  | nil => exact .nil
  | cons first others =>
      obtain ⟨hfirst, hothers⟩ := List.forall_mem_cons.mp h
      rw [listChars, List.map_cons, intercalate_cons, List.flatMap_map]
      exact hfirst.append (.flatMap fun other hother => hseparator.matched.append (hothers other hother))

/-- The text of an expression has balanced parentheses, and commas only within them. -/
theorem undivided_chars (h : Written node) : Undivided (chars node) := by
  induction h using Written.inductionOn with
  | integer value => exact undivided_of_marks (not_mem_marks_integer value)
  | symbol hword _ => exact undivided_of_marks (not_mem_marks_of_isIdentifier hword)
  | call hname _ htext _ ih =>
      rw [htext]
      exact (undivided_of_marks (not_mem_marks_of_contains hname)).append
        (.grouped (matched_listChars fun arg harg => (ih arg harg).matched))
  | between hmem hfixity hlong _ ih =>
      obtain ⟨hfirst, hothers⟩ := List.forall_mem_cons.mp ih
      rw [chars_between hmem hfixity hlong]
      exact (undivided_operandChars hfirst _ _).append
        (.flatMap fun arg harg => undivided_behindChars hmem (hothers arg harg))
  | @unary keyword arg hmem _ ih =>
      have hsymbol := undivided_symbol hmem
      have hoperand := undivided_operandChars ih keyword.operation 0
      obtain ⟨-, htext⟩ | ⟨-, htext⟩ | ⟨-, htext⟩ := chars_unary hmem arg
      · rw [htext]
        exact hsymbol.append hoperand
      · rw [htext]
        exact hsymbol.append (undivided_space.append hoperand)
      · rw [htext]
        exact hoperand.append hsymbol

/-- The texts of a number of expressions other than one, with commas between them, are not the text of one. -/
theorem chars_ne_listChars (h : Written node) (hargs : ∀ arg ∈ args, Written arg) (hcount : args.length ≠ 1)
    (hnode : chars node ≠ []) : chars node ≠ listChars args := by
  match args, hcount with
  | [], _ => exact hnode
  | [_], hcount => exact absurd rfl hcount
  | first :: second :: others, _ =>
      have htext : listChars (first :: second :: others) =
          chars first ++ ',' :: ' ' :: listChars (second :: others) := by
        rw [listChars, List.map_cons, List.map_cons, List.intercalate_cons_cons, List.append_assoc]
        rfl
      rw [htext]
      exact (undivided_chars h).ne_append (undivided_chars (hargs first List.mem_cons_self)).matched

/-! ### Where one operator ends -/

theorem of_any_head {p : Char → Bool} {front : List Char} {c : Char} (hfront : front.head?.any p)
    (h : front ++ text = c :: rest) : p c := by
  cases front with
  | nil => cases hfront
  | cons first more =>
      rw [List.cons_append, List.cons.injEq] at h
      exact h.1 ▸ hfront

/-- The signs of equality in front come in pairs, and something else than a space is behind them. -/
inductive Paired : List Char → Prop
  | start {c : Char} {rest : List Char} : c ≠ '=' → c ≠ ' ' → Paired (c :: rest)
  | equals {rest : List Char} : Paired rest → Paired ('=' :: '=' :: rest)

namespace Paired

theorem append (h : Paired text) (rest : List Char) : Paired (text ++ rest) := by
  induction h with
  | start hequals hspace => exact .start hequals hspace
  | equals _ ih => exact .equals ih

theorem not_cons (h : Paired text) : ¬Paired ('=' :: text) := by
  induction h with
  | start hequals _ =>
      intro hcons
      cases hcons with
      | start habsurd _ => exact habsurd rfl
      | equals _ => exact hequals rfl
  | equals _ ih =>
      intro hcons
      cases hcons with
      | start habsurd _ => exact habsurd rfl
      | equals hrest => exact ih hrest

theorem of_head (h : text.head?.any (· ∉ ['=', ' '])) : Paired text := by
  cases text with
  | nil => cases h
  | cons c rest =>
      rw [List.head?_cons, Option.any_some, decide_eq_true_eq] at h
      simp only [List.mem_cons, List.not_mem_nil, or_false, not_or] at h
      exact .start h.1 h.2

theorem of_opens (h : text = ['=', '='] ∨ text.head?.any (· ∉ ['=', ' '])) (hrest : Paired rest) :
    Paired (text ++ rest) := by
  rcases h with rfl | hhead
  · exact .equals hrest
  · exact (of_head hhead).append rest

theorem of_wordChar {c : Char} (h : isWordChar c) : Paired (c :: rest) := by
  have hequals : ¬isWordChar '=' := by
    decide +kernel
  have hspace : ¬isWordChar ' ' := by
    decide +kernel
  exact .start (fun heq => hequals (heq ▸ h)) (fun heq => hspace (heq ▸ h))

theorem symbol (hmem : keyword ∈ keywords) (h : Paired text) : Paired (keyword.symbol.toList ++ text) := by
  have htable : ∀ keyword ∈ keywords,
      keyword.symbol.toList = ['=', '='] ∨ keyword.symbol.toList.head?.any (· ∉ ['=', ' ']) := by
    decide
  exact of_opens (htable keyword hmem) h

theorem operandChars (h : Paired (chars node)) (parent : String) (position : Nat) :
    Paired (operandChars parent position node) := by
  rw [Reading.operandChars]
  split
  · exact .start (by decide) (by decide)
  · exact h

/-- In front of the first word there is nothing, and it is more than a sign of equality. -/
theorem words_eq (h : Paired text) (hmatched : Matched text) :
    ∃ word more, words text = word :: more ∧ word ≠ [] ∧ word ≠ ['='] := by
  cases h with
  | start hequals hspace =>
      obtain ⟨others, houter⟩ := hmatched.exists_outer_cons
      obtain ⟨word, more, hwords⟩ := words_of_outer_cons houter hspace
      exact ⟨_, more, hwords, List.cons_ne_nil _ _, fun heq => hequals (List.cons.inj heq).1⟩
  | @equals rest _ =>
      have hplain : Plain ['='] := by
        decide
      have houter : outer ('=' :: rest) = '=' :: outer rest := outer_cons (by decide) (by decide) rest
      obtain ⟨word, more, hwords⟩ := words_of_outer_cons houter (by decide)
      exact ⟨_, more, hplain.words_append (by decide) hwords, List.cons_ne_nil _ _, by simp⟩

end Paired

theorem paired_chars (h : Written node) : Paired (chars node) := by
  induction h using Written.inductionOn with
  | integer value =>
      obtain ⟨c, rest, hdigit, htext | ⟨htext, -⟩⟩ := chars_integer_cons value
      · rw [htext]
        refine .start ?_ ?_ <;>
          · rintro rfl
            cases hdigit
      · rw [htext]
        exact .start (by decide) (by decide)
  | @symbol name hword _ =>
      obtain ⟨c, rest, htext, hc, -⟩ := exists_cons_of_isIdentifier hword
      show Paired name.toList
      rw [htext]
      exact .of_wordChar hc
  | call hname _ htext _ _ =>
      have htable : ∀ operation ∈ standard.operations,
          operation.name.toList = ['=', '='] ∨ operation.name.toList.head?.any (· ∉ ['=', ' ']) := by
        decide +kernel
      obtain ⟨operation, hmem, rfl⟩ := Registry.exists_of_contains hname
      rw [htext]
      exact .of_opens (htable operation hmem) (.start (by decide) (by decide))
  | between hmem hfixity hlong _ ih =>
      rw [chars_between hmem hfixity hlong]
      exact ((ih _ List.mem_cons_self).operandChars _ _).append _
  | @unary keyword arg hmem _ ih =>
      have hoperand := ih.operandChars keyword.operation 0
      obtain ⟨-, htext⟩ | ⟨hfixity, htext⟩ | ⟨-, htext⟩ := chars_unary hmem arg
      · rw [htext]
        exact hoperand.symbol hmem
      · have htable : ∀ keyword ∈ keywords, keyword.fixity = .before →
            keyword.symbol.toList.head?.any (· ∉ ['=', ' ']) := by
          decide
        rw [htext]
        exact (Paired.of_head (htable keyword hmem hfixity)).append _
      · rw [htext]
        exact hoperand.append _

theorem chars_ne_nil (h : Written node) : chars node ≠ [] := by
  intro hnil
  have hpaired := paired_chars h
  rw [hnil] at hpaired
  cases hpaired

/-- An operator that begins with another one is that one with a sign of equality. -/
theorem eq_or_eq_equals (hmem : keyword ∈ keywords) (hother : other ∈ keywords)
    (h : other.symbol.toList = keyword.symbol.toList ++ text) : keyword = other ∧ text = [] ∨ text = ['='] := by
  have htable : ∀ keyword ∈ keywords, ∀ other ∈ keywords, keyword.symbol.toList <+: other.symbol.toList →
      keyword = other ∨ keyword.symbol.toList ++ ['='] = other.symbol.toList := by
    decide +kernel
  rcases htable keyword hmem other hother ⟨text, h.symm⟩ with rfl | hequals
  · exact .inl ⟨rfl, by simpa using h⟩
  · exact .inr (List.append_cancel_left (h.symm.trans hequals.symm))

/-- What operator a text begins with is decided by what stands behind it. -/
theorem symbol_append_inj (hmem : keyword ∈ keywords) (hother : other ∈ keywords) (htext : Paired text)
    (hrest : Paired rest) (h : keyword.symbol.toList ++ text = other.symbol.toList ++ rest) :
    keyword = other ∧ text = rest := by
  obtain ⟨more, hsymbol, rfl⟩ | ⟨more, hsymbol, rfl⟩ := List.append_eq_append_iff.mp h
  · obtain ⟨rfl, rfl⟩ | rfl := eq_or_eq_equals hmem hother hsymbol
    · exact ⟨rfl, rfl⟩
    · exact absurd htext hrest.not_cons
  · obtain ⟨rfl, rfl⟩ | rfl := eq_or_eq_equals hother hmem hsymbol
    · exact ⟨rfl, rfl⟩
    · exact absurd hrest htext.not_cons

theorem symbol_append_ne {c : Char} (hmem : keyword ∈ keywords) (hc : c ∈ marks) :
    keyword.symbol.toList ++ text ≠ c :: rest := by
  have htable : ∀ keyword ∈ keywords, keyword.symbol.toList.head?.any (· ∉ marks) := by
    decide
  intro h
  exact of_decide_eq_true (of_any_head (htable keyword hmem) h) hc

end Reading

end SymbolicAlgebra
