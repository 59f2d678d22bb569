import SymbolicAlgebra.Proofs.RoundTrip
import SymbolicAlgebra.Proofs.Written

/-! The words that the text of an expression is made up of, outside of parentheses. The operators among them bind
at least as tightly as the expression does. And the first word shows whether the expression begins with a name
or a number: such a word has nothing else in it, and the next one is an operator. -/

namespace SymbolicAlgebra

open Builtin (keywords standard)

namespace Reading

open Brackets

open Render (needsParentheses)

variable {keyword other : Keyword} {node arg : Node} {args : List Node} {text rest : List Char} {level : Nat}

/-! ### Operands without parentheses -/

/-- What binds more tightly than an operator stands without parentheses. -/
theorem open_of_strength_lt (hmem : keyword ∈ keywords) {position : Nat}
    (h : keyword.precedence.strength < strength arg) :
    needsParentheses standard keyword.operation position arg = false := by
  cases arg with
  | application name args =>
      cases hwriting : standard.writing? name with
      | none => simp only [needsParentheses, hwriting]
      | some inner =>
          simp only [strength, hwriting] at h
          have hne : inner.precedence ≠ keyword.precedence := fun heq => absurd (heq ▸ h) (Nat.lt_irrefl _)
          simp only [needsParentheses, hwriting, Builtin.writing?_standard hmem]
          rw [if_pos hne]
          exact decide_eq_false (Nat.lt_asymm h)
  | _ => rfl

theorem open_of_call {parent : String} (h : standard.writing? parent = none) (position : Nat) (arg : Node) :
    needsParentheses standard parent position arg = false := by
  cases arg with
  | application name args =>
      rw [needsParentheses, h]
      cases standard.writing? name <;> rfl
  | _ => rfl

/-! ### The operators among the words of a text -/

theorem toList_symbol_after (hmem : keyword ∈ keywords) (hfixity : keyword.fixity = .after) :
    keyword.symbol.toList = ['!'] := by
  have htable : ∀ keyword ∈ keywords, keyword.fixity = .after → keyword.symbol.toList = ['!'] := by
    decide
  exact htable keyword hmem hfixity

/-- No operator between operands ends like the one behind its operand. -/
theorem getLast?_symbol_ne (hmem : keyword ∈ keywords) (hfixity : keyword.fixity = .between) :
    keyword.symbol.toList.getLast? ≠ some '!' := by
  have htable : ∀ keyword ∈ keywords, keyword.fixity = .between → keyword.symbol.toList.getLast? ≠ some '!' := by
    decide
  exact htable keyword hmem hfixity

/-- Operators between operands, as words of the text, bind at least as tightly as `level`. -/
def Tight (level : Nat) (text : List Char) : Prop :=
  ∀ keyword ∈ keywords, keyword.fixity = .between → keyword.symbol.toList ∈ words text →
    level ≤ keyword.precedence.strength

namespace Tight

theorem mono (h : Tight level text) {lower : Nat} (hle : lower ≤ level) : Tight lower text :=
  fun keyword hmem hfixity hword => hle.trans (h keyword hmem hfixity hword)

theorem of_word {word : List Char} (hwords : words text = [word])
    (h : ∀ keyword ∈ keywords, keyword.fixity = .between → keyword.symbol.toList ≠ word) : Tight level text := by
  intro keyword hmem hfixity hword
  rw [hwords, List.mem_singleton] at hword
  exact absurd hword (h keyword hmem hfixity)

theorem append_space (h : Tight level text) (hrest : Tight level rest) (hmatched : Matched text) :
    Tight level (text ++ ' ' :: rest) := by
  intro keyword hmem hfixity hword
  rw [words_append_space hmatched, List.mem_append] at hword
  exact hword.elim (h keyword hmem hfixity) (hrest keyword hmem hfixity)

/-- A word with one of the marks in it is no operator. -/
theorem of_mark {word : List Char} (hwords : words text = [word]) {c : Char} (hc : c ∈ marks) (hword : c ∈ word) :
    Tight level text := by
  refine .of_word hwords fun keyword hmem _ hsymbol => not_mem_marks_of_keyword hmem c ?_ hc
  rw [hsymbol]
  exact hword

theorem symbol (hmem : keyword ∈ keywords) (hle : level ≤ keyword.precedence.strength) :
    Tight level keyword.symbol.toList := by
  have htable : ∀ keyword ∈ keywords, ∀ other ∈ keywords, keyword.symbol = other.symbol → keyword = other := by
    decide
  obtain ⟨hplain, hspace⟩ := plain_symbol hmem
  intro other hother _ hword
  rw [hplain.words_eq hspace, List.mem_singleton] at hword
  rwa [htable other hother keyword hmem (String.toList_inj.mp hword)]

/-- An operator in front of the first word makes it a word that is no operator. -/
theorem symbol_append (hmem : keyword ∈ keywords) (h : Tight level text) (hpaired : Paired text)
    (hmatched : Matched text) : Tight level (keyword.symbol.toList ++ text) := by
  obtain ⟨hplain, hspace⟩ := plain_symbol hmem
  obtain ⟨word, more, hwords, hnil, hequals⟩ := hpaired.words_eq hmatched
  intro other hother hfixity hword
  rw [hplain.words_append hspace hwords, List.mem_cons] at hword
  rcases hword with hfirst | hmore
  · obtain ⟨-, habsurd⟩ | habsurd := eq_or_eq_equals hmem hother hfirst
    · exact absurd habsurd hnil
    · exact absurd habsurd hequals
  · refine h other hother hfixity ?_
    rw [hwords]
    exact List.mem_cons_of_mem _ hmore

/-- An operator behind its operand makes the last word one that is no operator. -/
theorem append_symbol (hmem : keyword ∈ keywords) (hfixity : keyword.fixity = .after) (h : Tight level text)
    (hmatched : Matched text) : Tight level (text ++ keyword.symbol.toList) := by
  obtain ⟨front, word, hwords, hbehind⟩ := words_concat hmatched (c := '!') (by decide)
  intro other hother hbetween hword
  rw [toList_symbol_after hmem hfixity, hbehind, List.mem_append, List.mem_singleton] at hword
  rcases hword with hfront | hsymbol
  · refine h other hother hbetween ?_
    rw [hwords]
    exact List.mem_append_left _ hfront
  · refine absurd ?_ (getLast?_symbol_ne hother hbetween)
    rw [hsymbol, List.getLast?_append, List.getLast?_singleton]
    rfl

theorem operandChars (hmem : keyword ∈ keywords) (h : Tight (strength arg) (chars arg))
    (hmatched : Matched (chars arg)) (position : Nat) :
    Tight keyword.precedence.strength (operandChars keyword.operation position arg) := by
  rw [Reading.operandChars]
  split
  · exact .of_mark (words_group hmatched) (c := '(') (by decide) List.mem_cons_self
  · rename_i hopen
    exact h.mono (strength_le_of_open hmem (Bool.eq_false_iff.mpr hopen))

/-- Operators with their operands, one behind the other. -/
theorem append_flatMap (hmem : keyword ∈ keywords) (h : Tight keyword.precedence.strength text)
    (hmatched : Matched text) (hargs : ∀ arg ∈ args, Written arg ∧ Tight (strength arg) (chars arg)) :
    Tight keyword.precedence.strength (text ++ args.flatMap (behindChars keyword)) := by
  induction args generalizing text with
  | nil => rwa [List.flatMap_nil, List.append_nil]
  | cons arg args ih =>
      obtain ⟨⟨hwritten, htight⟩, hothers⟩ := List.forall_mem_cons.mp hargs
      have hundivided := undivided_chars hwritten
      rw [List.flatMap_cons, ← List.append_assoc]
      refine ih ?_ (hmatched.append (undivided_behindChars hmem hundivided).matched) hothers
      have hoperand := htight.operandChars hmem hundivided.matched 1
      exact h.append_space ((symbol hmem le_rfl).append_space hoperand (plain_symbol hmem).1.matched) hmatched

end Tight

/-- Operators outside of parentheses bind at least as tightly as the expression that they are in. -/
theorem tight_chars (h : Written node) : Tight (strength node) (chars node) := by
  induction h using Written.inductionOn with
  | integer value =>
      have htable : ∀ keyword ∈ keywords, keyword.symbol.toList.all (!·.isDigit) := by
        decide
      obtain ⟨hplain, hspace⟩ := plain_of_marks (not_mem_marks_integer value)
      refine .of_word (hplain.words_eq hspace) fun keyword hmem _ hsymbol => ?_
      have hnone := htable keyword hmem
      obtain ⟨c, rest, hdigit, htext | ⟨htext, -⟩⟩ := chars_integer_cons value <;>
        simp [hsymbol, htext, hdigit] at hnone
  | @symbol name hword hfree =>
      obtain ⟨hplain, hspace⟩ := plain_of_marks (not_mem_marks_of_isIdentifier hword)
      refine .of_word (hplain.words_eq hspace) fun keyword hmem _ hsymbol => hfree ?_
      exact List.mem_map.mpr ⟨keyword, hmem, String.toList_inj.mp hsymbol⟩
  | @call name args hname _ htext hargs _ =>
      obtain ⟨hplain, hspace⟩ := plain_of_marks (not_mem_marks_of_contains hname)
      have hlist := matched_listChars fun arg harg => (undivided_chars (hargs arg harg)).matched
      rw [htext]
      exact .of_mark (hplain.words_append hspace (words_group hlist)) (c := '(') (by decide) (by simp)
  | @between keyword first second others hmem hfixity hlong hargs ih =>
      have hfirst := undivided_chars (hargs first List.mem_cons_self)
      rw [chars_between hmem hfixity hlong, strength_keyword hmem]
      exact .append_flatMap hmem ((ih first List.mem_cons_self).operandChars hmem hfirst.matched 0)
        (undivided_operandChars hfirst _ 0).matched fun arg harg =>
          ⟨hargs arg (List.mem_cons_of_mem _ harg), ih arg (List.mem_cons_of_mem _ harg)⟩
  | @unary keyword arg hmem harg ih =>
      have hundivided := undivided_chars harg
      have hoperand := ih.operandChars hmem hundivided.matched 0
      have hmatched := (undivided_operandChars hundivided keyword.operation 0).matched
      rw [strength_keyword hmem]
      obtain ⟨-, htext⟩ | ⟨-, htext⟩ | ⟨hfixity, htext⟩ := chars_unary hmem arg
      · rw [htext]
        exact hoperand.symbol_append hmem ((paired_chars harg).operandChars _ _) hmatched
      · rw [htext]
        exact (Tight.symbol hmem le_rfl).append_space hoperand (plain_symbol hmem).1.matched
      · rw [htext]
        exact hoperand.append_symbol hmem hfixity hmatched

/-! ### Names and numbers in front -/

/-- The text of an expression begins with a symbol, or with an integer that has no sign. Operators that are words
may stand right in front of it. -/
inductive BeginsWithName : Node → Prop
  | integer (n : Nat) : BeginsWithName (.integer n)
  | symbol (name : String) : BeginsWithName (.symbol name)
  | between {keyword : Keyword} {first second : Node} {others : List Node} : keyword ∈ keywords →
      keyword.fixity = .between → others = [] ∨ standard.isCommutative keyword.operation →
      needsParentheses standard keyword.operation 0 first = false → BeginsWithName first →
      BeginsWithName (.application keyword.operation (first :: second :: others))
  | after {keyword : Keyword} {arg : Node} : keyword ∈ keywords → keyword.fixity = .after →
      needsParentheses standard keyword.operation 0 arg = false → BeginsWithName arg →
      BeginsWithName (.application keyword.operation [arg])
  | word {keyword : Keyword} {arg : Node} : keyword ∈ keywords → keyword.fixity = .between →
      keyword.symbol.toList.all isWordChar → needsParentheses standard keyword.operation 0 arg = false →
      BeginsWithName arg → BeginsWithName (.application keyword.operation [arg])

/-- In front of one operand, an operator between operands is a word that stands in front of a name. -/
theorem BeginsWithName.of_unaryInfix (h : BeginsWithName (.application keyword.operation [arg]))
    (hmem : keyword ∈ keywords) (hfixity : keyword.fixity = .between) :
    keyword.symbol.toList.all isWordChar ∧ needsParentheses standard keyword.operation 0 arg = false ∧
      BeginsWithName arg := by
  generalize hnode : Node.application keyword.operation [arg] = node at h
  cases h with
  | integer _ => cases hnode
  | symbol _ => cases hnode
  | between _ _ _ _ _ => cases (Node.application.inj hnode).2
  | after hother hafter _ _ =>
      rw [Builtin.eq_of_operation_eq hmem hother (Node.application.inj hnode).1, hafter] at hfixity
      cases hfixity
  | word hother _ hword hopen harg =>
      obtain ⟨hoperation, hargs⟩ := Node.application.inj hnode
      obtain rfl := Builtin.eq_of_operation_eq hmem hother hoperation
      cases hargs
      exact ⟨hword, hopen, harg⟩

/-- The first word is a name or a number, together with the operators right behind it, and the next word is an
operator between operands. -/
def Leads (text : List Char) : Prop :=
  ∃ word more, words text = word :: more ∧ (∀ c ∈ word, isWordChar c ∨ c = '!') ∧
    ∀ second ∈ more.head?, ∃ keyword ∈ keywords, keyword.fixity = .between ∧ keyword.symbol.toList = second

theorem exists_words (text : List Char) : ∃ word more, words text = word :: more :=
  List.exists_cons_of_ne_nil (List.splitOn_ne_nil ' ' _)

namespace Leads

theorem of_wordChars (h : ∀ c ∈ text, isWordChar c) : Leads text := by
  obtain ⟨hplain, hspace⟩ := plain_of_marks fun c hc hmark => not_isWordChar_of_mem_marks c hmark (h c hc)
  exact ⟨text, [], hplain.words_eq hspace, fun c hc => .inl (h c hc), nofun⟩

/-- An operator with what it is applied to, behind the text. -/
theorem append_between (h : Leads text) (hmem : keyword ∈ keywords) (hfixity : keyword.fixity = .between)
    (hmatched : Matched text) : Leads (text ++ ' ' :: (keyword.symbol.toList ++ ' ' :: rest)) := by
  obtain ⟨hplain, hspace⟩ := plain_symbol hmem
  obtain ⟨word, more, hwords, hchars, hsecond⟩ := h
  refine ⟨word, more ++ keyword.symbol.toList :: words rest, ?_, hchars, ?_⟩
  · rw [words_append_space hmatched, words_append_space hplain.matched, hplain.words_eq hspace, hwords]
    rfl
  · cases more with
    | nil =>
        rintro _ ⟨⟩
        exact ⟨keyword, hmem, hfixity, rfl⟩
    | cons second more => exact hsecond

theorem of_append_space (h : Leads (text ++ ' ' :: rest)) (hmatched : Matched text) : Leads text := by
  obtain ⟨word, more, hwords, hchars, hsecond⟩ := h
  obtain ⟨first, others, hfirst⟩ := exists_words text
  rw [words_append_space hmatched, hfirst, List.cons_append, List.cons.injEq] at hwords
  obtain ⟨rfl, rfl⟩ := hwords
  refine ⟨first, others, hfirst, hchars, ?_⟩
  cases others with
  | nil => nofun
  | cons second others => exact hsecond

theorem symbol_append (h : Leads text) (hmem : keyword ∈ keywords) (hword : keyword.symbol.toList.all isWordChar) :
    Leads (keyword.symbol.toList ++ text) := by
  obtain ⟨hplain, hspace⟩ := plain_symbol hmem
  obtain ⟨word, more, hwords, hchars, hsecond⟩ := h
  refine ⟨_, more, hplain.words_append hspace hwords, fun c hc => ?_, hsecond⟩
  obtain hsymbol | hmore := List.mem_append.mp hc
  · exact .inl (List.all_eq_true.mp hword c hsymbol)
  · exact hchars c hmore

theorem of_symbol_append (h : Leads (keyword.symbol.toList ++ text)) (hmem : keyword ∈ keywords)
    (hfixity : keyword.fixity = .between) : keyword.symbol.toList.all isWordChar ∧ Leads text := by
  have htable : ∀ keyword ∈ keywords, keyword.fixity = .between →
      keyword.symbol.toList.all (fun c => isWordChar c || c == '!') → keyword.symbol.toList.all isWordChar := by
    decide +kernel
  obtain ⟨hplain, hspace⟩ := plain_symbol hmem
  obtain ⟨word, more, hwords, hchars, hsecond⟩ := h
  obtain ⟨first, others, hfirst⟩ := exists_words text
  rw [hplain.words_append hspace hfirst, List.cons.injEq] at hwords
  obtain ⟨rfl, rfl⟩ := hwords
  refine ⟨htable keyword hmem hfixity (List.all_eq_true.mpr fun c hc => ?_), first, others, hfirst,
    fun c hc => hchars c (List.mem_append_right _ hc), hsecond⟩
  simpa using hchars c (List.mem_append_left _ hc)

/-- A mark among the characters of the first word. -/
theorem not_mem_marks (h : Leads text) {word : List Char} {more : List (List Char)}
    (hwords : words text = word :: more) : ∀ c ∈ word, c ∉ marks := by
  obtain ⟨first, others, hfirst, hchars, -⟩ := h
  rw [hwords, List.cons.injEq] at hfirst
  obtain ⟨rfl, -⟩ := hfirst
  intro c hc hmark
  obtain hword | rfl := hchars c hc
  · exact not_isWordChar_of_mem_marks c hmark hword
  · exact absurd hmark (by decide)

theorem of_operandChars {parent : String} {position : Nat} (h : Leads (operandChars parent position arg))
    (hmatched : Matched (chars arg)) : needsParentheses standard parent position arg = false ∧ Leads (chars arg) := by
  rw [operandChars] at h
  split at h
  · exact absurd (show '(' ∈ marks by decide) (h.not_mem_marks (words_group hmatched) '(' List.mem_cons_self)
  · rename_i hopen
    exact ⟨Bool.eq_false_iff.mpr hopen, h⟩

/-- No operator between operands binds as tightly as one behind an operand: the text is one word, and it is one
with the operator behind it. -/
theorem append_symbol (h : Leads text) (hmem : keyword ∈ keywords) (hfixity : keyword.fixity = .after)
    (hmatched : Matched text) (htight : Tight keyword.precedence.strength text) :
    Leads (text ++ keyword.symbol.toList) := by
  have htightest : ∀ keyword ∈ keywords, keyword.fixity = .after → ∀ other ∈ keywords, other.fixity = .between →
      other.precedence.strength < keyword.precedence.strength := by
    decide
  obtain ⟨word, more, hwords, hchars, hsecond⟩ := h
  cases more with
  | cons second more =>
      obtain ⟨other, hother, hbetween, rfl⟩ := hsecond second rfl
      have hmention : other.symbol.toList ∈ words text := by
        rw [hwords]
        exact List.mem_cons_of_mem _ List.mem_cons_self
      exact absurd (htight other hother hbetween hmention)
        (Nat.not_le_of_lt (htightest keyword hmem hfixity other hother hbetween))
  | nil =>
      obtain ⟨front, last, hfront, hbehind⟩ := words_concat hmatched (c := '!') (by decide)
      rw [hwords, List.singleton_eq_append_iff] at hfront
      obtain ⟨rfl, hlast⟩ | ⟨-, habsurd⟩ := hfront
      · cases hlast
        rw [toList_symbol_after hmem hfixity]
        refine ⟨_, [], hbehind, fun c hc => ?_, nofun⟩
        obtain hword | hmark := List.mem_append.mp hc
        · exact hchars c hword
        · exact .inr (List.mem_singleton.mp hmark)
      · exact absurd habsurd (List.cons_ne_nil _ _)

/-- An operator behind the text becomes a part of its last word, which is not the second one: that is an operator
between operands already. -/
theorem of_append_symbol (h : Leads (text ++ keyword.symbol.toList)) (hmem : keyword ∈ keywords)
    (hfixity : keyword.fixity = .after) (hmatched : Matched text) : Leads text := by
  obtain ⟨front, last, hfront, hbehind⟩ := words_concat hmatched (c := '!') (by decide)
  rw [toList_symbol_after hmem hfixity] at h
  obtain ⟨word, more, hwords, hchars, hsecond⟩ := h
  rw [hbehind] at hwords
  rw [Leads, hfront]
  match front, hwords with
  | [], hwords =>
      cases hwords
      exact ⟨last, [], rfl, fun c hc => hchars c (List.mem_append_left _ hc), nofun⟩
  | [first], hwords =>
      cases hwords
      obtain ⟨other, hother, hbetween, hsymbol⟩ := hsecond _ rfl
      refine absurd ?_ (getLast?_symbol_ne hother hbetween)
      rw [hsymbol, List.getLast?_append, List.getLast?_singleton]
      rfl
  | first :: second :: front, hwords =>
      cases hwords
      exact ⟨word, second :: (front ++ [last]), rfl, hchars, hsecond⟩

end Leads

theorem leads_chars (h : BeginsWithName node) (hnode : Written node) : Leads (chars node) := by
  induction h with
  | integer n =>
      rw [chars_integer_ofNat]
      exact .of_wordChars fun c hc => isWordChar_of_isDigit (isDigit_of_mem_toDigits c hc)
  | symbol name =>
      cases hnode with
      | symbol hword _ => exact .of_wordChars (isWordChar_of_isIdentifier hword)
  | between hmem hfixity hlong hopen _ ih =>
      have hfirst := hnode.of_mem_args _ List.mem_cons_self
      rw [chars_between hmem hfixity hlong, chainChars, operandChars, hopen, if_neg Bool.false_ne_true,
        List.flatMap_cons, behindChars, List.cons_append, List.append_assoc, List.cons_append]
      exact (ih hfirst).append_between hmem hfixity (undivided_chars hfirst).matched
  | after hmem hfixity hopen _ ih =>
      have harg := hnode.of_mem_args _ List.mem_cons_self
      have htight := (tight_chars harg).mono (strength_le_of_open hmem hopen)
      rw [chars_after hmem hfixity, operandChars, hopen, if_neg Bool.false_ne_true]
      exact (ih harg).append_symbol hmem hfixity (undivided_chars harg).matched htight
  | word hmem hfixity hword hopen _ ih =>
      rw [chars_unaryInfix hmem hfixity, operandChars, hopen, if_neg Bool.false_ne_true]
      exact (ih (hnode.of_mem_args _ List.mem_cons_self)).symbol_append hmem hword

theorem beginsWithName_of_leads (hnode : Written node) (hstrength : 0 < strength node)
    (h : Leads (chars node)) : BeginsWithName node := by
  induction hnode using Written.inductionOn with
  | integer value =>
      cases value with
      | ofNat n => exact .integer n
      | negSucc n =>
          have hminus : (⟨"-", "-", .between, .additive⟩ : Keyword) ∈ keywords := by
            decide
          rw [chars_integer_negSucc] at h
          exact absurd (Leads.of_symbol_append h hminus rfl).1 (by decide +kernel)
  | symbol _ _ => exact .symbol _
  | @call name args hname _ htext hargs _ =>
      obtain ⟨hplain, hspace⟩ := plain_of_marks (not_mem_marks_of_contains hname)
      have hlist := matched_listChars fun arg harg => (undivided_chars (hargs arg harg)).matched
      rw [htext] at h
      have hwords := hplain.words_append hspace (words_group hlist)
      exact absurd (show '(' ∈ marks by decide) (h.not_mem_marks hwords '(' (by simp))
  | @between keyword first second others hmem hfixity hlong hargs ih =>
      have hfirst := undivided_chars (hargs first List.mem_cons_self)
      rw [chars_between hmem hfixity hlong, chainChars, List.flatMap_cons, behindChars, List.cons_append] at h
      rw [strength_keyword hmem] at hstrength
      obtain ⟨hopen, hleads⟩ := (h.of_append_space (undivided_operandChars hfirst _ _).matched).of_operandChars
        hfirst.matched
      exact .between hmem hfixity hlong hopen (ih first List.mem_cons_self
        (hstrength.trans_le (strength_le_of_open hmem hopen)) hleads)
  | @unary keyword arg hmem harg ih =>
      have hmatched := (undivided_chars harg).matched
      rw [strength_keyword hmem] at hstrength
      obtain ⟨hfixity, htext⟩ | ⟨hfixity, htext⟩ | ⟨hfixity, htext⟩ := chars_unary hmem arg <;> rw [htext] at h
      · obtain ⟨hword, hleads⟩ := h.of_symbol_append hmem hfixity
        obtain ⟨hopen, hleads⟩ := hleads.of_operandChars hmatched
        exact .word hmem hfixity hword hopen (ih (hstrength.trans_le (strength_le_of_open hmem hopen)) hleads)
      · have htable : ∀ keyword ∈ keywords, keyword.fixity = .before → 0 < keyword.precedence.strength →
            ∀ other ∈ keywords, other.fixity = .between → other.precedence.strength < keyword.precedence.strength := by
          decide
        obtain ⟨hplain, hspace⟩ := plain_symbol hmem
        obtain ⟨word, more, hwords, -, hsecond⟩ := h
        obtain ⟨first, others, hfirst⟩ := exists_words (operandChars keyword.operation 0 arg)
        rw [words_append_space hplain.matched, hplain.words_eq hspace, hfirst, List.singleton_append,
          List.cons.injEq] at hwords
        obtain ⟨-, rfl⟩ := hwords
        obtain ⟨other, hother, hbetween, rfl⟩ := hsecond _ rfl
        have htight := (tight_chars harg).operandChars hmem hmatched 0 other hother hbetween
          (hfirst ▸ List.mem_cons_self)
        exact absurd htight (Nat.not_le_of_lt (htable keyword hmem hfixity hstrength other hother hbetween))
      · obtain ⟨hopen, hleads⟩ := (h.of_append_symbol hmem hfixity
          (undivided_operandChars (undivided_chars harg) _ _).matched).of_operandChars hmatched
        exact .after hmem hfixity hopen (ih (hstrength.trans_le (strength_le_of_open hmem hopen)) hleads)

end Reading

end SymbolicAlgebra
