import SymbolicAlgebra.Proofs.Words

/-! Operators that stand between operands, written in front of a single one. Outside of parentheses, what such
an operator is applied to has no operators that bind less tightly. So nothing in the text can be taken for the
other operand of an operator that all of it is written with. Only a minus sign in front of a number is also the
sign of a number, and an operator that is a word, in front of a name, also the beginning of a longer name. -/

namespace SymbolicAlgebra

open Builtin (keywords standard)

/-- An operator that stands between operands, applied to one operand only. -/
def Node.IsUnaryInfix (node : Node) : Prop :=
  ∃ keyword ∈ keywords, keyword.fixity = .between ∧ ∃ arg, node = .application keyword.operation [arg]

namespace Reading

open Brackets

open Render (needsParentheses)

variable {keyword other : Keyword} {node arg : Node} {args : List Node} {text rest : List Char}

/-! ### How the text of an expression begins -/

/-- A name in front of a list, or of an operand, that is not taken for an operator between operands. -/
def Stands (word : List Char) : Prop :=
  '(' ∉ word ∧ ∀ keyword ∈ keywords, keyword.fixity = .between →
    ¬keyword.symbol.toList <+: word ∧ ¬word <+: keyword.symbol.toList

instance (word : List Char) : Decidable (Stands word) :=
  inferInstanceAs (Decidable (_ ∧ _))

theorem Stands.symbol_append_ne {word : List Char} (h : Stands word) (hmem : keyword ∈ keywords)
    (hfixity : keyword.fixity = .between) : keyword.symbol.toList ++ text ≠ word ++ rest := by
  obtain ⟨hlonger, hshorter⟩ := h.2 keyword hmem hfixity
  intro heq
  obtain ⟨more, hword, -⟩ | ⟨more, hsymbol, -⟩ := List.append_eq_append_iff.mp heq
  · exact hlonger ⟨more, hword.symm⟩
  · exact hshorter ⟨more, hsymbol.symm⟩

theorem Stands.append_ne_group {word : List Char} (h : Stands word) : word ++ rest ≠ '(' :: text := by
  have hplus : (⟨"+", "+", .between, .additive⟩ : Keyword) ∈ keywords := by
    decide
  intro heq
  cases word with
  | nil => exact (h.2 _ hplus rfl).2 List.nil_prefix
  | cons c word => exact h.1 (List.mem_cons.mpr (.inl (List.cons.inj heq).1.symm))

/-- What the text of an expression can begin with other than a name, where no operator is at its root that
stands in front of one operand without belonging there. -/
inductive Front : List Char → Prop
  | group {inner : Node} {rest : List Char} : Written inner → Front ('(' :: (chars inner ++ ')' :: rest))
  | negative {c : Char} {rest : List Char} : c.isDigit → c ≠ '0' → Front ('-' :: c :: rest)
  | name {word rest : List Char} : Stands word → Front (word ++ rest)
  | call {keyword : Keyword} {args : List Node} {rest : List Char} : keyword ∈ keywords → args.length ≠ 1 →
      (∀ arg ∈ args, Written arg) → Front (keyword.symbol.toList ++ '(' :: (listChars args ++ ')' :: rest))
  | unary {keyword other : Keyword} {arg : Node} {rest : List Char} : keyword ∈ keywords → other ∈ keywords →
      keyword.fixity = .between → other.fixity = .between → Written arg →
      other.precedence.strength < keyword.precedence.strength →
      Front (keyword.symbol.toList ++
        (operandChars keyword.operation 0 arg ++ ' ' :: (other.symbol.toList ++ ' ' :: rest)))

theorem Front.append (h : Front text) (rest : List Char) : Front (text ++ rest) := by
  cases h with
  | group hinner =>
      rw [List.cons_append, List.append_assoc, List.cons_append]
      exact .group hinner
  | negative hdigit hzero => exact .negative hdigit hzero
  | name hword =>
      rw [List.append_assoc]
      exact .name hword
  | call hmem hcount hargs =>
      rw [List.append_assoc, List.cons_append, List.append_assoc, List.cons_append]
      exact .call hmem hcount hargs
  | unary hmem hother hfixity hfixity' harg hless =>
      rw [List.append_assoc, List.append_assoc, List.cons_append, List.append_assoc, List.cons_append]
      exact .unary hmem hother hfixity hfixity' harg hless

/-- The first operand of an operator, with what is behind it. -/
theorem front_operandChars (hmem : keyword ∈ keywords) (harg : Written arg)
    (h : ¬arg.IsUnaryInfix → BeginsWithName arg ∨ Front (chars arg))
    (hunary : ∀ inner ∈ keywords, inner.fixity = .between →
      keyword.precedence.strength < inner.precedence.strength → ∀ operand, Written operand →
      Front (inner.symbol.toList ++ (operandChars inner.operation 0 operand ++ rest))) :
    needsParentheses standard keyword.operation 0 arg = false ∧ BeginsWithName arg ∨
      Front (operandChars keyword.operation 0 arg ++ rest) := by
  cases hopen : needsParentheses standard keyword.operation 0 arg with
  | true =>
      rw [operandChars, if_pos hopen, List.cons_append, List.append_assoc]
      exact .inr (.group harg)
  | false =>
      rw [operandChars, hopen, if_neg Bool.false_ne_true]
      by_cases hform : arg.IsUnaryInfix
      · obtain ⟨inner, hinner, hfixity, operand, rfl⟩ := hform
        rw [chars_unaryInfix hinner hfixity, List.append_assoc]
        exact .inr (hunary inner hinner hfixity (strength_lt_of_open hmem hinner hopen) operand
          (harg.of_mem_args operand List.mem_cons_self))
      · exact (h hform).imp (⟨rfl, ·⟩) (·.append rest)

theorem front_chars (h : Written node) (hform : ¬node.IsUnaryInfix) :
    BeginsWithName node ∨ Front (chars node) := by
  induction h using Written.inductionOn with
  | integer value =>
      cases value with
      | ofNat n => exact .inl (.integer n)
      | negSucc n =>
          obtain ⟨c, rest, htext, hc⟩ := toDigits_of_pos (Nat.succ_pos n)
          rw [chars_integer_negSucc, htext]
          exact .inr (.negative (isDigit_of_mem_toDigits c (htext ▸ List.mem_cons_self)) hc)
  | @symbol name _ _ => exact .inl (.symbol name)
  | @call name args hname hspelling htext hargs _ =>
      right
      rw [htext]
      obtain hwriting | ⟨hcount, hname⟩ := hspelling
      · have htable : ∀ operation ∈ standard.operations,
            standard.writing? operation.name = none → Stands operation.name.toList := by
          decide +kernel
        obtain ⟨operation, hmem, rfl⟩ := Registry.exists_of_contains hname
        exact .name (htable operation hmem hwriting)
      · have htable : ∀ keyword ∈ keywords, keyword.operation = keyword.symbol ∨ Stands keyword.operation.toList := by
          decide +kernel
        obtain ⟨keyword, hmem, rfl⟩ := List.mem_map.mp hname
        obtain hsymbol | hstands := htable keyword hmem
        · rw [hsymbol]
          exact .call hmem hcount hargs
        · exact .name hstands
  | @between keyword first second others hmem hfixity hlong hargs ih =>
      have hfront : needsParentheses standard keyword.operation 0 first = false ∧ BeginsWithName first ∨
          Front (operandChars keyword.operation 0 first ++ (second :: others).flatMap (behindChars keyword)) := by
        refine front_operandChars hmem (hargs first List.mem_cons_self) (ih first List.mem_cons_self) ?_
        intro inner hinner hfixity' hless operand hoperand
        rw [List.flatMap_cons, behindChars, List.cons_append, List.append_assoc, List.cons_append]
        exact .unary hinner hmem hfixity' hfixity hoperand hless
      rw [chars_between hmem hfixity hlong]
      exact hfront.imp_left fun h => .between hmem hfixity hlong h.1 h.2
  | @unary keyword arg hmem harg ih =>
      obtain ⟨hfixity, -⟩ | ⟨hfixity, htext⟩ | ⟨hfixity, htext⟩ := chars_unary hmem arg
      · exact absurd ⟨keyword, hmem, hfixity, arg, rfl⟩ hform
      · have htable : ∀ keyword ∈ keywords, keyword.fixity = .before → Stands keyword.symbol.toList := by
          decide +kernel
        rw [htext]
        exact .inr (.name (htable keyword hmem hfixity))
      · have htable : ∀ keyword ∈ keywords, keyword.fixity = .after → ∀ inner ∈ keywords,
            ¬keyword.precedence.strength < inner.precedence.strength := by
          decide +kernel
        rw [htext]
        exact (front_operandChars hmem harg ih fun inner hinner _ hless =>
          absurd hless (htable keyword hmem hfixity inner hinner)).imp_left fun h => .after hmem hfixity h.1 h.2

/-- A parenthesis in front of an operand is that of an expression. -/
theorem exists_group (harg : Written arg) {parent : String} {position : Nat}
    (h : operandChars parent position arg = '(' :: text) :
    ∃ inner rest, Written inner ∧ text = chars inner ++ ')' :: rest := by
  rw [operandChars] at h
  split at h
  · exact ⟨arg, [], harg, (List.cons.inj h).2.symm⟩
  · have hform : ¬arg.IsUnaryInfix := by
      rintro ⟨keyword, hmem, hfixity, operand, rfl⟩
      rw [chars_unaryInfix hmem hfixity] at h
      exact symbol_append_ne hmem (by decide) h
    obtain hname | hfront := front_chars harg hform
    · have hleads := leads_chars hname harg
      have hmatched := (undivided_chars harg).matched
      rw [h] at hleads hmatched
      obtain ⟨_, houter⟩ := hmatched.exists_outer_cons
      obtain ⟨_, _, hwords⟩ := words_of_outer_cons houter (by decide)
      exact absurd (show '(' ∈ marks by decide) (hleads.not_mem_marks hwords '(' List.mem_cons_self)
    · rw [h] at hfront
      generalize hwhole : '(' :: text = whole at hfront
      cases hfront with
      | @group inner rest hinner => exact ⟨inner, rest, hinner, (List.cons.inj hwhole).2⟩
      | negative _ _ => exact absurd (List.cons.inj hwhole).1 (by decide)
      | name hword => exact absurd hwhole.symm hword.append_ne_group
      | call hmem _ _ => exact absurd hwhole.symm (symbol_append_ne hmem (by decide))
      | unary hmem _ _ _ _ _ => exact absurd hwhole.symm (symbol_append_ne hmem (by decide))

/-! ### One operand -/

/-- Other than with a name, an operator in front of one operand begins like another expression only where that
begins with a negative number. An expression that begins with the same operator is a call, whose parentheses
hold no single expression, or has an operand of its own behind it and then an operator that binds less tightly. -/
theorem exists_negative_of_front (hmem : keyword ∈ keywords) (hfixity : keyword.fixity = .between)
    (harg : Written arg) (h : Front (keyword.symbol.toList ++ operandChars keyword.operation 0 arg)) :
    ∃ c rest, keyword.symbol.toList ++ operandChars keyword.operation 0 arg = '-' :: c :: rest ∧
      c.isDigit ∧ c ≠ '0' := by
  have hpaired := (paired_chars harg).operandChars keyword.operation 0
  generalize hwhole : keyword.symbol.toList ++ operandChars keyword.operation 0 arg = whole at h
  cases h with
  | group _ => exact absurd hwhole (symbol_append_ne hmem (by decide))
  | negative hdigit hzero => exact ⟨_, _, rfl, hdigit, hzero⟩
  | name hword => exact absurd hwhole (hword.symbol_append_ne hmem hfixity)
  | @call other args rest hother hcount hargs =>
      obtain ⟨-, hoperand⟩ := symbol_append_inj hmem hother hpaired (.start (by decide) (by decide)) hwhole
      obtain ⟨inner, behind, hinner, hlist⟩ := exists_group harg hoperand
      have hmatched := matched_listChars fun arg harg => (undivided_chars (hargs arg harg)).matched
      obtain ⟨heq, -⟩ := hmatched.unique (undivided_chars hinner).matched hlist
      exact absurd heq.symm (chars_ne_listChars hinner hargs hcount (chars_ne_nil hinner))
  | @unary inner other operand rest hinner hother _ hbetween hoperand hless =>
      have hpaired' := (paired_chars hoperand).operandChars inner.operation 0
      obtain ⟨rfl, htext⟩ := symbol_append_inj hmem hinner hpaired (hpaired'.append _) hwhole
      have hmatched := (undivided_operandChars (undivided_chars hoperand) keyword.operation 0).matched
      obtain ⟨hplain, hspace⟩ := plain_symbol hother
      have htight := (tight_chars harg).operandChars hmem (undivided_chars harg).matched 0
      have hword : other.symbol.toList ∈ words (operandChars keyword.operation 0 arg) := by
        rw [htext, words_append_space hmatched, words_append_space hplain.matched, hplain.words_eq hspace]
        simp
      exact absurd (htight other hother hbetween hword) (Nat.not_le_of_lt hless)

/-- An operand whose text does not begin with a parenthesis has none. -/
theorem open_of_operandChars (harg : Written arg) {parent : String} {position : Nat} {c : Char} (hc : c ≠ '(')
    (h : operandChars parent position arg ++ text = c :: rest) :
    needsParentheses standard parent position arg = false ∧ ∃ more, chars arg = c :: more := by
  rw [operandChars] at h
  split at h
  · exact absurd (List.cons.inj h).1.symm hc
  · rename_i hopen
    obtain ⟨first, more, hfirst⟩ := List.exists_cons_of_ne_nil (chars_ne_nil harg)
    rw [hfirst, List.cons_append, List.cons.injEq] at h
    exact ⟨Bool.eq_false_iff.mpr hopen, more, h.1 ▸ hfirst⟩

/-- An expression that is written like another one with something in front, and is as good an operand. -/
structure Prefixed (front : List Char) (longer node : Node) : Prop where
  written : Written longer
  form : ¬longer.IsUnaryInfix
  chars_eq : chars longer = front ++ chars node
  stays_open (parent : String) :
    needsParentheses standard parent 0 node = false → needsParentheses standard parent 0 longer = false

namespace Prefixed

variable {front : List Char} {longer first second : Node} {others : List Node}

theorem integer (n : Nat) : Prefixed ['-'] (.integer (.negSucc n)) (.integer (n + 1 : Nat)) := by
  refine ⟨.integer _, ?_, ?_, fun _ _ => rfl⟩
  · rintro ⟨_, _, _, _, ⟨⟩⟩
  · rw [chars_integer_negSucc, chars_integer_ofNat]
    rfl

/-- Behind a word, a name or a number makes it longer. -/
theorem symbol (hfront : isIdentifier front)
    (hfree : ∀ keyword ∈ keywords, ∀ word, keyword.symbol.toList = front ++ word → word = [])
    (hchars : ∀ c ∈ chars node, isWordChar c) (hnil : chars node ≠ []) :
    Prefixed front (.symbol (String.ofList (front ++ chars node))) node := by
  refine ⟨.symbol ?_ fun hmem => ?_, ?_, String.toList_ofList, fun _ _ => rfl⟩
  · rw [String.toList_ofList]
    exact isIdentifier_append hfront hchars
  · obtain ⟨keyword, hkeyword, hsymbol⟩ := List.mem_map.mp hmem
    refine hnil (hfree keyword hkeyword (chars node) ?_)
    rw [hsymbol, String.toList_ofList]
  · rintro ⟨_, _, _, _, ⟨⟩⟩

theorem operandChars (h : Prefixed front longer arg) {parent : String}
    (hopen : needsParentheses standard parent 0 arg = false) :
    operandChars parent 0 longer = front ++ operandChars parent 0 arg := by
  rw [Reading.operandChars, Reading.operandChars, h.stays_open parent hopen, hopen]
  exact h.chars_eq

/-- What is in front goes to the first operand. -/
theorem between (h : Prefixed front longer first) (hmem : keyword ∈ keywords) (hfixity : keyword.fixity = .between)
    (hlong : others = [] ∨ standard.isCommutative keyword.operation)
    (hargs : ∀ arg ∈ second :: others, Written arg)
    (hopen : needsParentheses standard keyword.operation 0 first = false) :
    Prefixed front (.application keyword.operation (longer :: second :: others))
      (.application keyword.operation (first :: second :: others)) := by
  refine ⟨?_, ?_, ?_, fun _ hnode => ?_⟩
  · exact .application (contains_operation hmem) (List.forall_mem_cons.mpr ⟨h.written, hargs⟩)
  · rintro ⟨_, _, _, _, heq⟩
    cases (Node.application.inj heq).2
  · rw [chars_between hmem hfixity hlong, chars_between hmem hfixity hlong, chainChars, chainChars,
      h.operandChars hopen, List.append_assoc]
  · simpa only [needsParentheses, List.length_cons] using hnode

theorem after (h : Prefixed front longer arg) (hmem : keyword ∈ keywords) (hfixity : keyword.fixity = .after)
    (hopen : needsParentheses standard keyword.operation 0 arg = false) :
    Prefixed front (.application keyword.operation [longer]) (.application keyword.operation [arg]) := by
  refine ⟨?_, ?_, ?_, fun _ hnode => ?_⟩
  · exact .application (contains_operation hmem) (List.forall_mem_singleton.mpr h.written)
  · rintro ⟨other, hother, hbetween, operand, heq⟩
    rw [← Builtin.eq_of_operation_eq hmem hother (Node.application.inj heq).1, hfixity] at hbetween
    cases hbetween
  · rw [chars_after hmem hfixity, chars_after hmem hfixity, h.operandChars hopen, List.append_assoc]
  · simpa only [needsParentheses, List.length_cons] using hnode

/-- An operator in front of its operand is a part of what is in front. -/
theorem of_symbol (h : Prefixed (front ++ keyword.symbol.toList) longer arg) (hmem : keyword ∈ keywords)
    (hfixity : keyword.fixity = .between) (hopen : needsParentheses standard keyword.operation 0 arg = false) :
    Prefixed front longer (.application keyword.operation [arg]) := by
  refine ⟨h.written, h.form, ?_, fun parent hnode => ?_⟩
  · rw [h.chars_eq, chars_unaryInfix hmem hfixity, Reading.operandChars, hopen, List.append_assoc]
    rfl
  · cases hwriting : standard.writing? parent with
    | none => exact open_of_call hwriting 0 longer
    | some outer =>
        obtain ⟨houter, rfl⟩ := Builtin.mem_keywords_of_writing? hwriting
        have hlonger := strength_le_of_open hmem (h.stays_open keyword.operation hopen)
        exact open_of_strength_lt houter ((strength_lt_of_open houter hmem hnode).trans_le hlonger)

end Prefixed

/-- A word in front of a name or a number is, together with it, a longer name. -/
theorem exists_prefixed (h : BeginsWithName node) (hnode : Written node) {front : List Char}
    (hfront : isIdentifier front)
    (hfree : ∀ keyword ∈ keywords, ∀ word, keyword.symbol.toList = front ++ word → word = []) :
    ∃ longer, Prefixed front longer node := by
  induction h generalizing front with
  | integer n =>
      refine ⟨_, .symbol hfront hfree (fun c hc => ?_) (chars_ne_nil hnode)⟩
      rw [chars_integer_ofNat] at hc
      exact isWordChar_of_isDigit (isDigit_of_mem_toDigits c hc)
  | symbol name =>
      cases hnode with
      | symbol hword hname =>
          exact ⟨_, .symbol hfront hfree (isWordChar_of_isIdentifier hword) (chars_ne_nil (.symbol hword hname))⟩
  | between hmem hfixity hlong hopen _ ih =>
      obtain ⟨hfirst, hothers⟩ := List.forall_mem_cons.mp hnode.of_mem_args
      obtain ⟨longer, hlonger⟩ := ih hfirst hfront hfree
      exact ⟨_, hlonger.between hmem hfixity hlong hothers hopen⟩
  | after hmem hfixity hopen _ ih =>
      obtain ⟨longer, hlonger⟩ := ih (hnode.of_mem_args _ List.mem_cons_self) hfront hfree
      exact ⟨_, hlonger.after hmem hfixity hopen⟩
  | word hmem hfixity hword hopen _ ih =>
      have hlong := isIdentifier_append hfront (List.all_eq_true.mp hword)
      obtain ⟨longer, hlonger⟩ := ih (hnode.of_mem_args _ List.mem_cons_self) hlong fun other hother more hmore => by
        rw [List.append_assoc] at hmore
        exact (List.append_eq_nil_iff.mp (hfree other hother _ hmore)).2
      exact ⟨longer, hlonger.of_symbol hmem hfixity hopen⟩

/-- An expression whose text begins with a digit other than zero is, with a minus sign in front, another one. -/
theorem exists_negated (h : Written node) {c : Char} (htext : chars node = c :: rest) (hdigit : c.isDigit)
    (hzero : c ≠ '0') : ∃ negated, Prefixed ['-'] negated node := by
  have hparenthesis : c ≠ '(' := by
    rintro rfl
    cases hdigit
  have hother : ¬(!c.isDigit) = true := by
    rw [hdigit]
    decide
  have hsymbols : ∀ keyword ∈ keywords, keyword.symbol.toList.head?.any (!·.isDigit) := by
    decide
  induction h using Written.inductionOn generalizing rest with
  | integer value =>
      cases value with
      | ofNat n =>
          cases n with
          | zero => exact absurd (List.cons.inj htext).1.symm hzero
          | succ n => exact ⟨_, .integer n⟩
      | negSucc n =>
          rw [chars_integer_negSucc, List.cons.injEq] at htext
          rw [← htext.1] at hdigit
          cases hdigit
  | @symbol name hword _ =>
      obtain ⟨first, more, hname, -, hfirst⟩ := exists_cons_of_isIdentifier hword
      have hhead : name.toList = c :: rest := htext
      rw [hname, List.cons.injEq] at hhead
      exact absurd (hhead.1 ▸ hdigit) hfirst
  | call hname _ hcall _ _ =>
      have htable : ∀ operation ∈ standard.operations, operation.name.toList.head?.any (!·.isDigit) := by
        decide +kernel
      obtain ⟨operation, hmem, rfl⟩ := Registry.exists_of_contains hname
      rw [hcall] at htext
      exact (hother (of_any_head (htable operation hmem) htext)).elim
  | between hmem hfixity hlong hargs ih =>
      obtain ⟨hfirst, hothers⟩ := List.forall_mem_cons.mp hargs
      rw [chars_between hmem hfixity hlong, chainChars] at htext
      obtain ⟨hopen, more, hchars⟩ := open_of_operandChars hfirst hparenthesis htext
      obtain ⟨negated, hnegated⟩ := ih _ List.mem_cons_self hchars
      exact ⟨_, hnegated.between hmem hfixity hlong hothers hopen⟩
  | @unary keyword arg hmem harg ih =>
      obtain ⟨-, hchars⟩ | ⟨-, hchars⟩ | ⟨hfixity, hchars⟩ := chars_unary hmem arg <;> rw [hchars] at htext
      · exact (hother (of_any_head (hsymbols keyword hmem) htext)).elim
      · exact (hother (of_any_head (hsymbols keyword hmem) htext)).elim
      · obtain ⟨hopen, more, hfirst⟩ := open_of_operandChars harg hparenthesis htext
        obtain ⟨negated, hnegated⟩ := ih hfirst
        exact ⟨_, hnegated.after hmem hfixity hopen⟩

/-! ### Two expressions with one text -/

section UnaryInfix

variable (hmem : keyword ∈ keywords) (hfixity : keyword.fixity = .between) (harg : Written arg)

include hmem hfixity harg

/-- An operator in front of one operand, with the text of an expression that begins with a name, begins with a
name itself. -/
theorem beginsWithName_of_sameText (hname : BeginsWithName node) (hnode : Written node)
    (htext : chars node = keyword.symbol.toList ++ operandChars keyword.operation 0 arg) :
    BeginsWithName (.application keyword.operation [arg]) := by
  have hstrength : ∀ keyword ∈ keywords, keyword.symbol.toList.all isWordChar → keyword.fixity = .between →
      0 < keyword.precedence.strength := by
    decide +kernel
  have hleads := leads_chars hname hnode
  rw [htext] at hleads
  obtain ⟨hword, hleads⟩ := hleads.of_symbol_append hmem hfixity
  obtain ⟨hopen, hleads⟩ := hleads.of_operandChars (undivided_chars harg).matched
  have hpositive := (hstrength keyword hmem hword hfixity).trans_le (strength_le_of_open hmem hopen)
  exact .word hmem hfixity hword hopen (beginsWithName_of_leads harg hpositive hleads)

theorem exists_sameText_of_name (hname : BeginsWithName (.application keyword.operation [arg])) :
    ∃ other, Written other ∧ ¬other.IsUnaryInfix ∧
      chars other = keyword.symbol.toList ++ operandChars keyword.operation 0 arg := by
  have htable : ∀ keyword ∈ keywords, keyword.symbol.toList.all isWordChar → keyword.fixity = .between →
      isIdentifier keyword.symbol.toList ∧
        ∀ other ∈ keywords, keyword.symbol.toList <+: other.symbol.toList → other = keyword := by
    decide +kernel
  obtain ⟨hword, hopen, hname⟩ := hname.of_unaryInfix hmem hfixity
  obtain ⟨hidentifier, hfree⟩ := htable keyword hmem hword hfixity
  obtain ⟨longer, hlonger⟩ := exists_prefixed hname harg hidentifier fun other hother more hmore => by
    rw [hfree other hother ⟨more, hmore.symm⟩] at hmore
    exact List.self_eq_append_right.mp hmore
  refine ⟨longer, hlonger.written, hlonger.form, ?_⟩
  rw [operandChars, hopen, if_neg Bool.false_ne_true]
  exact hlonger.chars_eq

omit hfixity in
theorem exists_sameText_of_negative {c : Char} (hdigit : c.isDigit) (hzero : c ≠ '0')
    (hwhole : keyword.symbol.toList ++ operandChars keyword.operation 0 arg = '-' :: c :: rest) :
    ∃ other, Written other ∧ ¬other.IsUnaryInfix ∧
      chars other = keyword.symbol.toList ++ operandChars keyword.operation 0 arg := by
  have htable : ∀ keyword ∈ keywords,
      keyword.symbol.toList = ['-'] ∨ keyword.symbol.toList.head?.any (· ≠ '-') := by
    decide
  obtain hminus | hhead := htable keyword hmem
  · rw [hminus, List.singleton_append, List.cons.injEq] at hwhole
    have hparenthesis : c ≠ '(' := by
      rintro rfl
      cases hdigit
    have hoperand : operandChars keyword.operation 0 arg ++ [] = c :: rest := by
      rw [List.append_nil, hwhole.2]
    obtain ⟨hopen, more, hchars⟩ := open_of_operandChars harg hparenthesis hoperand
    obtain ⟨negated, hnegated⟩ := exists_negated harg hchars hdigit hzero
    refine ⟨negated, hnegated.written, hnegated.form, ?_⟩
    rw [hminus, operandChars, hopen, if_neg Bool.false_ne_true]
    exact hnegated.chars_eq
  · exact absurd rfl (of_decide_eq_true (of_any_head hhead hwhole))

end UnaryInfix

end Reading

open Reading

/-- An operator between operands, written in front of a single one, has the text of an expression without such
an operator at its root exactly if that text begins with a minus sign and a digit other than zero, or with the
operator as a word and a name or a number right behind it. -/
theorem render_unary_ambiguous_iff {keyword : Keyword} {arg : Node} (hmem : keyword ∈ keywords)
    (hfixity : keyword.fixity = .between) (harg : Written arg) :
    (∃ other, Written other ∧ ¬other.IsUnaryInfix ∧
      Environment.standard.render (.application keyword.operation [arg]) = Environment.standard.render other) ↔
    (∃ c rest, (Environment.standard.render (.application keyword.operation [arg])).toList = '-' :: c :: rest ∧
      c.isDigit ∧ c ≠ '0') ∨ BeginsWithName (.application keyword.operation [arg]) := by
  have htext : (Environment.standard.render (.application keyword.operation [arg])).toList =
      keyword.symbol.toList ++ operandChars keyword.operation 0 arg := chars_unaryInfix hmem hfixity arg
  have hsame (other : Node) :
      Environment.standard.render (.application keyword.operation [arg]) = Environment.standard.render other ↔
        chars other = keyword.symbol.toList ++ operandChars keyword.operation 0 arg := by
    rw [← String.toList_inj, htext]
    exact eq_comm
  simp only [hsame, htext]
  constructor
  · rintro ⟨other, hother, hform, hchars⟩
    obtain hname | hfront := front_chars hother hform
    · exact .inr (beginsWithName_of_sameText hmem hfixity harg hname hother hchars)
    · rw [hchars] at hfront
      exact .inl (exists_negative_of_front hmem hfixity harg hfront)
  · rintro (⟨c, rest, hwhole, hdigit, hzero⟩ | hname)
    · exact exists_sameText_of_negative hmem harg hdigit hzero hwhole
    · exact exists_sameText_of_name hmem hfixity harg hname

/-- The opposite of a name has a text of its own, that of a positive number has not. A connective in front of a
name has none either, but in front of a call it has. -/
theorem render_unary_ambiguous_iff_minus :
    let minus : Keyword := ⟨"-", "-", .between, .additive⟩
    let conjunction : Keyword := ⟨"and", "and", .between, .conjunction⟩
    let total := Node.application "sum" [.symbol "x"]
    minus ∈ keywords ∧ conjunction ∈ keywords ∧ Written (.symbol "x") ∧ Written total ∧
      (¬∃ other, Written other ∧ ¬other.IsUnaryInfix ∧
        Environment.standard.render (.application "-" [.symbol "x"]) = Environment.standard.render other) ∧
      (∃ other, Written other ∧ ¬other.IsUnaryInfix ∧
        Environment.standard.render (.application "-" [.integer 5]) = Environment.standard.render other) ∧
      (∃ other, Written other ∧ ¬other.IsUnaryInfix ∧
        Environment.standard.render (.application "and" [.symbol "x"]) = Environment.standard.render other) ∧
      Environment.standard.render (.application "and" [total]) = "andsum(x)" ∧
      ¬∃ other, Written other ∧ ¬other.IsUnaryInfix ∧
        Environment.standard.render (.application "and" [total]) = Environment.standard.render other := by
  intro minus conjunction total
  have hminus : minus ∈ keywords := by
    decide
  have hconjunction : conjunction ∈ keywords := by
    decide
  have hx : Written (.symbol "x") := .symbol (by decide +kernel) (by decide)
  have htotal : Written total := .application (by decide +kernel) (List.forall_mem_singleton.mpr hx)
  have hopposite : (Environment.standard.render (.application "-" [.symbol "x"])).toList = ['-', 'x'] := by
    decide
  have htext : Environment.standard.render (.application "and" [total]) = "andsum(x)" := by
    decide
  refine ⟨hminus, hconjunction, hx, htotal, fun hother => ?_, ?_, ?_, htext, fun hother => ?_⟩
  · obtain ⟨c, rest, hwhole, hdigit, -⟩ | hname := (render_unary_ambiguous_iff hminus rfl hx).mp hother
    · rw [hopposite] at hwhole
      obtain ⟨-, rfl, -⟩ := hwhole
      cases hdigit
    · exact absurd (hname.of_unaryInfix hminus rfl).1 (by decide +kernel)
  · exact (render_unary_ambiguous_iff hminus rfl (.integer 5)).mpr
      (.inl ⟨'5', [], by decide, by decide, by decide⟩)
  · exact (render_unary_ambiguous_iff hconjunction rfl hx).mpr
      (.inr (.word hconjunction rfl (by decide +kernel) rfl (.symbol "x")))
  · obtain ⟨c, rest, hwhole, -⟩ | hname := (render_unary_ambiguous_iff hconjunction rfl htotal).mp hother
    · rw [htext] at hwhole
      cases hwhole
    · have hwords : Brackets.words (chars total) = ["sum(".toList] := by
        decide +kernel
      have hleads := leads_chars (hname.of_unaryInfix hconjunction rfl).2.2 htotal
      exact absurd (show '(' ∈ marks by decide) (hleads.not_mem_marks hwords '(' (by decide))

/-- A minus sign in front of a number and the sign of a number are written alike, as are a connective in front
of a name and a name that begins like it. -/
theorem render_unary_alike :
    let difference : Node := .application "-" [.integer 5]
    let conjunction : Node := .application "and" [.symbol "x"]
    Written (.integer 5) ∧ Written (.integer (-5)) ∧ ¬(Node.integer (-5)).IsUnaryInfix ∧
      Environment.standard.render difference = "-5" ∧ Environment.standard.render (.integer (-5)) = "-5" ∧
      Written (.symbol "x") ∧ Written (.symbol "andx") ∧ ¬(Node.symbol "andx").IsUnaryInfix ∧
      Environment.standard.render conjunction = "andx" ∧ Environment.standard.render (.symbol "andx") = "andx" := by
  intro difference conjunction
  refine ⟨.integer 5, .integer (-5), ?_, by decide, by decide, ?_, ?_, ?_, by decide, by decide⟩
  · rintro ⟨_, _, _, _, ⟨⟩⟩
  · exact .symbol (by decide +kernel) (by decide)
  · exact .symbol (by decide +kernel) (by decide)
  · rintro ⟨_, _, _, _, ⟨⟩⟩

end SymbolicAlgebra
