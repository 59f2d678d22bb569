import Mathlib.Data.List.Basic
import SymbolicAlgebra.Canonical
import SymbolicAlgebra.Number.Reading
import SymbolicAlgebra.Proofs.Standard
import SymbolicAlgebra.Render

/-! Reading expressions back from their text. An operator takes what stands before it as its left operand as
far as that binds at least as tightly, and as its right operand what binds more tightly; operators of one
strength are so read from left to right. A chain of one commutative operator becomes one application.

Here are the reader, what it makes of numbers and words, and where it stops. -/

namespace SymbolicAlgebra

namespace Reading

/-! ### The reader -/

/-- What names are made of. -/
def isWordChar (c : Char) : Bool :=
  Text.isAlphanumeric c || c == '_'

/-- Whether the text is a name: letters, digits and underscores, with a letter in front. -/
def isWord : List Char → Bool
  | [] => false
  | first :: rest => Text.isAlphanumeric first && !first.isDigit && rest.all isWordChar

/-- What integers are made of. -/
def isNumeral (c : Char) : Bool :=
  c.isDigit || c == '-'

/-- The keyword with this fixity and spelling. -/
def keyword? (fixity : Fixity) (symbol : String) : Option Keyword :=
  Builtin.keywords.find? fun keyword => keyword.fixity = fixity && keyword.symbol == symbol

/-- A name that is not followed by arguments. -/
def leaf (word : String) : Node :=
  if word = "true" then .boolean true
  else if word = "false" then .boolean false
  else .symbol word

/-- The application of an operator to the operands on its two sides. An operand behind a chain of the same
commutative operator becomes part of the chain. -/
def join (keyword : Keyword) (left right : Node) : Node :=
  .application keyword.operation
    ((if Builtin.standard.isCommutative keyword.operation then inlined keyword.operation left else [left])
      ++ [right])

/-- An integer at the beginning of the text. -/
def number (cs : List Char) : Option (Node × List Char) := do
  let value ← Number.readInt? (String.ofList (cs.takeWhile isNumeral))
  some (.integer value, cs.dropWhile isNumeral)

/-- A text that is no longer, for a reader that comes before another one. -/
theorem lex_of_le {length other rank next : Nat} (hle : length ≤ other) (hless : rank < next) :
    Prod.Lex (· < ·) (· < ·) (length, rank) (other, next) := by
  rcases Nat.lt_or_eq_of_le hle with hshorter | rfl
  · exact .left _ _ hshorter
  · exact .right _ hless

mutual

/-- The expression at the beginning of the text whose operators all have at least the strength `level`, and
what follows it. Here and below, what follows is compared with the text that it is left of: so the reader is
seen to come to an end. -/
def expression (level : Nat) (cs : List Char) : Option (Node × List Char) := do
  let (left, rest) ← operand cs
  if rest.length ≤ cs.length then operators level left rest else none
termination_by (cs.length, 2)
decreasing_by
  · exact lex_of_le (Nat.le_refl _) Nat.one_lt_two
  · exact lex_of_le (by assumption) Nat.two_pos

/-- The operand at the beginning of the text. -/
def operand (cs : List Char) : Option (Node × List Char) :=
  match cs with
  | '(' :: cs => bracketed cs
  | '\x7b' :: cs => do
    let (elements, rest) ← items '\x7d' cs
    some (.sequence elements, rest)
  | cs =>
    if cs.head?.any isNumeral then number cs
    else if cs.head?.any isWordChar then
      named (String.ofList (cs.takeWhile isWordChar)) (cs.dropWhile isWordChar)
    else none
termination_by (cs.length, 1)
decreasing_by
  · exact .left _ _ (Nat.lt_succ_self _)
  · exact .left _ _ (Nat.lt_succ_self _)
  · exact lex_of_le (List.dropWhile_sublist isWordChar).length_le Nat.zero_lt_one

/-- What stands behind an opening parenthesis: an expression or a pair. -/
def bracketed (cs : List Char) : Option (Node × List Char) := do
  let (first, rest) ← expression 0 cs
  match rest with
  | ')' :: rest => some (first, rest)
  | ' ' :: ':' :: ' ' :: rest =>
    if rest.length < cs.length then do
      let (second, rest) ← expression 0 rest
      match rest with
      | ')' :: rest => some (.pair first second, rest)
      | _ => none
    else none
  | _ => none
termination_by (cs.length, 3)

/-- What begins with a name: a call, an operator in front of its operand, or the name alone. -/
def named (word : String) (cs : List Char) : Option (Node × List Char) :=
  match cs with
  | '(' :: rest => do
    let (args, rest) ← items ')' rest
    some (.application word args, rest)
  | ' ' :: rest =>
    match keyword? .before word with
    | some keyword => do
      let (arg, rest) ← expression keyword.precedence.strength rest
      some (.application keyword.operation [arg], rest)
    | none => some (leaf word, ' ' :: rest)
  | rest => some (leaf word, rest)
termination_by (cs.length, 0)

/-- The operators of at least the strength `level` behind the operand `left`, with their other operands. -/
def operators (level : Nat) (left : Node) (cs : List Char) : Option (Node × List Char) :=
  match cs with
  | [] => some (left, [])
  | ' ' :: cs =>
    match keyword? .between (String.ofList (cs.takeWhile (· != ' '))) with
    | some keyword =>
      if level ≤ keyword.precedence.strength then do
        let (right, rest) ← expression (keyword.precedence.strength + 1) ((cs.dropWhile (· != ' ')).drop 1)
        if rest.length ≤ cs.length then operators level (join keyword left right) rest else none
      else some (left, ' ' :: cs)
    | none => some (left, ' ' :: cs)
  | c :: cs =>
    match keyword? .after (String.ofList [c]) with
    | some keyword =>
      if level ≤ keyword.precedence.strength then
        operators level (.application keyword.operation [left]) cs
      else some (left, c :: cs)
    | none => some (left, c :: cs)
termination_by (cs.length, 0)
decreasing_by
  · exact .left _ _ (Nat.lt_succ_of_le ((List.drop_sublist 1 _).trans (List.dropWhile_sublist _)).length_le)
  · exact .left _ _ (Nat.lt_succ_of_le (by assumption))
  · exact .left _ _ (Nat.lt_succ_self _)

/-- Expressions with commas between them up to `close`; there may be none. -/
def items (close : Char) (cs : List Char) : Option (List Node × List Char) :=
  match cs with
  | [] => none
  | c :: rest => if c = close then some ([], rest) else itemsFrom close (c :: rest)
termination_by (cs.length, 4)

/-- At least one expression, with commas between them, up to `close`. -/
def itemsFrom (close : Char) (cs : List Char) : Option (List Node × List Char) := do
  let (node, rest) ← expression 0 cs
  match rest with
  | ',' :: ' ' :: rest =>
    if rest.length < cs.length then do
      let (nodes, rest) ← itemsFrom close rest
      some (node :: nodes, rest)
    else none
  | c :: rest => if c = close then some ([node], rest) else none
  | [] => none
termination_by (cs.length, 3)

end

/-- The expression that a text stands for. -/
def read (text : String) : Option Node :=
  match expression 0 text.toList with
  | some (node, []) => some node
  | _ => none

/-! ### Numbers and words -/

variable {p : Char → Bool} {word rest : List Char}

/-- A run of characters ends where the first other character stands. -/
theorem takeWhile_run (hword : ∀ c ∈ word, p c) (hrest : ∀ c ∈ rest.head?, ¬p c) :
    (word ++ rest).takeWhile p = word ∧ (word ++ rest).dropWhile p = rest := by
  rw [List.takeWhile_append_of_pos hword, List.dropWhile_append_of_pos hword]
  cases rest with
  | nil => simp
  | cons c more =>
      have hc := hrest c rfl
      rw [List.takeWhile_cons_of_neg hc, List.dropWhile_cons_of_neg hc, List.append_nil]
      exact ⟨rfl, rfl⟩

theorem readDigits?_eq (start : Nat) {digits : List Char} (hdigits : ∀ c ∈ digits, c.isDigit) :
    Number.readDigits? start digits = some (Nat.ofDigitChars 10 digits start) := by
  induction digits generalizing start with
  | nil => rfl
  | cons c rest ih =>
      have hc := hdigits c List.mem_cons_self
      have hseparator : c ≠ '_' := by
        rintro rfl
        cases hc
      rw [Number.readDigits?, if_neg hseparator, if_pos hc, ih _ fun d hd => hdigits d (List.mem_cons_of_mem _ hd)]
      rfl

theorem natText_toList (n : Nat) : (Number.natText n).toList = Nat.toDigits 10 n := by
  rw [Number.natText_eq_repr, Nat.repr_eq_ofList_toDigits, String.toList_ofList]

theorem isDigit_of_mem_toDigits {n : Nat} : ∀ c ∈ Nat.toDigits 10 n, c.isDigit :=
  fun _ hc => Nat.isDigit_of_mem_toDigits (by decide) (by decide) hc

theorem readNat?_toDigits (n : Nat) : Number.readNat? (Nat.toDigits 10 n) = some n := by
  cases hdigits : Nat.toDigits 10 n with
  | nil => exact (Nat.toDigits_ne_nil hdigits).elim
  | cons c rest =>
      have hall : ∀ d ∈ c :: rest, d.isDigit := hdigits ▸ isDigit_of_mem_toDigits
      rw [Number.readNat?, if_pos (hall c List.mem_cons_self), readDigits?_eq 0 hall, ← hdigits,
        Nat.ofDigitChars_toDigits (by decide) (by decide)]

/-- The text of an integer is read as that integer. -/
theorem readInt?_intText (value : Int) : Number.readInt? (Number.intText value) = some value := by
  cases value with
  | ofNat n =>
      have hread := readNat?_toDigits n
      have hdigits := isDigit_of_mem_toDigits (n := n)
      rw [Number.intText, Number.readInt?, natText_toList]
      cases htext : Nat.toDigits 10 n with
      | nil => exact (Nat.toDigits_ne_nil htext).elim
      | cons c rest =>
          rw [htext] at hread hdigits
          have hc := hdigits c List.mem_cons_self
          split
          · rename_i hsign
            cases hsign
            cases hc
          · rename_i hsign
            cases hsign
            cases hc
          · rw [hread]
            rfl
  | negSucc n =>
      have hsign : (Number.intText (.negSucc n)).toList = '-' :: Nat.toDigits 10 (n + 1) := by
        rw [Number.intText, String.toList_append, natText_toList]
        rfl
      rw [Number.readInt?, hsign]
      simp only [readNat?_toDigits]
      rfl

theorem isNumeral_of_mem_intText (value : Int) : ∀ c ∈ (Number.intText value).toList, isNumeral c := by
  have hdigits (n : Nat) : ∀ c ∈ (Number.natText n).toList, isNumeral c := by
    rw [natText_toList]
    intro c hc
    rw [isNumeral, isDigit_of_mem_toDigits c hc, Bool.true_or]
  cases value with
  | ofNat n => exact hdigits n
  | negSucc n =>
      rw [Number.intText, String.toList_append]
      exact List.forall_mem_cons.mpr ⟨rfl, hdigits (n + 1)⟩

theorem intText_ne_nil (value : Int) : (Number.intText value).toList ≠ [] := by
  cases value with
  | ofNat n =>
      rw [Number.intText, natText_toList]
      exact Nat.toDigits_ne_nil
  | negSucc n =>
      rw [Number.intText, String.toList_append]
      nofun

theorem operand_cons {c : Char} {cs : List Char} (hparenthesis : c ≠ '(') (hbrace : c ≠ '\x7b') :
    operand (c :: cs) = if isNumeral c then number (c :: cs)
      else if isWordChar c then
        named (String.ofList ((c :: cs).takeWhile isWordChar)) ((c :: cs).dropWhile isWordChar)
      else none := by
  rw [operand]
  · rw [List.head?_cons, Option.any_some, Option.any_some]
  · rintro _ ⟨⟩
    exact hparenthesis rfl
  · rintro _ ⟨⟩
    exact hbrace rfl

/-- An integer is read as far as its digits go. -/
theorem operand_integer (value : Int) (hrest : ∀ c ∈ rest.head?, ¬isNumeral c) :
    operand ((Number.intText value).toList ++ rest) = some (.integer value, rest) := by
  have hnumerals := isNumeral_of_mem_intText value
  obtain ⟨hread, hdrop⟩ := takeWhile_run hnumerals hrest
  have hnumber : number ((Number.intText value).toList ++ rest) = some (.integer value, rest) := by
    rw [number, hread, hdrop, String.ofList_toList, readInt?_intText]
    rfl
  cases htext : (Number.intText value).toList with
  | nil => exact (intText_ne_nil value htext).elim
  | cons c digits =>
      rw [htext] at hnumber hnumerals
      have hc : isNumeral c := hnumerals c List.mem_cons_self
      rw [List.cons_append] at hnumber ⊢
      rw [operand_cons, if_pos hc, hnumber] <;>
        rintro rfl <;> cases hc

/-- A name is read as far as its letters, digits and underscores go. -/
theorem operand_word (hword : isWord word) (hrest : ∀ c ∈ rest.head?, ¬isWordChar c) :
    operand (word ++ rest) = named (String.ofList word) rest := by
  cases word with
  | nil => cases hword
  | cons first others =>
      rw [isWord, Bool.and_eq_true, Bool.and_eq_true, List.all_eq_true, Bool.not_eq_true'] at hword
      obtain ⟨⟨hletter, hdigit⟩, hothers⟩ := hword
      have hmark : first ∉ ['-', '(', '\x7b'] := by
        intro hmem
        simp only [List.mem_cons, List.not_mem_nil, or_false] at hmem
        rcases hmem with rfl | rfl | rfl <;> exact absurd hletter (by decide)
      simp only [List.mem_cons, List.not_mem_nil, or_false, not_or] at hmark
      have hnumeral : isNumeral first = false := by
        rw [isNumeral, hdigit, Bool.false_or, beq_eq_false_iff_ne]
        exact hmark.1
      have hwordChars : ∀ c ∈ first :: others, isWordChar c :=
        List.forall_mem_cons.mpr ⟨by rw [isWordChar, hletter, Bool.true_or], hothers⟩
      obtain ⟨hread, hdrop⟩ := takeWhile_run hwordChars hrest
      rw [List.cons_append] at hread hdrop ⊢
      rw [operand_cons hmark.2.1 hmark.2.2, hnumeral, if_neg Bool.false_ne_true,
        if_pos (hwordChars first List.mem_cons_self), hread, hdrop]

theorem named_leaf {name : String} (hname : keyword? .before name = none) (hrest : ∀ c ∈ rest.head?, c ≠ '(') :
    named name rest = some (leaf name, rest) := by
  cases rest with
  | nil => rw [named] <;> nofun
  | cons c more =>
      have hcall : c ≠ '(' := hrest c rfl
      by_cases hspace : c = ' '
      · rw [hspace, named, hname]
      · rw [named]
        · rintro _ ⟨⟩
          exact hcall rfl
        · rintro _ ⟨⟩
          exact hspace rfl

/-! ### Operators -/

section Operators

variable {keyword : Keyword} {level : Nat} {left : Node}

/-- No two keywords share fixity and spelling. -/
theorem keyword?_self (hmem : keyword ∈ Builtin.keywords) :
    keyword? keyword.fixity keyword.symbol = some keyword := by
  have htable : ∀ keyword ∈ Builtin.keywords, keyword? keyword.fixity keyword.symbol = some keyword := by
    decide
  exact htable keyword hmem

theorem symbol_ne_space (hmem : keyword ∈ Builtin.keywords) : ∀ c ∈ keyword.symbol.toList, c != ' ' := by
  have htable : ∀ keyword ∈ Builtin.keywords, keyword.symbol.toList.all (· != ' ') := by
    decide
  exact List.all_eq_true.mp (htable keyword hmem)

theorem operators_between (hmem : keyword ∈ Builtin.keywords) (hfixity : keyword.fixity = .between) :
    operators level left (' ' :: (keyword.symbol.toList ++ ' ' :: rest)) =
      if level ≤ keyword.precedence.strength then do
        let (right, behind) ← expression (keyword.precedence.strength + 1) rest
        if behind.length ≤ (keyword.symbol.toList ++ ' ' :: rest).length then
          operators level (join keyword left right) behind
        else none
      else some (left, ' ' :: (keyword.symbol.toList ++ ' ' :: rest)) := by
  have hspace : ∀ c ∈ (' ' :: rest).head?, ¬(c != ' ') := by simp
  obtain ⟨hread, hdrop⟩ := takeWhile_run (symbol_ne_space hmem) hspace
  have hkeyword := keyword?_self hmem
  rw [hfixity] at hkeyword
  rw [operators]
  simp only [hread, hdrop, String.ofList_toList, hkeyword, List.drop_succ_cons, List.drop_zero]

theorem operators_cons {c : Char} {cs : List Char} (hspace : c ≠ ' ') :
    operators level left (c :: cs) = match keyword? .after (String.ofList [c]) with
      | some keyword =>
        if level ≤ keyword.precedence.strength then
          operators level (.application keyword.operation [left]) cs
        else some (left, c :: cs)
      | none => some (left, c :: cs) := by
  rw [operators]
  exact hspace

/-- Operators behind their operand are single characters. -/
theorem symbol_after (hmem : keyword ∈ Builtin.keywords) (hfixity : keyword.fixity = .after) :
    ∃ c, keyword.symbol.toList = [c] ∧ c ≠ ' ' ∧ ¬isWordChar c ∧ ¬isNumeral c ∧ c ≠ '(' := by
  have htable : ∀ keyword ∈ Builtin.keywords, keyword.fixity = .after → keyword.symbol = "!" := by
    decide
  rw [htable keyword hmem hfixity]
  exact ⟨'!', rfl, by decide⟩

theorem operators_after (hmem : keyword ∈ Builtin.keywords) (hfixity : keyword.fixity = .after) :
    operators level left (keyword.symbol.toList ++ rest) =
      if level ≤ keyword.precedence.strength then
        operators level (.application keyword.operation [left]) rest
      else some (left, keyword.symbol.toList ++ rest) := by
  obtain ⟨c, hsymbol, hspace, -⟩ := symbol_after hmem hfixity
  have hkeyword := keyword?_self hmem
  rw [hfixity, ← String.ofList_toList (s := keyword.symbol), hsymbol] at hkeyword
  rw [hsymbol, List.singleton_append, operators_cons hspace, hkeyword]

end Operators

/-! ### Where the reader stops -/

/-- What closes the thing that an expression stands in is part of no name, integer or operator. -/
theorem of_mem_closing {c : Char} (hc : c ∈ [',', ')', '\x7d']) :
    (¬isWordChar c ∧ ¬isNumeral c ∧ c ≠ '(') ∧ c ≠ '\x7b' ∧ c ≠ ' ' ∧ keyword? .after (String.ofList [c]) = none := by
  simp only [List.mem_cons, List.not_mem_nil, or_false] at hc
  rcases hc with rfl | rfl | rfl <;> decide

/-- What can follow an expression whose operators have at least the strength `level`: nothing, the end of
what the expression stands in, or an operator that binds less tightly. -/
inductive Stops (level : Nat) : List Char → Prop
  | done : Stops level []
  | closing {c : Char} {rest : List Char} : c ∈ [',', ')', '\x7d'] → Stops level (c :: rest)
  | colon {rest : List Char} : Stops level (' ' :: ':' :: ' ' :: rest)
  | between {keyword : Keyword} {rest : List Char} : keyword ∈ Builtin.keywords →
      keyword.fixity = .between → keyword.precedence.strength < level →
      Stops level (' ' :: (keyword.symbol.toList ++ ' ' :: rest))
  | after {keyword : Keyword} {rest : List Char} : keyword ∈ Builtin.keywords →
      keyword.fixity = .after → keyword.precedence.strength < level → Stops level (keyword.symbol.toList ++ rest)

namespace Stops

variable {level other : Nat}

theorem mono (h : Stops level rest) (hle : level ≤ other) : Stops other rest := by
  cases h with
  | done => exact .done
  | closing hc => exact .closing hc
  | colon => exact .colon
  | between hmem hfixity hless => exact .between hmem hfixity (by omega)
  | after hmem hfixity hless => exact .after hmem hfixity (by omega)

/-- Neither a name nor an integer goes on where an expression stops. -/
theorem head (h : Stops level rest) : ∀ c ∈ rest.head?, ¬isWordChar c ∧ ¬isNumeral c ∧ c ≠ '(' := by
  have hspace : ¬isWordChar ' ' ∧ ¬isNumeral ' ' ∧ ' ' ≠ '(' := by decide
  cases h with
  | done => nofun
  | closing hc =>
      rintro _ ⟨⟩
      exact (of_mem_closing hc).1
  | colon =>
      rintro _ ⟨⟩
      exact hspace
  | between hmem hfixity hless =>
      rintro _ ⟨⟩
      exact hspace
  | after hmem hfixity hless =>
      obtain ⟨c, hsymbol, -, hc⟩ := symbol_after hmem hfixity
      rw [hsymbol]
      rintro _ ⟨⟩
      exact hc

theorem operators_eq (h : Stops level rest) (left : Node) : operators level left rest = some (left, rest) := by
  cases h with
  | done => rw [operators]
  | @closing c more hc =>
      obtain ⟨-, -, hspace, hnone⟩ := of_mem_closing hc
      rw [operators_cons hspace, hnone]
  | @colon more =>
      have hread : (':' :: ' ' :: more).takeWhile (· != ' ') = [':'] := rfl
      have hnone : keyword? .between (String.ofList [':']) = none := by decide
      rw [operators, hread, hnone]
  | between hmem hfixity hless => rw [operators_between hmem hfixity, if_neg (by omega)]
  | after hmem hfixity hless => rw [operators_after hmem hfixity, if_neg (by omega)]

end Stops

end Reading

end SymbolicAlgebra
