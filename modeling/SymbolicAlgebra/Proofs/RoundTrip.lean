import SymbolicAlgebra.Proofs.Legible

/-! Texts are read back as what they were written for. The reader gets through the text of an expression to
the operators behind it, provided that these bind less tightly than what could take them for its own. The
parentheses of every operand see to that, in whatever place it stands. -/

namespace SymbolicAlgebra

open Builtin (keywords standard chainNames)

/-- No argument of a commutative application is an application of the same name. -/
def Node.FlatForm : Node → Prop
  | .application name args => standard.isCommutative name → ∀ arg ∈ args, isApplicationOf name arg = false
  | _ => True

/-- No commutative application stands directly in an application of the same name. -/
def Node.Flat (node : Node) : Prop :=
  node.Everywhere FlatForm

namespace Reading

open Render (needsParentheses)

/-! ### How tightly a text binds -/

/-- The strength of the operator that a node is written with. Without one it binds most tightly. -/
def strength : Node → Nat
  | .application name _ =>
    match standard.writing? name with
    | some keyword => keyword.precedence.strength
    | none => 9
  | _ => 9

/-- The least strength of an operator that would take the last operand of a node away from it, or become a
part of it. -/
def reach : Node → Nat
  | .application name _ =>
    match standard.writing? name with
    | some keyword =>
      match keyword.fixity with
      | .between => keyword.precedence.strength + 1
      | .before => keyword.precedence.strength
      | _ => 9
    | none => 9
  | _ => 9

/-- The reader gets through the text of the node to the operators behind it. -/
def Reads (node : Node) : Prop :=
  ∀ level rest, level ≤ strength node → Stops (reach node) rest →
    expression level (chars node ++ rest) = operators level node rest

section Strength

variable {keyword other : Keyword} {args : List Node} {arg : Node}

theorem strength_lt (precedence : Precedence) : precedence.strength < 9 := by
  cases precedence <;> decide

theorem strength_injective {one other : Precedence} (h : one.strength = other.strength) : one = other := by
  cases one <;> cases other <;> first | rfl | cases h

theorem strength_keyword (hmem : keyword ∈ keywords) :
    strength (.application keyword.operation args) = keyword.precedence.strength := by
  rw [strength, Builtin.writing?_standard hmem]

/-- An operand without parentheses binds at least as tightly as the operator that it belongs to. -/
theorem strength_le_of_open (hmem : keyword ∈ keywords) {position : Nat}
    (h : needsParentheses standard keyword.operation position arg = false) :
    keyword.precedence.strength ≤ strength arg := by
  cases arg with
  | application name args =>
      cases hwriting : standard.writing? name with
      | none =>
          simp only [strength, hwriting]
          exact (strength_lt _).le
      | some inner =>
          simp only [needsParentheses, hwriting, Builtin.writing?_standard hmem] at h
          simp only [strength, hwriting]
          split at h
          · exact Nat.le_of_not_lt (of_decide_eq_false h)
          · rename_i heq
            rw [Decidable.not_not.mp heq]
  | _ => exact (strength_lt _).le

/-- An operator that has one operand itself binds more tightly where it stands without parentheses. -/
theorem strength_lt_of_open (hmem : keyword ∈ keywords) (hother : other ∈ keywords) {position : Nat}
    (h : needsParentheses standard keyword.operation position (.application other.operation [arg]) = false) :
    keyword.precedence.strength < other.precedence.strength := by
  have hle := strength_le_of_open hmem h
  rw [strength_keyword hother] at hle
  refine lt_of_le_of_ne hle fun heq => ?_
  simp only [needsParentheses, Builtin.writing?_standard hmem, Builtin.writing?_standard hother] at h
  rw [if_neg (by simpa using (strength_injective heq).symm)] at h
  simp at h

theorem strength_le_reach (node : Node) : strength node ≤ reach node := by
  cases node with
  | application name args =>
      cases hwriting : standard.writing? name with
      | none => simp [strength, reach, hwriting]
      | some keyword =>
          have hless := strength_lt keyword.precedence
          simp only [strength, reach, hwriting]
          split <;> omega
  | _ => exact Nat.le_refl _

/-- The first operand of an operator, where it has no parentheses, binds at least as tightly, and the
operator does not take anything away from it. -/
theorem fits_first (hmem : keyword ∈ keywords) (hlegible : Legible arg)
    (h : needsParentheses standard keyword.operation 0 arg = false) :
    keyword.precedence.strength ≤ strength arg ∧ keyword.precedence.strength < reach arg := by
  have hle := strength_le_of_open hmem h
  refine ⟨hle, ?_⟩
  cases arg with
  | application name args =>
      cases hwriting : standard.writing? name with
      | none =>
          simp only [reach, hwriting]
          exact strength_lt _
      | some inner =>
          have hreach := strength_le_reach (.application name args)
          obtain ⟨hinner, rfl⟩ := Builtin.mem_keywords_of_writing? hwriting
          rw [strength_keyword hinner] at hle hreach
          obtain ⟨-, operand, rfl⟩ | ⟨hfixity, -⟩ := hlegible.operands hwriting
          · exact (strength_lt_of_open hmem hinner h).trans_le hreach
          · simp only [reach, hwriting, hfixity]
            exact Nat.lt_succ_of_le hle
  | _ => exact strength_lt _

/-- An operand behind an operator, where it has no parentheses, binds more tightly, except in a chain. -/
theorem fits_behind (hmem : keyword ∈ keywords) (h : needsParentheses standard keyword.operation 1 arg = false)
    (hother : standard.isCommutative keyword.operation → isApplicationOf keyword.operation arg = false) :
    keyword.precedence.strength < strength arg := by
  refine lt_of_le_of_ne (strength_le_of_open hmem h) fun heq => ?_
  cases arg with
  | application name args =>
      cases hwriting : standard.writing? name with
      | none =>
          simp only [strength, hwriting] at heq
          exact (strength_lt _).ne heq
      | some inner =>
          simp only [strength, hwriting] at heq
          simp only [needsParentheses, hwriting, Builtin.writing?_standard hmem] at h
          rw [if_neg (by simpa using (strength_injective heq).symm)] at h
          simp only [Nat.one_ne_zero, if_false] at h
          split at h
          · cases h
          · split at h
            · cases h
            · split at h
              · rename_i hcommutative
                have hsame : name = keyword.operation := by simpa using h
                have hnot := hother hcommutative
                simp [isApplicationOf, Node.applied?, hsame] at hnot
              · cases h
  | _ => exact (strength_lt _).ne heq

end Strength

/-! ### Reading through a text -/

variable {node arg : Node} {level : Nat} {rest : List Char}

theorem Reads.eq_some (h : Reads node) (hlevel : level ≤ strength node) (hrest : Stops level rest) :
    expression level (chars node ++ rest) = some (node, rest) := by
  rw [h level rest hlevel (hrest.mono (hlevel.trans (strength_le_reach node))), hrest.operators_eq]

/-- What is one operand by itself is read as such. -/
theorem reads_of_operand (h : ∀ rest, Stops (reach node) rest → operand (chars node ++ rest) = some (node, rest)) :
    Reads node := by
  intro level rest _ hrest
  rw [expression, h rest hrest]
  exact if_pos (by simp)

/-- In its place an argument is read whatever stands behind it. -/
theorem expression_operandChars (h : Reads arg) {parent : String} {position : Nat}
    (hopen : needsParentheses standard parent position arg = false →
      level ≤ strength arg ∧ Stops (reach arg) rest) :
    expression level (operandChars parent position arg ++ rest) = operators level arg rest := by
  rw [operandChars]
  split
  · have hinner : expression 0 (chars arg ++ ')' :: rest) = some (arg, ')' :: rest) :=
      h.eq_some (Nat.zero_le _) (.closing (by decide))
    rw [List.cons_append, List.append_assoc, List.singleton_append, expression, operand, bracketed, hinner]
    exact if_pos (by simp; omega)
  · rename_i hplain
    obtain ⟨hlevel, hrest⟩ := hopen (Bool.eq_false_iff.mpr hplain)
    exact h level rest hlevel hrest

/-! ### Lists -/

theorem expression_closing {c : Char} (hc : c ∈ [')', '\x7d']) (cs : List Char) :
    expression level (c :: cs) = none := by
  obtain ⟨⟨hword, hnumeral, hparenthesis⟩, hbrace, -⟩ := of_mem_closing (List.mem_cons_of_mem _ hc)
  rw [expression, operand_cons hparenthesis hbrace, if_neg hnumeral, if_neg hword]
  rfl

theorem listChars_cons (first : Node) (others : List Node) :
    listChars (first :: others) = chars first ++ others.flatMap fun other => ',' :: ' ' :: chars other := by
  rw [listChars, List.map_cons, intercalate_cons, List.flatMap_map]
  rfl

variable {close : Char}

theorem itemsFrom_listChars (hclose : close ∈ [')', '\x7d']) {first : Node} {others : List Node}
    (h : ∀ node ∈ first :: others, Reads node) :
    itemsFrom close (listChars (first :: others) ++ close :: rest) = some (first :: others, rest) := by
  induction others generalizing first with
  | nil =>
      have hfirst : expression 0 (chars first ++ close :: rest) = some (first, close :: rest) :=
        (h first List.mem_cons_self).eq_some (Nat.zero_le _) (.closing (List.mem_cons_of_mem _ hclose))
      have hcomma : close ≠ ',' := by
        rintro rfl
        exact absurd hclose (by decide)
      rw [listChars_cons, List.flatMap_nil, List.append_nil, itemsFrom, hfirst]
      simp [hcomma]
  | cons second others ih =>
      have hfirst : expression 0 (chars first ++ ',' :: ' ' :: (listChars (second :: others) ++ close :: rest)) =
          some (first, ',' :: ' ' :: (listChars (second :: others) ++ close :: rest)) :=
        (h first List.mem_cons_self).eq_some (Nat.zero_le _) (.closing (by decide))
      have hothers := ih fun node hnode => h node (List.mem_cons_of_mem _ hnode)
      have htext : listChars (first :: second :: others) ++ close :: rest =
          chars first ++ ',' :: ' ' :: (listChars (second :: others) ++ close :: rest) := by
        rw [listChars_cons, List.flatMap_cons, listChars_cons]
        simp
      have hshorter : (listChars (second :: others) ++ close :: rest).length <
          (chars first ++ ',' :: ' ' :: (listChars (second :: others) ++ close :: rest)).length := by
        simp
        omega
      rw [htext, itemsFrom, hfirst]
      refine (if_pos hshorter).trans ?_
      rw [hothers]
      rfl

theorem items_listChars (hclose : close ∈ [')', '\x7d']) {nodes : List Node} (h : ∀ node ∈ nodes, Reads node) :
    items close (listChars nodes ++ close :: rest) = some (nodes, rest) := by
  cases nodes with
  | nil =>
      show items close (close :: rest) = _
      rw [items, if_pos rfl]
  | cons first others =>
      have hread : itemsFrom close (listChars (first :: others) ++ close :: rest) = some (first :: others, rest) :=
        itemsFrom_listChars hclose h
      cases htext : listChars (first :: others) ++ close :: rest with
      | nil => simp at htext
      | cons c cs =>
          rw [htext] at hread
          have hc : c ≠ close := by
            rintro rfl
            rw [itemsFrom, expression_closing hclose] at hread
            cases hread
          rw [items, if_neg hc, hread]

/-! ### Names and brackets -/

theorem reads_integer (value : Int) : Reads (.integer value) := by
  refine reads_of_operand fun rest hrest => ?_
  rw [chars_integer]
  exact operand_integer value fun c hc => (hrest.head c hc).2.1

/-- A name that is neither a call nor an operator stands for itself. -/
theorem reads_leaf {name : String} (hword : isWord name.toList) (hkeyword : keyword? .before name = none)
    (hchars : chars node = name.toList) (hnode : node = leaf name) : Reads node := by
  refine reads_of_operand fun rest hrest => ?_
  rw [hchars, operand_word hword fun c hc => (hrest.head c hc).1, String.ofList_toList,
    named_leaf hkeyword fun c hc => (hrest.head c hc).2.2, hnode]

theorem reads_boolean (value : Bool) : Reads (.boolean value) := by
  have htrue : isWord "true".toList := by decide
  have hfalse : isWord "false".toList := by decide
  cases value with
  | true => exact reads_leaf htrue (by decide) rfl rfl
  | false => exact reads_leaf hfalse (by decide) rfl rfl

theorem reads_symbol {name : String} (hword : isWord name.toList) (hfree : IsFree name) :
    Reads (.symbol name) := by
  simp only [IsFree, List.mem_cons, not_or] at hfree
  have hkeyword : keyword? .before name = none := by
    refine List.find?_eq_none.mpr fun keyword hmem hfound => hfree.2.2 ?_
    rw [Bool.and_eq_true, beq_iff_eq] at hfound
    exact List.mem_map.mpr ⟨keyword, hmem, hfound.2⟩
  refine reads_leaf hword hkeyword rfl ?_
  rw [leaf, if_neg hfree.1, if_neg hfree.2.1]

theorem reads_pair {first second : Node} (hfirst : Reads first) (hsecond : Reads second) :
    Reads (.pair first second) := by
  refine reads_of_operand fun rest _ => ?_
  have hinner : expression 0 (chars first ++ ' ' :: ':' :: ' ' :: (chars second ++ ')' :: rest)) =
      some (first, ' ' :: ':' :: ' ' :: (chars second ++ ')' :: rest)) :=
    hfirst.eq_some (Nat.zero_le _) .colon
  have houter : expression 0 (chars second ++ ')' :: rest) = some (second, ')' :: rest) :=
    hsecond.eq_some (Nat.zero_le _) (.closing (by decide))
  have htext : chars (.pair first second) ++ rest =
      '(' :: (chars first ++ ' ' :: ':' :: ' ' :: (chars second ++ ')' :: rest)) := by
    rw [chars_pair]
    simp
  have hshorter : (chars second ++ ')' :: rest).length <
      (chars first ++ ' ' :: ':' :: ' ' :: (chars second ++ ')' :: rest)).length := by
    simp
    omega
  rw [htext, operand, bracketed, hinner]
  refine (if_pos hshorter).trans ?_
  rw [houter]
  rfl

theorem reads_sequence {elements : List Node} (h : ∀ element ∈ elements, Reads element) :
    Reads (.sequence elements) := by
  refine reads_of_operand fun rest _ => ?_
  have hitems : items '\x7d' (listChars elements ++ '\x7d' :: rest) = some (elements, rest) :=
    items_listChars (by decide) h
  rw [chars_sequence, List.cons_append, List.append_assoc, List.singleton_append, operand, hitems]
  rfl

theorem reads_call {name : String} {args : List Node} (hword : isWord name.toList)
    (hname : standard.writing? name = none) (h : ∀ arg ∈ args, Reads arg) : Reads (.application name args) := by
  refine reads_of_operand fun rest _ => ?_
  have hitems : items ')' (listChars args ++ ')' :: rest) = some (args, rest) :=
    items_listChars (by decide) h
  have hopen : ∀ c ∈ ('(' :: (listChars args ++ ')' :: rest)).head?, ¬isWordChar c := by
    rintro _ ⟨⟩
    decide
  rw [chars_call hname, List.append_assoc, List.cons_append, List.append_assoc, List.singleton_append,
    operand_word hword hopen, String.ofList_toList, named, hitems]
  rfl

/-! ### Operators -/

section Keywords

variable {keyword : Keyword} (hmem : keyword ∈ keywords)

include hmem

theorem reads_before (hfixity : keyword.fixity = .before) (hlegible : Legible arg) (h : Reads arg) :
    Reads (.application keyword.operation [arg]) := by
  have htable : ∀ keyword ∈ keywords, keyword.fixity = .before → isWord keyword.symbol.toList := by
    decide
  refine reads_of_operand fun rest hrest => ?_
  have hreach : reach (.application keyword.operation [arg]) = keyword.precedence.strength := by
    simp only [reach, Builtin.writing?_standard hmem, hfixity]
  rw [hreach] at hrest
  have hself := keyword?_self hmem
  rw [hfixity] at hself
  have hspace : ∀ c ∈ (' ' :: (operandChars keyword.operation 0 arg ++ rest)).head?, ¬isWordChar c := by
    rintro _ ⟨⟩
    decide
  have hoperand : expression keyword.precedence.strength (operandChars keyword.operation 0 arg ++ rest) =
      some (arg, rest) := by
    rw [expression_operandChars h fun hopen => ?_, hrest.operators_eq]
    obtain ⟨hlevel, hbelow⟩ := fits_first hmem hlegible hopen
    exact ⟨hlevel, hrest.mono hbelow.le⟩
  rw [chars_before hmem hfixity, List.append_assoc, List.cons_append,
    operand_word (htable keyword hmem hfixity) hspace, String.ofList_toList, named, hself]
  simp [hoperand]

theorem reads_after (hfixity : keyword.fixity = .after) (hlegible : Legible arg) (h : Reads arg) :
    Reads (.application keyword.operation [arg]) := by
  intro level rest hlevel _
  rw [strength_keyword hmem] at hlevel
  rw [chars_after hmem hfixity, List.append_assoc, expression_operandChars h fun hopen => ?_,
    operators_after hmem hfixity, if_pos hlevel]
  obtain ⟨hfits, hbelow⟩ := fits_first hmem hlegible hopen
  exact ⟨hlevel.trans hfits, .after hmem hfixity hbelow⟩

/-- An expression stops where operators with their operands follow that bind less tightly. -/
theorem stops_behind (hfixity : keyword.fixity = .between) (hlevel : keyword.precedence.strength < level)
    {args : List Node} : Stops level ((arg :: args).flatMap (behindChars keyword) ++ rest) := by
  rw [List.flatMap_cons, behindChars, List.append_assoc, List.cons_append, List.append_assoc, List.cons_append]
  exact .between hmem hfixity hlevel

/-- An operator and the operand behind it. -/
theorem operators_operand (hfixity : keyword.fixity = .between) {left : Node}
    (hlevel : level ≤ keyword.precedence.strength) (h : Reads arg)
    (hfits : needsParentheses standard keyword.operation 1 arg = false → keyword.precedence.strength < strength arg)
    (hrest : Stops (keyword.precedence.strength + 1) rest) :
    operators level left (behindChars keyword arg ++ rest) = operators level (join keyword left arg) rest := by
  rw [behindChars, List.cons_append, List.append_assoc, List.cons_append, operators_between hmem hfixity,
    if_pos hlevel, expression_operandChars h fun hopen => ?_,
    hrest.operators_eq]
  · exact if_pos (by simp; omega)
  · exact ⟨hfits hopen, hrest.mono ((hfits hopen).trans_le (strength_le_reach arg))⟩

/-- The operators behind the first operand are read one by one, each joined to what was read before. -/
theorem operators_flatMap (hfixity : keyword.fixity = .between) {left : Node} {args : List Node}
    (hlevel : level ≤ keyword.precedence.strength) (h : ∀ arg ∈ args, Reads arg)
    (hfits : ∀ arg ∈ args, needsParentheses standard keyword.operation 1 arg = false →
      keyword.precedence.strength < strength arg)
    (hrest : Stops (keyword.precedence.strength + 1) rest) :
    operators level left (args.flatMap (behindChars keyword) ++ rest) =
      operators level (args.foldl (join keyword) left) rest := by
  induction args generalizing left with
  | nil => rfl
  | cons arg args ih =>
      have hothers : Stops (keyword.precedence.strength + 1) (args.flatMap (behindChars keyword) ++ rest) := by
        cases args with
        | nil => exact hrest
        | cons next args => exact stops_behind hmem hfixity (Nat.lt_succ_self _)
      rw [List.flatMap_cons, List.append_assoc,
        operators_operand hmem hfixity hlevel (h arg List.mem_cons_self) (hfits arg List.mem_cons_self) hothers,
        ih (fun other hother => h other (List.mem_cons_of_mem _ hother))
          (fun other hother => hfits other (List.mem_cons_of_mem _ hother)), List.foldl_cons]

omit hmem in
/-- Operands joined one by one to a chain are its arguments. -/
theorem foldl_join {first second : Node} {others : List Node}
    (hlong : others = [] ∨ standard.isCommutative keyword.operation)
    (hfirst : standard.isCommutative keyword.operation → isApplicationOf keyword.operation first = false) :
    (second :: others).foldl (join keyword) first = .application keyword.operation (first :: second :: others) := by
  have hstart : join keyword first second = .application keyword.operation [first, second] := by
    rw [join]
    split
    · rename_i hcommutative
      rw [inlined_of_not_isApplicationOf (hfirst hcommutative)]
      rfl
    · rfl
  have hchain (acc : List Node) : others.foldl (join keyword) (.application keyword.operation acc) =
      .application keyword.operation (acc ++ others) := by
    induction others generalizing acc with
    | nil => rw [List.foldl_nil, List.append_nil]
    | cons other others ih =>
        have hcommutative := hlong.resolve_left (List.cons_ne_nil _ _)
        rw [List.foldl_cons, join, if_pos hcommutative, inlined, if_pos rfl, ih (.inr hcommutative),
          List.append_assoc, List.singleton_append]
  rw [List.foldl_cons, hstart, hchain]
  rfl

theorem reads_between (hfixity : keyword.fixity = .between) {first second : Node} {others : List Node}
    (hlong : others = [] ∨ standard.isCommutative keyword.operation)
    (hlegible : Legible first) (h : ∀ arg ∈ first :: second :: others, Reads arg)
    (hflat : standard.isCommutative keyword.operation →
      ∀ arg ∈ first :: second :: others, isApplicationOf keyword.operation arg = false) :
    Reads (.application keyword.operation (first :: second :: others)) := by
  intro level rest hlevel hrest
  rw [strength_keyword hmem] at hlevel
  simp only [reach, Builtin.writing?_standard hmem, hfixity] at hrest
  have hfits : ∀ arg ∈ second :: others, needsParentheses standard keyword.operation 1 arg = false →
      keyword.precedence.strength < strength arg := fun arg harg hopen =>
    fits_behind hmem hopen fun hcommutative => hflat hcommutative arg (List.mem_cons_of_mem _ harg)
  rw [chars_between hmem hfixity hlong, chainChars, List.append_assoc,
    expression_operandChars (h first List.mem_cons_self) fun hopen => ?_,
    operators_flatMap hmem hfixity hlevel (fun arg harg => h arg (List.mem_cons_of_mem _ harg)) hfits hrest,
    foldl_join hlong fun hcommutative => hflat hcommutative first List.mem_cons_self]
  obtain ⟨hstrength, hbelow⟩ := fits_first hmem hlegible hopen
  exact ⟨hlevel.trans hstrength, stops_behind hmem hfixity hbelow⟩

end Keywords

/-! ### The round trip -/

/-- The reader gets through the text of every flat expression. -/
theorem reads_of_legible (hlegible : Legible node) (hflat : node.Flat) : Reads node := by
  induction hlegible using Legible.inductionOn with
  | integer value => exact reads_integer value
  | boolean value => exact reads_boolean value
  | symbol hword hfree => exact reads_symbol hword hfree
  | pair _ _ ihfirst ihsecond =>
      obtain ⟨-, hfirst, hsecond⟩ := Node.everywhere_pair.mp hflat
      exact reads_pair (ihfirst hfirst) (ihsecond hsecond)
  | sequence _ ih =>
      obtain ⟨-, helements⟩ := Node.everywhere_sequence.mp hflat
      exact reads_sequence fun element helement => ih element helement (helements element helement)
  | call hword hname _ ih =>
      obtain ⟨-, hargs⟩ := Node.everywhere_application.mp hflat
      exact reads_call hword hname fun arg harg => ih arg harg (hargs arg harg)
  | between hmem hfixity hlong hlegible ih =>
      obtain ⟨hform, hargs⟩ := Node.everywhere_application.mp hflat
      exact reads_between hmem hfixity hlong (hlegible _ List.mem_cons_self)
        (fun arg harg => ih arg harg (hargs arg harg)) hform
  | @unary keyword arg hmem hfixity hlegible ih =>
      obtain ⟨-, hargs⟩ := Node.everywhere_application.mp hflat
      have harg := ih (hargs arg List.mem_cons_self)
      cases hcase : keyword.fixity with
      | before => exact reads_before hmem hcase hlegible harg
      | after => exact reads_after hmem hcase hlegible harg
      | between => exact absurd hcase hfixity
      | call => exact absurd hcase (Builtin.fixity_ne_call hmem)

/-- A flat expression is read back from its text. -/
theorem read_render (hlegible : Legible node) (hflat : node.Flat) : read (render standard node) = some node := by
  have hread : expression 0 (chars node ++ []) = some (node, []) :=
    (reads_of_legible hlegible hflat).eq_some (Nat.zero_le _) .done
  rw [List.append_nil] at hread
  rw [read, ← chars, hread]

/-- Flat expressions with one text are one expression. -/
theorem eq_of_render_eq {other : Node} (hnode : Legible node) (hother : Legible other) (hflat : node.Flat)
    (hflat' : other.Flat) (h : render standard node = render standard other) : node = other := by
  have hread := read_render hnode hflat
  rw [h, read_render hother hflat'] at hread
  exact (Option.some.inj hread).symm

end Reading

end SymbolicAlgebra
