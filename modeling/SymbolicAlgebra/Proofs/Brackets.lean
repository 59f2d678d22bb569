import Mathlib.Data.List.Basic

/-! Texts with parentheses. Where a group closes is decided by what stands in it. Outside of groups a text is
made up of words with spaces between them. -/

namespace SymbolicAlgebra

namespace Brackets

/-- Every parenthesis has its counterpart. -/
inductive Matched : List Char → Prop
  | nil : Matched []
  | plain {c : Char} {rest : List Char} : c ≠ '(' → c ≠ ')' → Matched rest → Matched (c :: rest)
  | group {inner rest : List Char} : Matched inner → Matched rest → Matched ('(' :: (inner ++ ')' :: rest))

/-- There are no parentheses. -/
def Plain (text : List Char) : Prop :=
  '(' ∉ text ∧ ')' ∉ text

instance (text : List Char) : Decidable (Plain text) :=
  inferInstanceAs (Decidable (_ ∧ _))

section Matched

variable {text other inner rest rest' : List Char}

theorem Plain.matched (h : Plain text) : Matched text := by
  induction text with
  | nil => exact .nil
  | cons c text ih =>
      obtain ⟨hopen, hclose⟩ := h
      rw [List.mem_cons, not_or] at hopen hclose
      exact .plain (Ne.symm hopen.1) (Ne.symm hclose.1) (ih ⟨hopen.2, hclose.2⟩)

theorem Matched.append (h : Matched text) (hrest : Matched rest) : Matched (text ++ rest) := by
  induction h with
  | nil => exact hrest
  | plain hopen hclose _ ih => exact .plain hopen hclose ih
  | group hinner _ _ ih =>
      rw [List.cons_append, List.append_assoc, List.cons_append]
      exact .group hinner ih

theorem Matched.flatMap {α : Type} {f : α → List Char} {parts : List α} (h : ∀ part ∈ parts, Matched (f part)) :
    Matched (parts.flatMap f) := by
  induction parts with
  | nil => exact .nil
  | cons part parts ih =>
      obtain ⟨hpart, hparts⟩ := List.forall_mem_cons.mp h
      exact hpart.append (ih hparts)

theorem Matched.grouped (h : Matched inner) : Matched ('(' :: (inner ++ [')'])) :=
  .group h .nil

/-- A balanced text in front of a closing parenthesis is determined. -/
theorem Matched.unique (h : Matched text) (hother : Matched other)
    (heq : text ++ ')' :: rest = other ++ ')' :: rest') : text = other ∧ rest = rest' := by
  induction h generalizing other rest rest' with
  | nil =>
      cases hother with
      | nil =>
          cases heq
          exact ⟨rfl, rfl⟩
      | plain _ hclose _ => exact absurd (List.cons.inj heq).1.symm hclose
      | group _ _ => cases heq
  | plain hopen hclose _ ih =>
      cases hother with
      | nil => exact absurd (List.cons.inj heq).1 hclose
      | plain _ _ hmore =>
          rw [List.cons_append, List.cons_append, List.cons.injEq] at heq
          obtain ⟨rfl, hrest⟩ := ih hmore heq.2
          exact ⟨congrArg (· :: _) heq.1, hrest⟩
      | group _ _ => exact absurd (List.cons.inj heq).1 hopen
  | group _ _ ihinner ih =>
      cases hother with
      | nil => cases heq
      | plain hopen _ _ => exact absurd (List.cons.inj heq).1.symm hopen
      | group hinner hmore =>
          rw [List.cons_append, List.cons_append, List.append_assoc, List.append_assoc, List.cons.injEq] at heq
          obtain ⟨rfl, htail⟩ := ihinner hinner heq.2
          obtain ⟨rfl, hrest⟩ := ih hmore htail
          exact ⟨rfl, hrest⟩

end Matched

/-! ### Outside of the groups -/

/-- The characters that stand outside of all groups, where `depth` of them are open. A group is there by its
opening parenthesis. -/
def outerFrom (depth : Nat) : List Char → List Char
  | [] => []
  | c :: rest =>
    if c = '(' then if depth = 0 then '(' :: outerFrom 1 rest else outerFrom (depth + 1) rest
    else if c = ')' then outerFrom (depth - 1) rest
    else if depth = 0 then c :: outerFrom 0 rest
    else outerFrom depth rest

def outer (text : List Char) : List Char :=
  outerFrom 0 text

/-- The words of a text, where groups are left out. -/
def words (text : List Char) : List (List Char) :=
  (outer text).splitOn ' '

section Outer

variable {text inner rest : List Char}

theorem outer_nil : outer [] = [] :=
  rfl

theorem outer_cons {c : Char} (hopen : c ≠ '(') (hclose : c ≠ ')') (rest : List Char) :
    outer (c :: rest) = c :: outer rest := by
  rw [outer, outerFrom, if_neg hopen, if_neg hclose, if_pos rfl]
  rfl

/-- Inside of a group, nothing of a balanced text is outside. -/
theorem outerFrom_succ (h : Matched text) (depth : Nat) (rest : List Char) :
    outerFrom (depth + 1) (text ++ rest) = outerFrom (depth + 1) rest := by
  induction h generalizing depth rest with
  | nil => rfl
  | plain hopen hclose _ ih =>
      rw [List.cons_append, outerFrom, if_neg hopen, if_neg hclose, if_neg (Nat.succ_ne_zero depth), ih]
  | group _ _ ihinner ih =>
      rw [List.cons_append, List.append_assoc, List.cons_append, outerFrom, if_pos rfl,
        if_neg (Nat.succ_ne_zero depth), ihinner (depth + 1)]
      exact ih depth rest

theorem outer_group (h : Matched inner) (rest : List Char) :
    outer ('(' :: (inner ++ ')' :: rest)) = '(' :: outer rest := by
  rw [outer, outerFrom, if_pos rfl, if_pos rfl, outerFrom_succ h 0]
  rfl

theorem Matched.exists_outer_cons {c : Char} (h : Matched (c :: rest)) :
    ∃ others, outer (c :: rest) = c :: others := by
  cases h with
  | plain hopen hclose _ => exact ⟨_, outer_cons hopen hclose _⟩
  | group hinner _ => exact ⟨_, outer_group hinner _⟩

theorem outer_append (h : Matched text) (rest : List Char) : outer (text ++ rest) = outer text ++ outer rest := by
  induction h with
  | nil => rfl
  | plain hopen hclose _ ih => rw [List.cons_append, outer_cons hopen hclose, outer_cons hopen hclose, ih]; rfl
  | group hinner _ _ ih =>
      rw [List.cons_append, List.append_assoc, List.cons_append, outer_group hinner, outer_group hinner, ih]
      rfl

theorem Plain.outer_eq (h : Plain text) : outer text = text := by
  induction text with
  | nil => rfl
  | cons c text ih =>
      obtain ⟨hopen, hclose⟩ := h
      rw [List.mem_cons, not_or] at hopen hclose
      rw [outer_cons (Ne.symm hopen.1) (Ne.symm hclose.1), ih ⟨hopen.2, hclose.2⟩]

/-- The words on both sides of a space. -/
theorem words_append_space (h : Matched text) (rest : List Char) :
    words (text ++ ' ' :: rest) = words text ++ words rest := by
  rw [words, outer_append h, outer_cons (by decide) (by decide), List.splitOn_append_cons_self]
  rfl

theorem Plain.words_eq (h : Plain text) (hspace : ' ' ∉ text) : words text = [text] := by
  rw [words, h.outer_eq, List.splitOn_eq_singleton hspace]

/-- A group is one word. -/
theorem words_group (h : Matched inner) : words ('(' :: (inner ++ [')'])) = [['(']] := by
  rw [words, outer_group h]
  rfl

/-- A text without spaces in front of another becomes a part of its first word. -/
theorem Plain.words_append (h : Plain text) (hspace : ' ' ∉ text) {rest first : List Char}
    {others : List (List Char)} (hrest : words rest = first :: others) :
    words (text ++ rest) = (text ++ first) :: others := by
  rw [words, outer_append h.matched, h.outer_eq]
  induction text with
  | nil => exact hrest
  | cons c text ih =>
      obtain ⟨hopen, hclose⟩ := h
      rw [List.mem_cons, not_or] at hopen hclose hspace
      rw [List.cons_append, List.splitOn_cons_eq_if_modifyHead, if_neg (by simpa using Ne.symm hspace.1),
        ih ⟨hopen.2, hclose.2⟩ hspace.2]
      rfl

/-- The first word begins with what the text begins with outside of groups. -/
theorem words_of_outer_cons {c : Char} {others : List Char} (h : outer text = c :: others) (hspace : c ≠ ' ') :
    ∃ word more, words text = (c :: word) :: more := by
  obtain ⟨word, more, hmore⟩ := List.exists_cons_of_ne_nil (List.splitOn_ne_nil ' ' others)
  refine ⟨word, more, ?_⟩
  rw [words, h, List.splitOn_cons_eq_if_modifyHead, if_neg (by simpa using hspace), hmore]
  rfl

/-- A character behind a text becomes a part of its last word. -/
theorem words_concat (h : Matched text) {c : Char} (hc : c ∉ ['(', ')', ' ']) :
    ∃ front word, words text = front ++ [word] ∧ words (text ++ [c]) = front ++ [word ++ [c]] := by
  simp only [List.mem_cons, List.not_mem_nil, or_false, not_or] at hc
  rw [words, words, outer_append h, outer_cons hc.1 hc.2.1, outer_nil]
  induction outer text with
  | nil => exact ⟨[], [], rfl, List.splitOn_eq_singleton (by simpa using Ne.symm hc.2.2)⟩
  | cons first more ih =>
      obtain ⟨front, word, hfront, hword⟩ := ih
      rw [List.cons_append, List.splitOn_cons_eq_if_modifyHead, List.splitOn_cons_eq_if_modifyHead, hfront, hword]
      split
      · exact ⟨[] :: front, word, rfl, rfl⟩
      · cases front with
        | nil => exact ⟨[], first :: word, rfl, rfl⟩
        | cons one front => exact ⟨(first :: one) :: front, word, rfl, rfl⟩

end Outer

/-! ### Commas -/

/-- A balanced text whose commas all stand in groups. -/
structure Undivided (text : List Char) : Prop where
  matched : Matched text
  comma : ',' ∉ outer text

namespace Undivided

variable {text inner rest : List Char}

theorem nil : Undivided [] :=
  ⟨.nil, List.not_mem_nil⟩

theorem append (h : Undivided text) (hrest : Undivided rest) : Undivided (text ++ rest) := by
  refine ⟨h.matched.append hrest.matched, ?_⟩
  rw [outer_append h.matched, List.mem_append, not_or]
  exact ⟨h.comma, hrest.comma⟩

/-- Characters other than parentheses and commas stand for themselves. -/
theorem of_forall (h : ∀ c ∈ text, c ∉ ['(', ')', ',']) : Undivided text := by
  have hmark : ∀ c ∈ ['(', ')', ','], c ∉ text := fun c hc hmem => h c hmem hc
  have hplain : Plain text := ⟨hmark '(' (by simp), hmark ')' (by simp)⟩
  refine ⟨hplain.matched, ?_⟩
  rw [hplain.outer_eq]
  exact hmark ',' (by simp)

theorem grouped (h : Matched inner) : Undivided ('(' :: (inner ++ [')'])) := by
  refine ⟨h.grouped, ?_⟩
  rw [outer_group h]
  decide

theorem flatMap {α : Type} {f : α → List Char} {parts : List α} (h : ∀ part ∈ parts, Undivided (f part)) :
    Undivided (parts.flatMap f) := by
  induction parts with
  | nil => exact nil
  | cons part parts ih =>
      obtain ⟨hpart, hparts⟩ := List.forall_mem_cons.mp h
      exact hpart.append (ih hparts)

/-- A comma with a balanced text on its left divides. -/
theorem ne_append (h : Undivided text) (hinner : Matched inner) : text ≠ inner ++ ',' :: rest := by
  rintro rfl
  refine h.comma ?_
  rw [outer_append hinner, outer_cons (by decide) (by decide)]
  exact List.mem_append_right _ List.mem_cons_self

end Undivided

end Brackets

end SymbolicAlgebra
