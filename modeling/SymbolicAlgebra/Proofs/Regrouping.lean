import SymbolicAlgebra.Proofs.Growth

/-! What the text of an expression is read as, whatever it was written for. Operators of one strength are
grouped from left to right. So where an operand that is a chain itself stands behind an operator of the same
chain, its operators are taken one by one, each with everything in front of it as its left operand. -/

namespace SymbolicAlgebra

open Builtin (keywords standard)
open Render (needsParentheses)

namespace Reading

/-! ### Grouping from left to right -/

/-- The operator between `left` and a node, where the operators of the same strength that the node begins with
are applied after it. -/
def attach (keyword : Keyword) (left : Node) : Node → Node
  | .application name (first :: second :: others) =>
    match standard.writing? name with
    | some inner =>
      if inner.precedence = keyword.precedence then
        (second :: others).foldl (join inner) (attach keyword left first)
      else join keyword left (.application name (first :: second :: others))
    | none => join keyword left (.application name (first :: second :: others))
  | node => join keyword left node

/-- The operator between two operands, as it is read. A chain of the operator itself has no parentheses behind
it. -/
def behind (keyword : Keyword) (left right : Node) : Node :=
  if standard.isCommutative keyword.operation ∧ isApplicationOf keyword.operation right then
    attach keyword left right
  else join keyword left right

mutual

/-- What the text of a node is read as. -/
def reread : Node → Node
  | .application name args =>
    match standard.writing? name, rereadAll args with
    | some keyword, first :: second :: others => (second :: others).foldl (behind keyword) first
    | _, args => .application name args
  | .pair first second => .pair (reread first) (reread second)
  | .sequence elements => .sequence (rereadAll elements)
  | leaf => leaf

def rereadAll : List Node → List Node
  | [] => []
  | node :: rest => reread node :: rereadAll rest

end

theorem rereadAll_eq_map (nodes : List Node) : rereadAll nodes = nodes.map reread := by
  induction nodes with
  | nil => rfl
  | cons node rest ih => rw [rereadAll, ih, List.map_cons]

/-! ### What is joined has the text of its parts -/

/-- The node is flat, it is the operator between at least two operands, and this is its text. -/
structure Writes (keyword : Keyword) (node : Node) (text : List Char) : Prop where
  legible : Legible node
  flat : node.Flat
  operands : ∃ first second others, node = .application keyword.operation (first :: second :: others)
  chars_eq : chars node = text

variable {keyword inner : Keyword} {left right node : Node} {text : List Char}

/-- In front of an operator only the strength of the operator matters. -/
theorem operandChars_front (hmem : keyword ∈ keywords) (hinner : inner ∈ keywords)
    (hsame : inner.precedence = keyword.precedence) (node : Node) :
    operandChars keyword.operation 0 node = operandChars inner.operation 0 node := by
  have hneeds : needsParentheses standard keyword.operation 0 node =
      needsParentheses standard inner.operation 0 node := by
    cases node with
    | application name args =>
        rw [needsParentheses, needsParentheses, Builtin.writing?_standard hmem, Builtin.writing?_standard hinner]
        cases standard.writing? name with
        | none => rfl
        | some operator => simp only [hsame, if_true]
    | _ => rfl
  rw [operandChars, operandChars, hneeds]

/-- In front of an operator of its strength a chain has no parentheses. -/
theorem Writes.operandChars_eq (h : Writes inner node text) (hmem : keyword ∈ keywords) (hinner : inner ∈ keywords)
    (hsame : inner.precedence = keyword.precedence) : operandChars keyword.operation 0 node = text := by
  obtain ⟨first, second, others, rfl⟩ := h.operands
  rw [operandChars, if_neg, h.chars_eq]
  simp [needsParentheses, Builtin.writing?_standard hmem, Builtin.writing?_standard hinner, hsame]

theorem writes_join (hmem : keyword ∈ keywords) (hfixity : keyword.fixity = .between)
    (hleft : Legible left) (hleftFlat : left.Flat) (hright : Legible right) (hrightFlat : right.Flat)
    (hother : standard.isCommutative keyword.operation → isApplicationOf keyword.operation right = false) :
    Writes keyword (join keyword left right) (operandChars keyword.operation 0 left ++ behindChars keyword right) := by
  cases hcommutative : standard.isCommutative keyword.operation with
  | false =>
      have hjoin : join keyword left right = .application keyword.operation [left, right] := by
        rw [join, hcommutative]
        rfl
      rw [hjoin]
      refine ⟨.binary hmem hfixity hleft hright, ?_, ⟨left, right, [], rfl⟩, ?_⟩
      · rw [Node.flat_application hcommutative]
        exact List.forall_mem_cons.mpr ⟨hleftFlat, List.forall_mem_singleton.mpr hrightFlat⟩
      · rw [chars_between hmem hfixity (.inl rfl), chainChars, List.flatMap_singleton]
  | true =>
      obtain ⟨first, others, hinlined⟩ := hleft.exists_inlined hcommutative
      have hjoin : join keyword left right =
          .application keyword.operation (inlined keyword.operation left ++ [right]) := by
        rw [join, hcommutative, if_pos rfl]
      have hlegible : Legible (.application keyword.operation (inlined keyword.operation left ++ [right])) := by
        refine .chain (Builtin.mem_chainNames_of_commutative hcommutative) (by simp [hinlined]) ?_
        exact List.forall_mem_append.mpr ⟨forall_mem_inlined (fun _ => Legible.of_mem_args) hleft,
          List.forall_mem_singleton.mpr hright⟩
      have hoperands := hlegible.exists_chain hcommutative
      rw [hjoin]
      refine ⟨hlegible, Node.everywhere_application.mpr ⟨fun _ => ?_, ?_⟩, ?_, ?_⟩
      · exact List.forall_mem_append.mpr ⟨hleftFlat.not_isApplicationOf_inlined hcommutative,
          List.forall_mem_singleton.mpr (hother hcommutative)⟩
      · exact List.forall_mem_append.mpr
          ⟨forall_mem_inlined (fun _ h => (Node.everywhere_application.mp h).2) hleftFlat,
            List.forall_mem_singleton.mpr hrightFlat⟩
      · obtain ⟨first, second, others, hargs⟩ := hoperands
        exact ⟨first, second, others, by rw [hargs]⟩
      · rw [chars_chain hmem hcommutative hlegible, chainChars_inlined hmem hcommutative hleft,
          chainChars, List.flatMap_singleton]

/-- Operands are joined one by one. -/
theorem writes_foldl (hmem : keyword ∈ keywords) (combine : Node → Node → Node) {first second : Node}
    {others : List Node} (hfirst : Legible first) (hflat : first.Flat)
    (h : ∀ right ∈ second :: others, ∀ left, Legible left → left.Flat →
      Writes keyword (combine left right) (operandChars keyword.operation 0 left ++ behindChars keyword right)) :
    Writes keyword ((second :: others).foldl combine first)
      (operandChars keyword.operation 0 first ++ (second :: others).flatMap (behindChars keyword)) := by
  induction others generalizing first second with
  | nil =>
      rw [List.flatMap_singleton]
      exact h second List.mem_cons_self first hfirst hflat
  | cons third others ih =>
      have hjoined := h second List.mem_cons_self first hfirst hflat
      rw [List.foldl_cons, List.flatMap_cons, ← List.append_assoc, ← hjoined.operandChars_eq hmem hmem rfl]
      exact ih hjoined.legible hjoined.flat fun right hright => h right (List.mem_cons_of_mem _ hright)

/-! ### Attaching -/

/-- The node is an operator of the strength of `keyword` between its operands. -/
def Binds (keyword : Keyword) (node : Node) : Prop :=
  ∃ inner ∈ keywords, inner.precedence = keyword.precedence ∧ inner.fixity = .between ∧
    ∃ first second others, node = .application inner.operation (first :: second :: others)

/-- What `left` is attached to is an operator of the strength of `keyword`, with the text of both. A chain of
the keyword remains one. -/
def Attaches (keyword : Keyword) (left node : Node) : Prop :=
  ∃ inner ∈ keywords, inner.precedence = keyword.precedence ∧
    (isApplicationOf keyword.operation node → inner = keyword) ∧
    Writes inner (attach keyword left node) (operandChars keyword.operation 0 left ++
      ' ' :: (keyword.symbol.toList ++ ' ' :: operandChars keyword.operation 0 node))

theorem attach_operator (hinner : inner ∈ keywords) (hsame : inner.precedence = keyword.precedence)
    (first second : Node) (others : List Node) :
    attach keyword left (.application inner.operation (first :: second :: others)) =
      (second :: others).foldl (join inner) (attach keyword left first) := by
  simp only [attach, Builtin.writing?_standard hinner, hsame, if_true]

theorem binds_of_isApplicationOf (hmem : keyword ∈ keywords) (hfixity : keyword.fixity = .between)
    (hlegible : Legible node) (happlication : isApplicationOf keyword.operation node) : Binds keyword node := by
  obtain ⟨args, rfl⟩ := Node.isApplicationOf_iff.mp happlication
  obtain ⟨hbeside, -⟩ | ⟨-, first, second, others, rfl, -⟩ := hlegible.operands (Builtin.writing?_standard hmem)
  · exact absurd hfixity hbeside
  · exact ⟨keyword, hmem, rfl, hfixity, first, second, others, rfl⟩

/-- Another operand is joined, and it has the same parentheses in the first place as in the others. -/
theorem attach_of_not_binds (left : Node) (hmem : keyword ∈ keywords) (hlegible : Legible node)
    (hbinds : ¬Binds keyword node) : attach keyword left node = join keyword left node ∧
      needsParentheses standard keyword.operation 0 node = needsParentheses standard keyword.operation 1 node := by
  cases node with
  | application name args =>
      cases hwriting : standard.writing? name with
      | none =>
          refine ⟨?_, by simp only [needsParentheses, hwriting]⟩
          rcases args with _ | ⟨first, _ | ⟨second, others⟩⟩
          · rfl
          · rfl
          · simp only [attach, hwriting]
      | some inner =>
          obtain ⟨hinner, rfl⟩ := Builtin.mem_keywords_of_writing? hwriting
          obtain ⟨-, arg, rfl⟩ | ⟨hbetween, first, second, others, rfl, -⟩ := hlegible.operands hwriting
          · refine ⟨rfl, ?_⟩
            simp only [needsParentheses, hwriting, Builtin.writing?_standard hmem, List.length_singleton, if_true]
          · have hdifferent : inner.precedence ≠ keyword.precedence := fun hsame =>
              hbinds ⟨inner, hinner, hsame, hbetween, first, second, others, rfl⟩
            refine ⟨by simp only [attach, hwriting, if_neg hdifferent], ?_⟩
            simp only [needsParentheses, hwriting, Builtin.writing?_standard hmem, if_pos hdifferent]
  | _ => exact ⟨rfl, rfl⟩

section Attach

variable (hmem : keyword ∈ keywords) (hfixity : keyword.fixity = .between)
  (hleft : Legible left) (hleftFlat : left.Flat)

include hmem hfixity hleft hleftFlat

theorem attaches_of_not_binds (hlegible : Legible node) (hflat : node.Flat) (hbinds : ¬Binds keyword node) :
    Attaches keyword left node := by
  obtain ⟨hattach, hneeds⟩ := attach_of_not_binds left hmem hlegible hbinds
  refine ⟨keyword, hmem, rfl, fun _ => rfl, ?_⟩
  have hoperand : operandChars keyword.operation 0 node = operandChars keyword.operation 1 node := by
    rw [operandChars, operandChars, hneeds]
  rw [hattach, hoperand]
  exact writes_join hmem hfixity hleft hleftFlat hlegible hflat fun _ =>
    Bool.eq_false_iff.mpr fun happlication => hbinds (binds_of_isApplicationOf hmem hfixity hlegible happlication)

/-- The operator takes the first operand of a chain of its strength, and the operators of the chain follow. The
first operand may be such a chain itself, hence the induction. -/
theorem attaches (hlegible : Legible node) (hflat : node.Flat) : Attaches keyword left node := by
  induction node using Node.inductionOn with
  | application name args ih =>
      by_cases hbinds : Binds keyword (.application name args)
      · obtain ⟨inner, hinner, hsame, hbetween, first, second, others, heq⟩ := hbinds
        cases heq
        obtain ⟨hform, hargs⟩ := Node.everywhere_application.mp hflat
        obtain ⟨operator, hoperator, hlike, -, hattached⟩ :=
          ih first (by simp) (hlegible.of_mem_args first (by simp)) (hargs first (by simp))
        refine ⟨inner, hinner, hsame, fun happlication => ?_, ?_⟩
        · obtain ⟨_, heq⟩ := Node.isApplicationOf_iff.mp happlication
          exact Builtin.eq_of_operation_eq hinner hmem (Node.application.inj heq).1
        · have hjoined := writes_foldl hinner (join inner) hattached.legible hattached.flat
            fun right hright left hleft hleftFlat => writes_join hinner hbetween hleft hleftFlat
              (hlegible.of_mem_args right (List.mem_cons_of_mem _ hright)) (hargs right (List.mem_cons_of_mem _ hright))
              fun hcommutative => hform hcommutative right (List.mem_cons_of_mem _ hright)
          rw [hattached.operandChars_eq hinner hoperator (hlike.trans hsame.symm)] at hjoined
          have hnode := Writes.mk hlegible hflat ⟨first, second, others, rfl⟩ (chars_operands hinner hlegible)
          rw [attach_operator hinner hsame, hnode.operandChars_eq hmem hinner hsame, chainChars,
            ← operandChars_front hmem hinner hsame]
          simpa using hjoined
      · exact attaches_of_not_binds hmem hfixity hleft hleftFlat hlegible hflat hbinds
  | _ =>
      refine attaches_of_not_binds hmem hfixity hleft hleftFlat hlegible hflat fun hbinds => ?_
      obtain ⟨_, _, _, _, _, _, _, heq⟩ := hbinds
      cases heq

end Attach

/-- What an operator is read as behind an operand has the text of both. -/
theorem writes_behind (hmem : keyword ∈ keywords) (hfixity : keyword.fixity = .between)
    (hleft : Legible left) (hleftFlat : left.Flat) (hright : Legible right) (hrightFlat : right.Flat) :
    Writes keyword (behind keyword left right) (operandChars keyword.operation 0 left ++ behindChars keyword right) := by
  rw [behind]
  split
  · rename_i h
    obtain ⟨hcommutative, happlication⟩ := h
    obtain ⟨inner, -, -, hinner, hwrites⟩ := attaches hmem hfixity hleft hleftFlat hright hrightFlat
    rw [hinner happlication] at hwrites
    obtain ⟨args, rfl⟩ := Node.isApplicationOf_iff.mp happlication
    rwa [behindChars, operandChars_chain hmem hcommutative hright, ← operandChars_chain hmem hcommutative hright 0]
  · rename_i h
    exact writes_join hmem hfixity hleft hleftFlat hright hrightFlat fun hcommutative =>
      Bool.eq_false_iff.mpr fun happlication => h ⟨hcommutative, happlication⟩

/-! ### The text that is read -/

/-- What a node is read as is flat, and it has the text of the node. -/
structure RereadAs (node other : Node) : Prop where
  legible : Legible other
  flat : other.Flat
  chars_eq : chars other = chars node
  alike : Alike other node

theorem RereadAs.operandChars_eq {other : Node} (h : RereadAs node other) (parent : String) (position : Nat) :
    operandChars parent position other = operandChars parent position node := by
  rw [operandChars, operandChars, h.alike, h.chars_eq]

theorem listChars_reread {nodes : List Node} (h : ∀ node ∈ nodes, RereadAs node (reread node)) :
    listChars (nodes.map reread) = listChars nodes := by
  rw [listChars, listChars, List.map_map]
  exact congrArg _ (List.map_congr_left fun node hnode => (h node hnode).chars_eq)

theorem rereadAs_reread (h : Legible node) : RereadAs node (reread node) := by
  induction h using Legible.inductionOn with
  | integer value => exact ⟨.integer value, Node.everywhere_number.mpr trivial, rfl, fun _ _ => rfl⟩
  | boolean value => exact ⟨.boolean value, Node.everywhere_boolean.mpr trivial, rfl, fun _ _ => rfl⟩
  | symbol hword hfree => exact ⟨.symbol hword hfree, Node.everywhere_symbol.mpr trivial, rfl, fun _ _ => rfl⟩
  | pair _ _ ihfirst ihsecond =>
      refine ⟨.pair ihfirst.legible ihsecond.legible,
        Node.everywhere_pair.mpr ⟨trivial, ihfirst.flat, ihsecond.flat⟩, ?_, fun _ _ => rfl⟩
      rw [reread, chars_pair, chars_pair, ihfirst.chars_eq, ihsecond.chars_eq]
  | sequence _ ih =>
      rw [reread, rereadAll_eq_map]
      refine ⟨.sequence (List.forall_mem_map.mpr fun node hnode => (ih node hnode).legible),
        Node.everywhere_sequence.mpr ⟨trivial, List.forall_mem_map.mpr fun node hnode => (ih node hnode).flat⟩, ?_,
        fun _ _ => rfl⟩
      rw [chars_sequence, chars_sequence, listChars_reread ih]
  | @call name args hword hname hargs ih =>
      have hstep : reread (.application name args) = .application name (args.map reread) := by
        rw [reread, rereadAll_eq_map, hname]
      rw [hstep]
      refine ⟨.call hword hname (List.forall_mem_map.mpr fun node hnode => (ih node hnode).legible), ?_, ?_,
        alike_application (by rw [List.length_map])⟩
      · rw [Node.flat_application (Builtin.isCommutative_eq_false_of_writing? hname)]
        exact List.forall_mem_map.mpr fun node hnode => (ih node hnode).flat
      · rw [chars_call hname, chars_call hname, listChars_reread ih]
  | @between keyword first second others hmem hfixity hlong hlegible ih =>
      have hstep : reread (.application keyword.operation (first :: second :: others)) =
          (reread second :: others.map reread).foldl (behind keyword) (reread first) := by
        rw [reread, rereadAll_eq_map, Builtin.writing?_standard hmem, List.map_cons, List.map_cons]
      have hfirst := ih first (by simp)
      have hwrites : Writes keyword ((reread second :: others.map reread).foldl (behind keyword) (reread first))
          (operandChars keyword.operation 0 (reread first) ++
            ((second :: others).map reread).flatMap (behindChars keyword)) := by
        refine writes_foldl hmem (behind keyword) hfirst.legible hfirst.flat ?_
        refine List.forall_mem_map (l := second :: others).mpr fun right hright left hleft hleftFlat => ?_
        have hreread := ih right (List.mem_cons_of_mem _ hright)
        exact writes_behind hmem hfixity hleft hleftFlat hreread.legible hreread.flat
      have htext : operandChars keyword.operation 0 (reread first) ++
          ((second :: others).map reread).flatMap (behindChars keyword) =
            chainChars keyword 0 (first :: second :: others) := by
        rw [hfirst.operandChars_eq, List.flatMap_map, chainChars]
        congr 1
        refine List.flatMap_congr fun arg harg => ?_
        rw [behindChars, (ih arg (List.mem_cons_of_mem _ harg)).operandChars_eq, ← behindChars]
      rw [hstep]
      refine ⟨hwrites.legible, hwrites.flat, ?_, ?_⟩
      · rw [hwrites.chars_eq, htext, chars_between hmem hfixity hlong]
      · obtain ⟨_, _, _, hoperands⟩ := hwrites.operands
        rw [hoperands]
        exact alike_application (by simp)
  | @unary keyword arg hmem hfixity hlegible ih =>
      have hstep : reread (.application keyword.operation [arg]) = .application keyword.operation [reread arg] := by
        rw [reread, rereadAll_eq_map, Builtin.writing?_standard hmem]
        rfl
      obtain ⟨front, back, htext⟩ := chars_beside hmem hfixity
      rw [hstep]
      refine ⟨.unary hmem hfixity ih.legible, ?_, ?_, alike_application (by simp)⟩
      · rw [Node.flat_application (Builtin.isCommutative_eq_false hmem hfixity)]
        exact List.forall_mem_singleton.mpr ih.flat
      · rw [htext, htext, ih.operandChars_eq]

end Reading

end SymbolicAlgebra
