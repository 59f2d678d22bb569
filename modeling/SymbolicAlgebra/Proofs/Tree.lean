import SymbolicAlgebra.Node.Basic

/-! Induction on expressions. A property of all nodes is proved for the leaves, and for every other
node from its parts; the counterparts on lists of nodes are the functions of lists that they look
like. A property of every part of a node is one of the node itself and of every part of its own
parts. -/

namespace SymbolicAlgebra.Node

/-- Induction on a node, with the property known of all arguments or elements. -/
@[elab_as_elim]
theorem inductionOn {motive : Node → Prop} (node : Node)
    (number : ∀ value, motive (.number value))
    (symbol : ∀ name, motive (.symbol name))
    (boolean : ∀ value, motive (.boolean value))
    (application : ∀ name args, (∀ arg ∈ args, motive arg) → motive (.application name args))
    (pair : ∀ first second, motive first → motive second → motive (.pair first second))
    (sequence : ∀ elements, (∀ element ∈ elements, motive element) → motive (.sequence elements)) :
    motive node :=
  Node.rec (motive_2 := fun nodes => ∀ node ∈ nodes, motive node) number symbol boolean application
    pair sequence (fun _ hnode => (List.not_mem_nil hnode).elim)
    (fun _ _ hhead htail _ hnode => (List.mem_cons.mp hnode).elim (· ▸ hhead) (htail _)) node

theorem substituteAll_eq_map (image : String → Option Node) (nodes : List Node) :
    substituteAll image nodes = nodes.map (substitute image) := by
  induction nodes with
  | nil => rfl
  | cons node rest ih => rw [substituteAll, ih, List.map_cons]

theorem anyMentions_eq_any (name : String) (nodes : List Node) :
    anyMentions name nodes = nodes.any (mentions name) := by
  induction nodes with
  | nil => rfl
  | cons node rest ih => rw [anyMentions, ih, List.any_cons]

theorem allSubterms_eq_flatMap (nodes : List Node) : allSubterms nodes = nodes.flatMap subterms := by
  induction nodes with
  | nil => rfl
  | cons node rest ih => rw [allSubterms, ih, List.flatMap_cons]

/-- A symbol that is mentioned is one of the parts. -/
theorem mem_subterms_of_mentions {name : String} {node : Node} (h : node.mentions name) :
    .symbol name ∈ node.subterms := by
  induction node using inductionOn with
  | number value => cases h
  | boolean value => cases h
  | symbol other =>
      rw [mentions, beq_iff_eq] at h
      rw [h]
      exact List.mem_singleton_self _
  | application applied args ih =>
      rw [mentions, anyMentions_eq_any, List.any_eq_true] at h
      obtain ⟨arg, harg, hmentions⟩ := h
      rw [subterms, allSubterms_eq_flatMap]
      exact List.mem_cons_of_mem _ (List.mem_flatMap.mpr ⟨arg, harg, ih arg harg hmentions⟩)
  | pair first second ihfirst ihsecond =>
      rw [mentions, Bool.or_eq_true] at h
      rw [subterms]
      exact List.mem_cons_of_mem _ (List.mem_append.mpr (h.imp ihfirst ihsecond))
  | sequence elements ih =>
      rw [mentions, anyMentions_eq_any, List.any_eq_true] at h
      obtain ⟨element, helement, hmentions⟩ := h
      rw [subterms, allSubterms_eq_flatMap]
      exact List.mem_cons_of_mem _ (List.mem_flatMap.mpr ⟨element, helement, ih element helement hmentions⟩)

/-! ### Properties of all parts -/

/-- Every part of the node is in `p`, the node itself included. -/
def Everywhere (p : Node → Prop) (node : Node) : Prop :=
  ∀ part ∈ node.subterms, p part

section Everywhere

variable {p : Node → Prop}

theorem everywhere_number {value : Number} : (number value).Everywhere p ↔ p (.number value) :=
  List.forall_mem_singleton

theorem everywhere_boolean {value : Bool} : (boolean value).Everywhere p ↔ p (.boolean value) :=
  List.forall_mem_singleton

theorem everywhere_symbol {name : String} : (symbol name).Everywhere p ↔ p (.symbol name) :=
  List.forall_mem_singleton

theorem everywhere_application {name : String} {args : List Node} :
    (application name args).Everywhere p ↔
      p (.application name args) ∧ ∀ arg ∈ args, arg.Everywhere p := by
  rw [Everywhere, subterms, List.forall_mem_cons, allSubterms_eq_flatMap, List.forall_mem_flatMap]
  rfl

theorem everywhere_pair {first second : Node} :
    (pair first second).Everywhere p ↔
      p (.pair first second) ∧ first.Everywhere p ∧ second.Everywhere p := by
  rw [Everywhere, subterms, List.forall_mem_cons, List.forall_mem_append]
  rfl

theorem everywhere_sequence {elements : List Node} :
    (sequence elements).Everywhere p ↔
      p (.sequence elements) ∧ ∀ element ∈ elements, element.Everywhere p := by
  rw [Everywhere, subterms, List.forall_mem_cons, allSubterms_eq_flatMap, List.forall_mem_flatMap]
  rfl

theorem Everywhere.self {node : Node} (h : node.Everywhere p) : p node := by
  apply h
  cases node <;> simp [subterms]

end Everywhere

end SymbolicAlgebra.Node
