import Mathlib.Algebra.BigOperators.Ring.List
import SymbolicAlgebra.Proofs.Exact
import SymbolicAlgebra.Proofs.Operators

/-! Normal forms of sums, products and connectives. The literals among the leaves of such a tree make one
value, the other leaves are sorted, and the literal of the value stands in front of them unless it
changes nothing; a value that absorbs everything is all there is. Lists that have the same value and the
same other nodes, or a common value that absorbs, are alike, and what is alike has one normal form. -/

namespace SymbolicAlgebra

/-- The literal of a value. -/
def Value.node : Value → Node
  | .integer x => .integer x
  | .boolean p => .boolean p

/-- The value of a literal of the given type. -/
def Node.literal? : ValueType → Node → Option Value
  | .integer, .number a => a.toInt?.map .integer
  | .boolean, .boolean p => some (.boolean p)
  | _, _ => none

namespace Chain

/-- The value that makes up the value of a chain on its own. A sum has none. -/
def absorbing? : String → Option Value
  | "*" => some (.integer 0)
  | "and" => some (.boolean false)
  | "or" => some (.boolean true)
  | _ => none

/-- The values of the literals among the nodes. -/
def literals (τ : ValueType) (nodes : List Node) : List Value :=
  nodes.filterMap (Node.literal? τ)

/-- The value of all literals among the nodes. -/
def total (name : String) (τ : ValueType) (nodes : List Node) : Value :=
  .apply name (literals τ nodes)

/-- The nodes that are no literals. -/
def residue (τ : ValueType) (nodes : List Node) : List Node :=
  nodes.filter fun node => (node.literal? τ).isNone

/-- What is left of a chain with these leaves: the literal of the value alone where the value absorbs
or there is nothing else, and otherwise the other leaves, behind the literal if that changes
anything. -/
def normalArgs (name : String) (τ : ValueType) (leaves : List Node) : List Node :=
  let value := total name τ leaves
  let rest := Node.sort (residue τ leaves)
  if absorbing? name = some value ∨ rest = [] then [value.node]
  else if value = .apply name [] then rest
  else value.node :: rest

/-- A single node as it is, and several as an application. -/
def bundle (name : String) : List Node → Node
  | [node] => node
  | nodes => .application name nodes

/-- The normal form of a chain with these leaves. -/
def normalForm (name : String) (τ : ValueType) (leaves : List Node) : Node :=
  bundle name (normalArgs name τ leaves)

/-! ### Literals -/

theorem literal?_node (v : Value) : v.node.literal? v.type = some v := by
  cases v with
  | integer x =>
      show (Number.ofInt x).toInt?.map Value.integer = _
      rw [Number.toInt?_ofInt]
      rfl
  | boolean p => rfl

section Literals

variable {name : String} {τ : ValueType} {xs ys : List Node}

/-- An exact node that has a value is the literal of this value. -/
theorem eq_node_of_literal? {node : Node} (hexact : node.Exact) {v : Value}
    (h : node.literal? τ = some v) : node = v.node ∧ v.type = τ := by
  cases τ with
  | integer =>
      cases node with
      | number a =>
          obtain ⟨x, rfl⟩ := Number.exact_iff.mp (Node.exact_number.mp hexact)
          rw [Node.literal?, Number.toInt?_ofInt] at h
          cases h
          exact ⟨rfl, rfl⟩
      | _ => cases h
  | boolean =>
      cases node with
      | boolean p =>
          cases h
          exact ⟨rfl, rfl⟩
      | _ => cases h

theorem type_of_mem_literals (hexact : ∀ node ∈ xs, node.Exact) {v : Value} (hv : v ∈ literals τ xs) :
    v.type = τ := by
  obtain ⟨node, hnode, hvalue⟩ := List.mem_filterMap.mp hv
  exact (eq_node_of_literal? (hexact node hnode) hvalue).2

theorem mem_residue {node : Node} : node ∈ residue τ xs ↔ node ∈ xs ∧ node.literal? τ = none := by
  rw [residue, List.mem_filter, Option.isNone_iff_eq_none]

theorem residue_of_no_literals (h : literals τ xs = []) : residue τ xs = xs := by
  refine List.filter_eq_self.mpr fun node hnode => ?_
  rw [List.filterMap_eq_nil_iff.mp h node hnode]
  rfl

/-- Up to its order, an exact list is its literals and the other nodes. -/
theorem perm_literals_append_residue (τ : ValueType) (hexact : ∀ node ∈ xs, node.Exact) :
    xs.Perm ((literals τ xs).map Value.node ++ residue τ xs) := by
  induction xs with
  | nil => exact .refl []
  | cons node rest ih =>
      rw [List.forall_mem_cons] at hexact
      have hrest := ih hexact.2
      cases hvalue : node.literal? τ with
      | none =>
          have hother : residue τ (node :: rest) = node :: residue τ rest :=
            List.filter_cons_of_pos (by rw [hvalue]; rfl)
          rw [literals, List.filterMap_cons_none hvalue, ← literals, hother]
          exact (hrest.cons node).trans List.perm_middle.symm
      | some v =>
          have hother : residue τ (node :: rest) = residue τ rest :=
            List.filter_cons_of_neg (by simp [hvalue])
          rw [literals, List.filterMap_cons_some hvalue, ← literals, hother,
            (eq_node_of_literal? hexact.1 hvalue).1]
          exact hrest.cons _

theorem weight_map_node (values : List Value) : Node.weight (values.map Value.node) = values.length := by
  induction values with
  | nil => rfl
  | cons v rest ih =>
      rw [List.map_cons, Node.weight, ih, List.length_cons]
      cases v <;> exact Nat.add_comm 1 _

theorem weight_eq (τ : ValueType) (hexact : ∀ node ∈ xs, node.Exact) :
    Node.weight xs = (literals τ xs).length + Node.weight (residue τ xs) := by
  rw [weight_perm (perm_literals_append_residue τ hexact), Node.weight_append, weight_map_node]

end Literals

/-! ### Values -/

section Values

variable {name : String} {τ : ValueType} (hchain : (name, τ) ∈ chainTypes)
include hchain

theorem type_apply (values : List Value) : (Value.apply name values).type = τ := by
  rcases chain_cases hchain with ⟨rfl, rfl⟩ | ⟨rfl, rfl⟩ | ⟨rfl, rfl⟩ | ⟨rfl, rfl⟩ <;> rfl

/-- The value of a single literal is its own. -/
theorem apply_singleton {v : Value} (hv : v.type = τ) : Value.apply name [v] = v := by
  rcases chain_cases hchain with ⟨rfl, rfl⟩ | ⟨rfl, rfl⟩ | ⟨rfl, rfl⟩ | ⟨rfl, rfl⟩ <;>
    cases v <;> cases hv <;> simp [Value.apply, Value.toInt, Value.toBool]

/-- What absorbs does so from both sides. -/
theorem apply_absorbing {z : Value} (hz : absorbing? name = some z) (v : Value) :
    Value.apply name [z, v] = z ∧ Value.apply name [v, z] = z := by
  rcases chain_cases hchain with ⟨rfl, rfl⟩ | ⟨rfl, rfl⟩ | ⟨rfl, rfl⟩ | ⟨rfl, rfl⟩ <;> cases hz <;>
    simp [Value.apply, Value.toInt, Value.toBool]

theorem absorbing?_ne_unit : absorbing? name ≠ some (.apply name []) := by
  rcases chain_cases hchain with ⟨rfl, rfl⟩ | ⟨rfl, rfl⟩ | ⟨rfl, rfl⟩ | ⟨rfl, rfl⟩ <;> decide

/-- A boolean in a connective absorbs or changes nothing. -/
theorem absorbs_or_unit_of_boolean {p : Bool} (hp : (Value.boolean p).type = τ) :
    absorbing? name = some (.boolean p) ∨ Value.boolean p = .apply name [] := by
  rcases chain_cases hchain with ⟨rfl, rfl⟩ | ⟨rfl, rfl⟩ | ⟨rfl, rfl⟩ | ⟨rfl, rfl⟩ <;> cases hp <;>
    cases p <;> decide

theorem total_append (xs ys : List Node) :
    total name τ (xs ++ ys) = .apply name [total name τ xs, total name τ ys] := by
  rw [total, literals, List.filterMap_append, Value.apply_append hchain]
  rfl

theorem total_perm {xs ys : List Node} (hperm : xs.Perm ys) : total name τ xs = total name τ ys :=
  Value.apply_perm hchain (hperm.filterMap _)

/-- The value of a chain absorbs exactly if one of its literals does. -/
theorem total_eq_absorbing_iff {xs : List Node} (hexact : ∀ node ∈ xs, node.Exact) {z : Value}
    (hz : absorbing? name = some z) : total name τ xs = z ↔ z.node ∈ xs := by
  have hmem : z ∈ literals τ xs ↔ z.node ∈ xs := by
    have htype : z.type = τ := by
      rcases chain_cases hchain with ⟨rfl, rfl⟩ | ⟨rfl, rfl⟩ | ⟨rfl, rfl⟩ | ⟨rfl, rfl⟩ <;> cases hz <;> rfl
    refine ⟨fun h => ?_, fun h => List.mem_filterMap.mpr ⟨z.node, h, htype ▸ literal?_node z⟩⟩
    obtain ⟨node, hnode, hvalue⟩ := List.mem_filterMap.mp h
    exact (eq_node_of_literal? (hexact node hnode) hvalue).1 ▸ hnode
  have htypes (v : Value) (hv : v ∈ literals τ xs) : v.type = τ := type_of_mem_literals hexact hv
  rw [← hmem, total]
  clear hmem
  generalize literals τ xs = values at htypes ⊢
  rcases chain_cases hchain with ⟨rfl, rfl⟩ | ⟨rfl, rfl⟩ | ⟨rfl, rfl⟩ | ⟨rfl, rfl⟩ <;> cases hz
  · rw [Value.apply, Value.integer.injEq, List.prod_eq_zero_iff, List.mem_map]
    constructor
    · rintro ⟨v, hv, hzero⟩
      rwa [Value.eq_integer (htypes v hv), hzero] at hv
    · exact fun h => ⟨_, h, rfl⟩
  · rw [Value.apply, Value.boolean.injEq, List.all_eq_false]
    constructor
    · rintro ⟨v, hv, hfalse⟩
      rwa [Value.eq_boolean (htypes v hv), Bool.eq_false_iff.mpr hfalse] at hv
    · exact fun h => ⟨_, h, Bool.false_ne_true⟩
  · rw [Value.apply, Value.boolean.injEq, List.any_eq_true]
    constructor
    · rintro ⟨v, hv, htrue⟩
      rwa [Value.eq_boolean (htypes v hv), htrue] at hv
    · exact fun h => ⟨_, h, rfl⟩

theorem literal?_total (xs : List Node) :
    (total name τ xs).node.literal? τ = some (total name τ xs) := by
  have htype : (total name τ xs).type = τ := type_apply hchain _
  have hliteral := literal?_node (total name τ xs)
  rwa [htype] at hliteral

end Values

/-! ### Lists that are alike -/

/-- The literals make the same value, and the other nodes are the same up to their order or do not
matter. -/
def Alike (name : String) (τ : ValueType) (xs ys : List Node) : Prop :=
  total name τ xs = total name τ ys ∧
    (absorbing? name = some (total name τ xs) ∨ (residue τ xs).Perm (residue τ ys))

section Alike

variable {name : String} {τ : ValueType} {xs ys zs : List Node}

theorem Alike.refl (xs : List Node) : Alike name τ xs xs :=
  ⟨rfl, .inr (.refl _)⟩

theorem Alike.symm (h : Alike name τ xs ys) : Alike name τ ys xs :=
  ⟨h.1.symm, h.2.imp (h.1 ▸ ·) List.Perm.symm⟩

theorem Alike.trans (h : Alike name τ xs ys) (h' : Alike name τ ys zs) : Alike name τ xs zs := by
  refine ⟨h.1.trans h'.1, ?_⟩
  rcases h.2 with habsorbing | hperm
  · exact .inl habsorbing
  · exact h'.2.imp (h.1 ▸ ·) hperm.trans

/-- Of lists that are alike the same is left. -/
theorem Alike.normalArgs_eq (h : Alike name τ xs ys) (hexact : ∀ node ∈ xs, node.Exact) :
    normalArgs name τ xs = normalArgs name τ ys := by
  obtain ⟨htotal, habsorbing | hperm⟩ := h
  · simp only [normalArgs, ← htotal]
    rw [if_pos (.inl habsorbing), if_pos (.inl habsorbing)]
  · have hsorted : Node.sort (residue τ xs) = Node.sort (residue τ ys) :=
      Node.sort_eq_of_perm (fun node hnode => hexact node (List.mem_of_mem_filter hnode)) hperm
    rw [normalArgs, htotal, hsorted]
    rfl

theorem Alike.normalForm_eq (h : Alike name τ xs ys) (hexact : ∀ node ∈ xs, node.Exact) :
    normalForm name τ xs = normalForm name τ ys :=
  congrArg (bundle name) (h.normalArgs_eq hexact)

variable (hchain : (name, τ) ∈ chainTypes)
include hchain

theorem alike_of_perm (hperm : xs.Perm ys) : Alike name τ xs ys :=
  ⟨total_perm hchain hperm, .inr (hperm.filter _)⟩

theorem Alike.append {xs' ys' : List Node} (h : Alike name τ xs ys) (h' : Alike name τ xs' ys') :
    Alike name τ (xs ++ xs') (ys ++ ys') := by
  refine ⟨by rw [total_append hchain, total_append hchain, h.1, h'.1], ?_⟩
  rw [total_append hchain]
  rcases h.2 with habsorbing | hperm
  · rw [(apply_absorbing hchain habsorbing _).1]
    exact .inl habsorbing
  · rcases h'.2 with habsorbing | hperm'
    · rw [(apply_absorbing hchain habsorbing _).2]
      exact .inl habsorbing
    · right
      rw [residue, residue, List.filter_append, List.filter_append]
      exact hperm.append hperm'

/-- Behind a value that absorbs nothing matters. -/
theorem alike_append_of_absorbing (habsorbing : absorbing? name = some (total name τ xs))
    (ys zs : List Node) :
    Alike name τ (xs ++ ys) (xs ++ zs) := by
  have htotal (ys : List Node) : total name τ (xs ++ ys) = total name τ xs := by
    rw [total_append hchain, (apply_absorbing hchain habsorbing _).1]
  refine ⟨(htotal ys).trans (htotal zs).symm, .inl ?_⟩
  rwa [htotal]

/-- What is alike part by part is alike as a whole. -/
theorem alike_flatMap {α : Type} {parts : List α} {f g : α → List Node}
    (h : ∀ part ∈ parts, Alike name τ (f part) (g part)) :
    Alike name τ (parts.flatMap f) (parts.flatMap g) := by
  induction parts with
  | nil => exact .refl []
  | cons part rest ih =>
      rw [List.forall_mem_cons] at h
      rw [List.flatMap_cons, List.flatMap_cons]
      exact h.1.append hchain (ih h.2)

omit hchain in
/-- Among nodes that are no literals there is none. -/
theorem literals_of_perm_residue {rest : List Node} (hrest : rest.Perm (residue τ xs)) :
    literals τ rest = [] ∧ residue τ rest = rest := by
  have hnone : literals τ rest = [] :=
    List.filterMap_eq_nil_iff.mpr fun node hnode => (mem_residue.mp (hrest.mem_iff.mp hnode)).2
  exact ⟨hnone, residue_of_no_literals hnone⟩

theorem total_gathered {rest : List Node} (hrest : literals τ rest = []) :
    total name τ ((total name τ xs).node :: rest) = total name τ xs := by
  rw [total, literals, List.filterMap_cons_some (literal?_total hchain xs), ← literals, hrest]
  exact apply_singleton hchain (type_apply hchain _)

/-- The literals of a list may be taken together. -/
theorem alike_gathered {rest : List Node} (hrest : rest.Perm (residue τ xs)) :
    Alike name τ ((total name τ xs).node :: rest) xs := by
  obtain ⟨hliterals, hresidue⟩ := literals_of_perm_residue hrest
  refine ⟨total_gathered hchain hliterals, .inr ?_⟩
  rw [residue, List.filter_cons_of_neg (by simp [literal?_total hchain xs]), ← residue, hresidue]
  exact hrest

/-- The literals of a list stay together while its other nodes give way to lists. -/
theorem alike_literals_append (hexact : ∀ node ∈ xs, node.Exact) {g : Node → List Node}
    (hg : ∀ v : Value, g v.node = [v.node]) :
    Alike name τ (xs.flatMap g) ((total name τ xs).node :: (residue τ xs).flatMap g) := by
  have hliterals : ((literals τ xs).map Value.node).flatMap g = (literals τ xs).map Value.node := by
    rw [List.flatMap_map, List.flatMap_congr fun v _ => hg v, List.map_eq_flatMap]
  have hvalues : literals τ ((literals τ xs).map Value.node) = literals τ xs := by
    rw [literals, List.filterMap_map]
    refine (List.filterMap_congr fun v hv => ?_).trans List.filterMap_some
    rw [← type_of_mem_literals hexact hv]
    exact literal?_node v
  have hnone : residue τ ((literals τ xs).map Value.node) = [] := by
    refine List.filter_eq_nil_iff.mpr ?_
    rw [List.forall_mem_map]
    intro v hv
    rw [← type_of_mem_literals hexact hv, literal?_node]
    exact Bool.false_ne_true
  have htogether : Alike name τ ((literals τ xs).map Value.node) [(total name τ xs).node] := by
    refine ⟨?_, .inr ?_⟩
    · rw [total_gathered hchain rfl, total, hvalues]
      rfl
    · rw [hnone, residue, List.filter_cons_of_neg (by simp [literal?_total hchain xs])]
      exact .refl []
  have hperm := (perm_literals_append_residue τ hexact).flatMap_right g
  rw [List.flatMap_append, hliterals] at hperm
  exact (alike_of_perm hchain hperm).trans (htogether.append hchain (.refl _))

/-- Lists that are alike stay so when their nodes other than literals give way to lists. -/
theorem Alike.flatMap (h : Alike name τ xs ys) (hxs : ∀ node ∈ xs, node.Exact) (hys : ∀ node ∈ ys, node.Exact)
    {g : Node → List Node} (hg : ∀ v : Value, g v.node = [v.node]) :
    Alike name τ (xs.flatMap g) (ys.flatMap g) := by
  refine (alike_literals_append hchain hxs hg).trans (.trans ?_ (alike_literals_append hchain hys hg).symm)
  rw [← h.1]
  rcases h.2 with habsorbing | hperm
  · have hliteral : total name τ [(total name τ xs).node] = total name τ xs := total_gathered hchain rfl
    rw [← hliteral] at habsorbing
    exact alike_append_of_absorbing hchain habsorbing _ _
  · exact Alike.append hchain (.refl [_]) (alike_of_perm hchain (hperm.flatMap_right g))

end Alike

/-! ### What is left -/

section NormalArgs

variable {name : String} {τ : ValueType} {xs : List Node}

theorem normalArgs_ne_nil : normalArgs name τ xs ≠ [] := by
  rw [normalArgs]
  split
  · exact List.cons_ne_nil _ _
  · rename_i hmore
    split
    · exact fun hnil => hmore (.inr hnil)
    · exact List.cons_ne_nil _ _

/-- What is left is a literal or was there before. -/
theorem mem_normalArgs {node : Node} (h : node ∈ normalArgs name τ xs) :
    node ∈ xs ∨ node = (total name τ xs).node := by
  have hrest (hnode : node ∈ Node.sort (residue τ xs)) : node ∈ xs :=
    (mem_residue.mp ((Node.sort_perm _).mem_iff.mp hnode)).1
  rw [normalArgs] at h
  split at h
  · exact .inr (List.mem_singleton.mp h)
  · split at h
    · exact .inl (hrest h)
    · rcases List.mem_cons.mp h with hnode | hnode
      · exact .inr hnode
      · exact .inl (hrest hnode)

theorem bundle_of_two_le {nodes : List Node} (hlength : 2 ≤ nodes.length) :
    bundle name nodes = .application name nodes := by
  match nodes with
  | [] => cases hlength
  | [_] => exact absurd hlength (by simp)
  | _ :: _ :: _ => rfl

theorem inlined_bundle {nodes : List Node} (hnonempty : nodes ≠ [])
    (hflat : ∀ node ∈ nodes, isApplicationOf name node = false) :
    inlined name (bundle name nodes) = nodes := by
  match nodes with
  | [] => exact (hnonempty rfl).elim
  | [node] => exact inlined_of_not_isApplicationOf (hflat node List.mem_cons_self)
  | _ :: _ :: _ => rw [bundle_of_two_le (by simp), inlined, if_pos rfl]

theorem complexity_bundle_le (name : String) (nodes : List Node) :
    (bundle name nodes).complexity ≤ 1 + Node.weight nodes := by
  match nodes with
  | [] => exact Nat.le_refl 1
  | [node] =>
      rw [bundle, Node.weight]
      omega
  | _ :: _ :: _ => rw [bundle_of_two_le (by simp), Node.complexity]

variable (hchain : (name, τ) ∈ chainTypes)
include hchain

theorem alike_normalArgs (xs : List Node) : Alike name τ (normalArgs name τ xs) xs := by
  have hsort := Node.sort_perm (residue τ xs)
  have hgathered := alike_gathered hchain hsort
  obtain ⟨hliterals, hresidue⟩ := literals_of_perm_residue hsort
  rw [normalArgs]
  split
  · rename_i h
    rcases h with habsorbing | hnil
    · have htotal : total name τ [(total name τ xs).node] = total name τ xs := total_gathered hchain rfl
      exact ⟨htotal, .inl (by rwa [htotal])⟩
    · rwa [hnil] at hgathered
  · split
    · rename_i hunit
      refine ⟨?_, .inr (by rwa [hresidue])⟩
      rw [total, hliterals, hunit]
    · exact hgathered

omit hchain in
theorem normalArgs_of_no_literals (hname : absorbing? name ≠ some (.apply name [])) (hnonempty : xs ≠ [])
    (hliterals : literals τ xs = []) : normalArgs name τ xs = Node.sort xs := by
  have hsort : Node.sort xs ≠ [] := fun hnil => hnonempty (List.nil_perm.mp (hnil ▸ Node.sort_perm xs))
  rw [normalArgs, total, hliterals, residue_of_no_literals hliterals]
  rw [if_neg (not_or.mpr ⟨hname, hsort⟩), if_pos rfl]

/-- A single exact node is left as it is. -/
theorem normalArgs_singleton {node : Node} (hexact : node.Exact) : normalArgs name τ [node] = [node] := by
  cases hvalue : node.literal? τ with
  | none =>
      exact normalArgs_of_no_literals (absorbing?_ne_unit hchain) (List.cons_ne_nil _ _)
        (List.filterMap_cons_none hvalue)
  | some v =>
      obtain ⟨rfl, htype⟩ := eq_node_of_literal? hexact hvalue
      have hresidue : residue τ [v.node] = [] := List.filter_cons_of_neg (by simp [hvalue])
      have htotal : total name τ [v.node] = v := by
        rw [total, literals, List.filterMap_cons_some hvalue]
        exact apply_singleton hchain htype
      rw [normalArgs, htotal, hresidue]
      exact if_pos (.inr rfl)

/-- An absorbing literal among the leaves is all that is left. -/
theorem normalForm_of_absorbing (hexact : ∀ node ∈ xs, node.Exact) {z : Value} (hz : absorbing? name = some z)
    (hmem : z.node ∈ xs) : normalForm name τ xs = z.node := by
  rw [normalForm, normalArgs, (total_eq_absorbing_iff hchain hexact hz).mpr hmem, if_pos (.inl hz)]
  rfl

theorem normalForm_singleton {node : Node} (hexact : node.Exact) : normalForm name τ [node] = node := by
  rw [normalForm, normalArgs_singleton hchain hexact]
  rfl

end NormalArgs

/-! ### What nothing can be done with -/

/-- At most one of the nodes is a literal, and it neither absorbs nor changes nothing. -/
def Inert (name : String) (τ : ValueType) (nodes : List Node) : Prop :=
  (literals τ nodes).length ≤ 1 ∧ ∀ v ∈ literals τ nodes, absorbing? name ≠ some v ∧ v ≠ .apply name []

section Inert

variable {name : String} {τ : ValueType} {xs : List Node}

/-- There is at most one literal if there is in any two nodes. -/
theorem length_literals_le_one (h : xs.Pairwise fun a b => (literals τ [a, b]).length ≤ 1) :
    (literals τ xs).length ≤ 1 := by
  have hpair {a b : Node} {v w : Value} (ha : a.literal? τ = some v) (hb : b.literal? τ = some w) :
      ¬(literals τ [a, b]).length ≤ 1 := by
    rw [literals, List.filterMap_cons_some ha, List.filterMap_cons_some hb]
    simp
  have hnone : (literals τ xs).Pairwise fun _ _ => False :=
    h.filterMap _ fun a b hfew v hv w hw => hpair hv hw hfew
  match literals τ xs, hnone with
  | [], _ => exact Nat.zero_le 1
  | [_], _ => exact Nat.le_refl 1
  | _ :: _ :: _, hnone => exact (List.rel_of_pairwise_cons hnone List.mem_cons_self).elim

/-- A list is inert if any two of its nodes are. -/
theorem inert_of_pairwise (hlength : 2 ≤ xs.length) (h : xs.Pairwise fun a b => Inert name τ [a, b]) :
    Inert name τ xs := by
  constructor
  · exact length_literals_le_one (h.imp And.left)
  · intro v hv
    obtain ⟨node, hnode, hvalue⟩ := List.mem_filterMap.mp hv
    obtain ⟨a, b, hinert, hmem⟩ : ∃ a b, Inert name τ [a, b] ∧ node ∈ [a, b] := by
      match xs, hlength, h, hnode with
      | a :: b :: rest, _, h, hnode =>
          rcases List.mem_cons.mp hnode with rfl | hbehind
          · exact ⟨_, b, List.rel_of_pairwise_cons h List.mem_cons_self, by simp⟩
          · exact ⟨a, node, List.rel_of_pairwise_cons h hbehind, by simp⟩
    exact hinert.2 v (List.mem_filterMap.mpr ⟨node, hmem, hvalue⟩)

/-- An integer literal comes before everything that is none. -/
theorem order_literal {x : Int} {node : Node} (hexact : node.Exact) (hnone : node.literal? .integer = none) :
    (Node.order (Value.integer x).node node).isLE := by
  cases node with
  | number a =>
      obtain ⟨y, rfl⟩ := Number.exact_iff.mp (Node.exact_number.mp hexact)
      rw [Node.literal?, Number.toInt?_ofInt] at hnone
      cases hnone
  | _ => rfl

variable (hchain : (name, τ) ∈ chainTypes) (hexact : ∀ node ∈ xs, node.Exact)
include hchain hexact

theorem total_of_single_literal {v : Value} (hliterals : literals τ xs = [v]) :
    total name τ xs = v ∧ v.type = τ := by
  have htype := type_of_mem_literals hexact (hliterals ▸ List.mem_cons_self)
  refine ⟨?_, htype⟩
  rw [total, hliterals]
  exact apply_singleton hchain htype

/-- Inert lists in their order are normal. A literal in one is an integer, since booleans absorb or change
nothing, and comes first. -/
theorem normalArgs_of_inert (hsorted : Node.Sorted xs) (hnonempty : xs ≠ []) (h : Inert name τ xs) :
    normalArgs name τ xs = xs := by
  have hperm := perm_literals_append_residue τ hexact
  obtain ⟨hfew, hinert⟩ := h
  match hliterals : literals τ xs with
  | [] =>
      rw [normalArgs_of_no_literals (absorbing?_ne_unit hchain) hnonempty hliterals]
      exact Node.sort_of_sorted hsorted
  | [v] =>
      obtain ⟨htotal, htype⟩ := total_of_single_literal hchain hexact hliterals
      obtain ⟨hnotAbsorbing, hnotUnit⟩ := hinert v (hliterals ▸ List.mem_cons_self)
      have hfirst : ∀ node ∈ residue τ xs, (Node.order v.node node).isLE := by
        intro node hnode
        obtain ⟨hmem, hnone⟩ := mem_residue.mp hnode
        cases v with
        | boolean p =>
            rcases absorbs_or_unit_of_boolean hchain htype with habsorbing | hunit
            · exact (hnotAbsorbing habsorbing).elim
            · exact (hnotUnit hunit).elim
        | integer x =>
            cases htype
            exact order_literal (hexact node hmem) hnone
      have hsort := Node.sort_perm (residue τ xs)
      have hsame : xs = v.node :: Node.sort (residue τ xs) := by
        refine Node.eq_of_sorted_of_perm hexact hsorted ?_ ?_
        · exact Node.sorted_cons (Node.sorted_sort _) fun node hnode =>
            hfirst node (hsort.mem_iff.mp hnode)
        · rw [hliterals] at hperm
          exact hperm.trans (hsort.symm.cons _)
      rw [normalArgs, htotal]
      split
      · rename_i h
        rcases h with habsorbing | hnil
        · exact (hnotAbsorbing habsorbing).elim
        · rw [hnil] at hsame
          exact hsame.symm
      · exact hsame.symm
  | _ :: _ :: _ => simp [hliterals] at hfew

/-- Where something can be done, less is left. -/
theorem weight_normalArgs_lt (hlength : 2 ≤ xs.length) (h : ¬Inert name τ xs) :
    Node.weight (normalArgs name τ xs) < Node.weight xs := by
  have hpositive := Node.length_le_weight xs
  have hweight := weight_eq τ hexact
  have hsort := weight_perm (Node.sort_perm (residue τ xs))
  have hliteral : Node.weight [(total name τ xs).node] = 1 := weight_map_node [total name τ xs]
  have hsome : 0 < (literals τ xs).length := by
    by_contra hnone
    have hnil : literals τ xs = [] := List.length_eq_zero_iff.mp (by omega)
    exact h ⟨by omega, by simp [hnil]⟩
  rw [normalArgs]
  split
  · omega
  · rename_i hmore
    split
    · omega
    · rename_i hnotUnit
      have hmany : 1 < (literals τ xs).length := by
        by_contra hfew
        obtain ⟨v, hliterals⟩ := List.length_eq_one_iff.mp (by omega : (literals τ xs).length = 1)
        have htotal := (total_of_single_literal hchain hexact hliterals).1
        rw [htotal] at hmore hnotUnit
        refine h ⟨by omega, ?_⟩
        rw [hliterals, List.forall_mem_singleton]
        exact ⟨fun habsorbing => hmore (.inl habsorbing), hnotUnit⟩
      rw [Node.weight] at hliteral ⊢
      rw [Node.weight] at hliteral
      omega

theorem complexity_normalForm_lt (hlength : 2 ≤ xs.length) (h : ¬Inert name τ xs) :
    (normalForm name τ xs).complexity < (Node.application name xs).complexity := by
  have hless := weight_normalArgs_lt hchain hexact hlength h
  have hbundle := complexity_bundle_le name (normalArgs name τ xs)
  rw [normalForm, Node.complexity]
  omega

end Inert

/-! ### Trees of one chain -/

mutual

/-- The leaves of a tree of applications of one name, from left to right. -/
def leaves (name : String) : Node → List Node
  | .application inner args => if inner = name then allLeaves name args else [.application inner args]
  | node => [node]

def allLeaves (name : String) : List Node → List Node
  | [] => []
  | node :: rest => leaves name node ++ allLeaves name rest

end

/-- Applications of one name with at least two arguments each, nested in any way, down to leaves. -/
inductive Tree (name : String) (Leaf : Node → Prop) : Node → Prop
  | leaf {node : Node} : isApplicationOf name node = false → Leaf node → Tree name Leaf node
  | branch {args : List Node} : 2 ≤ args.length → (∀ arg ∈ args, Tree name Leaf arg) →
      Tree name Leaf (.application name args)

section Tree

variable {name : String} {Leaf : Node → Prop}

theorem allLeaves_eq_flatMap (nodes : List Node) : allLeaves name nodes = nodes.flatMap (leaves name) := by
  induction nodes with
  | nil => rfl
  | cons node rest ih => rw [allLeaves, ih, List.flatMap_cons]

theorem leaves_application (args : List Node) :
    leaves name (.application name args) = args.flatMap (leaves name) := by
  rw [leaves, if_pos rfl, allLeaves_eq_flatMap]

theorem leaves_of_not_isApplicationOf {node : Node} (h : isApplicationOf name node = false) :
    leaves name node = [node] := by
  cases node with
  | application inner args =>
      rw [leaves, if_neg]
      rintro rfl
      simp [isApplicationOf, Node.applied?] at h
  | _ => rfl

/-- Nodes that are not taken apart are their own leaves. -/
theorem flatMap_leaves {nodes : List Node} (hflat : ∀ node ∈ nodes, isApplicationOf name node = false) :
    nodes.flatMap (leaves name) = nodes := by
  calc
    nodes.flatMap (leaves name) = nodes.flatMap fun node => [node] :=
      List.flatMap_congr fun node hnode => leaves_of_not_isApplicationOf (hflat node hnode)
    _ = nodes := List.flatMap_singleton' nodes

theorem leaves_bundle {nodes : List Node} (hnonempty : nodes ≠ [])
    (hflat : ∀ node ∈ nodes, isApplicationOf name node = false) :
    leaves name (bundle name nodes) = nodes := by
  match nodes with
  | [] => exact (hnonempty rfl).elim
  | [node] => exact leaves_of_not_isApplicationOf (hflat node List.mem_cons_self)
  | _ :: _ :: _ => rw [bundle_of_two_le (by simp), leaves_application, flatMap_leaves hflat]

/-- The leaves of a normal form are the arguments that are left. -/
theorem leaves_normalForm {τ : ValueType} {nodes : List Node}
    (hflat : ∀ node ∈ nodes, isApplicationOf name node = false) :
    leaves name (normalForm name τ nodes) = normalArgs name τ nodes := by
  refine leaves_bundle normalArgs_ne_nil fun node hnode => ?_
  rcases mem_normalArgs hnode with hmem | rfl
  · exact hflat node hmem
  · cases total name τ nodes <;> rfl

/-- The leaves of a tree are leaves. -/
theorem Tree.leaves {e : Node} (h : Tree name Leaf e) :
    ∀ node ∈ leaves name e, isApplicationOf name node = false ∧ Leaf node := by
  induction h with
  | leaf hflat hleaf =>
      rw [leaves_of_not_isApplicationOf hflat, List.forall_mem_singleton]
      exact ⟨hflat, hleaf⟩
  | branch _ _ ih =>
      rw [leaves_application, List.forall_mem_flatMap]
      exact ih

theorem Tree.imp {Other : Node → Prop}
    (himp : ∀ node, isApplicationOf name node = false → Leaf node → Other node) {e : Node}
    (h : Tree name Leaf e) : Tree name Other e := by
  induction h with
  | leaf hflat hleaf => exact .leaf hflat (himp _ hflat hleaf)
  | branch hlength _ ih => exact .branch hlength ih

end Tree

end Chain

end SymbolicAlgebra
