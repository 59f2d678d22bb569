import Mathlib.Data.List.Nodup
import Mathlib.Data.List.TakeWhile
import Mathlib.Logic.Function.Basic
import SymbolicAlgebra.Proofs.Registry

/-! Overload sets under updates. Whatever is registered and removed, the registry holds the overload sets
of a table that has an entry for the names with operations only, and no two operations of a name share a
signature. One registration changes where a call goes only if it goes to the registered operation from then
on: the operation accepts the call and nothing before it does, or it takes any arguments and nothing
accepts the call. -/

namespace SymbolicAlgebra

namespace Registry

/-- A change of the overload sets of a registry. -/
inductive Update where
  | register (operation : Operation)
  | remove (name : String) (signature : Signature)
  | removeAll (name : String)

/-- The registry after one update. -/
def updated (registry : Registry) : Update → Registry
  | .register operation => registry.register operation
  | .remove name signature => (registry.remove name signature).2
  | .removeAll name => (registry.removeAll name).2

/-- The registry that updates from left to right make of an empty one. -/
def after (updates : List Update) : Registry :=
  updates.foldl updated {}

/-- The overloads before the place that `operation` takes among them. -/
def preceding (operation : Operation) (overloads : List Operation) : List Operation :=
  overloads.takeWhile (·.signature != operation.signature)

/-- The overloads behind the place that `operation` takes among them. -/
def following (operation : Operation) (overloads : List Operation) : List Operation :=
  (overloads.dropWhile (·.signature != operation.signature)).tail

variable {registry : Registry} {operation : Operation} {name : String} {args : List Node}

theorem mem_overloads {other : Operation} :
    other ∈ registry.overloads name ↔ other ∈ registry.operations ∧ other.name = name := by
  rw [overloads, List.mem_filter, beq_iff_eq]

theorem contains_iff_overloads_ne_nil : registry.contains name ↔ registry.overloads name ≠ [] := by
  rw [contains, List.any_eq_true, overloads, ne_eq, List.filter_eq_nil_iff]
  push Not
  rfl

/-! ### One operation for a name and a signature -/

/-- What no two operations of a registry share. -/
def key (operation : Operation) : String × Signature :=
  (operation.name, operation.signature)

theorem denotes_iff_key_eq {other : Operation} :
    denotes operation.name operation.signature other ↔ key other = key operation := by
  rw [denotes, Bool.and_eq_true, beq_iff_eq, beq_iff_eq, key, key, Prod.mk.injEq]

/-- Replacing an operation keeps the keys as they are; a new key is the last one. -/
theorem map_key_enter (operation : Operation) (operations : List Operation) :
    (enter operation operations).map key =
      if key operation ∈ operations.map key then operations.map key
      else operations.map key ++ [key operation] := by
  induction operations with
  | nil => rfl
  | cons other rest ih =>
      rw [enter]
      by_cases hsame : key other = key operation
      · rw [if_pos (denotes_iff_key_eq.mpr hsame), List.map_cons, List.map_cons, hsame,
          if_pos List.mem_cons_self]
      · rw [if_neg fun h => hsame (denotes_iff_key_eq.mp h), List.map_cons, ih, List.map_cons]
        by_cases hmem : key operation ∈ rest.map key
        · rw [if_pos hmem, if_pos (List.mem_cons_of_mem _ hmem)]
        · have hnew : key operation ∉ key other :: rest.map key :=
            fun h => (List.mem_cons.mp h).elim (fun h => hsame h.symm) hmem
          rw [if_neg hmem, if_neg hnew, List.cons_append]

/-- No update puts two operations under one name and signature. -/
theorem nodup_key_updated (h : (registry.operations.map key).Nodup) (update : Update) :
    ((registry.updated update).operations.map key).Nodup := by
  cases update with
  | register operation =>
      show ((enter operation registry.operations).map key).Nodup
      rw [map_key_enter]
      split
      · exact h
      · rename_i hnew
        exact List.nodup_append.mpr ⟨h, List.nodup_singleton _, fun one hone another hanother heq =>
          hnew (List.mem_singleton.mp hanother ▸ heq ▸ hone)⟩
  | remove name signature => exact h.sublist (List.filter_sublist.map key)
  | removeAll name => exact h.sublist (List.filter_sublist.map key)

theorem nodup_key_after (updates : List Update) : ((after updates).operations.map key).Nodup := by
  suffices hrun : ∀ registry : Registry, (registry.operations.map key).Nodup →
      ((updates.foldl updated registry).operations.map key).Nodup from hrun {} List.nodup_nil
  intro registry h
  induction updates generalizing registry with
  | nil => exact h
  | cons update rest ih => exact ih _ (nodup_key_updated h update)

/-- Operations of one name with different keys differ in their signatures. -/
theorem nodup_signature_overloads (h : (registry.operations.map key).Nodup) (name : String) :
    ((registry.overloads name).map Operation.signature).Nodup := by
  have hkeys : (registry.overloads name).Pairwise fun one another => key one ≠ key another :=
    List.pairwise_map.mp (h.sublist (List.filter_sublist.map key))
  refine List.pairwise_map.mpr (hkeys.imp_of_mem fun {one another} hone hanother hdifferent hsame => ?_)
  refine hdifferent (Prod.ext ?_ hsame)
  exact (mem_overloads.mp hone).2.trans (mem_overloads.mp hanother).2.symm

/-! ### The table of overload sets -/

/-- Puts `operation` in the place of the first overload with its signature, and at the end where there is
none. -/
def place (operation : Operation) : List Operation → List Operation
  | [] => [operation]
  | other :: rest =>
    if other.signature = operation.signature then operation :: rest else other :: place operation rest

/-- A registration touches the overload set of its name alone. -/
theorem overloads_register (registry : Registry) (operation : Operation) (name : String) :
    (registry.register operation).overloads name =
      if operation.name = name then place operation (registry.overloads name) else registry.overloads name := by
  show (enter operation registry.operations).filter (·.name == name) =
    if operation.name = name then place operation (registry.operations.filter (·.name == name))
    else registry.operations.filter (·.name == name)
  induction registry.operations with
  | nil =>
      by_cases hname : operation.name = name
      · simp [enter, place, hname]
      · simp [enter, hname]
  | cons other rest ih =>
      by_cases hname : operation.name = name
      · rw [if_pos hname] at ih ⊢
        by_cases hother : other.name = name
        · by_cases hsame : other.signature = operation.signature
          · simp [enter, denotes, place, hname, hother, hsame]
          · simp [enter, denotes, place, hname, hother, hsame, ih]
        · have hdifferent : other.name ≠ operation.name := hname ▸ hother
          simp [enter, denotes, hother, hdifferent, ih]
      · rw [if_neg hname] at ih ⊢
        rw [enter]
        split
        · rename_i hsame
          have hother : other.name = operation.name := (Prod.mk.inj (denotes_iff_key_eq.mp hsame)).1
          simp [hname, hother]
        · rw [List.filter_cons, List.filter_cons, ih]

theorem overloads_remove (registry : Registry) (removed : String) (signature : Signature) (name : String) :
    (registry.remove removed signature).2.overloads name =
      if removed = name then (registry.overloads name).filter (·.signature != signature)
      else registry.overloads name := by
  show (registry.operations.filter (!denotes removed signature ·)).filter (·.name == name) = _
  rw [overloads]
  split
  · rename_i hname
    rw [List.filter_filter, List.filter_filter]
    refine List.filter_congr fun operation _ => ?_
    rw [denotes, hname, bne]
    cases operation.name == name <;> cases operation.signature == signature <;> rfl
  · rename_i hname
    have hother : name ≠ removed := Ne.symm hname
    rw [List.filter_filter]
    refine List.filter_congr fun operation _ => ?_
    by_cases hcalled : operation.name = name
    · simp [denotes, hcalled, hother]
    · simp [hcalled]

theorem overloads_removeAll (registry : Registry) (removed name : String) :
    (registry.removeAll removed).2.overloads name =
      if removed = name then [] else registry.overloads name := by
  show (registry.operations.filter (·.name != removed)).filter (·.name == name) = _
  rw [overloads, List.filter_filter]
  split
  · rename_i hname
    rw [List.filter_eq_nil_iff]
    intro operation _ hkept
    simp [hname] at hkept
  · rename_i hname
    have hother : name ≠ removed := Ne.symm hname
    refine List.filter_congr fun operation _ => ?_
    by_cases hcalled : operation.name = name
    · simp [hcalled, hother]
    · simp [hcalled]

/-- Overload sets by name. A name without operations has none, not an empty one. -/
abbrev OverloadTable := String → Option (List Operation)

/-- The table after one update of the overload set of a name. -/
def OverloadTable.updated (table : OverloadTable) : Update → OverloadTable
  | .register operation =>
    Function.update table operation.name (some (place operation ((table operation.name).getD [])))
  | .remove name signature =>
    match table name with
    | none => table
    | some overloads =>
      let kept := overloads.filter (·.signature != signature)
      Function.update table name (if kept.isEmpty then none else some kept)
  | .removeAll name => Function.update table name none

/-- The overload sets of a registry as a table. -/
def table (registry : Registry) : OverloadTable := fun name =>
  if registry.contains name then some (registry.overloads name) else none

theorem table_apply (registry : Registry) (name : String) :
    registry.table name =
      if (registry.overloads name).isEmpty then none else some (registry.overloads name) := by
  rw [table]
  by_cases hempty : registry.overloads name = []
  · rw [if_neg fun h => contains_iff_overloads_ne_nil.mp h hempty, if_pos (by rw [hempty]; rfl)]
  · rw [if_pos (contains_iff_overloads_ne_nil.mpr hempty), if_neg (by rwa [List.isEmpty_iff])]

theorem getD_table (registry : Registry) (name : String) : (registry.table name).getD [] = registry.overloads name := by
  rw [table_apply]
  split
  · rename_i hempty
    exact (List.isEmpty_iff.mp hempty).symm
  · rfl

/-- What an update does to the registry it does to the table. -/
theorem table_updated (registry : Registry) (update : Update) :
    (registry.updated update).table = OverloadTable.updated registry.table update := by
  funext name
  rw [table_apply]
  cases update with
  | register operation =>
      rw [updated, overloads_register, OverloadTable.updated, getD_table]
      by_cases hname : operation.name = name
      · subst hname
        have hfilled : (place operation (registry.overloads operation.name)).isEmpty = false := by
          cases registry.overloads operation.name with
          | nil => rfl
          | cons other rest => rw [place]; split <;> rfl
        rw [if_pos rfl, hfilled, Function.update_self]
        rfl
      · rw [if_neg hname, Function.update_of_ne (Ne.symm hname), table_apply]
  | remove removed signature =>
      rw [updated, overloads_remove, OverloadTable.updated]
      by_cases hname : removed = name
      · subst hname
        rw [if_pos rfl]
        cases hentry : registry.table removed with
        | none =>
            have hnone : registry.overloads removed = [] := by rw [← getD_table, hentry]; rfl
            simp only [hnone, hentry]
            rfl
        | some overloads =>
            have hsome : registry.overloads removed = overloads := by rw [← getD_table, hentry]; rfl
            simp only [hsome, Function.update_self]
      · rw [if_neg hname, ← table_apply]
        cases registry.table removed with
        | none => rfl
        | some overloads => exact (Function.update_of_ne (Ne.symm hname) _ _).symm
  | removeAll removed =>
      rw [updated, overloads_removeAll, OverloadTable.updated]
      by_cases hname : removed = name
      · subst hname
        rw [if_pos rfl, Function.update_self]
        rfl
      · rw [if_neg hname, Function.update_of_ne (Ne.symm hname), ← table_apply]

/-- The registry holds the overload sets of the table that is updated along with it. -/
theorem table_after (updates : List Update) :
    (after updates).table = updates.foldl OverloadTable.updated fun _ => none := by
  have hempty : ({} : Registry).table = fun _ => none := rfl
  rw [← hempty, after]
  generalize ({} : Registry) = registry
  induction updates generalizing registry with
  | nil => rfl
  | cons update rest ih => rw [List.foldl_cons, List.foldl_cons, ih, table_updated]

/-! ### Where a call goes -/

/-- The place of a registered operation: that of the overload with its signature, or else the last. -/
theorem place_eq (operation : Operation) (overloads : List Operation) :
    place operation overloads = preceding operation overloads ++ operation :: following operation overloads := by
  rw [preceding, following]
  induction overloads with
  | nil => rfl
  | cons other rest ih =>
      by_cases hsame : other.signature = operation.signature
      · simp [place, hsame]
      · simp [place, hsame, ih]

/-- By a test of signatures the registered operation is found if it passes and nothing before it does;
otherwise the same is found as before, since a replaced operation passes exactly if its successor does. -/
theorem find?_place (test : Signature → Bool) (operation : Operation) (overloads : List Operation) :
    (place operation overloads).find? (test ·.signature) =
      if test operation.signature ∧ ∀ other ∈ preceding operation overloads, ¬test other.signature then
        some operation
      else overloads.find? (test ·.signature) := by
  rw [preceding]
  induction overloads with
  | nil => cases htest : test operation.signature <;> simp [place, htest]
  | cons other rest ih =>
      by_cases hsame : other.signature = operation.signature
      · cases htest : test operation.signature <;> simp [place, hsame, htest]
      · cases htest : test other.signature with
        | true => simp [place, hsame, htest]
        | false => simp [place, hsame, htest, ih]

theorem find?_accepts_place (operation : Operation) (overloads : List Operation) (args : List Node) :
    (place operation overloads).find? (·.accepts args) =
      if operation.accepts args ∧ ∀ other ∈ preceding operation overloads, ¬other.accepts args then some operation
      else overloads.find? (·.accepts args) :=
  find?_place (Signature.accepts · args) operation overloads

/-- A universal operation is the only one of its name, so that nothing before it is universal too. -/
theorem find?_isUniversal_place (operation : Operation) (overloads : List Operation) :
    (place operation overloads).find? (·.isUniversal) =
      if operation.isUniversal then some operation else overloads.find? (·.isUniversal) := by
  have hfind := find?_place (fun signature => signature = [.universal]) operation overloads
  rw [if_congr (and_iff_left_of_imp ?_) rfl rfl] at hfind
  · exact hfind
  · intro huniversal other hother hsame
    have hdifferent := List.mem_takeWhile_imp hother
    rw [of_decide_eq_true hsame, of_decide_eq_true huniversal] at hdifferent
    simp at hdifferent

/-- Where a call goes after one registration. -/
theorem resolve_register_eq (registry : Registry) (operation : Operation) (name : String) (args : List Node) :
    (registry.register operation).resolve name args =
      if operation.name = name ∧
          ((operation.accepts args ∧ ∀ other ∈ preceding operation (registry.overloads operation.name), ¬other.accepts args) ∨
            (operation.isUniversal ∧
              ∀ other ∈ (registry.register operation).overloads operation.name, ¬other.accepts args)) then
        some operation
      else registry.resolve name args := by
  by_cases hname : operation.name = name
  · subst hname
    have haccepting := find?_accepts_place operation (registry.overloads operation.name) args
    have huniversal := find?_isUniversal_place operation (registry.overloads operation.name)
    have hextended := overloads_register registry operation operation.name
    rw [if_pos rfl] at hextended
    rw [resolve, resolve, hextended]
    by_cases hfirst : operation.accepts args ∧ ∀ other ∈ preceding operation (registry.overloads operation.name), ¬other.accepts args
    · rw [if_pos hfirst] at haccepting
      rw [haccepting]
      exact (if_pos ⟨rfl, .inl hfirst⟩).symm
    · rw [if_neg hfirst] at haccepting
      rw [haccepting, huniversal]
      cases hfound : (registry.overloads operation.name).find? (·.accepts args) with
      | some found =>
          rw [hfound] at haccepting
          have hmem := List.mem_of_find?_eq_some haccepting
          have haccepts := List.find?_some haccepting
          refine (if_neg ?_).symm
          rintro ⟨-, hprevails | ⟨-, hnone⟩⟩
          · exact hfirst hprevails
          · exact hnone found hmem haccepts
      | none =>
          rw [hfound] at haccepting
          refine if_congr ?_ rfl rfl
          constructor
          · exact fun h => ⟨rfl, .inr ⟨h, List.find?_eq_none.mp haccepting⟩⟩
          · rintro ⟨-, hprevails | ⟨h, -⟩⟩
            · exact absurd hprevails hfirst
            · exact h
  · rw [if_neg fun h => hname h.1, resolve, resolve, overloads_register, if_neg hname]

/-- **Overload sets and resolution under updates.** After any updates the registry holds the overload sets
of the table that is updated with it, a name is in it exactly if its overload set is not empty, the overloads
have the name they stand under, and no two of them share a signature. Registering one more operation puts it
in the place of the overload with its signature, or else behind all of its name. A call goes to it if the call
has its name and either it accepts the arguments and no overload before its place does, or it takes any
arguments and no overload accepts these; every other call goes where it went before. -/
theorem resolve_register_after (updates : List Update) (operation : Operation) (name : String)
    (args : List Node) :
    let registry := after updates
    let extended := registry.register operation
    registry.table = updates.foldl OverloadTable.updated (fun _ => none) ∧
      (registry.contains name ↔ registry.overloads name ≠ []) ∧
      (∀ other ∈ registry.overloads name, other.name = name) ∧
      ((registry.overloads name).map Operation.signature).Nodup ∧
      extended.overloads operation.name =
        preceding operation (registry.overloads operation.name) ++ operation :: following operation (registry.overloads operation.name) ∧
      extended.resolve name args =
        if operation.name = name ∧
            ((operation.accepts args ∧ ∀ other ∈ preceding operation (registry.overloads operation.name), ¬other.accepts args) ∨
              (operation.isUniversal ∧
                ∀ other ∈ extended.overloads operation.name, ¬other.accepts args)) then
          some operation
        else registry.resolve name args := by
  intro registry extended
  refine ⟨table_after updates, contains_iff_overloads_ne_nil, fun other hother => (mem_overloads.mp hother).2,
    nodup_signature_overloads (nodup_key_after updates) name, ?_, resolve_register_eq registry operation name args⟩
  rw [overloads_register, if_pos rfl, place_eq]

end Registry

end SymbolicAlgebra
