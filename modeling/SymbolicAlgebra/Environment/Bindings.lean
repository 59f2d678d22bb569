import SymbolicAlgebra.Node.Basic

/-!
Variable bindings, at most one for each name.
-/

namespace SymbolicAlgebra

structure Bindings where
  entries : List (String × Node) := []

namespace Bindings

def get? (bindings : Bindings) (name : String) : Option Node :=
  bindings.entries.lookup name

/-- Puts the entry in the place of the first one for its name, and at the end where there is none. -/
def enter (name : String) (value : Node) : List (String × Node) → List (String × Node)
  | [] => [(name, value)]
  | other :: rest =>
    if other.1 == name then (name, value) :: rest else other :: enter name value rest

def set (bindings : Bindings) (name : String) (value : Node) : Bindings :=
  ⟨enter name value bindings.entries⟩

def erase (bindings : Bindings) (name : String) : Bindings :=
  ⟨bindings.entries.filter (·.1 != name)⟩

theorem get?_set_self (bindings : Bindings) (name : String) (value : Node) :
    (bindings.set name value).get? name = some value := by
  obtain ⟨entries⟩ := bindings
  simp only [set, get?]
  induction entries with
  | nil => simp [enter]
  | cons entry rest ih =>
      obtain ⟨key, held⟩ := entry
      by_cases hnamed : key = name
      · simp [enter, hnamed]
      · have hapart : (name == key) = false := beq_false_of_ne (Ne.symm hnamed)
        simp [enter, hnamed, List.lookup_cons, hapart, ih]

theorem get?_set_of_ne (bindings : Bindings) {name other : String} (value : Node)
    (hdifferent : other ≠ name) : (bindings.set name value).get? other = bindings.get? other := by
  obtain ⟨entries⟩ := bindings
  simp only [set, get?]
  have hapart : (other == name) = false := beq_false_of_ne hdifferent
  induction entries with
  | nil => simp [enter, List.lookup_cons, hapart]
  | cons entry rest ih =>
      obtain ⟨key, held⟩ := entry
      by_cases hnamed : key = name
      · simp [enter, hnamed, List.lookup_cons, hapart]
      · simp [enter, hnamed, List.lookup_cons, ih]

theorem get?_set (bindings : Bindings) (name : String) (value : Node) (other : String) :
    (bindings.set name value).get? other = if other = name then some value else bindings.get? other := by
  split
  · rename_i hsame
    rw [hsame, get?_set_self]
  · rename_i hdifferent
    exact get?_set_of_ne bindings value hdifferent

/-- A variable that is bound twice has the second value. -/
theorem set_set (bindings : Bindings) (name : String) (first second : Node) :
    (bindings.set name first).set name second = bindings.set name second := by
  obtain ⟨entries⟩ := bindings
  simp only [set, mk.injEq]
  induction entries with
  | nil => simp [enter]
  | cons entry rest ih =>
      obtain ⟨key, held⟩ := entry
      by_cases hnamed : key = name
      · simp [enter, hnamed]
      · simp [enter, hnamed, ih]

/-- To bind a variable to what it is bound to changes nothing. -/
theorem set_of_get? {bindings : Bindings} {name : String} {value : Node}
    (hfound : bindings.get? name = some value) : bindings.set name value = bindings := by
  obtain ⟨entries⟩ := bindings
  simp only [set, get?, mk.injEq] at hfound ⊢
  induction entries with
  | nil => cases hfound
  | cons entry rest ih =>
      obtain ⟨key, held⟩ := entry
      by_cases hnamed : key = name
      · subst hnamed
        rw [List.lookup_cons_self] at hfound
        cases hfound
        simp [enter]
      · have hapart : (name == key) = false := beq_false_of_ne (Ne.symm hnamed)
        rw [List.lookup_cons, hapart] at hfound
        simp [enter, hnamed, ih hfound]

/-- What holds of a new value and of all that was bound before holds of all that is bound then. -/
theorem forall_get?_set {P : Node → Prop} {bindings : Bindings} {name : String} {value : Node}
    (hvalue : P value) (hbound : ∀ other held, bindings.get? other = some held → P held) :
    ∀ other held, (bindings.set name value).get? other = some held → P held := by
  intro other held hfound
  rw [get?_set] at hfound
  split at hfound
  · cases hfound
    exact hvalue
  · exact hbound other held hfound

theorem get?_erase_self (bindings : Bindings) (name : String) :
    (bindings.erase name).get? name = none := by
  obtain ⟨entries⟩ := bindings
  simp only [erase, get?]
  induction entries with
  | nil => rfl
  | cons entry rest ih =>
      obtain ⟨key, held⟩ := entry
      by_cases hnamed : key = name
      · simpa [hnamed] using ih
      · have hapart : (name == key) = false := beq_false_of_ne (Ne.symm hnamed)
        simpa [hnamed, List.lookup_cons, hapart] using ih

theorem get?_erase_of_ne (bindings : Bindings) {name other : String} (hdifferent : other ≠ name) :
    (bindings.erase name).get? other = bindings.get? other := by
  obtain ⟨entries⟩ := bindings
  simp only [erase, get?]
  have hapart : (other == name) = false := beq_false_of_ne hdifferent
  induction entries with
  | nil => rfl
  | cons entry rest ih =>
      obtain ⟨key, held⟩ := entry
      by_cases hnamed : key = name
      · simpa [hnamed, List.lookup_cons, hapart] using ih
      · simp only [List.filter_cons, List.lookup_cons]
        simp [hnamed, List.lookup_cons, ih]

theorem get?_erase (bindings : Bindings) (name other : String) :
    (bindings.erase name).get? other = if other = name then none else bindings.get? other := by
  split
  · rename_i hsame
    rw [hsame, get?_erase_self]
  · rename_i hdifferent
    exact get?_erase_of_ne bindings hdifferent

/-- What is still bound after an erasure was bound before. -/
theorem get?_of_get?_erase {bindings : Bindings} {name other : String} {held : Node}
    (hfound : (bindings.erase name).get? other = some held) : bindings.get? other = some held := by
  rw [get?_erase] at hfound
  split at hfound
  · cases hfound
  · exact hfound

end Bindings

end SymbolicAlgebra
