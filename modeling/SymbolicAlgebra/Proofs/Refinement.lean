import SymbolicAlgebra.Proofs.Operators

/-! What a typed expression becomes has its type and its value, since every rule of `Step` keeps both:
variables give way to what agrees with the assignment, canonical lists and folds rearrange chains, and
handlers are sound. -/

namespace SymbolicAlgebra

/-- The operations are sound, and what is rearranged is a chain. -/
structure Registry.Sound (normal : Bool) (Γ : String → ValueType) (ρ : String → Value)
    (registry : Registry) : Prop where
  operations : ∀ operation ∈ registry.operations, operation.Sound normal Γ ρ
  chains : ∀ name, registry.isCommutative name → ∃ τ, (name, τ) ∈ chainTypes

/-- The values of variables have the types of their symbols and agree with the assignment. -/
def Bindings.Agree (normal : Bool) (Γ : String → ValueType) (ρ : String → Value)
    (bindings : Bindings) : Prop :=
  ∀ name value, bindings.get? name = some value →
    Typed normal Γ value (Γ name) ∧ meaning ρ value = ρ name

section Refines

variable {normal : Bool} {Γ : String → ValueType} {ρ : String → Value} {registry : Registry}
  {R : Node → Node → Prop} {name : String} {args : List Node}

/-! ### Applications -/

theorem Typed.of_mem {τ : ValueType} (h : Typed normal Γ (.application name args) τ) :
    ∀ arg ∈ args, ∃ σ, Typed normal Γ arg σ := by
  cases h with
  | chain _ _ hargs => exact fun arg harg => ⟨_, hargs arg harg⟩
  | unary _ harg => exact List.forall_mem_singleton.mpr ⟨_, harg⟩
  | binary _ ha hb => exact List.forall_mem_cons.mpr ⟨⟨_, ha⟩, List.forall_mem_singleton.mpr ⟨_, hb⟩⟩
  | power _ hbase _ _ =>
      refine List.forall_mem_cons.mpr ⟨⟨_, hbase⟩, List.forall_mem_singleton.mpr ⟨.integer, ?_⟩⟩
      exact .integer rfl fun _ => (Number.ofInt_toInt _).symm

theorem refines_arrange (hregistry : registry.Sound normal Γ ρ) (name : String) (args : List Node) :
    Refines normal Γ ρ (.application name args) (.application name (arrange registry name args)) := by
  rw [arrange]
  split
  · rename_i hcommutative
    obtain ⟨τ', hchain⟩ := hregistry.chains name hcommutative
    intro τ happlication
    obtain ⟨rfl, hlength, hargs⟩ := Typed.of_chain hchain happlication
    obtain ⟨hlengths, hflat⟩ := typed_flattenFully hchain hargs
    have hsorted := Node.sort_perm (flattenFully name args)
    constructor
    · refine .chain hchain ?_ fun arg harg => hflat arg (hsorted.mem_iff.mp harg)
      rw [hsorted.length_eq]
      exact Nat.le_trans hlength hlengths
    · calc
        meaning ρ (.application name (Node.sort (flattenFully name args)))
        _ = meaning ρ (.application name (flattenFully name args)) := meaning_perm hchain ρ hsorted
        _ = meaning ρ (.application name args) := meaning_flattenFully hchain ρ args
  · exact .refl _

variable (hrefines : ∀ e r, R e r → Refines normal Γ ρ e r)
include hrefines

theorem map_meaning_of_forall₂ {reduced : List Node} (hreduced : List.Forall₂ R args reduced)
    (hargs : ∀ arg ∈ args, ∃ σ, Typed normal Γ arg σ) :
    reduced.map (meaning ρ) = args.map (meaning ρ) := by
  induction hreduced with
  | nil => rfl
  | cons hhead _ ih =>
      rw [List.forall_mem_cons] at hargs
      obtain ⟨⟨σ, harg⟩, hrest⟩ := hargs
      rw [List.map_cons, List.map_cons, (hrefines _ _ hhead σ harg).2, ih hrest]

theorem typed_of_forall₂ {reduced : List Node} {τ : ValueType} (hreduced : List.Forall₂ R args reduced)
    (hargs : ∀ arg ∈ args, Typed normal Γ arg τ) : ∀ arg ∈ reduced, Typed normal Γ arg τ := by
  induction hreduced with
  | nil => exact hargs
  | cons hhead _ ih =>
      rw [List.forall_mem_cons] at hargs ⊢
      exact ⟨(hrefines _ _ hhead τ hargs.1).1, ih hargs.2⟩

omit hrefines in
theorem exists_pair_of_forall₂ {a b : Node} {reduced : List Node} (h : List.Forall₂ R [a, b] reduced) :
    ∃ first second, reduced = [first, second] ∧ R a first ∧ R b second := by
  obtain ⟨first, rest, hfirst, hrest, rfl⟩ := List.forall₂_cons_left_iff.mp h
  obtain ⟨second, last, hsecond, hlast, rfl⟩ := List.forall₂_cons_left_iff.mp hrest
  cases hlast
  exact ⟨first, second, rfl, hfirst, hsecond⟩

/-- Arguments may give way to what they become. -/
theorem refines_of_forall₂ (hnumber : ∀ a r, R (.number a) r → r = .number a) {reduced : List Node}
    (hreduced : List.Forall₂ R args reduced) :
    Refines normal Γ ρ (.application name args) (.application name reduced) := by
  intro τ happlication
  have hvalues := map_meaning_of_forall₂ hrefines hreduced happlication.of_mem
  rw [meaning_application, meaning_application, hvalues]
  refine ⟨?_, rfl⟩
  cases happlication with
  | chain hname hlength hargs =>
      exact .chain hname (hreduced.length_eq ▸ hlength) (typed_of_forall₂ hrefines hreduced hargs)
  | unary hname harg =>
      cases hreduced with
      | cons hhead hnil =>
          cases hnil
          exact .unary hname (hrefines _ _ hhead _ harg).1
  | binary hname ha hb =>
      obtain ⟨first, second, rfl, hfirst, hsecond⟩ := exists_pair_of_forall₂ hreduced
      exact .binary hname (hrefines _ _ hfirst _ ha).1 (hrefines _ _ hsecond _ hb).1
  | power hname hbase hlow hhigh =>
      obtain ⟨first, second, rfl, hfirst, hsecond⟩ := exists_pair_of_forall₂ hreduced
      rw [hnumber _ _ hsecond]
      exact .power hname (hrefines _ _ hfirst _ hbase).1 hlow hhigh

theorem Prepares.refines (hregistry : registry.Sound normal Γ ρ)
    (hnumber : ∀ a r, R (.number a) r → r = .number a) {prepared : List Node}
    (h : Prepares registry R name args prepared) :
    Refines normal Γ ρ (.application name args) (.application name prepared) := by
  cases h with
  | preserved _ => exact refines_arrange hregistry name args
  | @simplified reduced _ hreduced =>
      exact (refines_of_forall₂ hrefines hnumber hreduced).trans (refines_arrange hregistry name reduced)

omit hrefines in
theorem Invokes.refines (hregistry : registry.Sound normal Γ ρ) {offer : Node}
    (h : Invokes registry R name args (some offer)) :
    Refines normal Γ ρ (.application name args) offer := by
  cases h with
  | answered hresolve hanswers =>
      obtain ⟨hmem, rfl, _⟩ := Registry.mem_of_resolve hresolve
      exact hregistry.operations _ hmem R args _ hanswers offer rfl

/-- A chain may give way to the fold of two of its arguments beside the others. -/
theorem FoldsPair.refines {τ : ValueType} (hchain : (name, τ) ∈ chainTypes) {others : List Node}
    {folded : Node} (h : FoldsPair R name args folded others) (hothers : others ≠ []) :
    Refines normal Γ ρ (.application name args) (.application name (others ++ [folded])) := by
  intro σ happlication
  obtain ⟨rfl, _, hargs⟩ := Typed.of_chain hchain happlication
  obtain ⟨first, second, hperm, hfolded⟩ := h.perm
  have hmem := fun arg harg => hargs arg (hperm.mem_iff.mpr harg)
  rw [List.forall_mem_cons, List.forall_mem_cons] at hmem
  obtain ⟨hfirst, hsecond, hrest⟩ := hmem
  have hpair : Typed normal Γ (.application name [first, second]) σ :=
    .chain hchain (Nat.le_refl 2)
      (List.forall_mem_cons.mpr ⟨hfirst, List.forall_mem_singleton.mpr hsecond⟩)
  obtain ⟨htyped, hvalue⟩ := hrefines _ _ hfolded σ hpair
  have hlength : 2 ≤ (others ++ [folded]).length := by
    have hpositive := List.length_pos_iff.mpr hothers
    rw [List.length_append, List.length_singleton]
    omega
  refine ⟨.chain hchain hlength ?_, meaning_fold hchain ρ hperm hvalue⟩
  exact List.forall_mem_append.mpr ⟨hrest, List.forall_mem_singleton.mpr htyped⟩

/-- A chain of two arguments may give way to their fold. -/
theorem FoldsPair.refines_single {τ : ValueType} (hchain : (name, τ) ∈ chainTypes) {folded : Node}
    (h : FoldsPair R name args folded []) : Refines normal Γ ρ (.application name args) folded := by
  intro σ happlication
  obtain ⟨rfl, _, hargs⟩ := Typed.of_chain hchain happlication
  obtain ⟨first, second, hperm, hfolded⟩ := h.perm
  have hmem := fun arg harg => hargs arg (hperm.mem_iff.mpr harg)
  obtain ⟨htyped, hvalue⟩ := hrefines _ _ hfolded σ (.chain hchain (Nat.le_refl 2) hmem)
  exact ⟨htyped, hvalue.trans (meaning_perm hchain ρ hperm.symm)⟩

theorem Regroups.refines (hregistry : registry.Sound normal Γ ρ) {τ : ValueType}
    (hchain : (name, τ) ∈ chainTypes) {arity : Nat} {result : Node}
    (h : Regroups registry R name arity args result) :
    Refines normal Γ ρ (.application name args) result := by
  induction h with
  | single hfold => exact hfold.refines_single hrefines hchain
  | folded hfold hothers _ ih =>
      exact ((hfold.refines hrefines hchain hothers).trans (refines_arrange hregistry name _)).trans ih
  | offered _ _ hoffer hresult => exact (hoffer.refines hregistry).trans (hrefines _ _ hresult)
  | @left args _ _ => exact refines_arrange hregistry name args

/-- Every rule keeps types and values. -/
theorem Step.refines {scope : Scope} (hregistry : scope.registry.Sound normal Γ ρ)
    (hbindings : scope.bindings.Agree normal Γ ρ) (hnumber : ∀ a r, R (.number a) r → r = .number a)
    {e r : Node} (h : Step scope R e r) : Refines normal Γ ρ e r := by
  cases h with
  | number value => exact .refl _
  | boolean value => exact .refl _
  | free _ => exact .refl _
  | @bound name value _ hbound hresult =>
      intro τ hsymbol
      obtain ⟨hvalue, hsame⟩ := hbindings name value hbound
      cases hsymbol with
      | symbol hname =>
          obtain ⟨htyped, hmeaning⟩ := hrefines _ _ hresult τ (hname ▸ hvalue)
          exact ⟨htyped, hmeaning.trans hsame⟩
  | pair _ _ => exact fun τ hpair => nomatch hpair
  | sequence _ => exact fun τ hsequence => nomatch hsequence
  | rewritten _ hprepares hoffer hresult =>
      exact ((hprepares.refines hrefines hregistry hnumber).trans (hoffer.refines hregistry)).trans
        (hrefines _ _ hresult)
  | undecided _ hprepares _ _ => exact hprepares.refines hrefines hregistry hnumber
  | regrouped _ hprepares _ _ hcommutative hgrouped =>
      have hprepared := hprepares.refines hrefines hregistry hnumber
      obtain ⟨τ, hchain⟩ := hregistry.chains _ hcommutative
      split
      · exact hprepared.trans (hgrouped.refines hrefines hregistry hchain)
      · exact hprepared

end Refines

theorem Reduces.eq_of_isValue {scope : Scope} {room : Nat} {e r : Node} (h : Reduces scope room e r)
    (hvalue : e.IsValue) : r = e := by
  cases room with
  | zero => exact h.elim
  | succ room =>
      rcases hvalue with ⟨a, rfl⟩ | ⟨p, rfl⟩
      · cases h
        rfl
      · cases h
        rfl

/-- Simplification keeps types and values. -/
theorem Reduces.refines {normal : Bool} {Γ : String → ValueType} {ρ : String → Value} {scope : Scope}
    (hregistry : scope.registry.Sound normal Γ ρ) (hbindings : scope.bindings.Agree normal Γ ρ)
    {room : Nat} {e r : Node} (h : Reduces scope room e r) : Refines normal Γ ρ e r := by
  induction room generalizing e r with
  | zero => exact h.elim
  | succ room ih =>
      have hnumber (a : Number) (r : Node) (h : Reduces scope room (.number a) r) : r = .number a :=
        h.eq_of_isValue (.inl ⟨a, rfl⟩)
      exact Step.refines (fun _ _ => ih) hregistry hbindings hnumber h

end SymbolicAlgebra
