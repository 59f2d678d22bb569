import SymbolicAlgebra.Proofs.Closed
import SymbolicAlgebra.Proofs.Combination
import SymbolicAlgebra.Proofs.Idempotence

/-! Sums, products and connectives are confluent. However such a chain is nested and in whatever order
its leaves stand, simplification folds it to the normal form of its leaves. The invariant of folding is
that the arguments so far and the leaves are alike. -/

namespace SymbolicAlgebra

namespace Chain

/-! ### The arguments so far -/

/-- An exact node that simplification leaves as it is, and that is not taken apart. -/
structure Item (scope : Scope) (name : String) (node : Node) : Prop where
  exact : node.Exact
  flat : isApplicationOf name node = false
  same : ∃ room, Reduces scope room node node

theorem item_node (scope : Scope) (name : String) (v : Value) : Item scope name v.node := by
  cases v with
  | integer x =>
      exact ⟨Node.exact_integer x, rfl, 1, .number _⟩
  | boolean p => exact ⟨Node.exact_boolean p, rfl, 1, .boolean p⟩

/-- What has become of the leaves of a chain while it is folded. -/
structure Gathered (scope : Scope) (name : String) (τ : ValueType) (leaves args : List Node) : Prop where
  items : ∀ arg ∈ args, Item scope name arg
  sorted : Node.Sorted args
  two_le : 2 ≤ args.length
  alike : Alike name τ args leaves

section Gathered

variable {scope : Scope} {name : String} {τ : ValueType} {xs leaves args : List Node}

theorem item_normalArgs (hitems : ∀ node ∈ xs, Item scope name node) :
    ∀ node ∈ normalArgs name τ xs, Item scope name node := by
  intro node hnode
  rcases mem_normalArgs hnode with hmem | rfl
  · exact hitems node hmem
  · exact item_node scope name _

/-- Normal forms are taken apart and sorted. -/
theorem arrange_normalForms (hchain : (name, τ) ∈ chainTypes) {lists : List (List Node)}
    (hitems : ∀ xs ∈ lists, ∀ node ∈ xs, Item scope name node) :
    arrange Builtin.standard name (lists.map (normalForm name τ)) =
      Node.sort (lists.flatMap (normalArgs name τ)) := by
  have hflatten : flatten name (lists.map (normalForm name τ)) = lists.flatMap (normalArgs name τ) := by
    rw [flatten, List.flatMap_map]
    refine List.flatMap_congr fun xs hxs => ?_
    exact inlined_bundle normalArgs_ne_nil fun node hnode => (item_normalArgs (hitems xs hxs) node hnode).flat
  rw [arrange, if_pos (commutative_of_chain hchain), flattenFully_eq_flatten, hflatten]
  rw [hflatten, List.forall_mem_flatMap]
  exact fun xs hxs node hnode => (item_normalArgs (hitems xs hxs) node hnode).flat

/-- The normal forms of lists of leaves are what their leaves together have become. -/
theorem gathered_normalForms (hchain : (name, τ) ∈ chainTypes) {lists : List (List Node)}
    (hlength : 2 ≤ lists.length) (hitems : ∀ xs ∈ lists, ∀ node ∈ xs, Item scope name node) :
    Gathered scope name τ lists.flatten
      (arrange Builtin.standard name (lists.map (normalForm name τ))) := by
  rw [arrange_normalForms hchain hitems]
  have hperm := Node.sort_perm (lists.flatMap (normalArgs name τ))
  refine ⟨fun arg harg => ?_, Node.sorted_sort _, ?_, ?_⟩
  · obtain ⟨xs, hxs, hmem⟩ := List.mem_flatMap.mp (hperm.mem_iff.mp harg)
    exact item_normalArgs (hitems xs hxs) arg hmem
  · have hmore := List.length_le_sum_of_one_le (lists.map fun xs => (normalArgs name τ xs).length) <| by
      rw [List.forall_mem_map]
      exact fun xs _ => List.length_pos_iff.mpr normalArgs_ne_nil
    rw [List.length_map] at hmore
    rw [hperm.length_eq, List.length_flatMap]
    exact hlength.trans hmore
  · rw [← List.flatMap_id]
    exact (alike_of_perm hchain hperm).trans (alike_flatMap hchain fun xs _ => alike_normalArgs hchain xs)

namespace Gathered

variable (h : Gathered scope name τ leaves args)
include h

theorem exact : ∀ arg ∈ args, arg.Exact :=
  fun arg harg => (h.items arg harg).exact

theorem normalForm_eq : normalForm name τ args = normalForm name τ leaves :=
  h.alike.normalForm_eq h.exact

/-- Where nothing can be done, the application is in normal form. -/
theorem application_eq (hchain : (name, τ) ∈ chainTypes) (hinert : Inert name τ args) :
    .application name args = normalForm name τ leaves := by
  have hnonempty : args ≠ [] := List.length_pos_iff.mp (Nat.lt_of_lt_of_le Nat.zero_lt_two h.two_le)
  rw [← h.normalForm_eq, normalForm, normalArgs_of_inert hchain h.exact h.sorted hnonempty hinert,
    bundle_of_two_le h.two_le]

theorem arrange_eq (hchain : (name, τ) ∈ chainTypes) : arrange Builtin.standard name args = args := by
  rw [arrange_of_flat (commutative_of_chain hchain) fun arg harg => (h.items arg harg).flat,
    Node.sort_of_sorted h.sorted]

/-- Invoking the chain on the arguments comes to nothing, for two of them because nothing can be done, or
to the normal form. -/
theorem outcome_cases (hchain : (name, τ) ∈ chainTypes) {R : Node → Node → Prop} {outcome : Option Node}
    (hinvokes : Invokes Builtin.standard R name args outcome) :
    outcome = none ∧ (args.length ≤ 2 → Inert name τ args) ∨
      ∃ offer, outcome = some offer ∧ ¬Inert name τ args ∧ Item scope name offer ∧
        offer = normalForm name τ leaves := by
  by_cases hlong : 2 < args.length
  · left
    cases hinvokes with
    | unresolved _ => exact ⟨rfl, fun hshort => (Nat.not_lt.mpr hshort hlong).elim⟩
    | answered hsome _ =>
        have hnone := (Builtin.foldsByPairs_standard name (commutative_of_chain hchain)).2 args hlong
        cases hnone.symm.trans hsome
  · obtain ⟨a, b, rfl⟩ := List.length_eq_two.mp (Nat.le_antisymm (Nat.not_lt.mp hlong) h.two_le)
    have hexact := h.exact
    rw [List.forall_mem_cons, List.forall_mem_singleton] at hexact
    rw [outcome_eq_combined hchain hexact.1 hexact.2 hinvokes]
    rcases combined_spec hchain hexact.1 hexact.2 with ⟨hnone, hinert⟩ | ⟨offer, hsome, hnot, hargs⟩
    · exact .inl ⟨hnone, fun _ => hinert⟩
    · have hitem : ∀ node ∈ normalArgs name τ [a, b], Item scope name node := item_normalArgs h.items
      rw [hargs, List.forall_mem_singleton] at hitem
      refine .inr ⟨offer, hsome, hnot, hitem, ?_⟩
      rw [← h.normalForm_eq, normalForm, hargs]
      rfl

end Gathered

end Gathered

/-! ### Folding -/

section Folding

variable {scope : Scope} {name : String} {τ : ValueType} (hchain : (name, τ) ∈ chainTypes)
  {R : Node → Node → Prop}
  (hlevel : ∀ e r, R e r → Tree name (Item scope name) e → r = normalForm name τ (Chain.leaves name e))
include hlevel

/-- Two items become the normal form of the two. -/
theorem eq_normalForm_of_pair {a b r : Node} (ha : Item scope name a) (hb : Item scope name b)
    (h : R (.application name [a, b]) r) : r = normalForm name τ [a, b] := by
  have htree : Tree name (Item scope name) (.application name [a, b]) := by
    refine .branch (Nat.le_refl 2) ?_
    rw [List.forall_mem_cons, List.forall_mem_singleton]
    exact ⟨.leaf ha.flat ha, .leaf hb.flat hb⟩
  have hleaves : Chain.leaves name (.application name [a, b]) = [a, b] := by
    rw [leaves_application, List.flatMap_cons, List.flatMap_singleton, leaves_of_not_isApplicationOf ha.flat,
      leaves_of_not_isApplicationOf hb.flat]
    rfl
  rw [hlevel _ r h htree, hleaves]

include hchain

theorem inert_of_kept {a b : Node} (ha : Item scope name a) (hb : Item scope name b) (h : Kept R name a b) :
    Inert name τ [a, b] := by
  obtain ⟨folded, hfolded, hheavy⟩ := h
  by_contra hnot
  rw [eq_normalForm_of_pair hlevel ha hb hfolded] at hheavy
  refine hheavy (complexity_normalForm_lt hchain ?_ (Nat.le_refl 2) hnot)
  exact List.forall_mem_cons.mpr ⟨ha.exact, List.forall_mem_singleton.mpr hb.exact⟩

variable {leaves args others : List Node} {folded : Node} (hgathered : Gathered scope name τ leaves args)
include hgathered

/-- Where no pair folds, nothing can be done. -/
theorem Gathered.inert (hkept : args.Pairwise (Kept R name)) : Inert name τ args := by
  refine inert_of_pairwise hgathered.two_le (hkept.imp_of_mem fun ha hb hpair => ?_)
  exact inert_of_kept hchain hlevel (hgathered.items _ ha) (hgathered.items _ hb) hpair

/-- A fold of the arguments down to one is the normal form. -/
theorem Gathered.single (hfold : FoldsPair R name args folded []) : folded = normalForm name τ leaves := by
  obtain ⟨first, second, hperm, hfolded⟩ := hfold.perm
  have hitems := fun arg harg => hgathered.items arg (hperm.mem_iff.mpr harg)
  rw [List.forall_mem_cons, List.forall_mem_singleton] at hitems
  rw [eq_normalForm_of_pair hlevel hitems.1 hitems.2 hfolded, ← hgathered.normalForm_eq]
  exact ((alike_of_perm hchain hperm).normalForm_eq hgathered.exact).symm

/-- A fold that leaves others keeps the invariant. -/
theorem Gathered.next (hothers : others ≠ []) (hfold : FoldsPair R name args folded others) :
    Gathered scope name τ leaves (arrange Builtin.standard name (others ++ [folded])) := by
  obtain ⟨first, second, hperm, hfolded⟩ := hfold.perm
  have hitems := fun arg harg => hgathered.items arg (hperm.mem_iff.mpr harg)
  rw [List.forall_mem_cons, List.forall_mem_cons] at hitems
  obtain ⟨hfirst, hsecond, hitems⟩ := hitems
  let lists := others.map (fun node => [node]) ++ [[first, second]]
  have hforms : lists.map (normalForm name τ) = others ++ [folded] := by
    have hsame : others.map (normalForm name τ ∘ fun node => [node]) = others :=
      (List.map_congr_left fun node hnode => normalForm_singleton hchain (hitems node hnode).exact).trans
        (List.map_id' others)
    rw [List.map_append, List.map_map, hsame, List.map_singleton,
      eq_normalForm_of_pair hlevel hfirst hsecond hfolded]
  have hleaves : Alike name τ lists.flatten leaves := by
    rw [List.flatten_append, ← List.flatMap_def, List.flatMap_singleton', List.flatten_singleton]
    exact (alike_of_perm hchain (List.perm_append_comm.trans hperm.symm)).trans hgathered.alike
  have hlength : 2 ≤ lists.length := by
    have hpositive := List.length_pos_iff.mpr hothers
    simp [lists]
    omega
  have hmembers : ∀ xs ∈ lists, ∀ node ∈ xs, Item scope name node := by
    rw [List.forall_mem_append, List.forall_mem_map, List.forall_mem_singleton, List.forall_mem_cons]
    exact ⟨fun node hnode => List.forall_mem_singleton.mpr (hitems node hnode), hfirst,
      List.forall_mem_singleton.mpr hsecond⟩
  have hnext := gathered_normalForms hchain hlength hmembers
  rw [hforms] at hnext
  exact { hnext with alike := hnext.alike.trans hleaves }

/-- Folding ends with the normal form. -/
theorem eq_normalForm_of_regroups {arity : Nat} {result : Node}
    (h : Regroups Builtin.standard R name arity args result) : result = normalForm name τ leaves := by
  induction h with
  | single hfold => exact hgathered.single hchain hlevel hfold
  | folded hfold hothers _ ih => exact ih (hgathered.next hchain hlevel hothers hfold)
  | offered hkept _ hoffer _ =>
      have hinert := hgathered.inert hchain hlevel hkept
      rcases hgathered.outcome_cases hchain hoffer with ⟨hnone, _⟩ | ⟨_, _, hnot, _⟩
      · cases hnone
      · exact (hnot hinert).elim
  | left hkept _ =>
      rw [construct, hgathered.arrange_eq hchain]
      exact hgathered.application_eq hchain (hgathered.inert hchain hlevel hkept)

end Folding

section Step

variable {scope : Scope} {name : String} {τ : ValueType} (hchain : (name, τ) ∈ chainTypes)
  {R : Node → Node → Prop} {args : List Node}
  (hlevel : ∀ e r, R e r → Tree name (Item scope name) e → r = normalForm name τ (leaves name e))
  (hlength : 2 ≤ args.length) (htrees : ∀ arg ∈ args, Tree name (Item scope name) arg)
include hlevel htrees

theorem eq_normalForms_of_forall₂ {reduced : List Node} (h : List.Forall₂ R args reduced) :
    reduced = (args.map (leaves name)).map (normalForm name τ) := by
  rw [List.map_map]
  exact eq_map_of_forall₂ h fun arg harg result hresult => hlevel arg result hresult (htrees arg harg)

include hchain hlength

/-- The arguments of a branch, when they are prepared, are what its leaves have become. -/
theorem gathered_of_prepares {prepared : List Node} (h : Prepares Builtin.standard R name args prepared) :
    Gathered scope name τ (leaves name (.application name args)) prepared := by
  cases h with
  | preserved hpreserves =>
      exact ((Builtin.foldsByPairs_standard name (commutative_of_chain hchain)).1 hpreserves).elim
  | simplified _ hreduced =>
      rw [eq_normalForms_of_forall₂ hlevel htrees hreduced, leaves_application, List.flatMap_def]
      refine gathered_normalForms hchain (by rwa [List.length_map]) ?_
      rw [List.forall_mem_map]
      exact fun arg harg node hnode => ((htrees arg harg).leaves node hnode).2

/-- A branch becomes the normal form of its leaves. -/
theorem eq_normalForm_of_step (hstandard : scope.registry = Builtin.standard)
    (hitem : ∀ e r, R e r → Item scope name e → r = e) {r : Node} (h : Step scope R (.application name args) r) :
    r = normalForm name τ (leaves name (.application name args)) := by
  cases h with
  | rewritten _ hprepares hoffer hresult =>
      rw [hstandard] at hprepares hoffer
      have hgathered := gathered_of_prepares hchain hlevel hlength htrees hprepares
      rcases hgathered.outcome_cases hchain hoffer with ⟨hnone, _⟩ | ⟨offer, hsome, _, hoffered, hnormal⟩
      · cases hnone
      · cases hsome
        rw [hitem _ _ hresult hoffered, hnormal]
  | undecided _ hprepares hnone hsmall =>
      rw [hstandard] at hprepares hnone hsmall
      have hgathered := gathered_of_prepares hchain hlevel hlength htrees hprepares
      rcases hgathered.outcome_cases hchain hnone with ⟨_, hinert⟩ | ⟨_, hsome, _⟩
      · refine hgathered.application_eq hchain (hinert ?_)
        exact Nat.not_lt.mp fun hlong => hsmall ⟨hlong, commutative_of_chain hchain⟩
      · cases hsome
  | regrouped _ hprepares _ _ _ hgrouped =>
      rw [hstandard] at hprepares hgrouped
      have hgathered := gathered_of_prepares hchain hlevel hlength htrees hprepares
      have hnormal := eq_normalForm_of_regroups hchain hlevel hgathered hgrouped
      split
      · exact hnormal
      · rename_i hheavy
        refine hgathered.application_eq hchain ?_
        by_contra hnot
        rw [hnormal, ← hgathered.normalForm_eq] at hheavy
        exact hheavy (complexity_normalForm_lt hchain hgathered.exact hgathered.two_le hnot)

end Step

/-- Trees of items become the normal forms of their leaves. -/
theorem eq_normalForm_of_reduces {scope : Scope} (hstandard : scope.registry = Builtin.standard)
    {name : String} {τ : ValueType} (hchain : (name, τ) ∈ chainTypes) {room : Nat} {e r : Node}
    (h : Reduces scope room e r) (htree : Tree name (Item scope name) e) :
    r = normalForm name τ (leaves name e) := by
  induction room generalizing e r with
  | zero => exact h.elim
  | succ room ih =>
      have hitem (e r : Node) {room : Nat} (h : Reduces scope room e r) (he : Item scope name e) : r = e := by
        obtain ⟨_, hsame⟩ := he.same
        exact h.unique hsame
      cases htree with
      | leaf hflat he =>
          rw [leaves_of_not_isApplicationOf hflat, normalForm_singleton hchain he.exact]
          exact hitem e r h he
      | branch hlength htrees =>
          exact eq_normalForm_of_step hchain (fun _ _ => ih) hlength htrees hstandard
            (fun e r h => hitem e r h) h

/-! ### Simplification -/

/-- A leaf that is exact, effect-free and in its simplest form. -/
structure Leaf (env : Environment) (node : Node) : Prop where
  exact : node.Exact
  effectFree : node.EffectFree
  simple : (simplify node env).1 = .ok node

section Leaf

variable {env : Environment} {name : String} {τ : ValueType}

theorem Leaf.item (hquiet : env.current.Quiet) {node : Node} (hflat : isApplicationOf name node = false)
    (h : Leaf env node) : Item env.current name node := by
  rcases hrun : simplify node env with ⟨outcome, after⟩
  have hsimple := h.simple
  rw [hrun] at hsimple
  cases hsimple
  obtain ⟨_, hreduces, _⟩ := (simplify_eq_ok_iff hquiet h.effectFree).mp hrun
  exact ⟨h.exact, hflat, _, hreduces⟩

theorem effectFree_of_tree (hchain : (name, τ) ∈ chainTypes) {e : Node} (h : Tree name (Leaf env) e) :
    e.EffectFree := by
  have hname : EffectFreeName name := by
    rcases chain_cases hchain with ⟨rfl, rfl⟩ | ⟨rfl, rfl⟩ | ⟨rfl, rfl⟩ | ⟨rfl, rfl⟩ <;> decide
  induction h with
  | leaf _ hleaf => exact hleaf.effectFree
  | branch _ _ ih => exact Node.effectFree_application.mpr ⟨hname, ih⟩

end Leaf

end Chain

/-- **Chains have normal forms.** With the standard operations and any effect-free variables, whatever a
tree of sums, of products or of one connective simplifies to is the normal form of its leaves, which is
the absorbing literal if this is one of them. Any other tree that has the same leaves, each as often,
comes to the same. -/
theorem simplify_eq_normalForm (env : Environment) (hstandard : env.registry = Builtin.standard)
    (hvalues : ∀ symbol value, env.get? symbol = some value → value.EffectFree) {name : String}
    {τ : ValueType} (hchain : (name, τ) ∈ chainTypes) {e : Node}
    (htree : Chain.Tree name (Chain.Leaf env) e) {r : Node} {after : Environment}
    (hrun : simplify e env = (.ok r, after)) :
    r = Chain.normalForm name τ (Chain.leaves name e) ∧
      (∀ z, Chain.absorbing? name = some z → z.node ∈ Chain.leaves name e → r = z.node) ∧
      ∀ e', Chain.Tree name (Chain.Leaf env) e' → (Chain.leaves name e').Perm (Chain.leaves name e) →
        ∀ r' after', simplify e' env = (.ok r', after') → r' = r := by
  have hquiet := quiet_of_standard hstandard hvalues
  have hnormal {e r : Node} {after : Environment} (htree : Chain.Tree name (Chain.Leaf env) e)
      (hrun : simplify e env = (.ok r, after)) : r = Chain.normalForm name τ (Chain.leaves name e) := by
    obtain ⟨_, hreduces, _⟩ := (simplify_eq_ok_iff hquiet (Chain.effectFree_of_tree hchain htree)).mp hrun
    exact Chain.eq_normalForm_of_reduces hstandard hchain hreduces
      (htree.imp fun node hflat hleaf => hleaf.item hquiet hflat)
  have hexact {e : Node} (htree : Chain.Tree name (Chain.Leaf env) e) :
      ∀ node ∈ Chain.leaves name e, node.Exact := fun node hnode => (htree.leaves node hnode).2.exact
  refine ⟨hnormal htree hrun, fun z hz hmem => ?_, fun e' htree' hperm r' after' hrun' => ?_⟩
  · rw [hnormal htree hrun, Chain.normalForm_of_absorbing hchain (hexact htree) hz hmem]
  · rw [hnormal htree' hrun', hnormal htree hrun]
    exact (Chain.alike_of_perm hchain hperm).normalForm_eq (hexact htree')

/-- A sum of sums, nested and ordered in two ways. -/
theorem simplify_eq_normalForm_sum :
    let env := Environment.standard
    let power := Node.application "^" [.symbol "x", .integer 2]
    let e := Node.application "+"
      [.application "+" [.symbol "y", .integer 2], power, .application "+" [.symbol "y", .integer (-7)]]
    let e' := Node.application "+"
      [.application "+" [power, .application "+" [.symbol "y", .integer (-7)]], .symbol "y", .integer 2]
    ∃ r after after', simplify e env = (.ok r, after) ∧ simplify e' env = (.ok r, after') ∧
      r = Node.application "+" [.integer (-5), .symbol "y", .symbol "y", power] := by
  intro env power e e'
  have hvalues : ∀ symbol value, env.get? symbol = some value → value.EffectFree := fun _ _ h => by cases h
  have hsymbol : Chain.Leaf env (.symbol "y") := ⟨Node.exact_symbol _, Node.effectFree_symbol _, rfl⟩
  have hinteger (x : Int) : Chain.Leaf env (.integer x) :=
    ⟨Node.exact_integer x, Node.effectFree_number _, rfl⟩
  have hpower : Chain.Leaf env power := by
    refine ⟨Node.exact_application.mpr ?_, Node.effectFree_application.mpr ⟨by decide, ?_⟩, rfl⟩
    · simp [Node.exact_symbol, (hinteger 2).exact]
    · simp [Node.effectFree_symbol, (hinteger 2).effectFree]
  have hpair {a b : Node} (ha : Chain.Tree "+" (Chain.Leaf env) a) (hb : Chain.Tree "+" (Chain.Leaf env) b) :
      Chain.Tree "+" (Chain.Leaf env) (.application "+" [a, b]) :=
    .branch (Nat.le_refl 2) (by simp [ha, hb])
  have htriple {a b c : Node} (ha : Chain.Tree "+" (Chain.Leaf env) a)
      (hb : Chain.Tree "+" (Chain.Leaf env) b) (hc : Chain.Tree "+" (Chain.Leaf env) c) :
      Chain.Tree "+" (Chain.Leaf env) (.application "+" [a, b, c]) :=
    .branch (Nat.le_succ 2) (by simp [ha, hb, hc])
  have htree : Chain.Tree "+" (Chain.Leaf env) e :=
    htriple (hpair (.leaf rfl hsymbol) (.leaf rfl (hinteger 2))) (.leaf rfl hpower)
      (hpair (.leaf rfl hsymbol) (.leaf rfl (hinteger (-7))))
  have htree' : Chain.Tree "+" (Chain.Leaf env) e' :=
    htriple (hpair (.leaf rfl hpower) (hpair (.leaf rfl hsymbol) (.leaf rfl (hinteger (-7)))))
      (.leaf rfl hsymbol) (.leaf rfl (hinteger 2))
  have hperm : (Chain.leaves "+" e').Perm (Chain.leaves "+" e) :=
    have hswap (front behind : List Node) : (front ++ behind).Perm (behind ++ front) := List.perm_append_comm
    hswap [power, .symbol "y", .integer (-7)] [.symbol "y", .integer 2]
  have hsucceeds : (simplify e env).1.toOption.isSome = true ∧ (simplify e' env).1.toOption.isSome = true := by
    decide +kernel
  have hform : Chain.normalForm "+" .integer (Chain.leaves "+" e) =
      .application "+" [.integer (-5), .symbol "y", .symbol "y", power] := rfl
  rcases hrun : simplify e env with ⟨failure | r, after⟩
  · simp [hrun, Except.toOption] at hsucceeds
  rcases hrun' : simplify e' env with ⟨failure | r', after'⟩
  · simp [hrun', Except.toOption] at hsucceeds
  obtain ⟨hr, _, hsame⟩ := simplify_eq_normalForm env rfl hvalues
    (show ("+", ValueType.integer) ∈ chainTypes by decide) htree hrun
  rw [hsame e' htree' hperm r' after' hrun']
  exact ⟨r, after, after', rfl, rfl, hr.trans hform⟩

end SymbolicAlgebra
