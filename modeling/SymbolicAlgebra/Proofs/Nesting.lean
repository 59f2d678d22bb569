import SymbolicAlgebra.Proofs.Combination
import SymbolicAlgebra.Proofs.Coupling
import SymbolicAlgebra.Proofs.Idempotence
import SymbolicAlgebra.Proofs.Limit

/-! The nesting that wide sums, products and connectives need. Their arguments have been simplified when
they are folded, so that a pair of them takes one level for the pair and no more for what is in it; what a
pair folds to is one of the two or a literal. However many arguments there are and however often they fold,
two levels above the arguments are enough. -/

namespace SymbolicAlgebra

namespace Chain

open Builtin Operation

/-! ### What two arguments make -/

section Outcome

variable {name : String} {R : Node → Node → Prop} {a b : Node}

/-- The node is one of the two arguments, or a literal. -/
def OneOf (a b node : Node) : Prop :=
  node = a ∨ node = b ∨ node.IsValue

/-- Two arguments that meet the special case make a literal, and all others what the general case says. -/
theorem exists_outcome_of_overloads {kind : Parameter} {special : Node → Node → Action Operation (Option Node)}
    {general : Node → Node → Option Node}
    (hoverloads : standard.overloads name = [(binary name kind kind special).commutative,
      (binary name .any .any fun a b => .done (general a b)).commutative])
    (hspecial : kind.accepts a → kind.accepts b → ∃ offer : Node, special a b = .done (some offer) ∧ offer.IsValue)
    (hgeneral : Offered (OneOf a b) (general a b)) :
    ∃ outcome, Invokes standard R name [a, b] outcome ∧ Offered (OneOf a b) outcome := by
  have hresolve := resolve_of_overloads hoverloads a b
  by_cases haccepts : kind.accepts a ∧ kind.accepts b
  · rw [if_pos haccepts] at hresolve
    obtain ⟨offer, hoffer, hvalue⟩ := hspecial haccepts.1 haccepts.2
    refine ⟨some offer, .answered hresolve ?_, ?_⟩
    · show (special a b).Answers R (some offer)
      rw [hoffer]
      exact .done _
    · rintro _ ⟨⟩
      exact .inr (.inr hvalue)
  · rw [if_neg haccepts] at hresolve
    exact ⟨general a b, .answered hresolve (.done _), hgeneral⟩

theorem onNumbers_isValue {compute : Number → Number → Number} (ha : Parameter.number.accepts a)
    (hb : Parameter.number.accepts b) :
    ∃ offer : Node, onNumbers (fun x y => .ok (compute x y)) a b = .done (some offer) ∧ offer.IsValue := by
  cases a with
  | number x =>
      cases b with
      | number y => exact ⟨_, rfl, .inl ⟨_, rfl⟩⟩
      | _ => cases hb
  | _ => cases ha

theorem onBooleans_isValue {compute : Bool → Bool → Bool} (ha : Parameter.boolean.accepts a)
    (hb : Parameter.boolean.accepts b) :
    ∃ offer : Node, onBooleans compute a b = .done (some offer) ∧ offer.IsValue := by
  cases a with
  | boolean p =>
      cases b with
      | boolean q => exact ⟨_, rfl, .inr ⟨_, rfl⟩⟩
      | _ => cases hb
  | _ => cases ha

/-- A chain of two arguments always has an outcome. -/
theorem exists_outcome (hname : name ∈ chainNames) (a b : Node) :
    ∃ outcome, Invokes standard R name [a, b] outcome ∧ Offered (OneOf a b) outcome := by
  have ha : OneOf a b a := .inl rfl
  have hb : OneOf a b b := .inr (.inl rfl)
  have hboolean (value : Bool) : OneOf a b (.boolean value) := .inr (.inr (.inr ⟨value, rfl⟩))
  simp only [chainNames, List.mem_cons, List.not_mem_nil, or_false] at hname
  rcases hname with rfl | rfl | rfl | rfl
  · exact exists_outcome_of_overloads ((overloads_standard _).trans rfl) onNumbers_isValue (offers_addIdentity ha hb)
  · exact exists_outcome_of_overloads ((overloads_standard _).trans rfl) onNumbers_isValue (offers_mulIdentity ha hb)
  · exact exists_outcome_of_overloads ((overloads_standard _).trans rfl) onBooleans_isValue
      (offers_shortCircuit hboolean false ha hb)
  · exact exists_outcome_of_overloads ((overloads_standard _).trans rfl) onBooleans_isValue
      (offers_shortCircuit hboolean true ha hb)

end Outcome

/-! ### Pairs of a list -/

section Pairs

variable {name : String} {R : Node → Node → Prop} {P : Node → Prop}

/-- The pair becomes something, and what it folds to satisfies `P`. -/
def Settles (R : Node → Node → Prop) (P : Node → Prop) (name : String) (first second : Node) : Prop :=
  ∃ folded, R (.application name [first, second]) folded ∧
    (folded.complexity < (Node.application name [first, second]).complexity → P folded)

/-- Either no pair with the first argument folds, or there is a first one that does. -/
theorem kept_or_folds {first : Node} {args : List Node} (h : ∀ second ∈ args, Settles R P name first second) :
    (∀ second ∈ args, Kept R name first second) ∨
      ∃ between second behind folded, args = between ++ second :: behind ∧
        (∀ node ∈ between, Kept R name first node) ∧ R (.application name [first, second]) folded ∧
        folded.complexity < (Node.application name [first, second]).complexity ∧ P folded := by
  induction args with
  | nil => exact .inl nofun
  | cons second rest ih =>
      rw [List.forall_mem_cons] at h
      obtain ⟨⟨folded, hfolded, hready⟩, hrest⟩ := h
      by_cases hlighter : folded.complexity < (Node.application name [first, second]).complexity
      · exact .inr ⟨[], second, rest, folded, rfl, nofun, hfolded, hlighter, hready hlighter⟩
      · have hkept : Kept R name first second := ⟨folded, hfolded, hlighter⟩
        rcases ih hrest with hnone | ⟨between, other, behind, result, hsplit, hbetween, hresult⟩
        · exact .inl (List.forall_mem_cons.mpr ⟨hkept, hnone⟩)
        · exact .inr ⟨second :: between, other, behind, result, congrArg (second :: ·) hsplit,
            List.forall_mem_cons.mpr ⟨hkept, hbetween⟩, hresult⟩

/-- Either no pair of the list folds, or there is a first one that does. -/
theorem pairwise_kept_or_foldsPair {args : List Node}
    (h : ∀ first ∈ args, ∀ second ∈ args, Settles R P name first second) :
    args.Pairwise (Kept R name) ∨ ∃ folded others, FoldsPair R name args folded others ∧ P folded := by
  induction args with
  | nil => exact .inl .nil
  | cons first rest ih =>
      have hfirst (second : Node) (hsecond : second ∈ rest) :=
        h first List.mem_cons_self second (List.mem_cons_of_mem _ hsecond)
      have hrest (one : Node) (hone : one ∈ rest) (other : Node) (hother : other ∈ rest) :=
        h one (List.mem_cons_of_mem _ hone) other (List.mem_cons_of_mem _ hother)
      rcases kept_or_folds hfirst with hkept | ⟨between, second, behind, folded, rfl, hbetween, hfolds⟩
      · rcases ih hrest with hpairs | ⟨folded, others, hfold, hready⟩
        · exact .inl (.cons hkept hpairs)
        · exact .inr ⟨folded, first :: others, .later hkept hfold, hready⟩
      · obtain ⟨hfolded, hlighter, hready⟩ := hfolds
        exact .inr ⟨folded, between ++ behind, .here hbetween hfolded hlighter, hready⟩

end Pairs

/-! ### Arguments that are ready to be folded -/

section Ready

variable {scope : Scope} {room : Nat} {name : String}

/-- A node that becomes itself within the room, all the way down, and is not taken apart. -/
structure Ready (scope : Scope) (room : Nat) (name : String) (node : Node) : Prop where
  settled : Settled standard (Reduces scope room) node
  flat : isApplicationOf name node = false

theorem Ready.of_isValue {node other : Node} (hother : Ready scope room name other) (h : node.IsValue) :
    Ready scope room name node := by
  obtain ⟨room, rfl⟩ : ∃ more, room = more + 1 := by
    refine Nat.exists_eq_succ_of_ne_zero ?_
    rintro rfl
    exact hother.settled.same
  rcases h with ⟨value, rfl⟩ | ⟨value, rfl⟩
  · exact ⟨.intro (.number value) nofun, rfl⟩
  · exact ⟨.intro (.boolean value) nofun, rfl⟩

theorem Ready.oneOf {a b node : Node} (ha : Ready scope room name a) (hb : Ready scope room name b)
    (h : OneOf a b node) : Ready scope room name node := by
  rcases h with rfl | rfl | hvalue
  · exact ha
  · exact hb
  · exact ha.of_isValue hvalue

variable (hname : name ∈ chainNames)
include hname

/-- The chain has an outcome for ready arguments, and what it offers is ready. -/
theorem exists_outcome_of_ready {R : Node → Node → Prop} {args : List Node}
    (hargs : ∀ arg ∈ args, Ready scope room name arg) :
    ∃ outcome, Invokes standard R name args outcome ∧ Offered (Ready scope room name) outcome := by
  by_cases htwo : args.length = 2
  · obtain ⟨a, b, rfl⟩ := List.length_eq_two.mp htwo
    rw [List.forall_mem_cons, List.forall_mem_singleton] at hargs
    obtain ⟨outcome, hinvokes, honeOf⟩ := exists_outcome hname a b
    exact ⟨outcome, hinvokes, fun offer hoffer => hargs.1.oneOf hargs.2 (honeOf offer hoffer)⟩
  · exact ⟨none, .unresolved (resolve_eq_none_of_length hname htwo), offered_none⟩

/-- Arguments that have been simplified are ready when they are in canonical form. -/
theorem ready_arrange {args : List Node} (hargs : ∀ arg ∈ args, Settled standard (Reduces scope room) arg) :
    ∀ arg ∈ arrange standard name args, Ready scope room name arg := by
  have hpreserves : ¬standard.preservesArguments name := by
    rw [preservesArguments_eq_false hname]
    exact Bool.false_ne_true
  intro arg harg
  exact ⟨forall_mem_arrange standard (fun inner h => h.of_mem hpreserves) hargs arg harg,
    flat_arrange (isCommutative_of_mem hname) args arg harg⟩

theorem prepares_of_forall₂ {R : Node → Node → Prop} {args values : List Node} (h : List.Forall₂ R args values) :
    Prepares standard R name args (arrange standard name values) := by
  refine .simplified ?_ h
  rw [preservesArguments_eq_false hname]
  exact Bool.false_ne_true

variable (hstandard : scope.registry = standard) (hunmarked : deferred? name = none)
include hstandard hunmarked

/-- A pair becomes something one level above its arguments. -/
theorem settles_pair {a b : Node} (ha : Ready scope room name a) (hb : Ready scope room name b) :
    Settles (Reduces scope (room + 1)) (Ready scope room name) name a b := by
  have hready : ∀ arg ∈ [a, b], Ready scope room name arg := by simp [ha, hb]
  have hsame : List.Forall₂ (Reduces scope room) [a, b] [a, b] :=
    forall₂_of_settled fun arg harg => (hready arg harg).settled
  have hprepares := prepares_of_forall₂ hname hsame
  rw [arrange_of_flat (isCommutative_of_mem hname) fun arg harg => (hready arg harg).flat] at hprepares
  have hperm := Node.sort_perm [a, b]
  obtain ⟨outcome, hinvokes, hoffered⟩ := exists_outcome_of_ready (R := Reduces scope room) hname
    fun arg harg => hready arg (hperm.mem_iff.mp harg)
  rw [← hstandard] at hprepares hinvokes
  cases outcome with
  | some offer =>
      have hoffer := hoffered offer rfl
      exact ⟨offer, .rewritten hunmarked hprepares hinvokes hoffer.settled.same, fun _ => hoffer⟩
  | none =>
      refine ⟨_, .undecided hunmarked hprepares hinvokes fun hlong => ?_, fun hlighter => ?_⟩
      · have hlength : (Node.sort [a, b]).length = 2 := hperm.length_eq
        omega
      · have hweight := weight_perm hperm
        simp only [Node.complexity] at hlighter
        omega

/-- Ready arguments are regrouped, however many they are, one level above them: a fold takes one argument away
and leaves the others ready. -/
theorem exists_regroups (arity : Nat) {args : List Node} (hargs : ∀ arg ∈ args, Ready scope room name arg) :
    ∃ grouped, Regroups standard (Reduces scope (room + 1)) name arity args grouped := by
  induction hlength : args.length using Nat.strong_induction_on generalizing args with
  | _ length ih =>
      rcases pairwise_kept_or_foldsPair fun first hfirst second hsecond =>
          settles_pair hname hstandard hunmarked (hargs first hfirst) (hargs second hsecond) with
        hkept | ⟨folded, others, hfold, hfolded⟩
      · obtain ⟨outcome, hinvokes, hoffered⟩ := exists_outcome_of_ready hname hargs
        by_cases hless : args.length < arity
        · cases outcome with
          | some offer => exact ⟨offer, .offered hkept hless hinvokes (hoffered offer rfl).settled.same.succ⟩
          | none => exact ⟨_, .left hkept fun _ => hinvokes⟩
        · exact ⟨_, .left hkept fun h => (hless h).elim⟩
      · by_cases hothers : others = []
        · subst hothers
          exact ⟨folded, .single hfold⟩
        · obtain ⟨first, second, hperm, _⟩ := hfold.perm
          have hnext : ∀ arg ∈ others ++ [folded], Ready scope room name arg := by
            intro arg harg
            rcases List.mem_append.mp harg with hother | hnew
            · exact hargs arg (hperm.mem_iff.mpr (List.mem_cons_of_mem _ (List.mem_cons_of_mem _ hother)))
            · exact List.mem_singleton.mp hnew ▸ hfolded
          have hsort := Node.sort_perm (others ++ [folded])
          have hshorter : (Node.sort (others ++ [folded])).length < length := by
            rw [← hlength, hsort.length_eq, hperm.length_eq]
            simp
          obtain ⟨grouped, hgrouped⟩ :=
            ih _ hshorter (fun arg harg => hnext arg (hsort.mem_iff.mp harg)) rfl
          rw [← arrange_of_flat (isCommutative_of_mem hname) fun arg harg => (hnext arg harg).flat] at hgrouped
          exact ⟨grouped, .folded hfold hothers hgrouped⟩

/-- A chain becomes something two levels above its arguments. -/
theorem exists_reduces_of_forall₂ {args values : List Node} (h : List.Forall₂ (Reduces scope room) args values) :
    ∃ result, Reduces scope (room + 2) (.application name args) result := by
  have hpairs : scope.registry.FoldsByPairs := by
    rw [hstandard]
    exact foldsByPairs_standard
  have hsettled : ∀ value ∈ values, Settled standard (Reduces scope room) value := by
    rw [← hstandard]
    exact settled_of_forall₂ (fun _ _ => Reduces.settled hpairs) h
  have hready := ready_arrange hname hsettled
  have hprepares := prepares_of_forall₂ hname (h.imp fun _ _ => Reduces.succ)
  obtain ⟨outcome, hinvokes, hoffered⟩ := exists_outcome_of_ready (R := Reduces scope (room + 1)) hname hready
  obtain ⟨grouped, hgrouped⟩ :=
    exists_regroups hname hstandard hunmarked (arrange standard name values).length hready
  have hcommutative := isCommutative_of_mem hname
  rw [← hstandard] at hprepares hinvokes hgrouped hcommutative
  cases outcome with
  | some offer =>
      exact ⟨offer, .rewritten hunmarked hprepares hinvokes (hoffered offer rfl).settled.same.succ⟩
  | none =>
      by_cases hlong : 2 < (arrange scope.registry name values).length
      · exact ⟨_, .regrouped hunmarked hprepares hinvokes hlong hcommutative hgrouped⟩
      · exact ⟨_, .undecided hunmarked hprepares hinvokes fun h => hlong h.1⟩

end Ready

end Chain

/-! ### Runs with one more level -/

open Evaluation

/-- Both environments have this scope, whatever else is in them. -/
def Environment.BothIn (scope : Scope) (left right : Environment) : Prop :=
  left.current = scope ∧ right.current = scope

/-- In one scope, an effect-free run shadows the same run with one more level. -/
theorem simulation_bothIn {scope : Scope} (hstandard : scope.registry = Builtin.standard)
    (hvalues : ∀ name value, scope.bindings.get? name = some value → value.EffectFree) :
    Simulation (.of (Node.Within .effectFree)) Failure.IsLimit (Environment.BothIn scope) 1 := by
  have hkind := Vocabulary.kind .effectFree
  have hregistry {left right : Environment} (hboth : Environment.BothIn scope left right) :
      left.registry = right.registry :=
    congrArg Scope.registry (hboth.1.trans hboth.2.symm)
  have hget {left right : Environment} {name : String} (hboth : Environment.BothIn scope left right) :
      left.get? name = scope.bindings.get? name ∧ right.get? name = scope.bindings.get? name :=
    ⟨congrArg (fun scope => scope.bindings.get? name) hboth.1,
      congrArg (fun scope => scope.bindings.get? name) hboth.2⟩
  refine .of_kind hkind ?_ (fun hboth => Registry.alike_of_eq (hregistry hboth)) ?_ ?_ ?_ ?_ id id
  · intro name bare args hnode hmarked
    obtain ⟨hname, _⟩ := Node.within_application.mp hnode
    rw [hname.1] at hmarked
    cases hmarked
  · intro left right name hboth _
    rw [(hget hboth).1, (hget hboth).2]
  · intro left right name value hboth _ hbound
    rw [(hget hboth).1] at hbound
    exact Node.effectFree_iff_within.mp (hvalues name value hbound)
  · intro room hrecur
    refine Stages.Handles.invokes hregistry ?_
    intro left right operation args hboth hmem _ hnode
    have hmem : operation ∈ Builtin.standard.operations := by
      rwa [← hstandard, ← hboth.1]
    obtain ⟨hname, hargs⟩ := Node.within_application.mp hnode
    exact (Builtin.quietIn_standard Vocabulary.suits_effectFree hmem hname hname.2 args hargs).shadowed hrecur
  · exact fun _ left _ _ => .inl ⟨_, rfl, left.depth, rfl⟩

/-- Nodes simplified one after the other do not reach the limit if none of them does on its own. -/
theorem simplifyEach_not_isLimit {K : Node → Prop} {recur : Simplifier} {scope : Scope} {R : Node → Node → Prop}
    (hobeys : recur.Obeys K scope R) {env : Environment} (henv : env.current = scope) {nodes : List Node}
    (hkind : ∀ node ∈ nodes, K node)
    (hnodes : ∀ node ∈ nodes, ∀ failure, (recur node env).1 = .error failure → ¬failure.IsLimit)
    {failure : Failure} (h : (simplifyEach recur nodes env).1 = .error failure) : ¬failure.IsLimit := by
  induction nodes with
  | nil => cases h
  | cons node rest ih =>
      rw [List.forall_mem_cons] at hkind hnodes
      rw [simplifyEach] at h
      rcases hnode : recur node env with ⟨other | result, mid⟩
      · rw [bind_run_error hnode] at h
        cases h
        exact hnodes.1 failure (by rw [hnode])
      · obtain ⟨rfl, _⟩ := hobeys node result env mid hkind.1 henv hnode
        rw [bind_run_ok hnode] at h
        rcases hrest : simplifyEach recur rest mid with ⟨other | results, after⟩
        · rw [bind_run_error hrest] at h
          cases h
          exact ih hkind.2 hnodes.2 (by rw [hrest])
        · rw [bind_run_ok hrest] at h
          cases h

/-- Where the arguments of a chain fail, the chain fails with them. -/
theorem simplifyStep_of_failed {recur : Simplifier} {name : String} (hname : name ∈ Builtin.chainNames)
    (hunmarked : deferred? name = none) {args : List Node} {env : Environment}
    (hstandard : env.registry = Builtin.standard) {failure : Failure}
    (h : (simplifyEach recur args env).1 = .error failure) :
    (simplifyStep recur (.application name args) env).1 = .error failure := by
  have hpreserves : ¬env.registry.preservesArguments name := by
    rw [hstandard, Builtin.preservesArguments_eq_false hname]
    exact Bool.false_ne_true
  rw [simplifyStep_application, simplifyApplication_of_not_preserves hunmarked hpreserves]
  rcases heach : simplifyEach recur args env with ⟨outcome, after⟩
  rw [heach] at h
  cases h
  rw [bind_run_error heach]

/-- **Wide chains need no more nesting than their arguments.** With the standard operations and any
effect-free variables, if every argument of a sum, a product or a connective simplifies on its own without
reaching a nesting limit, the whole does under that limit and two more levels, however many arguments there
are. -/
theorem simplify_wide (env : Environment) (hstandard : env.registry = Builtin.standard)
    (hvalues : ∀ symbol value, env.get? symbol = some value → value.EffectFree) {limit : Nat}
    (hdepth : env.depth ≤ limit) {name : String} (hname : name ∈ Builtin.chainNames) {args : List Node}
    (hfree : ∀ arg ∈ args, arg.EffectFree)
    (hargs : ∀ arg ∈ args, ∀ depth,
      (simplify arg { env with maxDepth := limit }).1 ≠ .error (.recursionLimit depth)) :
    ∀ depth, (simplify (.application name args) { env with maxDepth := limit + 2 }).1 ≠
      .error (.recursionLimit depth) := by
  have hunmarked : deferred? name = none := by
    have htable : ∀ name ∈ Builtin.chainNames, deferred? name = none := by decide
    exact htable name hname
  have hquiet := quiet_of_standard hstandard hvalues
  let low : Environment := { env with maxDepth := limit }
  let high : Environment := { env with maxDepth := limit + 2 }
  let deeper : Environment := { high with depth := env.depth + 1 }
  have hlow : low.current = env.current := rfl
  have hdeeper : deeper.registry = Builtin.standard := hstandard
  let room := limit - env.depth
  have hroom : limit + 2 - env.depth = room + 2 := by omega
  have hobeys := simplifyWithin_obeys hquiet room
  intro depth
  show (simplifyWithin (limit + 2 - env.depth) (.application name args) high).1 ≠ _
  rw [hroom]
  rcases hrun : simplifyEach (simplifyWithin room) args low with ⟨failure | values, after⟩
  · have hlimit : ¬failure.IsLimit := by
      refine simplifyEach_not_isLimit hobeys hlow hfree (fun arg harg other hfails => ?_) (by rw [hrun])
      rintro ⟨depth, rfl⟩
      exact hargs arg harg depth hfails
    have hinput : ∀ arg ∈ args, arg.Within .effectFree :=
      fun arg harg => Node.effectFree_iff_within.mp (hfree arg harg)
    have hshadow := shadowed_simplifyEach
      (fun node hnode => shadowed_simplifyWithin (simulation_bothIn hstandard hvalues) room hnode) hinput
    rcases hshadow low deeper ⟨rfl, rfl⟩ with ⟨other, hfails, hother⟩ | ⟨hsame, _⟩
    · rw [hrun] at hfails
      cases hfails
      exact (hlimit hother).elim
    · rw [hrun] at hsame
      have hfailed := simplifyStep_of_failed hname hunmarked hdeeper hsame.symm
      rw [simplifyWithin, nested_run]
      dsimp only [deeper] at hfailed ⊢
      rw [hfailed]
      rintro ⟨⟩
      exact hlimit ⟨depth, rfl⟩
  · obtain ⟨_, hreduced, _⟩ := forall₂_of_simplifyEach hobeys hlow hfree hrun
    obtain ⟨result, hresult⟩ := Chain.exists_reduces_of_forall₂ hname hstandard hunmarked hreduced
    rw [simplifyWithin_follows _ _ _ _ hresult high rfl]
    intro hlimit
    cases hlimit

set_option maxRecDepth 10000 in
/-- Four arguments under a limit of four levels: a number, two sums with a variable, and a quotient that fails.
The sum of the four fails as the quotient does, and not at a limit of six levels. -/
theorem simplify_wide_sum :
    let env := Environment.standard
    let args := [.integer 1, Node.application "+" [.symbol "x", .integer 2],
      .application "+" [.symbol "x", .application "*" [.integer 3, .integer 4]],
      .application "/" [.integer 1, .integer 0]]
    env.registry = Builtin.standard ∧ env.depth ≤ 4 ∧ "+" ∈ Builtin.chainNames ∧
      (∀ arg ∈ args, arg.EffectFree) ∧
      (∀ arg ∈ args, ∀ depth,
        (simplify arg { env with maxDepth := 4 }).1 ≠ .error (.recursionLimit depth)) ∧
      ∀ depth, (simplify (.application "+" args) { env with maxDepth := 4 + 2 }).1 ≠
        .error (.recursionLimit depth) := by
  intro env args
  have hvalues : ∀ symbol value, env.get? symbol = some value → value.EffectFree := fun _ _ h => by cases h
  have hfree : ∀ arg ∈ args, arg.EffectFree := by
    have hplus : EffectFreeName "+" := by decide
    have htimes : EffectFreeName "*" := by decide
    have hover : EffectFreeName "/" := by decide
    simp [args, Node.effectFree_application, Node.effectFree_symbol, Node.integer, Node.effectFree_number, hplus,
      htimes, hover]
  have hargs : ∀ arg ∈ args, ∀ depth,
      (simplify arg { env with maxDepth := 4 }).1 ≠ .error (.recursionLimit depth) := by
    have hsucceeds : ∀ arg ∈ args.take 3, (simplify arg { env with maxDepth := 4 }).1.toOption.isSome := by
      decide +kernel
    have hfails : (simplify (.application "/" [.integer 1, .integer 0]) { env with maxDepth := 4 }).1 =
        .error .divisionByZero := rfl
    intro arg harg depth hlimit
    rcases List.mem_append.mp (List.take_append_drop 3 args ▸ harg) with hfirst | hlast
    · have hsome := hsucceeds arg hfirst
      rw [hlimit] at hsome
      cases hsome
    · rw [List.mem_singleton.mp hlast, hfails] at hlimit
      cases hlimit
  have hname : "+" ∈ Builtin.chainNames := by decide
  exact ⟨rfl, Nat.zero_le 4, hname, hfree, hargs, simplify_wide env rfl hvalues (Nat.zero_le 4) hname hfree hargs⟩

end SymbolicAlgebra
