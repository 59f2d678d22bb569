import SymbolicAlgebra.Proofs.Handlers
import SymbolicAlgebra.Proofs.Registry

/-! The standard registry. No two of its operations share a name and a signature, so that all of them are
in it, in the order in which they are listed. What a call goes to is found in these lists. -/

namespace SymbolicAlgebra

namespace Builtin

set_option maxRecDepth 10000 in
/-- Every standard operation has a place of its own in the registry. -/
theorem standard_operations : standard.operations =
    arithmetic ++ comparison ++ logic ++ control ++ (collection ++ statistics ++ vector) := by
  rfl

theorem standard_keywords : standard.keywords = keywords := by
  rfl

/-- The operations of a name, in the order in which they are listed. -/
theorem overloads_standard (name : String) : standard.overloads name =
    (arithmetic ++ comparison ++ logic ++ control ++ (collection ++ statistics ++ vector)).filter
      (·.name == name) := by
  rw [Registry.overloads, standard_operations]

/-- A standard operation that is not named for its effects is quiet on every kind of nodes that its name may
be applied to, and that has what the standard operations write. -/
theorem quietOn_standard {K : Node → Prop} (hK : Node.SuitedKind K) {operation : Operation}
    (hmem : operation ∈ standard.operations) (hname : K (.application operation.name []))
    (heffects : operation.name ∉ effectfulNames) : operation.QuietOn K := by
  rw [standard_operations] at hmem
  simp only [List.mem_append] at hmem
  rcases hmem with (((h | h) | h) | h) | ((h | h) | h)
  · exact quiet_arithmetic hK operation h
  · exact quiet_comparison hK operation h
  · exact quiet_logic hK operation h
  · exact quiet_control hK operation h heffects
  · exact quiet_collection hK operation h
  · exact quiet_statistics hK operation h hname
  · exact quiet_vector hK operation h

theorem quietIn_standard {V : Vocabulary} (hV : V.Suits) {operation : Operation}
    (hmem : operation ∈ standard.operations) (hname : V.name operation.name)
    (heffects : operation.name ∉ effectfulNames) : operation.QuietIn V :=
  quietOn_standard hV.kind hmem (Node.within_application.mpr ⟨hname, nofun⟩) heffects

set_option maxRecDepth 10000 in
/-- The standard operations with effects. -/
theorem effectful_operations : standard.operations.filter (·.name ∈ effectfulNames) =
    [ (Operation.binary "define" .application .any defineOperation).preservingArguments,
      (Operation.binary "define" .symbol .any defineVariable).preservingArguments,
      (Operation.universal "define" fun args =>
        .fail (.invalidDefinition
          ("cannot define " ++ toString args.length ++ " argument(s)"))).preservingArguments,
      (Operation.unary "del" .symbol delete).preservingArguments,
      Operation.nullary "random" random,
      Operation.binary "random" .number .number randomBetween,
      (Operation.ternary "set" .symbol .any .any setElement).preservingArguments ] := by
  rfl

/-- A standard operation with effects is one of the seven. -/
theorem effectful_cases {motive : Operation → Prop} {operation : Operation}
    (hmem : operation ∈ standard.operations) (heffects : operation.name ∈ effectfulNames)
    (definesOperation :
      motive (Operation.binary "define" .application .any defineOperation).preservingArguments)
    (definesVariable :
      motive (Operation.binary "define" .symbol .any defineVariable).preservingArguments)
    (definesNothing :
      motive (Operation.universal "define" fun args =>
        .fail (.invalidDefinition
          ("cannot define " ++ toString args.length ++ " argument(s)"))).preservingArguments)
    (deletes : motive (Operation.unary "del" .symbol delete).preservingArguments)
    (draws : motive (Operation.nullary "random" random))
    (drawsBetween : motive (Operation.binary "random" .number .number randomBetween))
    (setsElement :
      motive (Operation.ternary "set" .symbol .any .any setElement).preservingArguments) :
    motive operation := by
  have hlisted : operation ∈ standard.operations.filter (·.name ∈ effectfulNames) :=
    List.mem_filter.mpr ⟨hmem, decide_eq_true heffects⟩
  rw [effectful_operations] at hlisted
  simp only [List.mem_cons, List.not_mem_nil, or_false] at hlisted
  rcases hlisted with rfl | rfl | rfl | rfl | rfl | rfl | rfl
  · exact definesOperation
  · exact definesVariable
  · exact definesNothing
  · exact deletes
  · exact draws
  · exact drawsBetween
  · exact setsElement

theorem quiet_standard {operation : Operation} (hmem : operation ∈ standard.operations)
    (hname : EffectFreeName operation.name) : operation.Quiet :=
  (quietIn_standard Vocabulary.suits_effectFree hmem hname hname.2).quiet

/-- The names whose applications have neither an order nor a nesting of their arguments. -/
def chainNames : List String :=
  ["+", "*", "and", "or"]

theorem mem_chainNames_of_commutative {name : String} (h : standard.isCommutative name) :
    name ∈ chainNames := by
  have hcommutative : ∀ operation ∈ standard.operations, operation.attributes.commutative →
      operation.name ∈ chainNames := by
    decide +kernel
  obtain ⟨operation, hmem, rfl, hselected⟩ := Registry.exists_of_hasAttribute h
  exact hcommutative operation hmem hselected

theorem binary_of_mem_chainNames {operation : Operation} (hmem : operation ∈ standard.operations)
    (hname : operation.name ∈ chainNames) : operation.signature.length = 2 ∧
      operation.signature ≠ [.universal] ∧ operation.attributes.preservesArguments = false := by
  have hbinary : ∀ operation ∈ standard.operations, operation.name ∈ chainNames →
      operation.signature.length = 2 ∧ operation.signature ≠ [.universal] ∧
        operation.attributes.preservesArguments = false := by
    decide +kernel
  exact hbinary operation hmem hname

/-- No operation takes a chain of any other number of arguments than two. -/
theorem resolve_eq_none_of_length {name : String} (hname : name ∈ chainNames) {args : List Node}
    (hlength : args.length ≠ 2) : standard.resolve name args = none := by
  cases hresolve : standard.resolve name args with
  | none => rfl
  | some operation =>
      obtain ⟨hmem, rfl, htakes⟩ := Registry.mem_of_resolve hresolve
      obtain ⟨htwo, huniversal, _⟩ := binary_of_mem_chainNames hmem hname
      rcases htakes with haccepts | htakes
      · exact (hlength ((Signature.length_eq_of_accepts haccepts).symm.trans htwo)).elim
      · exact (huniversal (of_decide_eq_true htakes)).elim

theorem preservesArguments_eq_false {name : String} (hname : name ∈ chainNames) :
    standard.preservesArguments name = false := by
  refine Bool.eq_false_iff.mpr fun hpreserves => ?_
  obtain ⟨operation, hmem, rfl, hselected⟩ := Registry.exists_of_hasAttribute hpreserves
  rw [(binary_of_mem_chainNames hmem hname).2.2] at hselected
  cases hselected

/-- The operations of commutative names take two arguments and have them simplified. -/
theorem foldsByPairs_standard : standard.FoldsByPairs := by
  intro name hcommutative
  have hname := mem_chainNames_of_commutative hcommutative
  refine ⟨?_, fun args hlong => resolve_eq_none_of_length hname (Nat.ne_of_gt hlong)⟩
  rw [preservesArguments_eq_false hname]
  exact Bool.false_ne_true

/-! ### Keywords -/

variable {keyword : Keyword}

/-- No two keywords stand for one operation. -/
theorem writing?_standard (hmem : keyword ∈ keywords) : standard.writing? keyword.operation = some keyword := by
  have htable : ∀ keyword ∈ keywords, keywords.find? (·.operation == keyword.operation) = some keyword := by
    decide
  rw [Registry.writing?, Registry.keywordFor?, standard_keywords, htable keyword hmem]

theorem eq_of_operation_eq {other : Keyword} (hmem : keyword ∈ keywords) (hother : other ∈ keywords)
    (h : keyword.operation = other.operation) : keyword = other := by
  have hwriting := writing?_standard hmem
  rw [h, writing?_standard hother] at hwriting
  exact (Option.some.inj hwriting).symm

/-- Operations are written with keywords only. -/
theorem mem_keywords_of_writing? {name : String} (h : standard.writing? name = some keyword) :
    keyword ∈ keywords ∧ keyword.operation = name := by
  have hcalls : ∀ operation ∈ standard.operations, operation.fixity = .call := by
    rw [standard_operations]
    decide
  unfold Registry.writing? at h
  split at h
  · rename_i found hfound
    cases h
    rw [Registry.keywordFor?, standard_keywords] at hfound
    have hoperation := List.find?_some hfound
    exact ⟨List.mem_of_find?_eq_some hfound, eq_of_beq hoperation⟩
  · split at h
    · rename_i operation hoperation
      have hmem := List.mem_of_find?_eq_some hoperation
      have hcall := hcalls operation (List.mem_filter.mp hmem).1
      have hother := List.find?_some hoperation
      rw [hcall] at hother
      cases hother
    · cases h

theorem fixity_ne_call (hmem : keyword ∈ keywords) : keyword.fixity ≠ .call := by
  have htable : ∀ keyword ∈ keywords, keyword.fixity ≠ .call := by decide
  exact htable keyword hmem

theorem isCommutative_of_mem {name : String} (h : name ∈ chainNames) : standard.isCommutative name := by
  have htable : ∀ name ∈ chainNames, standard.isCommutative name = true := by
    simp only [Registry.isCommutative, Registry.hasAttribute, overloads_standard]
    decide
  exact htable name h

theorem isForwardCommutative_eq_false {name : String} (h : name ∈ chainNames) :
    standard.isForwardCommutative name = false := by
  have htable : ∀ name ∈ chainNames, standard.isForwardCommutative name = false := by
    simp only [Registry.isForwardCommutative, Registry.hasAttribute, overloads_standard]
    decide
  exact htable name h

theorem keyword_of_mem_chainNames {name : String} (h : name ∈ chainNames) :
    ∃ keyword ∈ keywords, keyword.operation = name ∧ keyword.fixity = .between := by
  have htable : ∀ name ∈ chainNames, ∃ keyword ∈ keywords,
      keyword.operation = name ∧ keyword.fixity = .between := by
    decide
  exact htable name h

/-- Only operators between their operands are commutative. -/
theorem isCommutative_eq_false (hmem : keyword ∈ keywords) (hfixity : keyword.fixity ≠ .between) :
    standard.isCommutative keyword.operation = false := by
  refine Bool.eq_false_iff.mpr fun hcommutative => hfixity ?_
  obtain ⟨other, hother, hoperation, hbetween⟩ :=
    keyword_of_mem_chainNames (mem_chainNames_of_commutative hcommutative)
  rw [← eq_of_operation_eq hother hmem hoperation, hbetween]

theorem isCommutative_eq_false_of_writing? {name : String} (h : standard.writing? name = none) :
    standard.isCommutative name = false := by
  refine Bool.eq_false_iff.mpr fun hcommutative => ?_
  obtain ⟨keyword, hmem, rfl, -⟩ := keyword_of_mem_chainNames (mem_chainNames_of_commutative hcommutative)
  rw [writing?_standard hmem] at h
  cases h

end Builtin

end SymbolicAlgebra
