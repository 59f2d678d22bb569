import SymbolicAlgebra.Proofs.Tree

/-! Laws of substitution: two substitutions one after the other are one substitution, and the result
depends on the images of the symbols that occur, and on nothing else. To substitute is to rebuild the tree
with the images in the place of its symbols. -/

namespace SymbolicAlgebra.Node

/-- What a substitution puts in the place of a symbol. -/
def imageOf (image : String → Option Node) (name : String) : Node :=
  (image name).getD (.symbol name)

/-- Replacing symbols and then the symbols of what has come of that. -/
def thenSubstitute (first second : String → Option Node) (name : String) : Option Node :=
  some ((imageOf first name).substitute second)

theorem substitute_symbol (image : String → Option Node) (name : String) :
    (Node.symbol name).substitute image = imageOf image name := by
  rw [substitute, imageOf]

/-- What a substitution makes of one part of a node, its own parts left as they are. -/
def imageOfPart (image : String → Option Node) : Node → Node
  | symbol name => imageOf image name
  | part => part

section Rebuilding

variable {m : Type → Type} [Monad m] [LawfulMonad m] (image : String → Option Node)

theorem replacingAllM_imageOfPart {nodes : List Node}
    (h : ∀ node ∈ nodes, node.replacingM (fun part => pure (f := m) (imageOfPart image part)) =
      pure (node.substitute image)) :
    replacingAllM (fun part => pure (f := m) (imageOfPart image part)) nodes = pure (substituteAll image nodes) := by
  induction nodes with
  | nil => rfl
  | cons node rest ih =>
      rw [List.forall_mem_cons] at h
      rw [replacingAllM, h.1, ih h.2, pure_bind, pure_bind, substituteAll]

/-- The images are put in while the tree is rebuilt from its leaves, and no symbol of an image is replaced. -/
theorem replacingM_imageOfPart (node : Node) :
    node.replacingM (fun part => pure (f := m) (imageOfPart image part)) = pure (node.substitute image) := by
  induction node using inductionOn with
  | number value => rfl
  | symbol name => rfl
  | boolean value => rfl
  | application name args ih =>
      rw [replacingM, replacingAllM_imageOfPart image ih, pure_bind, substitute]
      rfl
  | pair first second ihfirst ihsecond =>
      rw [replacingM, ihfirst, pure_bind, ihsecond, pure_bind, substitute]
      rfl
  | sequence elements ih =>
      rw [replacingM, replacingAllM_imageOfPart image ih, pure_bind, substitute]
      rfl

end Rebuilding

theorem substitute_substitute (first second : String → Option Node) (node : Node) :
    (node.substitute first).substitute second = node.substitute (thenSubstitute first second) := by
  induction node using inductionOn with
  | number value => rfl
  | symbol name =>
      rw [substitute_symbol, substitute_symbol]
      rfl
  | boolean value => rfl
  | application name args ih =>
      simp only [substitute, substituteAll_eq_map, List.map_map]
      congr 1
      exact List.map_congr_left ih
  | pair left right ihleft ihright => rw [substitute, substitute, substitute, ihleft, ihright]
  | sequence elements ih =>
      simp only [substitute, substituteAll_eq_map, List.map_map]
      congr 1
      exact List.map_congr_left ih

/-- Two substitutions do the same to a node exactly when they do the same to its symbols. -/
theorem substitute_eq_substitute_iff (f g : String → Option Node) (node : Node) :
    node.substitute f = node.substitute g ↔
      ∀ name, node.mentions name → imageOf f name = imageOf g name := by
  induction node using inductionOn with
  | number value => simp [substitute, mentions]
  | symbol name => simp [substitute_symbol, mentions]
  | boolean value => simp [substitute, mentions]
  | application name args ih =>
      simp only [substitute, substituteAll_eq_map, mentions, anyMentions_eq_any, List.any_eq_true,
        application.injEq, true_and, List.map_inj_left]
      constructor
      · rintro heq symbol ⟨arg, harg, hmentions⟩
        exact (ih arg harg).mp (heq arg harg) symbol hmentions
      · intro heq arg harg
        exact (ih arg harg).mpr fun symbol hmentions => heq symbol ⟨arg, harg, hmentions⟩
  | pair left right ihleft ihright =>
      simp only [substitute, mentions, pair.injEq, ihleft, ihright, Bool.or_eq_true]
      constructor
      · rintro ⟨hleft, hright⟩ symbol (hmentions | hmentions)
        · exact hleft symbol hmentions
        · exact hright symbol hmentions
      · intro heq
        exact ⟨fun symbol h => heq symbol (.inl h), fun symbol h => heq symbol (.inr h)⟩
  | sequence elements ih =>
      simp only [substitute, substituteAll_eq_map, mentions, anyMentions_eq_any, List.any_eq_true,
        sequence.injEq, List.map_inj_left]
      constructor
      · rintro heq symbol ⟨element, helement, hmentions⟩
        exact (ih element helement).mp (heq element helement) symbol hmentions
      · intro heq element helement
        exact (ih element helement).mpr fun symbol hmentions =>
          heq symbol ⟨element, helement, hmentions⟩

end SymbolicAlgebra.Node
