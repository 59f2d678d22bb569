import SymbolicAlgebra.Proofs.Regrouping

/-! Which expressions are written alike. A text determines what it is read as, and expressions with one text
are read as one. What is read is the expression itself up to nesting exactly where no operand has lost
parentheses that it needs. So the text of such expressions determines them up to nesting, and that of every
other expression is the text of one that is different. -/

namespace SymbolicAlgebra

open Builtin (keywords standard)

namespace Reading

variable {node other : Node}

theorem render_eq_iff_chars_eq : render standard node = render standard other ↔ chars node = chars other :=
  String.toList_inj.symm

/-- The text of every expression can be read, and it is the text of what is read. -/
theorem read_render_eq_reread (h : Legible node) : read (render standard node) = some (reread node) := by
  have hreread := rereadAs_reread h
  rw [← render_eq_iff_chars_eq.mpr hreread.chars_eq]
  exact read_render hreread.legible hreread.flat

/-- Expressions are written alike exactly if they are read alike. -/
theorem render_eq_iff_reread_eq (h : Legible node) (hother : Legible other) :
    render standard node = render standard other ↔ reread node = reread other := by
  constructor
  · intro heq
    have hread := read_render_eq_reread h
    rw [heq, read_render_eq_reread hother] at hread
    exact (Option.some.inj hread).symm
  · intro heq
    rw [render_eq_iff_chars_eq, ← (rereadAs_reread h).chars_eq, heq, (rereadAs_reread hother).chars_eq]

/-- An expression is read as what it was written for, up to nesting, exactly if it is steady. -/
theorem reread_eq_unnest_iff (h : Legible node) : reread node = node.unnest ↔ node.Steady := by
  have hreread := rereadAs_reread h
  rw [← (grows_unnest h).eq_iff]
  constructor
  · intro heq
    rw [← heq, hreread.chars_eq]
  · intro heq
    refine eq_of_render_eq hreread.legible h.unnest hreread.flat node.flat_unnest ?_
    rw [render_eq_iff_chars_eq, hreread.chars_eq, heq]

end Reading

open Reading

/-- The text of an expression determines it up to nesting, among the expressions in which no operand has lost
parentheses that it needs, exactly if it is such an expression itself. -/
theorem render_determines_iff_steady {node : Node} (h : Legible node) :
    (∀ other, Legible other → other.Steady →
      Environment.standard.render node = Environment.standard.render other → node.unnest = other.unnest) ↔
      node.Steady := by
  constructor
  · intro hdetermines
    have hreread := rereadAs_reread h
    have hsame := hdetermines (reread node) hreread.legible hreread.flat.steady
      (render_eq_iff_chars_eq.mpr hreread.chars_eq.symm)
    rw [hreread.flat.unnest_eq] at hsame
    exact (reread_eq_unnest_iff h).mp hsame.symm
  · intro hsteady other hother hother' heq
    rw [← (reread_eq_unnest_iff h).mpr hsteady, ← (reread_eq_unnest_iff hother).mpr hother']
    exact (render_eq_iff_reread_eq h hother).mp heq

/-- A product of two factors. -/
def product (left right : Node) : Node :=
  .application "*" [left, right]

/-- A remainder of two operands. -/
def remainder (left right : Node) : Node :=
  .application "%" [left, right]

theorem legible_product {left right : Node} (hleft : Legible left) (hright : Legible right) :
    Legible (product left right) :=
  .binary (show (⟨"*", "*", .between, .multiplicative⟩ : Keyword) ∈ keywords by decide) rfl hleft hright

theorem legible_remainder {left right : Node} (hleft : Legible left) (hright : Legible right) :
    Legible (remainder left right) :=
  .binary (show (⟨"%", "%", .between, .multiplicative⟩ : Keyword) ∈ keywords by decide) rfl hleft hright

theorem legible_letter {name : String} (hname : name ∈ ["a", "b", "c", "d"]) : Legible (.symbol name) := by
  have htable : ∀ name ∈ ["a", "b", "c", "d"], isWord name.toList ∧ IsFree name := by decide
  exact .symbol (htable name hname).1 (htable name hname).2

/-- In front of a product a remainder needs no parentheses, so that `a % b * c * d` is a text of its own. -/
theorem render_determines_iff_steady_remainder :
    let node := product (remainder (.symbol "a") (.symbol "b")) (product (.symbol "c") (.symbol "d"))
    let other := product (product (remainder (.symbol "a") (.symbol "b")) (.symbol "c")) (.symbol "d")
    Legible node ∧ Legible other ∧ node.Steady ∧ other.Steady ∧
      Environment.standard.render node = Environment.standard.render other ∧ node.unnest = other.unnest := by
  intro node other
  have hremainder : Legible (remainder (.symbol "a") (.symbol "b")) :=
    legible_remainder (legible_letter (by decide)) (legible_letter (by decide))
  have hnode : Legible node :=
    legible_product hremainder (legible_product (legible_letter (by decide)) (legible_letter (by decide)))
  have hother : Legible other :=
    legible_product (legible_product hremainder (legible_letter (by decide))) (legible_letter (by decide))
  have hsteady : node.Steady := by decide
  have hsteady' : other.Steady := by decide
  have hrender : Environment.standard.render node = Environment.standard.render other := by decide
  exact ⟨hnode, hother, hsteady, hsteady', hrender,
    (render_determines_iff_steady hnode).mpr hsteady other hother hsteady' hrender⟩

/-- A remainder that a product inside of a product begins with loses its parentheses: what remains is read as
the remainder of a product. -/
theorem render_ambiguous_product :
    let node := product (.symbol "a") (product (remainder (.symbol "b") (.symbol "c")) (.symbol "d"))
    let other := product (remainder (product (.symbol "a") (.symbol "b")) (.symbol "c")) (.symbol "d")
    Legible node ∧ Legible other ∧ Environment.standard.render node = "a * b % c * d" ∧
      Environment.standard.render other = "a * b % c * d" ∧ node.unnest ≠ other.unnest := by
  refine ⟨?_, ?_, by decide, by decide, fun heq => ?_⟩
  · exact legible_product (legible_letter (by decide)) (legible_product
      (legible_remainder (legible_letter (by decide)) (legible_letter (by decide))) (legible_letter (by decide)))
  · exact legible_product (legible_remainder
      (legible_product (legible_letter (by decide)) (legible_letter (by decide))) (legible_letter (by decide)))
      (legible_letter (by decide))
  · exact absurd (congrArg Node.complexity heq) (by decide)

end SymbolicAlgebra
