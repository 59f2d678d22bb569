import SymbolicAlgebra.Double.Shortest

/-!
The text of a double. Its digits are the shortest that read back; a `Layout` decides where the
point goes. Expressions and messages lay the same digits out differently.
-/

namespace SymbolicAlgebra.Double

/-- How digits become text: which powers of ten of the leading digit are written out in place, and
whether a whole value written so carries a zero after the point. -/
structure Layout where
  inPlace : Int → Bool
  pointZero : Bool

/-- In expressions magnitudes from `10 ^ (-4)` up to `10 ^ 16` are written in place, with a digit
after the point; others have an exponent. -/
def expressionLayout : Layout :=
  ⟨fun exponent => -4 ≤ exponent && exponent < 16, true⟩

/-- In messages every magnitude is written in place, and a whole value has no point. -/
def messageLayout : Layout :=
  ⟨fun _ => true, false⟩

private def zeros (count : Nat) : String :=
  String.ofList (List.replicate count '0')

/-- The decimal with its point in place. -/
def Decimal.positional (d : Decimal) (pointZero : Bool) : String :=
  let text := d.text
  match d.scale with
  | .ofNat n => text ++ zeros n ++ if pointZero then ".0" else ""
  | .negSucc n =>
    let places := n + 1
    if text.length ≤ places then
      "0." ++ zeros (places - text.length) ++ text
    else
      let whole := text.length - places
      String.ofList (text.toList.take whole) ++ "." ++ String.ofList (text.toList.drop whole)

/-- The decimal with one digit before the point and an exponent. -/
def Decimal.scientific (d : Decimal) : String :=
  let fraction := d.text.toList.drop 1
  String.ofList (d.text.toList.take 1)
    ++ (if fraction.isEmpty then "" else "." ++ String.ofList fraction)
    ++ "e" ++ toString d.exponent

/-- The text of the magnitude of a double that is a number. -/
def magnitudeText (layout : Layout) (x : Float) : String :=
  if x.isInf then "inf"
  else if units x = 0 then (if layout.pointZero then "0.0" else "0")
  else
    let d := shortest x
    if layout.inPlace d.exponent then d.positional layout.pointZero else d.scientific

/-- The text of a double. A negative zero keeps its sign; what is not a number has none. -/
def text (layout : Layout) (x : Float) : String :=
  if x.isNaN then "NaN" else (if signBit x then "-" else "") ++ magnitudeText layout x

end SymbolicAlgebra.Double
