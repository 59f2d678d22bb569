import SymbolicAlgebra.Double.Binary

/-!
Reading doubles. The grammar: an optional sign, then `inf`, `infinity` or `nan` in any case, or
digits with an optional point (a digit on one side of it is enough) and an optional exponent. The
value is the double nearest to the decimal.
-/

namespace SymbolicAlgebra.Double

/-- The value of a run of digits read after `start`. -/
def digitsValue (start : Nat) (digits : List Char) : Nat :=
  digits.foldl (fun value c => 10 * value + (c.toNat - '0'.toNat)) start

/-- An optional sign, and the rest. -/
def splitSign : List Char → Bool × List Char
  | '-' :: rest => (true, rest)
  | '+' :: rest => (false, rest)
  | rest => (false, rest)

/-- The value of an exponent part; nothing at all stands for zero. -/
def readExponent? : List Char → Option Int
  | [] => some 0
  | c :: rest =>
    if c = 'e' ∨ c = 'E' then
      let (negative, digits) := splitSign rest
      if digits.isEmpty || !digits.all Char.isDigit then none
      else
        let value : Int := digitsValue 0 digits
        some (if negative then -value else value)
    else none

/-- The double nearest to `digits * 10 ^ scale`. Scales far outside the range of doubles are
answered at once, without their powers of ten. -/
def ofDecimal (digits : Nat) (scale : Int) : Float :=
  if digits = 0 then 0
  else
    let leading := scale + (Nat.repr digits).length
    if leading > 400 then infinity
    else if leading < -400 then 0
    else match scale with
      | .ofNat n => Float.ofScientific digits false n
      | .negSucc n => Float.ofScientific digits true (n + 1)

/-- Reads digits with an optional point and exponent. -/
def readUnsigned? (cs : List Char) : Option Float := do
  let whole := cs.takeWhile Char.isDigit
  let rest := cs.dropWhile Char.isDigit
  let (fraction, rest) := match rest with
    | '.' :: rest => (rest.takeWhile Char.isDigit, rest.dropWhile Char.isDigit)
    | _ => ([], rest)
  if whole.isEmpty && fraction.isEmpty then none
  else
    let exponent ← readExponent? rest
    some (ofDecimal (digitsValue (digitsValue 0 whole) fraction) (exponent - fraction.length))

/-- Reads a double, or gives `none` where the text is not one. -/
def ofText? (text : String) : Option Float :=
  let (negative, body) := splitSign text.toList
  let magnitude :=
    let word := String.ofList (body.map Char.toLower)
    if word == "inf" || word == "infinity" then some infinity
    else if word == "nan" then some notANumber
    else readUnsigned? body
  magnitude.map fun x => if negative then -x else x

end SymbolicAlgebra.Double
