import SymbolicAlgebra.Number.Digits
import SymbolicAlgebra.Number.Word
import SymbolicAlgebra.Double.Text

/-!
Numbers: integers, exact at any size, and doubles. An integer is held as a machine word where it
fits; arithmetic on words widens when a result leaves their range, and every result computed here is
back in a word when it can be, so that an integer that was computed has one representation.
-/

namespace SymbolicAlgebra

inductive Number where
  | small (value : Int64)
  | big (value : Int)
  | real (value : Float)
deriving DecidableEq

instance : Inhabited Number := ⟨.small 0⟩

namespace Number

/-- The integer in its one normal representation. -/
def ofInt (value : Int) : Number :=
  match Word.ofInt? value with
  | some word => .small word
  | none => .big value

/-- The integer that a number is, or `none` for a double, whole or not. -/
def toInt? : Number → Option Int
  | .small value => some value.toInt
  | .big value => some value
  | .real _ => none

def isInteger (a : Number) : Bool :=
  a.toInt?.isSome

/-- The nearest double; integers beyond the range of doubles are infinite. -/
def toFloat : Number → Float
  | .small value => Double.ofInt value.toInt
  | .big value => Double.ofInt value
  | .real value => value

def isZero : Number → Bool
  | .small value => value = 0
  | .big value => value = 0
  | .real value => value == 0

def isOne : Number → Bool
  | .small value => value = 1
  | .big value => value = 1
  | .real value => value == 1

def isNegative : Number → Bool
  | .small value => value < 0
  | .big value => value < 0
  | .real value => value < 0

/-- The text of a number in expressions. -/
def text : Number → String
  | .small value => intText value.toInt
  | .big value => intText value
  | .real value => Double.text Double.expressionLayout value

/-- Structural equality: one representation, and within it one value. A word and a double are never
the same number, whatever their values. -/
def same : Number → Number → Bool
  | .small a, .small b => a = b
  | .big a, .big b => a = b
  | .real a, .real b => Double.same a b
  | _, _ => false

/-- Lifts an operation to numbers: done on words as long as the result is a word, on integers
otherwise, and on doubles as soon as one side is a double. -/
def lift (onWords : Int64 → Int64 → Option Int64) (onInts : Int → Int → Int)
    (onFloats : Float → Float → Float) (a b : Number) : Number :=
  match a, b with
  | .small x, .small y =>
    match onWords x y with
    | some word => .small word
    | none => ofInt (onInts x.toInt y.toInt)
  | a, b =>
    match a.toInt?, b.toInt? with
    | some x, some y => ofInt (onInts x y)
    | _, _ => .real (onFloats a.toFloat b.toFloat)

def add : Number → Number → Number :=
  lift Word.add? (· + ·) (· + ·)

def mul : Number → Number → Number :=
  lift Word.mul? (· * ·) (· * ·)

def neg : Number → Number
  | .small value =>
    match Word.neg? value with
    | some word => .small word
    | none => ofInt (-value.toInt)
  | .big value => ofInt (-value)
  | .real value => .real (-value)

/-- Subtraction adds the opposite, also between doubles. -/
def sub (a b : Number) : Number :=
  a.add b.neg

/-- The numeric order: exact between integers, that of doubles otherwise. It is `none` exactly when
a side is not a number. -/
def compare? (a b : Number) : Option Ordering :=
  match a, b with
  | .small x, .small y => some (compare x y)
  | a, b =>
    match a.toInt?, b.toInt? with
    | some x, some y => some (compare x y)
    | _, _ => Double.compare? a.toFloat b.toFloat

/-- The canonical order of numbers: by value, what is not a number last, and of equal values the
integer before the double. -/
def order (a b : Number) : Ordering :=
  match a, b with
  | .real x, .real y => Double.totalOrder x y
  | a, b =>
    let byValue := match a.compare? b with
      | some result => result
      | none => compare a.toFloat.isNaN b.toFloat.isNaN
    byValue.then (compare b.isInteger a.isInteger)

end Number

end SymbolicAlgebra
