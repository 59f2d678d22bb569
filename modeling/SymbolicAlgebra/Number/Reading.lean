/-!
Reading integers: an optional sign, a digit, then digits among which underscores may stand as
separators.
-/

namespace SymbolicAlgebra.Number

/-- The value of digits with separators, read after `start`. -/
def readDigits? (start : Nat) : List Char → Option Nat
  | [] => some start
  | c :: rest =>
    if c = '_' then readDigits? start rest
    else if c.isDigit then readDigits? (10 * start + (c.toNat - '0'.toNat)) rest
    else none

/-- A natural number, which has to start with a digit. -/
def readNat? : List Char → Option Nat
  | [] => none
  | c :: rest => if c.isDigit then readDigits? 0 (c :: rest) else none

/-- An integer of any size, or `none` where the text is not one. -/
def readInt? (text : String) : Option Int :=
  match text.toList with
  | '-' :: rest => (readNat? rest).map fun magnitude => -(magnitude : Int)
  | '+' :: rest => (readNat? rest).map Int.ofNat
  | rest => (readNat? rest).map Int.ofNat

end SymbolicAlgebra.Number
