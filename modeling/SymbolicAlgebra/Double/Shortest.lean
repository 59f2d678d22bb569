import SymbolicAlgebra.Double.Binary

/-!
The shortest decimal form of a double: of all decimals that read back as it, one with the fewest
digits, among those the nearest, and of two equally near the larger. The search is exact: for one,
two, … seventeen digits it looks at the two neighbours of the value on that decimal grid.
-/

namespace SymbolicAlgebra.Double

/-- The decimal `digits * 10 ^ scale`. -/
structure Decimal where
  digits : Nat
  scale : Int
deriving DecidableEq, Repr

namespace Decimal

/-- The digits as text, most significant first. -/
def text (d : Decimal) : String :=
  Nat.repr d.digits

/-- The power of ten of the leading digit. -/
def exponent (d : Decimal) : Int :=
  d.scale + d.text.length - 1

end Decimal

/-- The decimals that read back as a double lie between two bounds, both in quarters of a unit;
whether the bounds themselves read back depends on the parity of the significand. -/
structure RoundingInterval where
  lower : Nat
  upper : Nat
  closed : Bool

/-- The numbers nearer to `x` than to any other double. Below a power of two the neighbour is only
half as far away as above it. -/
def roundingInterval (x : Float) : RoundingInterval :=
  let above := ulp (exponentField x)
  let below := if fractionField x = 0 && exponentField x > 1 then above / 2 else above
  { lower := 4 * units x - 2 * below
    upper := 4 * units x + 2 * above
    closed := fractionField x % 2 == 0 }

/-- Whether the fraction `top / bottom` lies in the interval. -/
def RoundingInterval.holds (interval : RoundingInterval) (top bottom : Nat) : Bool :=
  if interval.closed then
    interval.lower * bottom ≤ top && top ≤ interval.upper * bottom
  else
    interval.lower * bottom < top && top < interval.upper * bottom

/-- The spacing of the grid `10 ^ scale` in quarters of a unit, as a fraction. -/
def gridStep (scale : Int) : Nat × Nat :=
  match scale with
  | .ofNat n => (Nat.pow 10 n <<< 1076, 1)
  | .negSucc n => (1 <<< 1076, Nat.pow 10 (n + 1))

/-- The multiple of `10 ^ scale` next to `x` that reads back as `x`; of two the nearer one, and the
larger one if `x` is midway. -/
def onGrid? (x : Float) (scale : Int) : Option Nat :=
  let (top, bottom) := gridStep scale
  let value := 4 * units x * bottom
  let floor := value / top
  let interval := roundingInterval x
  match interval.holds (floor * top) bottom, interval.holds ((floor + 1) * top) bottom with
  | true, true => some (if 2 * value < (2 * floor + 1) * top then floor else floor + 1)
  | true, false => some floor
  | false, true => some (floor + 1)
  | false, false => none

/-- The power of ten of the leading digit of a positive finite double. -/
def leadingExponent (x : Float) : Int :=
  ((Nat.repr ((units x * Nat.pow 10 400) >>> 1074)).length : Int) - 401

/-- The shortest decimal form of the magnitude of a finite double other than zero. The first grid
may yield ten of its steps, which is one step of the grid above it; a later grid yields no multiple
of ten, for that would lie on the grid before. -/
def shortest (x : Float) : Decimal :=
  let leading := leadingExponent x
  let found := (List.range 17).findSome? fun (extra : Nat) =>
    let scale := leading - extra
    (onGrid? x scale).map fun digits => Decimal.mk digits scale
  match found with
  | some ⟨10, scale⟩ => ⟨1, scale + 1⟩
  | some d => d
  | none => ⟨0, 0⟩

end SymbolicAlgebra.Double
