import SymbolicAlgebra.Builtin.Control
import SymbolicAlgebra.Number.Division

/-!
Statistics: `ssx`, `variance`, `stdev`, `median`, `min` and `max`. The spreads are computed on
doubles; order statistics keep the numbers as they are.
-/

namespace SymbolicAlgebra.Builtin

/-- The numbers that the nodes are, if all of them are numbers. -/
def numbers? (nodes : List Node) : Option (List Number) :=
  nodes.mapM Node.number?

/-- A sample has at least `least` observations. -/
def checkSample (size least : Nat) : Except Failure Unit :=
  Guard.domain (Double.ofNat size) (Double.ofNat least) Double.infinity

/-- The sum of squared deviations from the mean. -/
def squaredDeviations (values : List Float) : Except Failure Float := do
  checkSample values.length 1
  let mean := Double.sum values / Double.ofNat values.length
  return Double.sum (values.map fun x => (x - mean) * (x - mean))

/-- The variance of a sample and that of a population. -/
def variances (values : List Float) : Except Failure (Float × Float) := do
  checkSample values.length 2
  let squares ← squaredDeviations values
  let size := Double.ofNat values.length
  return (squares / (size - 1), squares / size)

/-- A value for the sample and one for the population, with their names. -/
def labelled (sample population : Float) : Node :=
  .sequence [.pair (.symbol "sample") (.real sample), .pair (.symbol "population") (.real population)]

def variance (list : Node) : Except Failure (Option Node) := do
  let (sample, population) ← variances (← list.asReals)
  return some (labelled sample population)

def standardDeviation (list : Node) : Except Failure (Option Node) := do
  let (sample, population) ← variances (← list.asReals)
  Guard.nonNegative sample
  return some (labelled sample.sqrt population.sqrt)

/-- The later of two extreme candidates where it stands to the earlier as `wanted` says. -/
def better (wanted : Ordering) (best value : Number) : Except Failure Number :=
  match value.compare? best with
  | some order => .ok (if order = wanted then value else best)
  | none => .error (.invalidArgument "cannot order NaN")

/-- The least or greatest of the numbers, the first of equal ones. A list that is not all numbers is
left alone. -/
def extreme (wanted : Ordering) (nodes : List Node) : Except Failure (Option Node) :=
  match numbers? nodes with
  | none => .ok none
  | some [] => .error (.invalidArgument "extremum of an empty list")
  | some (first :: rest) => do
    let best ← rest.foldlM (better wanted) first
    return some (.number best)

/-- Puts `a` before the first of the numbers that is not smaller. Numbers without an order count as
equal. -/
def insertNumber (a : Number) : List Number → List Number
  | [] => [a]
  | b :: rest =>
    if (a.compare? b).all Ordering.isLE then a :: b :: rest else b :: insertNumber a rest

/-- Sorts numbers by value; equal numbers keep their places. -/
def sortNumbers : List Number → List Number
  | [] => []
  | a :: rest => insertNumber a (sortNumbers rest)

/-- The middle number by value, or half the sum of the two in the middle. -/
def median (nodes : List Node) : Except Failure (Option Node) :=
  match numbers? nodes with
  | none => .ok none
  | some values => do
    checkSample values.length 1
    let sorted := sortNumbers values
    let middle := sorted.length / 2
    if sorted.length % 2 = 1 then
      return sorted[middle]?.map Node.number
    else
      match sorted[middle - 1]?, sorted[middle]? with
      | some lower, some upper => return some (.number (← (lower.add upper).div (.small 2)))
      | _, _ => return none

def statistics : List Operation :=
  [ Operation.unary "ssx" .sequence fun list => do
      let values ← list.asReals
      let squares ← squaredDeviations values
      return some (.real squares),
    Operation.unary "variance" .sequence fun list => variance list,
    Operation.unary "stdev" .sequence fun list => standardDeviation list,
    Operation.unary "median" .sequence fun list => do
      let elements ← list.asSequence
      median elements ]
  ++ reduction "min" (extreme .lt)
  ++ reduction "max" (extreme .gt)

end SymbolicAlgebra.Builtin
