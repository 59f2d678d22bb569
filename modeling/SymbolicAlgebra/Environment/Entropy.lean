/-!
A source of random doubles that is part of the interpreter's state, so that a draw is a function of
the state before it. The generator adds a constant and mixes the bits of the sum.
-/

namespace SymbolicAlgebra

structure Entropy where
  seed : UInt64 := 0x243F6A8885A308D3

namespace Entropy

private def mix (z : UInt64) : UInt64 :=
  let z := (z ^^^ (z >>> 30)) * 0xBF58476D1CE4E5B9
  let z := (z ^^^ (z >>> 27)) * 0x94D049BB133111EB
  z ^^^ (z >>> 31)

/-- Draws a double from zero (included) to one (excluded): fifty-three random bits over
`2 ^ 53`. -/
def draw (entropy : Entropy) : Float × Entropy :=
  let seed := entropy.seed + 0x9E3779B97F4A7C15
  (Float.ofNat (mix seed >>> 11).toNat / 9007199254740992, ⟨seed⟩)

end Entropy

end SymbolicAlgebra
