/-!
The decimal text of integers. Long numbers are split in the middle of their digits, which takes far
fewer steps than taking off one digit after the other. The main statement says that the digits are
the usual ones.
-/

namespace SymbolicAlgebra.Number

/-- The last `2 ^ level` digits of `n`, with zeros in front where it has fewer. -/
def paddedDigits : (level : Nat) → Nat → List Char
  | 0, n => [Nat.digitChar (n % 10)]
  | level + 1, n =>
    let split := Nat.pow 10 (Nat.pow 2 level)
    paddedDigits level (n / split) ++ paddedDigits level (n % split)

/-- The digits of `n`, split at most `level` times on the way to its first digits. -/
def digitsSplitting : (level : Nat) → Nat → List Char
  | 0, n => Nat.toDigits 10 n
  | level + 1, n =>
    let split := Nat.pow 10 (Nat.pow 2 level)
    if n < split then digitsSplitting level n
    else digitsSplitting level (n / split) ++ paddedDigits level (n % split)

/-- The decimal text of a natural number. The first split is near the middle of its digits. -/
def natText (n : Nat) : String :=
  String.ofList (digitsSplitting (n.log2 + 1).log2 n)

/-- The decimal text of an integer. -/
def intText : Int → String
  | .ofNat n => natText n
  | .negSucc n => "-" ++ natText (n + 1)

/-- The last `count` digits of `n`, taken off one by one. -/
def lastDigits : (count : Nat) → Nat → List Char
  | 0, _ => []
  | count + 1, n => lastDigits count (n / 10) ++ [Nat.digitChar (n % 10)]

theorem pow_ten_succ (count : Nat) : Nat.pow 10 (count + 1) = 10 * Nat.pow 10 count :=
  Nat.pow_succ'

theorem lastDigits_add (left right n : Nat) :
    lastDigits (left + right) n = lastDigits left (n / Nat.pow 10 right) ++ lastDigits right n := by
  induction right generalizing n with
  | zero => simp [lastDigits]
  | succ right ih =>
      rw [← Nat.add_assoc, lastDigits, lastDigits, ih, Nat.div_div_eq_div_mul, pow_ten_succ,
        List.append_assoc]

theorem lastDigits_mod (count n : Nat) : lastDigits count (n % Nat.pow 10 count) = lastDigits count n := by
  induction count generalizing n with
  | zero => rfl
  | succ count ih =>
      have hlast : n % Nat.pow 10 (count + 1) % 10 = n % 10 :=
        Nat.mod_mod_of_dvd n ⟨Nat.pow 10 count, pow_ten_succ count⟩
      have hothers : n % Nat.pow 10 (count + 1) / 10 = n / 10 % Nat.pow 10 count := by
        rw [pow_ten_succ, Nat.mod_mul_right_div_self]
      rw [lastDigits, lastDigits, hlast, hothers, ih]

theorem paddedDigits_eq_lastDigits (level n : Nat) :
    paddedDigits level n = lastDigits (Nat.pow 2 level) n := by
  induction level generalizing n with
  | zero => simp [paddedDigits, lastDigits]
  | succ level ih =>
      have hdouble : Nat.pow 2 (level + 1) = Nat.pow 2 level + Nat.pow 2 level := Nat.mul_two _
      rw [paddedDigits, ih, ih, lastDigits_mod, hdouble, lastDigits_add]

/-- Digits may be split anywhere behind the first. -/
theorem toDigits_eq_append_lastDigits (count n : Nat) (hlonger : Nat.pow 10 count ≤ n) :
    Nat.toDigits 10 n = Nat.toDigits 10 (n / Nat.pow 10 count) ++ lastDigits count n := by
  induction count generalizing n with
  | zero => simp [lastDigits]
  | succ count ih =>
      have hpositive : 0 < Nat.pow 10 count := Nat.pow_pos (by decide)
      rw [pow_ten_succ] at hlonger
      have hten : 10 ≤ n := by omega
      have hshorter : Nat.pow 10 count ≤ n / 10 := by omega
      rw [Nat.toDigits_of_base_le (by decide) hten, ih (n / 10) hshorter, lastDigits,
        Nat.div_div_eq_div_mul, ← pow_ten_succ, List.append_assoc]

theorem digitsSplitting_eq_toDigits (level n : Nat) :
    digitsSplitting level n = Nat.toDigits 10 n := by
  induction level generalizing n with
  | zero => rfl
  | succ level ih =>
      rw [digitsSplitting]
      split
      · exact ih n
      · rename_i hlong
        rw [ih, paddedDigits_eq_lastDigits, lastDigits_mod]
        exact (toDigits_eq_append_lastDigits (Nat.pow 2 level) n (Nat.le_of_not_lt hlong)).symm

/-- The text of a natural number is its usual one. -/
theorem natText_eq_repr (n : Nat) : natText n = Nat.repr n := by
  rw [natText, digitsSplitting_eq_toDigits, Nat.repr_eq_ofList_toDigits]

end SymbolicAlgebra.Number
