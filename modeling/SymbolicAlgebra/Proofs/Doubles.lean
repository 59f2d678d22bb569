import SymbolicAlgebra.Proofs.Rounding

/-! The total order of doubles. Every double has a place: its kind, from negative infinity to what is not a
number, and within a kind its exponent and its significand, with the sign of the double. The comparison of
doubles is the lexicographic one of places wherever it has an answer, and the total order is that of places
everywhere. Converting integers to doubles is monotone. -/

namespace SymbolicAlgebra.Double

open Float.Model (UnpackedFloat)
open Float.Model.UnpackedFloat (Sign)

/-! ### Places -/

/-- The kinds of doubles from the lowest to the highest. Both zeros are of one kind. -/
def level : UnpackedFloat → Int
  | .infinity .negative => -2
  | .finite .negative .. => -1
  | .zero _ => 0
  | .finite .positive .. => 1
  | .infinity .positive => 2
  | .notANumber => 3

def signedExponent : UnpackedFloat → Int
  | .finite .negative _ e _ => -e
  | .finite .positive _ e _ => e
  | _ => 0

def signedSignificand : UnpackedFloat → Int
  | .finite .negative m _ _ => -m
  | .finite .positive m _ _ => m
  | _ => 0

/-- The lexicographic order of places. -/
def comparePlaces : UnpackedFloat → UnpackedFloat → Ordering :=
  compareLex (compareOn level) (compareLex (compareOn signedExponent) (compareOn signedSignificand))

instance : Std.TransCmp comparePlaces :=
  inferInstanceAs (Std.TransCmp (compareLex _ (compareLex _ _)))

theorem compare_neg (a b : Int) : compare (-a) (-b) = (compare a b).swap := by
  rw [← Std.OrientedOrd.eq_swap]
  rcases h : compare b a with _ | _ | _
  · have hlt := Int.compare_eq_lt.mp h
    exact Int.compare_eq_lt.mpr (by omega)
  · have heq := Int.compare_eq_eq.mp h
    exact Int.compare_eq_eq.mpr (by omega)
  · have hgt := Int.compare_eq_gt.mp h
    exact Int.compare_eq_gt.mpr (by omega)

theorem compare_natCast (m n : Nat) : compare (m : Int) n = compare m n := by
  rcases h : compare m n with _ | _ | _
  · have hlt := Nat.compare_eq_lt.mp h
    exact Int.compare_eq_lt.mpr (by omega)
  · have heq := Nat.compare_eq_eq.mp h
    exact Int.compare_eq_eq.mpr (by omega)
  · have hgt := Nat.compare_eq_gt.mp h
    exact Int.compare_eq_gt.mpr (by omega)

theorem compare_unpacked (a b : UnpackedFloat) :
    a.compare b = if a.isNaN || b.isNaN then none else some (comparePlaces a b) := by
  cases a with
  | notANumber => rfl
  | infinity s =>
      cases b with
      | notANumber => cases s <;> rfl
      | infinity t => cases s <;> cases t <;> rfl
      | zero t => cases s <;> rfl
      | finite t => cases s <;> cases t <;> rfl
  | zero s =>
      cases b with
      | notANumber => rfl
      | infinity t => cases t <;> rfl
      | zero t => rfl
      | finite t => cases t <;> rfl
  | finite s m e =>
      cases b with
      | notANumber => cases s <;> rfl
      | infinity t => cases s <;> cases t <;> rfl
      | zero t => cases s <;> rfl
      | finite t n f =>
          cases s with
          | positive =>
              cases t with
              | positive =>
                  show some ((compare e f).then (compare m n)) = some ((compare e f).then (compare (m : Int) n))
                  rw [compare_natCast]
              | negative => rfl
          | negative =>
              cases t with
              | positive => rfl
              | negative =>
                  show some ((compare e f).then (compare m n)).swap =
                    some ((compare (-e) (-f)).then (compare (-m : Int) (-n)))
                  rw [compare_neg, compare_neg, compare_natCast, Ordering.swap_then]

/-- Both zeros have one place. -/
theorem comparePlaces_zero (s t : Sign) (a : UnpackedFloat) :
    comparePlaces (.zero s) a = comparePlaces (.zero t) a :=
  rfl

/-- What is not a number comes last. -/
theorem comparePlaces_of_isNaN {a b : UnpackedFloat} (h : a.isNaN || b.isNaN) :
    comparePlaces a b = compare a.isNaN b.isNaN := by
  cases a with
  | notANumber =>
      cases b with
      | infinity t => cases t <;> rfl
      | finite t => cases t <;> rfl
      | _ => rfl
  | infinity s =>
      cases b with
      | notANumber => cases s <;> rfl
      | _ => cases h
  | zero s =>
      cases b with
      | notANumber => rfl
      | _ => cases h
  | finite s m e =>
      cases b with
      | notANumber => cases s <;> rfl
      | _ => cases h

/-! ### The order of doubles -/

theorem isNaN_eq (x : Float) : x.isNaN = x.toModel.unpack.isNaN :=
  rfl

/-- The comparison of doubles is the one of their models. -/
theorem compare?_eq_compare (x y : Float) :
    compare? x y = x.toModel.unpack.compare y.toModel.unpack := by
  have hless (x y : Float) : x < y ↔ x.toModel.unpack.compare y.toModel.unpack = some .lt := by
    show decide ((x.toModel.unpack.compare y.toModel.unpack == some .lt) = true) = true ↔ _
    rw [decide_eq_true_iff, beq_iff_eq]
  have hequal : (x == y) = true ↔ x.toModel.unpack.compare y.toModel.unpack = some .eq := by
    show (x.toModel.unpack.compare y.toModel.unpack == some .eq) = true ↔ _
    exact beq_iff_eq
  have hswap : y.toModel.unpack.compare x.toModel.unpack =
      (x.toModel.unpack.compare y.toModel.unpack).map Ordering.swap := by
    rw [compare_unpacked, compare_unpacked, Bool.or_comm]
    split
    · rfl
    · exact congrArg some Std.OrientedCmp.eq_swap
  rw [compare?]
  simp only [hless, hequal]
  rw [hswap]
  generalize x.toModel.unpack.compare y.toModel.unpack = order
  rcases order with _ | (_ | _ | _) <;> rfl

/-- The total order of doubles is the one of their places. -/
theorem totalOrder_eq (x y : Float) : totalOrder x y = comparePlaces x.toModel.unpack y.toModel.unpack := by
  rw [totalOrder, compare?_eq_compare, compare_unpacked, isNaN_eq, isNaN_eq]
  by_cases h : x.toModel.unpack.isNaN || y.toModel.unpack.isNaN
  · rw [if_pos h, comparePlaces_of_isNaN h]
  · rw [if_neg h]

instance : Std.TransCmp totalOrder where
  eq_swap {x y} := by
    rw [totalOrder_eq, totalOrder_eq]
    exact Std.OrientedCmp.eq_swap
  isLE_trans {x y z} hxy hyz := by
    rw [totalOrder_eq] at hxy hyz ⊢
    exact Std.TransCmp.isLE_trans hxy hyz

/-- The comparison of doubles is their total order, without an answer where a side is not a number. -/
theorem compare?_eq (x y : Float) :
    compare? x y = if x.isNaN || y.isNaN then none else some (totalOrder x y) := by
  rw [compare?_eq_compare, compare_unpacked, totalOrder_eq, isNaN_eq, isNaN_eq]

theorem lt_iff {x y : Float} : x < y ↔ compare? x y = some .lt := by
  rw [compare?]
  split
  · rename_i h
    exact iff_of_true h rfl
  · rename_i h
    refine iff_of_false h ?_
    split
    · nofun
    · split <;> nofun

theorem compare?_swap (x y : Float) : compare? y x = (compare? x y).map Ordering.swap := by
  rw [compare?_eq, compare?_eq, Bool.or_comm]
  split
  · rfl
  · exact congrArg some Std.OrientedCmp.eq_swap

/-- Doubles are the same exactly when they have one place. -/
theorem same_iff {x y : Float} : same x y ↔ totalOrder x y = .eq := by
  have hequal : (x == y) = (x.toModel.unpack.compare y.toModel.unpack == some .eq) := rfl
  rw [same, totalOrder_eq, hequal, compare_unpacked, isNaN_eq, isNaN_eq]
  cases hx : x.toModel.unpack.isNaN with
  | true =>
      rw [comparePlaces_of_isNaN (by rw [hx]; rfl), hx, if_pos rfl]
      cases y.toModel.unpack.isNaN <;> decide
  | false =>
      cases hy : y.toModel.unpack.isNaN with
      | true =>
          rw [comparePlaces_of_isNaN (by rw [hy]; exact Bool.or_true _), hx, hy]
          decide
      | false =>
          show (some (comparePlaces x.toModel.unpack y.toModel.unpack) == some .eq) = true ↔ _
          rw [beq_iff_eq, Option.some.injEq]

/-! ### Opposites -/

theorem level_neg {a : UnpackedFloat} (h : a.isNaN = false) : level a.neg = -level a := by
  cases a with
  | notANumber => cases h
  | infinity s => cases s <;> rfl
  | zero s => rfl
  | finite s => cases s <;> rfl

theorem signedExponent_neg (a : UnpackedFloat) : signedExponent a.neg = -signedExponent a := by
  cases a with
  | finite s _ e =>
      cases s with
      | positive => rfl
      | negative => exact (Int.neg_neg e).symm
  | _ => rfl

theorem signedSignificand_neg (a : UnpackedFloat) : signedSignificand a.neg = -signedSignificand a := by
  cases a with
  | finite s m =>
      cases s with
      | positive => rfl
      | negative => exact (Int.neg_neg m).symm
  | _ => rfl

theorem comparePlaces_neg {a b : UnpackedFloat} (ha : a.isNaN = false) (hb : b.isNaN = false) :
    comparePlaces a.neg b.neg = (comparePlaces a b).swap := by
  simp only [comparePlaces, compareLex, compareOn, level_neg ha, level_neg hb, signedExponent_neg,
    signedSignificand_neg, compare_neg, Ordering.swap_then]

/-! ### Integers -/

theorem isNaN_held (s : Sign) (m : Nat) (e : Int) : (held s m e).isNaN = false := by
  obtain ⟨hm, hheld⟩ | hheld := held_cases s m e
  · rw [hheld]
    rfl
  · rw [hheld]
    rfl

theorem neg_held (s : Sign) (m : Nat) (e : Int) : (held s m e).neg = held (-s) m e := by
  rw [held, held]
  by_cases h : 0 < m ∧ e ≤ 971
  · rw [dif_pos h, dif_pos h]
    rfl
  · rw [dif_neg h, dif_neg h]
    rfl

theorem isLE_comparePlaces_held {m n : Nat} {e f : Int} (hm : Significand m) (hn : Significand n)
    (h : e * 0x10000000000000 + m ≤ f * 0x10000000000000 + n) :
    (comparePlaces (held .positive m e) (held .positive n f)).isLE := by
  have hmlow := hm.1
  have hnhigh := hn.2
  by_cases hf : f ≤ 971
  · rw [held_of_le _ hm (by omega), held_of_le _ hn hf]
    show ((compare e f).then (compare (m : Int) n)).isLE
    rcases Int.lt_or_eq_of_le (show e ≤ f by omega) with hless | rfl
    · rw [Int.compare_eq_lt.mpr hless]
      rfl
    · rw [Int.compare_eq_eq.mpr rfl]
      exact Int.isLE_compare.mpr (by omega)
  · rw [held_of_lt _ n (by omega)]
    obtain ⟨hm, hheld⟩ | hheld := held_cases .positive m e
    · rw [hheld]
      rfl
    · rw [hheld]
      rfl

theorem unpack_ofNat_zero : (ofNat 0).toModel.unpack = .zero .positive :=
  rfl

theorem isNaN_unpack_ofNat (n : Nat) : (ofNat n).toModel.unpack.isNaN = false := by
  by_cases hn : n = 0
  · rw [hn, unpack_ofNat_zero]
    rfl
  · obtain ⟨m, e, hunpack, _⟩ := exists_unpack_ofNat hn
    rw [hunpack, isNaN_held]

theorem isLE_comparePlaces_ofNat {m n : Nat} (h : m ≤ n) :
    (comparePlaces (ofNat m).toModel.unpack (ofNat n).toModel.unpack).isLE := by
  by_cases hn : n = 0
  · obtain rfl : m = 0 := by omega
    rw [hn]
    rfl
  obtain ⟨q, f, hright, hq, _, hplace⟩ := exists_unpack_ofNat hn
  by_cases hm : m = 0
  · rw [hm, hright, unpack_ofNat_zero]
    obtain ⟨hq, hheld⟩ | hheld := held_cases .positive q f
    · rw [hheld]
      rfl
    · rw [hheld]
      rfl
  obtain ⟨p, e, hleft, hp, _, hplace'⟩ := exists_unpack_ofNat hm
  have hle : e * 0x10000000000000 + p ≤ f * 0x10000000000000 + q := by
    rw [hplace, hplace']
    exact place_mono hm h
  rw [hleft, hright]
  exact isLE_comparePlaces_held hp hq hle

/-- Below `2 ^ 53` a number becomes the double with its own digits. -/
theorem unpack_ofNat_of_small {n : Nat} (h : n ≠ 0) (hlog : n.log2 ≤ 52) :
    (ofNat n).toModel.unpack = .finite .positive (n <<< (52 - n.log2)) (n.log2 - 52)
      (significand_shiftLeft h hlog).pos := by
  have hleast : -1074 ≤ (n.log2 : Int) - 52 := by omega
  rw [ofNat, if_pos (by omega), toModel_ofNat_of_small h hlog,
    unpack_pack_finite _ (significand_shiftLeft h hlog) hleast,
    held_of_le _ (significand_shiftLeft h hlog) (by omega)]

/-- Conversion keeps different numbers below `2 ^ 53` apart. -/
theorem totalOrder_ofNat_of_lt {m n : Nat} (h : m < n) (hlog : n.log2 ≤ 52) :
    totalOrder (ofNat m) (ofNat n) = .lt := by
  have hn : n ≠ 0 := by omega
  rw [totalOrder_eq, unpack_ofNat_of_small hn hlog]
  by_cases hm : m = 0
  · subst hm
    rfl
  have hmlog : m.log2 ≤ n.log2 := (Nat.le_log2 hn).mpr (Nat.le_trans (Nat.log2_self_le hm) (Nat.le_of_lt h))
  rw [unpack_ofNat_of_small hm (by omega)]
  show (compare (m.log2 - 52 : Int) (n.log2 - 52)).then
    (compare ((m <<< (52 - m.log2) : Nat) : Int) ((n <<< (52 - n.log2) : Nat) : Int)) = .lt
  rcases Nat.lt_or_eq_of_le hmlog with hless | heq
  · rw [Int.compare_eq_lt.mpr (by omega)]
    rfl
  · have hshifted : m <<< (52 - n.log2) < n <<< (52 - n.log2) := by
      rw [Nat.shiftLeft_eq, Nat.shiftLeft_eq]
      exact Nat.mul_lt_mul_of_pos_right h (Nat.two_pow_pos _)
    rw [heq, Int.compare_eq_eq.mpr rfl]
    exact Int.compare_eq_lt.mpr (by omega)

theorem isNaN_ofNat (n : Nat) : (ofNat n).isNaN = false :=
  isNaN_unpack_ofNat n

theorem ofNat_lt_ofNat {m n : Nat} (hlog : n.log2 ≤ 52) : ofNat m < ofNat n ↔ m < n := by
  rw [lt_iff, compare?_eq, isNaN_ofNat, isNaN_ofNat, Bool.or_false, if_neg Bool.false_ne_true,
    Option.some.injEq]
  refine ⟨fun hless => ?_, fun h => totalOrder_ofNat_of_lt h hlog⟩
  rcases Nat.lt_or_ge m n with h | hle
  · exact h
  · have hgreater : (totalOrder (ofNat n) (ofNat m)).isLE := by
      rw [totalOrder_eq]
      exact isLE_comparePlaces_ofNat hle
    rw [Std.OrientedCmp.gt_iff_lt.mpr hless] at hgreater
    cases hgreater

theorem unpack_neg (x : Float) :
    (-x).toModel.unpack = (Float.Model.pack x.toModel.unpack.neg).unpack :=
  rfl

/-- The opposite of a converted number survives packing. -/
theorem unpack_neg_ofNat (n : Nat) : (-ofNat n).toModel.unpack = (ofNat n).toModel.unpack.neg := by
  rw [unpack_neg]
  by_cases hn : n = 0
  · rw [hn, unpack_ofNat_zero]
    rfl
  · obtain ⟨m, e, hunpack, hm, hleast, _⟩ := exists_unpack_ofNat hn
    rw [hunpack, neg_held, unpack_pack_held _ hm hleast]

theorem ofInt_negSucc (n : Nat) : ofInt (.negSucc n) = -ofNat (n + 1) :=
  rfl

/-- Conversion keeps the order of integers. -/
theorem isLE_totalOrder_ofInt {m n : Int} (h : m ≤ n) : (totalOrder (ofInt m) (ofInt n)).isLE := by
  have hnegative {j k : Nat} (hjk : j ≤ k) :
      (comparePlaces (ofNat k).toModel.unpack.neg (ofNat j).toModel.unpack.neg).isLE := by
    rw [comparePlaces_neg (isNaN_unpack_ofNat k) (isNaN_unpack_ofNat j), ← Std.OrientedCmp.eq_swap]
    exact isLE_comparePlaces_ofNat hjk
  rw [totalOrder_eq]
  cases m with
  | ofNat m =>
      cases n with
      | ofNat n => exact isLE_comparePlaces_ofNat (Int.ofNat_le.mp h)
      | negSucc n =>
          change (m : Int) ≤ _ at h
          omega
  | negSucc m =>
      rw [ofInt_negSucc, unpack_neg_ofNat]
      cases n with
      | ofNat n =>
          have hbelow := hnegative (Nat.zero_le (m + 1))
          have habove := isLE_comparePlaces_ofNat (Nat.zero_le n)
          rw [unpack_ofNat_zero] at hbelow habove
          rw [comparePlaces_zero .positive .negative] at habove
          exact Std.TransCmp.isLE_trans hbelow habove
      | negSucc n =>
          rw [ofInt_negSucc, unpack_neg_ofNat]
          exact hnegative (by omega)

end SymbolicAlgebra.Double
