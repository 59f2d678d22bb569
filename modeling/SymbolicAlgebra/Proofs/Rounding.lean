import SymbolicAlgebra.Double.Binary

/-! Rounding natural numbers to doubles. A number is shifted to the right until fifty-three binary digits
are left, with a round bit and a sticky bit to remember what fell off, and is then rounded to nearest, ties
to even. Read as quarters of the last place, the digits and the two bits are one natural number, and on
those shifting and rounding are monotone. The double nearest to `n` is described by its place, which is
its exponent and its significand as one number, so that a carry into the next exponent needs no case. -/

namespace SymbolicAlgebra.Double

open Float.Model (Format UnpackedFloat)
open Float.Model.UnpackedFloat

/-! ### Shifting and rounding -/

/-- What is left of a number, in quarters of its last place. Anything below a quarter counts as one. -/
def quarters (em : ExtendedMantissa) : Nat :=
  4 * em.mantissa + 2 * em.roundBit.toNat + em.stickyBit.toNat

theorem mantissa_eq (em : ExtendedMantissa) : em.mantissa = quarters em / 4 := by
  have hround := Bool.toNat_le em.roundBit
  have hsticky := Bool.toNat_le em.stickyBit
  rw [quarters]
  omega

theorem quarters_shiftRightOne (em : ExtendedMantissa) :
    quarters em.shiftRightOne = 2 * (quarters em / 4) + min (quarters em % 4) 1 := by
  obtain ⟨m, r, s⟩ := em
  have hbit : (m % 2 != 0).toNat = m % 2 := by
    rcases Nat.mod_two_eq_zero_or_one m with h | h <;> rw [h] <;> rfl
  simp only [quarters, ExtendedMantissa.shiftRightOne, hbit]
  cases r <;> cases s <;>
    simp only [Bool.toNat_false, Bool.toNat_true, Bool.or_false, Bool.or_true] <;> omega

theorem shiftRight_succ (em : ExtendedMantissa) (k : Nat) : em >>> (k + 1) = (em >>> k).shiftRightOne :=
  rfl

theorem quarters_shiftRight_le {em en : ExtendedMantissa} (h : quarters em ≤ quarters en) (k : Nat) :
    quarters (em >>> k) ≤ quarters (en >>> k) := by
  induction k with
  | zero => exact h
  | succ k ih =>
      rw [shiftRight_succ, shiftRight_succ, quarters_shiftRightOne, quarters_shiftRightOne]
      omega

/-- A half is rounded away exactly from an odd number. -/
theorem roundedMantissa_eq (em : ExtendedMantissa) :
    em.roundedMantissa = (quarters em + 1 + em.mantissa % 2) / 4 := by
  obtain ⟨m, r, s⟩ := em
  cases r <;> cases s <;>
    simp only [quarters, ExtendedMantissa.roundedMantissa, ExtendedMantissa.accuracy,
      Accuracy.roundToNearestEven, Bool.toNat_false, Bool.toNat_true] <;>
    omega

theorem roundedMantissa_le {em en : ExtendedMantissa} (h : quarters em ≤ quarters en) :
    em.roundedMantissa ≤ en.roundedMantissa := by
  have hleft := mantissa_eq em
  have hright := mantissa_eq en
  rw [roundedMantissa_eq, roundedMantissa_eq]
  by_cases hsame : em.mantissa = en.mantissa
  · rw [hsame]
    omega
  · omega

/-- `m` without its last `k` binary digits, rounded to nearest, ties to even. -/
def rounded (m k : Nat) : Nat :=
  (ExtendedMantissa.ofMantissaAndAccuracy m .exact >>> k).roundedMantissa

theorem rounded_mono {m n : Nat} (h : m ≤ n) (k : Nat) : rounded m k ≤ rounded n k := by
  have hquarters : quarters (.ofMantissaAndAccuracy m .exact) ≤ quarters (.ofMantissaAndAccuracy n .exact) :=
    Nat.mul_le_mul_left 4 h
  exact roundedMantissa_le (quarters_shiftRight_le hquarters k)

theorem shiftLeft_shiftRight (m k j : Nat) :
    ExtendedMantissa.ofMantissaAndAccuracy (m <<< (k + j)) .exact >>> k =
      .ofMantissaAndAccuracy (m <<< j) .exact := by
  induction k generalizing j with
  | zero =>
      rw [Nat.zero_add]
      rfl
  | succ k ih =>
      have hstep : k + 1 + j = k + (j + 1) := by omega
      rw [shiftRight_succ, hstep, ih, Nat.shiftLeft_succ]
      simp only [ExtendedMantissa.ofMantissaAndAccuracy, ExtendedMantissa.shiftRightOne,
        Nat.mul_div_cancel_left _ Nat.two_pos, Nat.mul_mod_right]
      rfl

/-- Digits that are zero are dropped without rounding. -/
theorem rounded_shiftLeft (m k : Nat) : rounded (m <<< k) k = m :=
  congrArg ExtendedMantissa.roundedMantissa (shiftLeft_shiftRight m k 0)

/-! ### Significands -/

/-- The number has fifty-three binary digits. -/
def Significand (m : Nat) : Prop :=
  0x10000000000000 ≤ m ∧ m < 0x20000000000000

theorem Significand.pos {m : Nat} (h : Significand m) : 0 < m :=
  Nat.lt_of_lt_of_le (by decide) h.1

theorem Significand.log2_eq {m : Nat} (h : Significand m) : m.log2 = 52 :=
  (Nat.log2_eq_iff (Nat.ne_of_gt h.pos)).mpr h

theorem log2_shiftLeft {n : Nat} (h : n ≠ 0) (k : Nat) : (n <<< k).log2 = n.log2 + k := by
  induction k with
  | zero => rfl
  | succ k ih =>
      have hne : n <<< k ≠ 0 := by rwa [Ne, Nat.shiftLeft_eq_zero_iff]
      rw [Nat.shiftLeft_succ, Nat.log2_two_mul hne, ih, Nat.add_assoc]

theorem significand_shiftLeft {n : Nat} (h : n ≠ 0) (hlog : n.log2 ≤ 52) :
    Significand (n <<< (52 - n.log2)) := by
  have hne : n <<< (52 - n.log2) ≠ 0 := by rwa [Ne, Nat.shiftLeft_eq_zero_iff]
  have hplaces : (n <<< (52 - n.log2)).log2 = 52 := by
    rw [log2_shiftLeft h]
    omega
  exact (Nat.log2_eq_iff hne).mp hplaces

/-- What is rounded to fifty-three digits has as many, or is the least number with one more. -/
theorem rounded_mem {m k : Nat} (hlog : m.log2 = 52 + k) :
    0x10000000000000 ≤ rounded m k ∧ rounded m k ≤ 0x20000000000000 := by
  have hne : m ≠ 0 := by
    rintro rfl
    rw [Nat.log2_zero] at hlog
    omega
  have hbounds := (Nat.log2_eq_iff hne).mp hlog
  rw [Nat.add_right_comm, Nat.pow_add, Nat.pow_add] at hbounds
  constructor
  · have hlow : 0x10000000000000 <<< k ≤ m := by
      rw [Nat.shiftLeft_eq]
      exact hbounds.1
    exact Nat.le_trans (Nat.le_of_eq (rounded_shiftLeft _ k).symm) (rounded_mono hlow k)
  · have hhigh : m ≤ 0x20000000000000 <<< k := by
      rw [Nat.shiftLeft_eq]
      exact Nat.le_of_lt hbounds.2
    exact Nat.le_trans (rounded_mono hhigh k) (Nat.le_of_eq (rounded_shiftLeft _ k))

/-- A place determines its significand and exponent. -/
theorem eq_of_place_eq {m n : Nat} {e f : Int} (hm : Significand m) (hn : Significand n)
    (h : e * 0x10000000000000 + m = f * 0x10000000000000 + n) : m = n ∧ e = f := by
  obtain ⟨hmlow, hmhigh⟩ := hm
  obtain ⟨hnlow, hnhigh⟩ := hn
  omega

/-! ### Rounding to doubles

From here on exponents stay above the range of subnormal doubles, which no integer reaches. -/

theorem targetExponent_eq {m : Nat} {e : Int} (h : -1022 ≤ m.log2 + e) :
    Format.binary64.targetExponent (Float.Model.totalExponent m e) = m.log2 + e - 52 := by
  have hbits : Format.binary64.mantissaBits = 53 := rfl
  have hleast : Format.binary64.minExponent = -1074 := rfl
  rw [Format.targetExponent, hbits, hleast, Float.Model.totalExponent]
  omega

theorem shiftToTargetExponent_eq {m : Nat} {e : Int} {k : Nat} (hlog : m.log2 = 52 + k)
    (he : -1074 ≤ e + k) :
    shiftToTargetExponent .binary64 m e .exact =
      (ExtendedMantissa.ofMantissaAndAccuracy m .exact >>> k, e + k) := by
  have htarget : m.log2 + e - 52 = e + k := by omega
  have hshift : (e + k - e).toNat = k := by omega
  rw [shiftToTargetExponent, targetExponent_eq (by omega), htarget, shiftToExponent, hshift]

theorem roundWithAccuracy_of_shifts (s : Sign) {m : Nat} {e f g : Int} {em en : ExtendedMantissa}
    (hfirst : shiftToTargetExponent .binary64 m e .exact = (em, f))
    (hsecond : shiftToTargetExponent .binary64 em.roundedMantissa f .exact = (en, g))
    (hpos : 0 < en.mantissa) :
    roundWithAccuracy .binary64 s m e .exact = .finite s en.mantissa g hpos := by
  rw [roundWithAccuracy, hfirst]
  show (match shiftToTargetExponent .binary64 em.roundedMantissa f .exact with
    | (en, g) => if h : en.mantissa = 0 then UnpackedFloat.zero s
        else .finite s en.mantissa g (Nat.pos_of_ne_zero h)) = _
  rw [hsecond]
  exact dif_neg (Nat.ne_of_gt hpos)

/-- The place of what is rounded is the one of the rounded digits. -/
theorem exists_roundWithAccuracy_eq (s : Sign) {m : Nat} {e : Int} {k : Nat} (hlog : m.log2 = 52 + k)
    (he : -1074 ≤ e + k) :
    ∃ (p : Nat) (f : Int) (hp : Significand p),
      roundWithAccuracy .binary64 s m e .exact = .finite s p f hp.pos ∧ -1074 ≤ f ∧
        f * 0x10000000000000 + p = (e + k) * 0x10000000000000 + rounded m k := by
  have hmem := rounded_mem hlog
  have hfirst := shiftToTargetExponent_eq hlog he
  by_cases hcarry : rounded m k = 0x20000000000000
  · have hsecond : shiftToTargetExponent .binary64 (rounded m k) (e + k) .exact =
        (.ofMantissaAndAccuracy 0x10000000000000 .exact, e + k + 1) := by
      rw [hcarry, shiftToTargetExponent_eq (k := 1) rfl (by omega)]
      rfl
    refine ⟨0x10000000000000, e + k + 1, ⟨by decide, by decide⟩,
      roundWithAccuracy_of_shifts s hfirst hsecond _, by omega, ?_⟩
    rw [hcarry]
    omega
  · have hsignificand : Significand (rounded m k) := ⟨hmem.1, Nat.lt_of_le_of_ne hmem.2 hcarry⟩
    have hsecond : shiftToTargetExponent .binary64 (rounded m k) (e + k) .exact =
        (.ofMantissaAndAccuracy (rounded m k) .exact, e + k) := by
      rw [shiftToTargetExponent_eq (k := 0) hsignificand.log2_eq (by omega), Int.natCast_zero, Int.add_zero]
      rfl
    exact ⟨_, _, hsignificand, roundWithAccuracy_of_shifts s hfirst hsecond _, he, rfl⟩

/-- What fits is rounded to itself. -/
theorem roundWithAccuracy_of_significand (s : Sign) {m : Nat} {e : Int} (hm : Significand m) (k : Nat)
    (he : -1074 ≤ e + k) :
    roundWithAccuracy .binary64 s (m <<< k) e .exact = .finite s m (e + k) hm.pos := by
  have hlog : (m <<< k).log2 = 52 + k := by
    rw [log2_shiftLeft (Nat.ne_of_gt hm.pos), hm.log2_eq]
  obtain ⟨p, f, hp, hround, _, hplace⟩ := exists_roundWithAccuracy_eq s hlog he
  rw [rounded_shiftLeft] at hplace
  obtain ⟨rfl, rfl⟩ := eq_of_place_eq hp hm hplace
  exact hround

/-! ### Packing -/

/-- The double that holds `m * 2 ^ e`, which is infinite from `2 ^ 1024` on. -/
def held (s : Sign) (m : Nat) (e : Int) : UnpackedFloat :=
  if h : 0 < m ∧ e ≤ 971 then .finite s m e h.1 else .infinity s

theorem held_of_le (s : Sign) {m : Nat} {e : Int} (hm : Significand m) (he : e ≤ 971) :
    held s m e = .finite s m e hm.pos :=
  dif_pos ⟨hm.pos, he⟩

theorem held_of_lt (s : Sign) (m : Nat) {e : Int} (he : 971 < e) : held s m e = .infinity s :=
  dif_neg fun h => Int.not_le.mpr he h.2

theorem held_cases (s : Sign) (m : Nat) (e : Int) :
    (∃ hm, held s m e = .finite s m e hm) ∨ held s m e = .infinity s := by
  by_cases h : 0 < m ∧ e ≤ 971
  · exact .inl ⟨h.1, dif_pos h⟩
  · exact .inr (dif_neg h)

/-- The sign is the leading bit. -/
theorem unpackSign_eq (b : BitVec Format.binary64.numBits) : unpackSign b = BitVec.extractLsb 63 63 b :=
  rfl

theorem sign_packComponents (s : Sign) (exponent : BitVec 11) (mantissa : BitVec 52) :
    Sign.ofBitVec (unpackSign (packComponents .binary64 s exponent mantissa)) = s := by
  have hsign : unpackSign (packComponents .binary64 s exponent mantissa) = s.toBitVec := by
    ext i hi
    obtain rfl : i = 0 := by omega
    rw [unpackSign_eq, ← BitVec.getLsbD_eq_getElem, BitVec.getLsbD_extractLsb, packComponents]
    show (s.toBitVec ++ exponent ++ mantissa).getLsbD 63 = _
    rw [BitVec.getLsbD_append, BitVec.getLsbD_append]
    exact BitVec.getLsbD_eq_getElem hi
  rw [hsign]
  cases s <;> rfl

/-- The leading digit of a significand is not stored. -/
theorem leading_append {m : Nat} (hm : Significand m) : (1#1 ++ BitVec.ofNat 52 m).toNat = m := by
  obtain ⟨hlow, hhigh⟩ := hm
  have hmod : m % 0x10000000000000 < 2 ^ 52 := Nat.mod_lt m (by decide)
  rw [BitVec.toNat_append, BitVec.toNat_ofNat, BitVec.toNat_ofNat]
  show (1 % 2) <<< 52 ||| (m % 0x10000000000000) = m
  rw [← Nat.shiftLeft_add_eq_or_of_lt hmod]
  omega

/-- A field that is neither full nor zero is the exponent of a double with a leading digit. -/
theorem unpack_of_normal {b : BitVec Format.binary64.numBits} (hfinite : unpackExponent b ≠ -1#11)
    (hnormal : unpackExponent b ≠ 0#11) {m : Nat} {e : Int} (hm : 0 < m)
    (hmantissa : (1#1 ++ unpackMantissa b).toNat = m)
    (hexponent : ((unpackExponent b).toNat : Int) - 1075 = e) :
    unpack .binary64 b = .finite (Sign.ofBitVec (unpackSign b)) m e hm := by
  subst hmantissa hexponent
  show (if unpackExponent b = -1#11 then _ else _) = _
  rw [if_neg hfinite]
  show (if unpackExponent b = 0#11 then _ else _) = _
  rw [if_neg hnormal]
  rfl

theorem pack_finite (s : Sign) (m : Nat) (e : Int) (hm : 0 < m) :
    UnpackedFloat.pack .binary64 (.finite s m e hm) =
      if 2048 ≤ (e + 1023 + 52).toNat + 1 then packedInfinity .binary64 s
      else if m.log2 + 1 = 53 then
        packComponents .binary64 s (BitVec.ofNat 11 (e + 1023 + 52).toNat) (BitVec.ofNat 52 m)
      else packComponents .binary64 s 0#11 (BitVec.ofNat 52 m) :=
  rfl

theorem unpack_pack_infinity (s : Sign) : (Float.Model.pack (.infinity s)).unpack = .infinity s := by
  cases s <;> rfl

theorem unpack_pack_finite (s : Sign) {m : Nat} {e : Int} (hm : Significand m) (he : -1074 ≤ e) :
    (Float.Model.pack (.finite s m e hm.pos)).unpack = held s m e := by
  have hbiased : e + 1023 + 52 = e + 1075 := by omega
  show unpack .binary64 (UnpackedFloat.pack .binary64 (.finite s m e hm.pos)) = held s m e
  rw [pack_finite, hbiased]
  by_cases hfits : e ≤ 971
  · have hplaces : m.log2 + 1 = 53 := congrArg (· + 1) hm.log2_eq
    have hexponent : (BitVec.ofNat 11 (e + 1075).toNat).toNat = (e + 1075).toNat := by
      rw [BitVec.toNat_ofNat]
      show _ % 2048 = _
      omega
    have hfinite : BitVec.ofNat 11 (e + 1075).toNat ≠ -1#11 := by
      intro h
      have hfield : (e + 1075).toNat = 2047 := hexponent.symm.trans (congrArg BitVec.toNat h)
      omega
    have hnormal : BitVec.ofNat 11 (e + 1075).toNat ≠ 0#11 := by
      intro h
      have hfield : (e + 1075).toNat = 0 := hexponent.symm.trans (congrArg BitVec.toNat h)
      omega
    let b := packComponents .binary64 s (BitVec.ofNat 11 (e + 1075).toNat) (BitVec.ofNat 52 m)
    have hfield : unpackExponent b = BitVec.ofNat 11 (e + 1075).toNat := unpackExponent_packComponents ..
    have hstored : unpackMantissa b = BitVec.ofNat 52 m := unpackMantissa_packComponents ..
    rw [if_neg (by omega), if_pos hplaces, held_of_le s hm hfits]
    have hunpack := unpack_of_normal (hfield ▸ hfinite) (hfield ▸ hnormal) hm.pos (hstored ▸ leading_append hm)
      (e := e) (by rw [hfield, hexponent]; omega)
    rw [hunpack, sign_packComponents]
  · rw [if_pos (by omega), held_of_lt s m (by omega), ← unpack_pack_infinity s]
    rfl

theorem unpack_pack_held (s : Sign) {m : Nat} {e : Int} (hm : Significand m) (he : -1074 ≤ e) :
    (Float.Model.pack (held s m e)).unpack = held s m e := by
  by_cases hfits : e ≤ 971
  · rw [held_of_le s hm hfits]
    exact (unpack_pack_finite s hm he).trans (held_of_le s hm hfits)
  · rw [held_of_lt s m (by omega)]
    exact unpack_pack_infinity s

/-! ### Natural numbers as doubles -/

/-- The place of the double nearest to `n`. -/
def place (n : Nat) : Int :=
  (n.log2 - 52 : Int) * (0x10000000000000 : Int) + (rounded (n <<< 53) (n.log2 + 1) : Int)

theorem place_mono {m n : Nat} (hm : m ≠ 0) (h : m ≤ n) : place m ≤ place n := by
  have hn : n ≠ 0 := by omega
  have hlog : m.log2 ≤ n.log2 := (Nat.le_log2 hn).mpr (Nat.le_trans (Nat.log2_self_le hm) h)
  have hlow := rounded_mem (m := n <<< 53) (k := n.log2 + 1) (by rw [log2_shiftLeft hn]; omega)
  have hhigh := rounded_mem (m := m <<< 53) (k := m.log2 + 1) (by rw [log2_shiftLeft hm]; omega)
  rw [place, place]
  rcases Nat.lt_or_eq_of_le hlog with hless | heq
  · omega
  · have hshifted : m <<< 53 ≤ n <<< 53 := by
      rw [Nat.shiftLeft_eq, Nat.shiftLeft_eq]
      exact Nat.mul_le_mul_right _ h
    have hmono := rounded_mono hshifted (n.log2 + 1)
    rw [heq]
    omega

theorem unpacked_ofNat {n : Nat} (h : n ≠ 0) (hlog : n.log2 ≤ 52) :
    UnpackedFloat.ofNat .binary64 n =
      .finite .positive (n <<< (52 - n.log2)) (n.log2 - 52) (significand_shiftLeft h hlog).pos := by
  have hcompare : compare (n : Int) 0 = .gt := Int.compare_eq_gt.mpr (by omega)
  have htarget := targetExponent_eq (m := n) (e := 0) (by omega)
  have hamount : (0 - ((n.log2 : Int) + 0 - 52)).toNat = 52 - n.log2 := by omega
  have hexponent : (0 : Int) - (52 - n.log2 : Nat) = n.log2 - 52 := by omega
  have hleast : -1074 ≤ (n.log2 : Int) - 52 + (0 : Nat) := by omega
  have hround := roundWithAccuracy_of_significand .positive (significand_shiftLeft h hlog) 0 hleast
  rw [Nat.shiftLeft_zero, Int.natCast_zero, Int.add_zero] at hround
  have hshift : UnpackedFloat.ofNat .binary64 n =
      roundWithAccuracy .binary64 .positive (n <<< (52 - n.log2)) (n.log2 - 52) .exact := by
    rw [UnpackedFloat.ofNat, UnpackedFloat.ofInt, UnpackedFloat.normalize, hcompare]
    simp only [UnpackedFloat.round, Int.toNat_natCast, htarget, decreaseExponent, hamount, hexponent]
  exact hshift.trans hround

theorem mul_finite (m n : Nat) (e f : Int) (hm : 0 < m) (hn : 0 < n) :
    UnpackedFloat.mul .binary64 (.finite .positive m e hm) (.finite .positive n f hn) =
      roundWithAccuracy .binary64 .positive (m * n) (e + f) .exact :=
  rfl

theorem unpack_one : (Float.ofBits 0x3FF0000000000000).toModel.unpack =
    .finite .positive 0x10000000000000 (-52) (by decide) :=
  rfl

/-- Below `2 ^ 53` a number is converted as a word and multiplied by one, which is exact. -/
theorem toModel_ofNat_of_small {n : Nat} (h : n ≠ 0) (hlog : n.log2 ≤ 52) :
    (Float.ofNat n).toModel = .pack (.finite .positive (n <<< (52 - n.log2)) (n.log2 - 52)
      (significand_shiftLeft h hlog).pos) := by
  have hsignificand := significand_shiftLeft h hlog
  have hlog' : n.log2 < 53 := by omega
  have hsmall : n < 0x20000000000000 := (Nat.log2_lt h).mp hlog'
  have hword : n.toUInt64.toFloat.toModel =
      .pack (.finite .positive (n <<< (52 - n.log2)) (n.log2 - 52) hsignificand.pos) := by
    have htoNat : n.toUInt64.toNat = n := Nat.mod_eq_of_lt (by omega)
    show Float.Model.pack (UnpackedFloat.ofNat .binary64 n.toUInt64.toNat) = _
    rw [htoNat, unpacked_ofNat h hlog]
  have hfast : Float.ofNat n = n.toUInt64.toFloat * Float.ofBits 0x3FF0000000000000 := by
    show Float.ofScientific n false 0 = _
    rw [Float.ofScientific, dif_pos ⟨hsmall, by decide⟩]
    rfl
  have hleast : -1074 ≤ (n.log2 : Int) - 52 := by omega
  have hexponent : (n.log2 : Int) - 52 + -52 = n.log2 - 104 := by omega
  have hproduct : roundWithAccuracy .binary64 .positive (n <<< (52 - n.log2) * 0x10000000000000)
      (n.log2 - 104) .exact = .finite .positive (n <<< (52 - n.log2)) (n.log2 - 52) hsignificand.pos := by
    have hleast' : -1074 ≤ (n.log2 : Int) - 104 + (52 : Nat) := by omega
    have hround := roundWithAccuracy_of_significand .positive hsignificand 52 hleast'
    rw [Nat.shiftLeft_eq (n <<< _) 52, show (n.log2 : Int) - 104 + (52 : Nat) = n.log2 - 52 by omega] at hround
    exact hround
  rw [hfast]
  show Float.Model.pack (UnpackedFloat.mul _ n.toUInt64.toFloat.toModel.unpack
    (Float.ofBits 0x3FF0000000000000).toModel.unpack) = _
  rw [hword, unpack_pack_finite _ hsignificand hleast, held_of_le _ hsignificand (by omega), unpack_one]
  exact congrArg Float.Model.pack ((mul_finite ..).trans (hexponent ▸ hproduct))

theorem toModel_ofNat_of_large {n : Nat} (hlog : 53 ≤ n.log2) :
    (Float.ofNat n).toModel = .pack (roundWithAccuracy .binary64 .positive (n <<< 53) (-53) .exact) := by
  have hne : n ≠ 0 := by
    rintro rfl
    rw [Nat.log2_zero] at hlog
    omega
  have hlarge : ¬n < 0x20000000000000 := fun hlt => by
    have hlog' : n.log2 < 53 := (Nat.log2_lt hne).mpr hlt
    omega
  have hslow : Float.ofNat n = .ofModel (.ofScientific n 0) := by
    show Float.ofScientific n false 0 = _
    rw [Float.ofScientific, dif_neg fun h => hlarge h.1]
    rfl
  have hscale : ¬(0 : Int) > 2 ^ Format.binary64.exponentBits := by decide
  have hscale' : ¬(0 : Int) < -(2 ^ Format.binary64.exponentBits + n.log2) := by
    show ¬(0 : Int) < -(2048 + n.log2)
    omega
  have hproduct : roundWithAccuracy .binary64 .positive (n <<< 53 * 1) (-53 + 0) .exact =
      roundWithAccuracy .binary64 .positive (n <<< 53) (-53) .exact := by
    rw [Nat.mul_one, Int.add_zero]
  rw [hslow]
  show Float.Model.pack (UnpackedFloat.ofScientific .binary64 n 0) = _
  rw [UnpackedFloat.ofScientific, dif_neg hne, if_neg hscale, if_neg hscale', if_pos (Int.le_refl 0)]
  exact congrArg Float.Model.pack ((mul_finite (n <<< 53) 1 (-53) 0 _ (by decide)).trans hproduct)

theorem exists_toModel_ofNat {n : Nat} (h : n ≠ 0) :
    ∃ (m : Nat) (e : Int) (hm : Significand m), (Float.ofNat n).toModel = .pack (.finite .positive m e hm.pos) ∧
      -1074 ≤ e ∧ e * 0x10000000000000 + m = place n := by
  by_cases hlog : n.log2 ≤ 52
  · refine ⟨_, _, significand_shiftLeft h hlog, toModel_ofNat_of_small h hlog, by omega, ?_⟩
    have hshift : 53 = 52 - n.log2 + (n.log2 + 1) := by omega
    rw [place, hshift, Nat.shiftLeft_add, rounded_shiftLeft]
  · have hlog' : (n <<< 53).log2 = 52 + (n.log2 + 1) := by
      rw [log2_shiftLeft h]
      omega
    have hexponent : -53 + ((n.log2 + 1 : Nat) : Int) = n.log2 - 52 := by omega
    obtain ⟨m, e, hm, hround, hleast, hplace⟩ :=
      exists_roundWithAccuracy_eq .positive hlog' (e := -53) (by omega)
    refine ⟨m, e, hm, ?_, hleast, ?_⟩
    · rw [toModel_ofNat_of_large (by omega), hround]
    · rw [hplace, hexponent, place]

/-- A positive number becomes the double at its place. -/
theorem exists_unpack_ofNat {n : Nat} (h : n ≠ 0) :
    ∃ (m : Nat) (e : Int), (ofNat n).toModel.unpack = held .positive m e ∧ Significand m ∧ -1074 ≤ e ∧
      e * 0x10000000000000 + m = place n := by
  obtain ⟨m, e, hm, hofNat, hleast, hplace⟩ := exists_toModel_ofNat h
  refine ⟨m, e, ?_, hm, hleast, hplace⟩
  rw [ofNat]
  split
  · rw [hofNat, unpack_pack_finite _ hm hleast]
  · rename_i hlog
    have hlow := (rounded_mem (m := n <<< 53) (k := n.log2 + 1) (by rw [log2_shiftLeft h]; omega)).1
    have hhigh := hm.2
    rw [place] at hplace
    rw [held_of_lt _ _ (by omega)]
    rfl

end SymbolicAlgebra.Double
