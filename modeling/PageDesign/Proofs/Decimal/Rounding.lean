import Mathlib.Tactic.NormNum
import PageDesign.Decimal.Scaled

/-! # Floating-point numbers as natural numbers

A natural number is rounded to fifty-three bits: to the nearest number that has so many bits
and only zeros behind them, and to the even one of two that are equally near (`nearest`).  The
result differs from the number by no more than one part in `2 ^ 53` (`nearest_close`).

This is what floating-point arithmetic does with natural numbers, as long as the result is
below `2 ^ 1024`: an integer of sixty-four bits (`isNat_toFloat`), a power of ten (`isNat_tenTo`)
and a product (`exists_unpack_mul`) are each rounded once.  A product from there on is infinite
(`isInf_mul_iff`).
-/
namespace PageDesign.Decimal
open Float.Model Float.Model.UnpackedFloat

/-! ## Rounding natural numbers -/

/-- The quotient of two numbers, rounded to the nearest number, and to the even one of two that
are equally near. -/
def roundedQuotient (n unit : Nat) : Nat :=
  if unit < 2 * (n % unit) ∨ 2 * (n % unit) = unit ∧ n / unit % 2 = 1 then n / unit + 1
  else n / unit

/-- A natural number rounded to fifty-three bits. -/
def nearest (n : Nat) : Nat :=
  roundedQuotient n (2 ^ (n.log2 - 52)) * 2 ^ (n.log2 - 52)

/-- Rounding a quotient changes it by no more than a half. -/
theorem roundedQuotient_close (n : Nat) {unit : Nat} (hu : 0 < unit) :
    2 * (roundedQuotient n unit * unit) ≤ 2 * n + unit ∧
      2 * n ≤ 2 * (roundedQuotient n unit * unit) + unit := by
  have hn : n / unit * unit + n % unit = n := Nat.div_add_mod' n unit
  have hlt := Nat.mod_lt n hu
  unfold roundedQuotient
  split
  · rw [Nat.add_mul, Nat.one_mul]
    omega
  · omega

theorem roundedQuotient_mul {c : Nat} (hc : 0 < c) (n unit : Nat) :
    roundedQuotient (n * c) (unit * c) = roundedQuotient n unit := by
  have hlt : unit * c < 2 * (n % unit * c) ↔ unit < 2 * (n % unit) := by
    rw [← Nat.mul_assoc]
    exact Nat.mul_lt_mul_right hc
  have heq : 2 * (n % unit * c) = unit * c ↔ 2 * (n % unit) = unit := by
    rw [← Nat.mul_assoc]
    exact Nat.mul_left_inj (Nat.ne_of_gt hc)
  unfold roundedQuotient
  rw [Nat.mul_div_mul_right _ _ hc, Nat.mul_mod_mul_right]
  simp only [hlt, heq]

theorem roundedQuotient_one (n : Nat) : roundedQuotient n 1 = n := by
  simp [roundedQuotient, Nat.mod_one]

/-- Fifty-three bits are all kept. -/
theorem nearest_of_lt {n : Nat} (h : n < 2 ^ 53) : nearest n = n := by
  have hl : n.log2 - 52 = 0 := by
    by_cases hn : n = 0
    · simp [hn]
    · have := (Nat.log2_lt hn).mpr h
      omega
  rw [nearest, hl, Nat.pow_zero, roundedQuotient_one, Nat.mul_one]

/-- **Rounding to fifty-three bits changes a number by no more than one part in `2 ^ 53`.** -/
theorem nearest_close (n : Nat) :
    (2 ^ 53 - 1) * n ≤ 2 ^ 53 * nearest n ∧ 2 ^ 53 * nearest n ≤ (2 ^ 53 + 1) * n := by
  by_cases h : n < 2 ^ 53
  · rw [nearest_of_lt h]
    omega
  · have hn : n ≠ 0 := by omega
    have hl : 53 ≤ n.log2 := (Nat.le_log2 hn).mpr (Nat.le_of_not_lt h)
    have hunit : 2 ^ 52 * 2 ^ (n.log2 - 52) ≤ n := by
      rw [← Nat.pow_add, Nat.add_sub_cancel' (by omega)]
      exact Nat.log2_self_le hn
    have hclose := roundedQuotient_close n (Nat.two_pow_pos (n.log2 - 52))
    unfold nearest
    omega

/-- A product of rounded factors that is rounded itself differs from the product by about three
parts in `2 ^ 53`. -/
theorem nearest_mul_close (a b : Nat) :
    (2 ^ 53 - 1) ^ 3 * (a * b) ≤ 2 ^ 159 * nearest (nearest a * nearest b) ∧
      2 ^ 159 * nearest (nearest a * nearest b) ≤ (2 ^ 53 + 1) ^ 3 * (a * b) := by
  obtain ⟨ha, ha'⟩ := nearest_close a
  obtain ⟨hb, hb'⟩ := nearest_close b
  obtain ⟨hab, hab'⟩ := nearest_close (nearest a * nearest b)
  have hlow := Nat.mul_le_mul ha hb
  have hhigh := Nat.mul_le_mul ha' hb'
  rw [Nat.mul_mul_mul_comm, Nat.mul_mul_mul_comm (2 ^ 53)] at hlow
  rw [Nat.mul_mul_mul_comm, Nat.mul_mul_mul_comm (2 ^ 53 + 1)] at hhigh
  constructor <;> omega

theorem log2_mul_pow {n : Nat} (hn : n ≠ 0) (k : Nat) : (n * 2 ^ k).log2 = n.log2 + k := by
  have hlow := Nat.mul_le_mul_right (2 ^ k) (Nat.log2_self_le hn)
  have hhigh := Nat.mul_lt_mul_of_pos_right (@Nat.lt_log2_self n) (Nat.two_pow_pos k)
  rw [Nat.log2_eq_iff (Nat.mul_ne_zero hn (Nat.ne_of_gt (Nat.two_pow_pos k))),
    Nat.add_right_comm, Nat.pow_add, Nat.pow_add _ _ k]
  exact ⟨hlow, hhigh⟩

/-- Zeros behind a number stay behind it. -/
theorem nearest_mul_pow (n k : Nat) : nearest (n * 2 ^ k) = nearest n * 2 ^ k := by
  by_cases hn : n = 0
  · simp [hn, nearest_of_lt]
  have hl := log2_mul_pow hn k
  by_cases h : n.log2 < 52
  · -- all bits of the number are kept, and with zeros behind it a unit divides the number
    rw [nearest_of_lt (Nat.lt_trans ((Nat.log2_lt hn).mp h) (by decide))]
    by_cases hk : n.log2 + k < 52
    · refine nearest_of_lt (Nat.lt_trans ((Nat.log2_lt ?_).mp (hl ▸ hk)) (by decide))
      exact Nat.mul_ne_zero hn (Nat.ne_of_gt (Nat.two_pow_pos k))
    · have hsplit : n * 2 ^ k = n * 2 ^ (52 - n.log2) * 2 ^ (n.log2 + k - 52) := by
        rw [Nat.mul_assoc, ← Nat.pow_add]
        congr 2
        omega
      have hq := roundedQuotient_mul (Nat.two_pow_pos (n.log2 + k - 52)) (n * 2 ^ (52 - n.log2)) 1
      rw [Nat.one_mul, roundedQuotient_one, ← hsplit] at hq
      rw [nearest, hl, hq, ← hsplit]
  · have hunit : 2 ^ (n.log2 + k - 52) = 2 ^ (n.log2 - 52) * 2 ^ k := by
      rw [← Nat.pow_add]
      congr 1
      omega
    rw [nearest, hl, hunit, roundedQuotient_mul (Nat.two_pow_pos k), nearest, Nat.mul_assoc]

/-! ## Rounding in floating point -/

/-- Whether `m · 2 ^ e` is the natural number `n`. -/
def Scales (m : Nat) (e : Int) (n : Nat) : Prop := m * 2 ^ e.toNat = n * 2 ^ (-e).toNat

instance (m : Nat) (e : Int) (n : Nat) : Decidable (Scales m e n) :=
  inferInstanceAs (Decidable (_ = _))

/-- Whether a floating-point number, taken apart, stands for the natural number `n`: it is
positive, and all fifty-three bits of its significand are in use. -/
def StandsFor : UnpackedFloat → Nat → Prop
  | .finite .positive m e _, n => 2 ^ 52 ≤ m ∧ m < 2 ^ 53 ∧ Scales m e n
  | _, _ => False

theorem standsFor_finite {m n : Nat} {e : Int} {h : 0 < m} :
    StandsFor (.finite .positive m e h) n ↔ 2 ^ 52 ≤ m ∧ m < 2 ^ 53 ∧ Scales m e n := Iff.rfl

theorem exists_of_standsFor {u : UnpackedFloat} {n : Nat} (h : StandsFor u n) :
    ∃ m e hm, u = .finite .positive m e hm ∧ 2 ^ 52 ≤ m ∧ m < 2 ^ 53 ∧ Scales m e n := by
  match u, h with
  | .finite .positive m e hm, h => exact ⟨m, e, hm, rfl, h⟩

theorem scales_iff {m n a b : Nat} {e : Int} (he : e = a - b) :
    Scales m e n ↔ m * 2 ^ a = n * 2 ^ b := by
  unfold Scales
  rcases Nat.le_total a b with h | h
  · have hb : 2 ^ b = 2 ^ (-e).toNat * 2 ^ a := by
      rw [← Nat.pow_add]
      congr 1
      omega
    have ha : e.toNat = 0 := by omega
    rw [ha, hb, Nat.pow_zero, Nat.mul_one, ← Nat.mul_assoc,
      Nat.mul_left_inj (Nat.ne_of_gt (Nat.two_pow_pos a))]
  · have ha : 2 ^ a = 2 ^ e.toNat * 2 ^ b := by
      rw [← Nat.pow_add]
      congr 1
      omega
    have hb : (-e).toNat = 0 := by omega
    rw [hb, ha, Nat.pow_zero, Nat.mul_one, ← Nat.mul_assoc,
      Nat.mul_left_inj (Nat.ne_of_gt (Nat.two_pow_pos b))]

/-- What a significand with two further bits is of a quotient: the quotient itself, whether the
rest comes to a half, and whether it is anything else but nothing or a half. -/
structure Residual (em : ExtendedMantissa) (n unit : Nat) : Prop where
  mantissa : em.mantissa = n / unit
  roundBit : em.roundBit = true ↔ unit ≤ 2 * (n % unit)
  stickyBit : em.stickyBit = true ↔ n % unit ≠ 0 ∧ 2 * (n % unit) ≠ unit

theorem residual_exact (n : Nat) : Residual ⟨n, false, false⟩ n 1 :=
  ⟨(Nat.div_one n).symm, by simp [Nat.mod_one], by simp [Nat.mod_one]⟩

theorem Residual.shiftRightOne {em : ExtendedMantissa} {n unit : Nat} (hu : 0 < unit)
    (h : Residual em n unit) : Residual em.shiftRightOne n (unit * 2) := by
  obtain ⟨hm, hr, hs⟩ := h
  have hlt := Nat.mod_lt n hu
  have hmod : n % (unit * 2) = n % unit + unit * (n / unit % 2) := Nat.mod_mul
  have hbit : n / unit % 2 = 0 ∨ n / unit % 2 = 1 := Nat.mod_two_eq_zero_or_one _
  refine ⟨?_, ?_, ?_⟩
  · rw [ExtendedMantissa.shiftRightOne, hm, Nat.div_div_eq_div_mul]
  · rw [ExtendedMantissa.shiftRightOne, hm, hmod]
    rcases hbit with hb | hb <;> rw [hb] <;> simp <;> omega
  · rw [ExtendedMantissa.shiftRightOne, Bool.or_eq_true, hr, hs, hmod]
    rcases hbit with hb | hb <;> rw [hb] <;> omega

theorem residual_shiftRight (n k : Nat) :
    Residual ((⟨n, false, false⟩ : ExtendedMantissa) >>> k) n (2 ^ k) := by
  show Residual (k.repeat ExtendedMantissa.shiftRightOne _) n (2 ^ k)
  induction k with
  | zero => exact residual_exact n
  | succ k ih =>
    rw [Nat.pow_succ]
    exact ih.shiftRightOne (Nat.two_pow_pos k)

theorem Residual.roundedMantissa {em : ExtendedMantissa} {n unit : Nat} (hu : 0 < unit)
    (h : Residual em n unit) : em.roundedMantissa = roundedQuotient n unit := by
  obtain ⟨hm, hr, hs⟩ := h
  have hlt := Nat.mod_lt n hu
  obtain ⟨m, r, s⟩ := em
  simp only at hm hr hs
  subst hm
  unfold ExtendedMantissa.roundedMantissa roundedQuotient
  cases r <;> cases s <;>
    simp only [ExtendedMantissa.accuracy, Accuracy.roundToNearestEven] <;>
    simp at hr hs <;> split <;> omega

theorem targetExponent_eq (m : Nat) (e : Int) :
    Format.binary64.targetExponent (totalExponent m e) = max (m.log2 + e - 52) (-1074) := by
  have h : Format.binary64.targetExponent (totalExponent m e) =
      max ((m.log2 : Int) + 1 + e - 53) (-1074) := rfl
  omega

/-- A significand is shifted by as many bits as it has more than fifty-three. -/
theorem shiftToTargetExponent_eq {m k : Nat} {e : Int} (hm : m.log2 = 52 + k)
    (he : -1074 ≤ e + k) :
    shiftToTargetExponent Format.binary64 m e .exact =
      ((⟨m, false, false⟩ : ExtendedMantissa) >>> k, e + k) := by
  have htarget : Format.binary64.targetExponent (totalExponent m e) = e + k := by
    rw [targetExponent_eq]
    omega
  have hshift : (e + k - e).toNat = k := by omega
  rw [shiftToTargetExponent, htarget, shiftToExponent, hshift]
  rfl

theorem shiftToTargetExponent_full {m : Nat} {e : Int} (hm : m.log2 = 52) (he : -1074 ≤ e) :
    shiftToTargetExponent Format.binary64 m e .exact = (⟨m, false, false⟩, e) := by
  rw [shiftToTargetExponent_eq (k := 0) hm (by omega)]
  show (ExtendedMantissa.mk m false false, e + (0 : Nat)) = _
  norm_num

/-- One bit more than fifty-three is shifted out. -/
theorem shiftToTargetExponent_carry {e : Int} (he : -1074 ≤ e) :
    shiftToTargetExponent Format.binary64 (2 ^ 53) e .exact = (⟨2 ^ 52, false, false⟩, e + 1) := by
  rw [shiftToTargetExponent_eq (k := 1) Nat.log2_two_pow (by omega)]
  show (ExtendedMantissa.mk (2 ^ 53 / 2) (2 ^ 53 % 2 != 0) (false || false), e + (1 : Nat)) = _
  norm_num

theorem roundedQuotient_bounds {m k : Nat} (hm : m.log2 = 52 + k) :
    2 ^ 52 ≤ roundedQuotient m (2 ^ k) ∧ roundedQuotient m (2 ^ k) ≤ 2 ^ 53 := by
  have hne : m ≠ 0 := by
    rintro rfl
    simp at hm
    omega
  have hlow : 2 ^ 52 ≤ m / 2 ^ k := by
    rw [Nat.le_div_iff_mul_le (Nat.two_pow_pos k), ← Nat.pow_add, ← hm]
    exact Nat.log2_self_le hne
  have hhigh : m / 2 ^ k < 2 ^ 53 := by
    have hlt := @Nat.lt_log2_self m
    rw [hm, Nat.add_right_comm, Nat.pow_add] at hlt
    exact (Nat.div_lt_iff_lt_mul (Nat.two_pow_pos k)).mpr hlt
  unfold roundedQuotient
  split <;> omega

theorem roundWithAccuracy_eq {form : Format} {sign : Sign} {m : Nat} {e e₁ e₂ : Int}
    {accuracy : Accuracy} {em₁ em₂ : ExtendedMantissa}
    (h₁ : shiftToTargetExponent form m e accuracy = (em₁, e₁))
    (h₂ : shiftToTargetExponent form em₁.roundedMantissa e₁ .exact = (em₂, e₂))
    (hne : em₂.mantissa ≠ 0) :
    roundWithAccuracy form sign m e accuracy =
      .finite sign em₂.mantissa e₂ (Nat.pos_of_ne_zero hne) := by
  unfold roundWithAccuracy
  rw [h₁]
  dsimp only
  rw [h₂]
  exact dif_neg hne

/-- **A significand of fifty-three bits or more is rounded to fifty-three.** -/
theorem standsFor_roundWithAccuracy {m n : Nat} {e : Int} (hm : 52 ≤ m.log2) (hn : n ≠ 0)
    (h : Scales m e n) :
    StandsFor (roundWithAccuracy Format.binary64 .positive m e .exact) (nearest n) := by
  obtain ⟨k, hk⟩ := Nat.exists_eq_add_of_le hm
  have hsplit : e = (e.toNat : Int) - (-e).toNat := by omega
  -- a number that is not zero leaves no room for an exponent below the smallest one
  have he : -1074 ≤ e + k := by
    have hlt : 2 ^ (-e).toNat < 2 ^ (m.log2 + 1 + e.toNat) := by
      calc 2 ^ (-e).toNat ≤ n * 2 ^ (-e).toNat := Nat.le_mul_of_pos_left _ (Nat.pos_of_ne_zero hn)
        _ = m * 2 ^ e.toNat := h.symm
        _ < 2 ^ (m.log2 + 1) * 2 ^ e.toNat :=
          Nat.mul_lt_mul_of_pos_right Nat.lt_log2_self (Nat.two_pow_pos _)
        _ = 2 ^ (m.log2 + 1 + e.toNat) := (Nat.pow_add ..).symm
    have := (Nat.pow_lt_pow_iff_right (by decide)).mp hlt
    omega
  have hscales : roundedQuotient m (2 ^ k) * 2 ^ (e.toNat + k) = nearest n * 2 ^ (-e).toNat := by
    rw [← nearest_mul_pow, ← h, nearest_mul_pow, nearest, hk, Nat.add_sub_cancel_left, Nat.pow_add,
      Nat.mul_assoc, Nat.mul_comm (2 ^ k)]
  obtain ⟨hlow, hhigh⟩ := roundedQuotient_bounds hk
  have hround := (residual_shiftRight m k).roundedMantissa (Nat.two_pow_pos k)
  have hfirst := shiftToTargetExponent_eq hk he
  by_cases hcarry : roundedQuotient m (2 ^ k) = 2 ^ 53
  · -- rounding has carried into a further bit, which is shifted out again
    have hsecond := shiftToTargetExponent_carry he
    rw [← hcarry, ← hround] at hsecond
    rw [roundWithAccuracy_eq hfirst hsecond (by norm_num), standsFor_finite,
      scales_iff (a := e.toNat + k + 1) (b := (-e).toNat) (by omega), ← hscales, hcarry]
    refine ⟨le_refl _, by norm_num, ?_⟩
    rw [Nat.pow_succ 2 52, Nat.pow_succ 2 (e.toNat + k), Nat.mul_assoc, Nat.mul_comm 2]
  · have hlog : (roundedQuotient m (2 ^ k)).log2 = 52 :=
      (Nat.log2_eq_iff (by omega)).mpr ⟨hlow, by omega⟩
    have hsecond := shiftToTargetExponent_full hlog he
    rw [← hround] at hsecond
    have hne : (⟨roundedQuotient m (2 ^ k), false, false⟩ : ExtendedMantissa).mantissa ≠ 0 :=
      Nat.ne_of_gt (Nat.lt_of_lt_of_le (by norm_num) hlow)
    rw [← hround] at hne
    rw [roundWithAccuracy_eq hfirst hsecond hne, standsFor_finite,
      scales_iff (a := e.toNat + k) (b := (-e).toNat) (by omega), hround]
    exact ⟨hlow, Nat.lt_of_le_of_ne hhigh hcarry, hscales⟩

/-! ## Storing what has been rounded -/

/-- The first natural number that is too large for floating point. -/
def tooLarge : Nat := 2 ^ 1024

theorem tooLarge_le {k : Nat} (h : 1024 ≤ k) : tooLarge ≤ 2 ^ k := by
  rw [tooLarge, Nat.pow_le_pow_iff_right (by decide)]
  exact h

theorem le_tooLarge {k : Nat} (h : k ≤ 1024) : 2 ^ k ≤ tooLarge := by
  rw [tooLarge, Nat.pow_le_pow_iff_right (by decide)]
  exact h

/-- What stands for a number from one on has its exponent bounded by that of the number. -/
theorem exponent_bounds {m n : Nat} {e : Int} (hn : n ≠ 0) (hlow : 2 ^ 52 ≤ m) (hhigh : m < 2 ^ 53)
    (h : Scales m e n) : -52 ≤ e ∧ (n < tooLarge ↔ e ≤ 971) := by
  unfold Scales at h
  have hpos : n * 2 ^ (-e).toNat < 2 ^ (53 + e.toNat) := by
    rw [← h, Nat.pow_add]
    exact Nat.mul_lt_mul_of_pos_right hhigh (Nat.two_pow_pos _)
  refine ⟨?_, ?_, ?_⟩
  · have hlt := Nat.lt_of_le_of_lt (Nat.le_mul_of_pos_left _ (Nat.pos_of_ne_zero hn)) hpos
    have := (Nat.pow_lt_pow_iff_right (by decide)).mp hlt
    omega
  · intro hsmall
    by_contra hlarge
    have hb : (-e).toNat = 0 := by omega
    have hle : tooLarge ≤ n := by
      calc tooLarge ≤ 2 ^ (52 + e.toNat) := tooLarge_le (by omega)
        _ = 2 ^ 52 * 2 ^ e.toNat := Nat.pow_add ..
        _ ≤ m * 2 ^ e.toNat := Nat.mul_le_mul_right _ hlow
        _ = n := by rw [h, hb, Nat.pow_zero, Nat.mul_one]
    exact Nat.not_lt.mpr hle hsmall
  · intro he
    calc n ≤ n * 2 ^ (-e).toNat := Nat.le_mul_of_pos_right _ (Nat.two_pow_pos _)
      _ < 2 ^ (53 + e.toNat) := hpos
      _ ≤ tooLarge := le_tooLarge (by omega)

/-- A significand of fifty-three bits is its first bit and the others. -/
theorem toNat_append_significand {m : Nat} (hlow : 2 ^ 52 ≤ m) (hhigh : m < 2 ^ 53) :
    (1#1 ++ BitVec.ofNat 52 m).toNat = m := by
  rw [BitVec.toNat_append, ← Nat.shiftLeft_add_eq_or_of_lt (BitVec.isLt _), BitVec.toNat_ofNat,
    BitVec.toNat_ofNat, Nat.shiftLeft_eq]
  omega

theorem unpackSign_positive {form : Format} (exponent : BitVec form.exponentBits)
    (mantissa : BitVec form.mantissaBitsWithoutImplicit) :
    unpackSign (packComponents form .positive exponent mantissa) = 0#1 := by
  show BitVec.cast _ ((0#1 ++ exponent ++ mantissa).extractLsb _ _) = 0#1
  ext i hi
  obtain rfl : i = 0 := by omega
  simp [BitVec.getLsbD_append, BitVec.getElem_append]

/-- Bits are taken apart to a finite number if its exponent is not one of the two outermost. -/
theorem unpack_eq_finite {b : BitVec Format.binary64.numBits} {exponent : BitVec 11}
    {mantissa : BitVec 52} (hs : unpackSign b = 0#1) (he : unpackExponent b = exponent)
    (hm : unpackMantissa b = mantissa) (hmax : exponent ≠ -1#11) (hmin : exponent ≠ 0#11)
    (hpos : 0 < (1#1 ++ mantissa).toNat) : UnpackedFloat.unpack Format.binary64 b =
      .finite .positive (1#1 ++ mantissa).toNat (exponent.toNat - (1023 + 52)) hpos := by
  have hsign : Sign.ofBitVec (unpackSign b) = .positive := by
    rw [hs]
    rfl
  subst he hm
  rw [← hsign]
  exact (if_neg hmax).trans (if_neg hmin)

/-- A number that is not too large is stored as it is, and infinity instead of any other. -/
theorem unpack_pack {u : UnpackedFloat} {n : Nat} (hn : n ≠ 0) (h : StandsFor u n) :
    (Float.Model.pack u).unpack = if n < tooLarge then u else .infinity .positive := by
  obtain ⟨m, e, hm, rfl, hlow, hhigh, hscales⟩ := exists_of_standsFor h
  obtain ⟨hmin, hmax⟩ := exponent_bounds hn hlow hhigh hscales
  show UnpackedFloat.unpack Format.binary64 (UnpackedFloat.pack Format.binary64 _) = _
  by_cases hsmall : n < tooLarge
  · have he := hmax.mp hsmall
    have hlog : m.log2 + 1 = 53 := by
      rw [(Nat.log2_eq_iff (by omega)).mpr ⟨hlow, hhigh⟩]
    have hfits : ¬ 2 ^ 11 ≤ (e + 1023 + 52).toNat + 1 := by omega
    have hpack : UnpackedFloat.pack Format.binary64 (.finite .positive m e hm) =
        packComponents Format.binary64 .positive (BitVec.ofNat 11 (e + 1023 + 52).toNat)
          (BitVec.ofNat 52 m) := (if_neg hfits).trans (if_pos hlog)
    have hexp : (BitVec.ofNat 11 (e + 1023 + 52).toNat).toNat = (e + 1023 + 52).toNat := by
      rw [BitVec.toNat_ofNat, Nat.mod_eq_of_lt (by omega)]
    have hne (outermost : BitVec 11) (h : outermost.toNat ≠ (e + 1023 + 52).toNat) :
        BitVec.ofNat 11 (e + 1023 + 52).toNat ≠ outermost := fun heq => h (heq ▸ hexp)
    have hmax' := hne (-1#11) (by rw [show (-1#11).toNat = 2047 from rfl]; omega)
    have hmin' := hne 0#11 (by rw [show (0#11).toNat = 0 from rfl]; omega)
    have hsig := toNat_append_significand hlow hhigh
    have hunpack := unpack_eq_finite (unpackSign_positive _ _) unpackExponent_packComponents
      unpackMantissa_packComponents hmax' hmin' (hsig.symm ▸ hm)
    rw [hpack, if_pos hsmall, hunpack, UnpackedFloat.finite.injEq]
    exact ⟨rfl, hsig, by omega⟩
  · have hover : 2 ^ 11 ≤ (e + 1023 + 52).toNat + 1 := by
      have := mt hmax.mpr hsmall
      omega
    have hpack : UnpackedFloat.pack Format.binary64 (.finite .positive m e hm) =
        packedInfinity Format.binary64 .positive := if_pos hover
    rw [hpack, if_neg hsmall]
    rfl

/-! ## Integers, powers of ten and products -/

/-- Whether a floating-point number is the natural number `n`. -/
def IsNat (x : Float) (n : Nat) : Prop := StandsFor x.toModel.unpack n

theorem isNat_of_standsFor {u : UnpackedFloat} {n : Nat} (hn : n ≠ 0) (hlt : n < tooLarge)
    (h : StandsFor u n) : IsNat ⟨Float.Model.pack u⟩ n := by
  rw [IsNat, unpack_pack hn h, if_pos hlt]
  exact h

theorem nearest_ne_zero {n : Nat} (hn : n ≠ 0) : nearest n ≠ 0 := by
  have := (nearest_close n).1
  omega

/-- A product is rounded, and infinite if that is too large. -/
theorem exists_unpack_mul {x y : Float} {a b : Nat} (hab : a * b ≠ 0) (hx : IsNat x a)
    (hy : IsNat y b) : ∃ u, StandsFor u (nearest (a * b)) ∧
      (x * y).toModel.unpack = if nearest (a * b) < tooLarge then u else .infinity .positive := by
  obtain ⟨m, e, hm, hux, hxlow, -, hxs⟩ := exists_of_standsFor hx
  obtain ⟨k, f, hk, huy, hylow, -, hys⟩ := exists_of_standsFor hy
  have hmul : (x * y).toModel = Float.Model.pack
      (UnpackedFloat.mul Format.binary64 x.toModel.unpack y.toModel.unpack) := rfl
  have hlog : 52 ≤ (m * k).log2 := by
    rw [Nat.le_log2 (Nat.mul_ne_zero hm.ne' hk.ne')]
    exact Nat.le_trans hxlow (Nat.le_mul_of_pos_right m hk)
  have hscales : Scales (m * k) (e + f) (a * b) := by
    rw [scales_iff (a := e.toNat + f.toNat) (b := (-e).toNat + (-f).toNat) (by omega),
      Nat.pow_add, Nat.pow_add, Nat.mul_mul_mul_comm, Nat.mul_mul_mul_comm a]
    exact congrArg₂ _ hxs hys
  have hu := standsFor_roundWithAccuracy hlog hab hscales
  rw [hmul, hux, huy]
  exact ⟨_, hu, unpack_pack (nearest_ne_zero hab) hu⟩

theorem isInf_mul_iff {x y : Float} {a b : Nat} (hab : a * b ≠ 0) (hx : IsNat x a)
    (hy : IsNat y b) : (x * y).isInf = true ↔ tooLarge ≤ nearest (a * b) := by
  obtain ⟨u, hu, hmul⟩ := exists_unpack_mul hab hx hy
  obtain ⟨m, e, hm, rfl, -⟩ := exists_of_standsFor hu
  show (x * y).toModel.unpack.isInf = true ↔ _
  rw [hmul, ← Nat.not_lt]
  by_cases h : nearest (a * b) < tooLarge
  · rw [if_pos h]
    exact iff_of_false Bool.false_ne_true (not_not_intro h)
  · rw [if_neg h]
    exact iff_of_true rfl h

theorem isNat_mul {x y : Float} {a b : Nat} (hab : a * b ≠ 0) (hx : IsNat x a)
    (hy : IsNat y b) (hlt : nearest (a * b) < tooLarge) : IsNat (x * y) (nearest (a * b)) := by
  obtain ⟨u, hu, hmul⟩ := exists_unpack_mul hab hx hy
  rw [IsNat, hmul, if_pos hlt]
  exact hu

/-- A natural number is brought to fifty-three bits by zeros behind it, or by rounding. -/
theorem standsFor_round {n : Nat} (hn : n ≠ 0) :
    StandsFor (UnpackedFloat.round Format.binary64 .positive n 0) (nearest n) := by
  have htarget : Format.binary64.targetExponent (totalExponent n 0) = (n.log2 : Int) - 52 := by
    rw [targetExponent_eq]
    omega
  have hshift : (0 - ((n.log2 : Int) - 52)).toNat = 52 - n.log2 := by omega
  have hround : UnpackedFloat.round Format.binary64 .positive n 0 =
      roundWithAccuracy Format.binary64 .positive (n * 2 ^ (52 - n.log2))
        (0 - (52 - n.log2 : Nat)) .exact := by
    rw [UnpackedFloat.round, htarget, decreaseExponent, hshift, Nat.shiftLeft_eq]
  rw [hround]
  refine standsFor_roundWithAccuracy ?_ hn ?_
  · rw [log2_mul_pow hn]
    omega
  · exact (scales_iff (a := 0) (b := 52 - n.log2) (by omega)).mpr (Nat.mul_one _)

/-- Rounding keeps a number below a power of two that is not below it. -/
theorem nearest_lt_tooLarge {n k : Nat} (hk : k ≤ 1022) (h : n < 2 ^ k) : nearest n < tooLarge := by
  have hclose := (nearest_close n).2
  calc nearest n ≤ 2 * n := by omega
    _ < 2 ^ (k + 1) := by omega
    _ ≤ tooLarge := le_tooLarge (by omega)

/-- **An integer of sixty-four bits is rounded to fifty-three.** -/
theorem isNat_toFloat {n : Nat} (hn : n ≠ 0) (hlt : n < 2 ^ 64) :
    IsNat (UInt64.ofNat n).toFloat (nearest n) := by
  have hround : (UInt64.ofNat n).toFloat =
      ⟨Float.Model.pack (UnpackedFloat.round Format.binary64 .positive n 0)⟩ := by
    have hint : UnpackedFloat.ofInt Format.binary64 ((UInt64.ofNat n).toNat : Int) =
        UnpackedFloat.round Format.binary64 .positive n 0 := by
      rw [UInt64.toNat_ofNat', Nat.mod_eq_of_lt hlt, UnpackedFloat.ofInt, UnpackedFloat.normalize,
        Int.compare_eq_gt.mpr (by omega)]
      rfl
    exact congrArg (fun u => Float.ofModel (Float.Model.pack u)) hint
  rw [hround]
  exact isNat_of_standsFor (nearest_ne_zero hn) (nearest_lt_tooLarge (by decide) hlt)
    (standsFor_round hn)

instance (u : UnpackedFloat) (n : Nat) : Decidable (StandsFor u n) :=
  match u with
  | .finite .positive _ _ _ => inferInstanceAs (Decidable (_ ∧ _ ∧ _))
  | .finite .negative _ _ _ => .isFalse id
  | .infinity _ => .isFalse id
  | .notANumber => .isFalse id
  | .zero _ => .isFalse id

/-- The powers of ten that floating point holds as they are. -/
theorem isNat_table : ∀ k : Fin 23,
    StandsFor Float.exactlyRepresentablePowersOfTen[k].toModel.unpack (10 ^ k.val) := by
  decide +kernel

/-- **A power of ten is rounded to fifty-three bits.** -/
theorem isNat_tenTo {k : Nat} (hk : k ≤ 308) : IsNat (Scaled.tenTo k) (nearest (10 ^ k)) := by
  have hne : 10 ^ k ≠ 0 := Nat.ne_of_gt (Nat.pow_pos (by decide))
  have hlt : nearest (10 ^ k) < tooLarge := by
    refine Nat.lt_of_mul_lt_mul_left (a := 2 ^ 53) ?_
    calc 2 ^ 53 * nearest (10 ^ k) ≤ (2 ^ 53 + 1) * 10 ^ k := (nearest_close (10 ^ k)).2
      _ ≤ (2 ^ 53 + 1) * 10 ^ 308 := Nat.mul_le_mul_left _ (Nat.pow_le_pow_right (by decide) hk)
      _ < 2 ^ 53 * tooLarge := by decide +kernel
  by_cases hsmall : k ≤ 22
  · have hone : IsNat (UInt64.ofNat 1).toFloat 1 := isNat_toFloat (by decide) (by decide)
    have hround : Scaled.tenTo k = (UInt64.ofNat 1).toFloat *
        Float.exactlyRepresentablePowersOfTen[(⟨k, by omega⟩ : Fin 23)] :=
      dif_pos ⟨by decide, hsmall⟩
    have hmul := isNat_mul (by rwa [Nat.one_mul]) hone (isNat_table ⟨k, by omega⟩)
    rw [Nat.one_mul] at hmul
    rw [hround]
    exact hmul hlt
  · have hround : Scaled.tenTo k = ⟨Float.Model.pack (roundWithAccuracy Format.binary64 .positive
        (2 ^ 53 * 10 ^ k) (-53 + 0) .exact)⟩ := by
      have hscientific : UnpackedFloat.ofScientific Format.binary64 1 (k : Int) =
          roundWithAccuracy Format.binary64 .positive (2 ^ 53 * 10 ^ k) (-53 + 0) .exact := by
        unfold UnpackedFloat.ofScientific
        rw [dif_neg (by decide), if_neg (by norm_num; omega), if_neg (by norm_num; omega),
          if_pos (by omega)]
        rfl
      unfold Scaled.tenTo Float.ofScientific
      rw [dif_neg (by omega)]
      exact congrArg (fun u => Float.ofModel (Float.Model.pack u)) hscientific
    rw [hround]
    refine isNat_of_standsFor (nearest_ne_zero hne) hlt (standsFor_roundWithAccuracy ?_ hne ?_)
    · rw [Nat.mul_comm, log2_mul_pow hne]
      omega
    · rw [scales_iff (a := 0) (b := 53) (by omega), Nat.pow_zero, Nat.mul_one, Nat.mul_comm]

end PageDesign.Decimal
