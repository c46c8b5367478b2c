import PageDesign.Proofs.Decimal.Rounding

/-! # The range of decimal numbers

A significand and a power of ten are in range if their product is, with both factors and the
product rounded to fifty-three bits (`Scaled.InRange`).  It is known by computing with natural
numbers alone, and it decides whether floating-point arithmetic scales the significand or finds
the result too large (`Scaled.isSome_toFloat?_iff`).

The bounds at which a power of ten stops when it is raised do not matter: beyond them a number is
too large already, whatever its significand, or in range (`Scaled.inRange_raise`).
-/
namespace PageDesign.Decimal
open Float.Model Float.Model.UnpackedFloat

namespace Scaled

/-- Whether a significand times a power of ten is in range: both are rounded to fifty-three bits,
and so is their product, and that is not too large.  A power below one makes the significand
smaller, so it has no say. -/
def InRange (s : Scaled) : Prop :=
  nearest (nearest s.significand * nearest (10 ^ s.exponent.toNat)) < tooLarge

/-- A number with its power of ten raised by `amount`, wherever that leads. -/
def shift (s : Scaled) (amount : Int) : Scaled := { s with exponent := s.exponent + amount }

theorem inRange_of_zero {s : Scaled} (h : s.significand = 0) : s.InRange := by
  rw [InRange, h, nearest_of_lt (n := 0) (by decide), Nat.zero_mul, nearest_of_lt (by decide)]
  exact le_tooLarge (k := 0) (Nat.zero_le _)

theorem inRange_of_nonpos {s : Scaled} (hs : s.significand < 2 ^ 64) (he : s.exponent ≤ 0) :
    s.InRange := by
  have hclose := (nearest_close s.significand).2
  have hone : nearest 1 = 1 := nearest_of_lt (by decide)
  rw [InRange, Int.toNat_of_nonpos he, Nat.pow_zero, hone, Nat.mul_one]
  exact nearest_lt_tooLarge (k := 65) (by decide) (by omega)

/-- A number that is not zero is too large if the power of ten is. -/
theorem not_inRange_of_large {s : Scaled} (hs : s.significand ≠ 0) (he : 308 < s.exponent) :
    ¬ s.InRange := by
  have hpower : 10 ^ 309 ≤ 10 ^ s.exponent.toNat := by
    rw [Nat.pow_le_pow_iff_right (by decide)]
    omega
  have hmul : 10 ^ s.exponent.toNat ≤ s.significand * 10 ^ s.exponent.toNat :=
    Nat.le_mul_of_pos_left _ (Nat.pos_of_ne_zero hs)
  rw [InRange, Nat.not_lt]
  refine Nat.le_of_mul_le_mul_left (c := 2 ^ 159) ?_ (by decide)
  calc 2 ^ 159 * tooLarge ≤ (2 ^ 53 - 1) ^ 3 * 10 ^ 309 := by decide +kernel
    _ ≤ (2 ^ 53 - 1) ^ 3 * (s.significand * 10 ^ s.exponent.toNat) :=
      Nat.mul_le_mul_left _ (Nat.le_trans hpower hmul)
    _ ≤ _ := (nearest_mul_close ..).1

/-- Powers of ten are bounded where the bounds make no difference. -/
theorem inRange_raise {s : Scaled} (hs : s.significand < 2 ^ 64) (amount : Int) :
    (s.raise amount).InRange ↔ (s.shift amount).InRange := by
  by_cases hzero : s.significand = 0
  · exact iff_of_true (inRange_of_zero hzero) (inRange_of_zero hzero)
  have hraise : (s.raise amount).exponent =
      max (-0x80000000) (min 0x7fffffff (s.exponent + amount)) := rfl
  have hshift : (s.shift amount).exponent = s.exponent + amount := rfl
  rcases lt_or_ge 0x7fffffff (s.exponent + amount) with hhigh | hhigh
  · refine iff_of_false (not_inRange_of_large hzero ?_) (not_inRange_of_large hzero ?_) <;> omega
  rcases lt_or_ge (s.exponent + amount) (-0x80000000) with hlow | hlow
  · refine iff_of_true (inRange_of_nonpos hs ?_) (inRange_of_nonpos hs ?_) <;> omega
  · have he : s.raise amount = s.shift amount := by
      rw [raise, shift, Scaled.mk.injEq]
      exact ⟨rfl, by omega⟩
    rw [he]

/-! ## Scaling in floating point -/

theorem isSome_scale?_of_neg (x : Float) {e : Int} (h : e < 0) : (scale? x e).isSome = true := by
  fun_induction scale? x e with
  | case1 => rfl
  | case2 x e _ _ ih => exact ih (by omega)
  | case3 => rfl
  | case4 => omega
  | case5 => omega
  | case6 => omega
  | case7 => omega

theorem isSome_scale?_of_le (x : Float) {e : Int} (h : 0 ≤ e) (he : e ≤ 308) :
    (scale? x e).isSome = true ↔ ¬ (x * tenTo e.natAbs).isInf = true := by
  rw [scale?, if_neg (by omega), if_neg (by omega), if_pos he]
  show (if (x * tenTo e.natAbs).isInf = true then none else some _).isSome = true ↔ _
  split
  · next h => exact iff_of_false Bool.false_ne_true (not_not_intro h)
  · next h => exact iff_of_true rfl h

theorem isSome_scale?_of_lt (x : Float) {e : Int} (he : 308 < e) :
    (scale? x e).isSome = true ↔ (x == 0) = true := by
  rw [scale?, if_neg (by omega), if_neg (by omega), if_neg (by omega)]
  split
  · next h => exact iff_of_true rfl h
  · next h => exact iff_of_false Bool.false_ne_true h

theorem isInf_zero_mul {y : Float} {n : Nat} (hy : IsNat y n) :
    ((UInt64.ofNat 0).toFloat * y).isInf = false := by
  obtain ⟨m, e, hm, hu, -⟩ := exists_of_standsFor hy
  have hmul : ((UInt64.ofNat 0).toFloat * y).toModel = Float.Model.pack
      (UnpackedFloat.mul Format.binary64 (.zero .positive) y.toModel.unpack) := rfl
  show ((UInt64.ofNat 0).toFloat * y).toModel.unpack.isInf = false
  rw [hmul, hu]
  show (Float.Model.pack (.zero .positive)).unpack.isInf = false
  rfl

theorem beq_zero_of_isNat {x : Float} {n : Nat} (hx : IsNat x n) : (x == 0) = false := by
  obtain ⟨m, e, hm, hu, -⟩ := exists_of_standsFor hx
  show x.toModel.unpack.beq (0 : Float).toModel.unpack = false
  rw [hu]
  rfl

/-- **A number is read just if it is in range.** -/
theorem isSome_toFloat?_iff {s : Scaled} (hs : s.significand < 2 ^ 64) :
    s.toFloat?.isSome = true ↔ s.InRange := by
  obtain ⟨n, e⟩ := s
  unfold toFloat?
  simp only at hs ⊢
  -- a negative power divides and is never too large; beyond the largest one only zero is scaled
  by_cases hneg : e < 0
  · exact iff_of_true (isSome_scale?_of_neg _ hneg) (inRange_of_nonpos hs (Int.le_of_lt hneg))
  by_cases hzero : n = 0
  · subst hzero
    refine iff_of_true ?_ (inRange_of_zero rfl)
    by_cases hlarge : 308 < e
    · exact (isSome_scale?_of_lt _ hlarge).mpr rfl
    · rw [isSome_scale?_of_le _ (by omega) (by omega), isInf_zero_mul (isNat_tenTo (by omega))]
      exact Bool.false_ne_true
  · have hx := isNat_toFloat hzero hs
    by_cases hlarge : 308 < e
    · refine iff_of_false ?_ (not_inRange_of_large hzero hlarge)
      rw [isSome_scale?_of_lt _ hlarge, beq_zero_of_isNat hx]
      exact Bool.false_ne_true
    · have habs : e.natAbs = e.toNat := by omega
      have hpower : 10 ^ e.toNat ≠ 0 := Nat.ne_of_gt (Nat.pow_pos (by decide))
      have hy := isNat_tenTo (k := e.toNat) (by omega)
      have hne := Nat.mul_ne_zero (nearest_ne_zero hzero) (nearest_ne_zero hpower)
      rw [isSome_scale?_of_le _ (by omega) (by omega), habs, isInf_mul_iff hne hx hy, Nat.not_le]
      rfl

end Scaled
end PageDesign.Decimal
