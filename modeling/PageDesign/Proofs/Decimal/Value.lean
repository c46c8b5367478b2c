import Mathlib.Algebra.Order.Field.Power
import Mathlib.Data.Rat.Cast.Order
import Mathlib.Tactic.GCongr
import Mathlib.Tactic.Linarith
import Mathlib.Tactic.Positivity
import PageDesign.Proofs.Decimal.Digits
import PageDesign.Proofs.Decimal.Range

/-! # The numbers that digits write

Digits before and behind a point, with a power of ten, write a rational number (`numberValue`).
What is kept of the digits is another one, and so is what becomes of it when it is scaled, but
neither is far from the first: dropping digits changes a number by one part in `2 ^ 60`
(`gather_close`), and scaling what is kept by three in `2 ^ 53` (`nearest_mul_close`).  So a number
that is smaller than `2 ^ 1024` by one part in `2 ^ 51` is in range
(`Scaled.inRange_of_value_lt`), and one that is larger by as much is not
(`Scaled.value_lt_of_inRange`).
-/
namespace PageDesign.Decimal

/-- The number that digits before and behind a point write, with a power of ten. -/
def numberValue (whole fraction : List Char) (power : Int) : ℚ :=
  digitsValue (whole ++ fraction) * 10 ^ (power - fraction.length)

/-- The number that a significand and a power of ten stand for. -/
def Scaled.value (s : Scaled) : ℚ := s.significand * 10 ^ s.exponent

variable {whole fraction p ds ds' : List Char}

theorem ten_zpow_pos (x : ℤ) : (0 : ℚ) < 10 ^ x := zpow_pos (by decide) x

theorem value_nonneg (s : Scaled) : 0 ≤ s.value :=
  mul_nonneg (Nat.cast_nonneg _) (ten_zpow_pos _).le

/-- Digits behind others make a number larger by less than one of its last place. -/
theorem digitsValue_append_bounds (hd : ∀ c ∈ ds, c.isDigit = true) (x : ℤ) :
    (digitsValue p : ℚ) * 10 ^ x ≤ digitsValue (p ++ ds) * 10 ^ (x - ds.length) ∧
      (digitsValue (p ++ ds) : ℚ) * 10 ^ (x - ds.length) < (digitsValue p + 1) * 10 ^ x := by
  have hpow : (10 : ℚ) ^ x = 10 ^ ds.length * 10 ^ (x - ds.length) := by
    rw [← zpow_natCast, ← zpow_add₀ (by decide), add_sub_cancel]
  have hlt : (digitsValue ds : ℚ) < 10 ^ ds.length := by exact_mod_cast digitsValue_lt hd
  have hpos := ten_zpow_pos (x - ds.length)
  rw [hpow, ← mul_assoc, ← mul_assoc, digitsValue_append]
  push_cast
  constructor
  · exact mul_le_mul_of_nonneg_right (le_add_of_nonneg_right (Nat.cast_nonneg _)) hpos.le
  · refine mul_lt_mul_of_pos_right ?_ hpos
    rw [add_mul, one_mul]
    exact add_lt_add_of_le_of_lt le_rfl hlt

/-- What digits write behind a large number matters little. -/
theorem close_of_shared (hp : 2 ^ 60 ≤ digitsValue p) (hd : ∀ c ∈ ds, c.isDigit = true)
    (hd' : ∀ c ∈ ds', c.isDigit = true) (x : ℤ) :
    2 ^ 60 * (digitsValue (p ++ ds) * 10 ^ (x - ds.length)) ≤
      (2 ^ 60 + 1) * ((digitsValue (p ++ ds') : ℚ) * 10 ^ (x - ds'.length)) := by
  obtain ⟨-, hhigh⟩ := @digitsValue_append_bounds p ds hd x
  obtain ⟨hlow, -⟩ := @digitsValue_append_bounds p ds' hd' x
  have hlarge : (2 : ℚ) ^ 60 ≤ digitsValue p := by exact_mod_cast hp
  have hplace := mul_le_mul_of_nonneg_right hlarge (ten_zpow_pos x).le
  linarith

/-- What is kept of a number is the number itself, or the two begin with the same large number. -/
theorem gather_cases (hw : ∀ c ∈ whole, c.isDigit = true)
    (hf : ∀ c ∈ fraction, c.isDigit = true) (power : Int) :
    ((gather whole fraction).shift power).value = numberValue whole fraction power ∨
      ∃ (p ds ds' : List Char) (x : ℤ), 2 ^ 60 ≤ digitsValue p ∧
        (∀ c ∈ ds, c.isDigit = true) ∧ (∀ c ∈ ds', c.isDigit = true) ∧
        ((gather whole fraction).shift power).value =
          digitsValue (p ++ ds) * 10 ^ (x - ds.length) ∧
        numberValue whole fraction power = digitsValue (p ++ ds') * 10 ^ (x - ds'.length) := by
  obtain ⟨rest, hrest⟩ := kept_isPrefix [] whole
  obtain ⟨rest', hrest'⟩ := kept_isPrefix (kept [] whole) fraction
  have hlarge := @le_kept_of_dropped [] whole hw
  have hlarge' := @le_kept_of_dropped (kept [] whole) fraction hf
  unfold gather Scaled.shift Scaled.value numberValue
  simp only
  generalize kept (kept [] whole) fraction = b at hrest' hlarge' ⊢
  generalize kept [] whole = a at hrest hlarge hlarge' ⊢
  subst hrest hrest'
  rw [List.forall_mem_append] at hw hf
  have hexponent {e e' : ℤ} (n : Nat) (h : e = e') : (n : ℚ) * 10 ^ e = n * 10 ^ e' := by rw [h]
  cases rest with
  | cons c rest =>
    refine .inr ⟨a, b, c :: rest ++ (b ++ rest'), (c :: rest).length + power, hlarge (by simp),
      hf.1, ?_, hexponent _ ?_, ?_⟩
    · exact List.forall_mem_append.mpr ⟨hw.2, List.forall_mem_append.mpr hf⟩
    · rw [List.length_append]
      omega
    · have hlength := @List.length_append _ (c :: rest) (b ++ rest')
      rw [List.append_assoc]
      refine hexponent _ ?_
      omega
  | nil =>
    rw [List.append_nil]
    cases rest' with
    | cons c rest' =>
      refine .inr ⟨a ++ b, [], c :: rest', power - b.length, hlarge' (by simp),
        by simp, hf.2, ?_, ?_⟩
      · rw [List.append_nil]
        refine hexponent _ ?_
        rw [List.length_nil]
        omega
      · rw [List.append_assoc]
        refine hexponent _ ?_
        rw [List.length_append]
        omega
    | nil =>
      rw [List.append_nil]
      refine .inl (hexponent _ ?_)
      omega

/-- **Dropping digits changes a number by no more than one part in `2 ^ 60`.** -/
theorem gather_close (hw : ∀ c ∈ whole, c.isDigit = true) (hf : ∀ c ∈ fraction, c.isDigit = true)
    (power : Int) :
    2 ^ 60 * ((gather whole fraction).shift power).value ≤
        (2 ^ 60 + 1) * numberValue whole fraction power ∧
      2 ^ 60 * numberValue whole fraction power ≤
        (2 ^ 60 + 1) * ((gather whole fraction).shift power).value := by
  rcases gather_cases hw hf power with he | ⟨p, ds, ds', x, hp, hd, hd', hgather, hvalue⟩
  · have hpos := value_nonneg ((gather whole fraction).shift power)
    rw [← he]
    constructor <;> linarith
  · rw [hgather, hvalue]
    exact ⟨close_of_shared hp hd hd' x, close_of_shared hp hd' hd x⟩

/-! ## Numbers that are clearly in range, or clearly not -/

section Value
variable {s : Scaled} {v : ℚ}

theorem value_of_nonneg (h : 0 ≤ s.exponent) :
    s.value = (s.significand * 10 ^ s.exponent.toNat : Nat) := by
  rw [Scaled.value, Nat.cast_mul, Nat.cast_pow, Nat.cast_ofNat, ← zpow_natCast,
    Int.toNat_of_nonneg h]

/-- A number is in range if the one that it is kept of is small enough. -/
theorem Scaled.inRange_of_value_lt (hs : s.significand < 2 ^ 64)
    (hclose : 2 ^ 60 * s.value ≤ (2 ^ 60 + 1) * v) (hv : 2 ^ 51 * v < (2 ^ 51 - 1) * tooLarge) :
    s.InRange := by
  rcases Int.le_total s.exponent 0 with he | he
  · exact inRange_of_nonpos hs he
  · have hround := (nearest_mul_close s.significand (10 ^ s.exponent.toNat)).2
    rw [value_of_nonneg he] at hclose
    unfold InRange
    generalize s.significand * 10 ^ s.exponent.toNat = n at hclose hround
    generalize nearest (nearest s.significand * nearest (10 ^ s.exponent.toNat)) = r at hround ⊢
    have hround : (2 : ℚ) ^ 159 * r ≤ (2 ^ 53 + 1) ^ 3 * n := by exact_mod_cast hround
    have hpos : (0 : ℚ) < tooLarge := Nat.cast_pos.mpr (le_tooLarge (k := 0) (Nat.zero_le _))
    have hlt : (r : ℚ) < tooLarge := by linarith
    exact_mod_cast hlt

/-- A number that is in range is not kept of a large one. -/
theorem Scaled.value_lt_of_inRange (hs : s.significand < 2 ^ 64) (h : s.InRange)
    (hclose : 2 ^ 60 * v ≤ (2 ^ 60 + 1) * s.value) : 2 ^ 51 * v < (2 ^ 51 + 1) * tooLarge := by
  rcases Int.le_total s.exponent 0 with he | he
  · have hpower : (10 : ℚ) ^ s.exponent ≤ 1 := zpow_le_one_of_nonpos₀ (by norm_num) he
    have hsig : (s.significand : ℚ) < 2 ^ 64 := by exact_mod_cast hs
    have hvalue : s.value ≤ s.significand := mul_le_of_le_one_right (Nat.cast_nonneg _) hpower
    have hlarge : (2 : ℚ) ^ 100 ≤ tooLarge := by
      exact_mod_cast le_tooLarge (k := 100) (by decide)
    linarith
  · have hround := (nearest_mul_close s.significand (10 ^ s.exponent.toNat)).1
    rw [value_of_nonneg he] at hclose
    unfold InRange at h
    generalize s.significand * 10 ^ s.exponent.toNat = n at hclose hround
    generalize nearest (nearest s.significand * nearest (10 ^ s.exponent.toNat)) = r at h hround
    have hround : ((2 ^ 53 - 1 : Nat) : ℚ) ^ 3 * n ≤ 2 ^ 159 * r := by exact_mod_cast hround
    rw [Nat.cast_sub (by decide), Nat.cast_pow, Nat.cast_ofNat, Nat.cast_one] at hround
    have hlt : (r : ℚ) < tooLarge := by exact_mod_cast h
    linarith

end Value

end PageDesign.Decimal
