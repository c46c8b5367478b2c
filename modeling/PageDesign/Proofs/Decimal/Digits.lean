import Mathlib.Algebra.Ring.Nat
import Mathlib.Data.List.Induction
import Mathlib.Data.Nat.Find
import PageDesign.Decimal.Scaled

/-! # The digits that are kept of a number

Of the digits before the point as many are kept as sixty-four bits hold, and of those behind it
as many as they hold together with these (`kept`).  A digit that is dropped before the point
raises the power of ten, and one that is kept behind it lowers it (`gather`).  This is what the
digits are gathered to, one after another (`gather_eq`).

A digit is dropped only if a large number is kept before it (`le_kept_of_dropped`).
-/
namespace PageDesign.Decimal

/-- The number that digits write. -/
def digitsValue (ds : List Char) : Nat := Nat.ofDigitChars 10 ds 0

/-- How many digits are kept behind others. -/
def keptCount (before ds : List Char) : Nat :=
  Nat.findGreatest (fun i => digitsValue (before ++ ds.take i) < 2 ^ 64) ds.length

/-- The digits that are kept behind others: as many as sixty-four bits hold. -/
def kept (before ds : List Char) : List Char := ds.take (keptCount before ds)

/-- What is kept of a number with digits before and behind the point. -/
def gather (whole fraction : List Char) : Scaled where
  significand := digitsValue (kept [] whole ++ kept (kept [] whole) fraction)
  exponent := whole.length - (kept [] whole).length - (kept (kept [] whole) fraction).length

variable {before ds whole fraction : List Char} {c : Char}

/-! ## The value of digits -/

theorem digitsValue_append (a b : List Char) :
    digitsValue (a ++ b) = digitsValue a * 10 ^ b.length + digitsValue b := by
  rw [digitsValue, Nat.ofDigitChars_append, Nat.ofDigitChars_eq_ofDigitChars_zero, Nat.mul_comm]
  rfl

theorem digitsValue_concat (ds : List Char) (c : Char) :
    digitsValue (ds ++ [c]) = digitsValue ds * 10 + Scaled.digitValue c := by
  rw [digitsValue, Nat.ofDigitChars_append, Nat.ofDigitChars_cons, Nat.ofDigitChars_nil,
    Nat.mul_comm]
  rfl

theorem digitsValue_le_append (a b : List Char) : digitsValue a ≤ digitsValue (a ++ b) := by
  have h := Nat.le_mul_of_pos_right (digitsValue a) (Nat.pow_pos (by decide) : 0 < 10 ^ b.length)
  rw [digitsValue_append]
  omega

theorem digitValue_lt (h : c.isDigit = true) : Scaled.digitValue c < 10 := by
  obtain ⟨-, hle⟩ := Char.isDigit_iff_toNat.mp h
  have hnine : '9'.toNat - '0'.toNat = 9 := rfl
  rw [Scaled.digitValue]
  omega

theorem digitsValue_lt (h : ∀ c ∈ ds, c.isDigit = true) : digitsValue ds < 10 ^ ds.length := by
  induction ds using List.reverseRecOn with
  | nil => decide
  | append_singleton ds c ih =>
    rw [List.forall_mem_append, List.forall_mem_singleton] at h
    have hds := ih h.1
    have hc := digitValue_lt h.2
    rw [digitsValue_concat, List.length_append, List.length_singleton, Nat.pow_succ]
    omega

/-! ## Keeping digits one after another -/

theorem kept_nil (before : List Char) : kept before [] = [] := rfl

/-- Nothing is dropped that is held. -/
theorem kept_eq_self (h : digitsValue (before ++ ds) < 2 ^ 64) : kept before ds = ds := by
  have hcount : keptCount before ds = ds.length :=
    Nat.findGreatest_eq (by rwa [List.take_length])
  rw [kept, hcount, List.take_length]

theorem kept_isPrefix (before ds : List Char) : kept before ds <+: ds := List.take_prefix ..

/-- What is kept is held. -/
theorem digitsValue_kept_lt (h : digitsValue before < 2 ^ 64) :
    digitsValue (before ++ kept before ds) < 2 ^ 64 := by
  refine Nat.findGreatest_spec (P := fun i => digitsValue (before ++ ds.take i) < 2 ^ 64)
    (Nat.zero_le _) ?_
  rwa [List.take_zero, List.append_nil]

/-- A digit that is held is kept, and more may be kept behind it. -/
theorem kept_cons_of_lt (h : digitsValue (before ++ [c]) < 2 ^ 64) :
    kept before (c :: ds) = c :: kept (before ++ [c]) ds := by
  have hcount : keptCount before (c :: ds) = keptCount (before ++ [c]) ds + 1 := by
    refine Nat.findGreatest_eq_iff.mpr ⟨?_, fun _ => ?_, fun i hi hle => ?_⟩
    · exact Nat.succ_le_succ (Nat.findGreatest_le _)
    · have hkept := @digitsValue_kept_lt (before ++ [c]) ds h
      rwa [List.append_assoc] at hkept
    · obtain ⟨j, rfl⟩ := Nat.exists_eq_succ_of_ne_zero (Nat.ne_zero_of_lt hi)
      have hmore := Nat.findGreatest_is_greatest (Nat.lt_of_succ_lt_succ hi)
        (Nat.le_of_succ_le_succ hle)
      rwa [List.append_assoc] at hmore
  rw [kept, hcount]
  rfl

/-- From a digit on that is not held, nothing is kept. -/
theorem kept_cons_of_le (h : 2 ^ 64 ≤ digitsValue (before ++ [c])) :
    kept before (c :: ds) = [] := by
  have hcount : keptCount before (c :: ds) = 0 := by
    refine Nat.findGreatest_eq_zero_iff.mpr fun i hi _ => ?_
    obtain ⟨j, rfl⟩ := Nat.exists_eq_succ_of_ne_zero (Nat.ne_zero_of_lt hi)
    have hle := digitsValue_le_append (before ++ [c]) (ds.take j)
    rw [List.append_assoc] at hle
    exact Nat.not_lt.mpr (Nat.le_trans h hle)
  rw [kept, hcount]
  rfl

/-- Digits are all kept, or what is kept is so large that the next digit is not held. -/
theorem le_kept_of_dropped (hd : ∀ c ∈ ds, c.isDigit = true) (h : kept before ds ≠ ds) :
    2 ^ 60 ≤ digitsValue (before ++ kept before ds) := by
  induction ds generalizing before with
  | nil => exact absurd (kept_nil before) h
  | cons c ds ih =>
    rw [List.forall_mem_cons] at hd
    by_cases hheld : digitsValue (before ++ [c]) < 2 ^ 64
    · rw [kept_cons_of_lt hheld] at h ⊢
      have hrest := ih hd.2 fun he => h (congrArg _ he)
      rwa [List.append_assoc] at hrest
    · have hle := Nat.le_of_not_lt hheld
      have hc := digitValue_lt hd.1
      rw [kept_cons_of_le hle, List.append_nil]
      rw [digitsValue_concat] at hle
      omega

section Gathering
variable {n next : Nat} {e : Int}

theorem whole_cons (n : Nat) (c : Char) (ds : List Char) : Scaled.whole n (c :: ds) =
    match Scaled.push? n c with
    | some next => Scaled.whole next ds
    | none => ⟨n, ds.length + 1⟩ := (rfl)

theorem fraction_cons (s : Scaled) (c : Char) (ds : List Char) : s.fraction (c :: ds) =
    match Scaled.push? s.significand c with
    | some next => Scaled.fraction ⟨next, s.exponent - 1⟩ ds
    | none => s := (rfl)

theorem whole_cons_of_some (h : Scaled.push? n c = some next) :
    Scaled.whole n (c :: ds) = Scaled.whole next ds := by
  rw [whole_cons, h]

theorem whole_cons_of_none (h : Scaled.push? n c = none) :
    Scaled.whole n (c :: ds) = ⟨n, ds.length + 1⟩ := by
  rw [whole_cons, h]

theorem fraction_cons_of_some (h : Scaled.push? n c = some next) :
    Scaled.fraction ⟨n, e⟩ (c :: ds) = Scaled.fraction ⟨next, e - 1⟩ ds := by
  rw [fraction_cons, h]

theorem fraction_cons_of_none (h : Scaled.push? n c = none) :
    Scaled.fraction ⟨n, e⟩ (c :: ds) = ⟨n, e⟩ := by
  rw [fraction_cons, h]

end Gathering

theorem push?_of_lt (h : digitsValue (before ++ [c]) < 2 ^ 64) :
    Scaled.push? (digitsValue before) c = some (digitsValue (before ++ [c])) := by
  rw [digitsValue_concat] at h ⊢
  exact if_pos h

theorem push?_of_le (h : 2 ^ 64 ≤ digitsValue (before ++ [c])) :
    Scaled.push? (digitsValue before) c = none := by
  rw [digitsValue_concat] at h
  exact if_neg (Nat.not_lt.mpr h)

/-- The digits before the point are kept, and each that is dropped raises the power of ten. -/
theorem whole_eq (before ds : List Char) : Scaled.whole (digitsValue before) ds =
    ⟨digitsValue (before ++ kept before ds), ds.length - (kept before ds).length⟩ := by
  induction ds generalizing before with
  | nil =>
    have hnil := kept_nil before
    generalize kept before [] = ds at hnil ⊢
    rw [hnil, List.append_nil]
    rfl
  | cons c ds ih =>
    by_cases h : digitsValue (before ++ [c]) < 2 ^ 64
    · rw [whole_cons_of_some (push?_of_lt h), ih, kept_cons_of_lt h, List.append_assoc,
        List.singleton_append, Scaled.mk.injEq, List.length_cons, List.length_cons]
      exact ⟨rfl, by omega⟩
    · have hle := Nat.le_of_not_lt h
      rw [whole_cons_of_none (push?_of_le hle), kept_cons_of_le hle, List.append_nil,
        Scaled.mk.injEq, List.length_cons, List.length_nil]
      exact ⟨rfl, by omega⟩

/-- Digits that are held are all kept. -/
theorem whole_of_lt (h : digitsValue ds < 2 ^ 64) : Scaled.whole 0 ds = ⟨digitsValue ds, 0⟩ := by
  have hwhole := whole_eq [] ds
  have hkept := @kept_eq_self [] ds h
  rwa [hkept, List.nil_append, Int.sub_self] at hwhole

/-- The digits behind the point are kept, and each that is kept lowers the power of ten. -/
theorem fraction_eq (before ds : List Char) (e : Int) :
    Scaled.fraction ⟨digitsValue before, e⟩ ds =
      ⟨digitsValue (before ++ kept before ds), e - (kept before ds).length⟩ := by
  induction ds generalizing before e with
  | nil =>
    have hnil := kept_nil before
    generalize kept before [] = ds at hnil ⊢
    rw [hnil, List.append_nil, List.length_nil, Int.natCast_zero, Int.sub_zero]
    rfl
  | cons c ds ih =>
    by_cases h : digitsValue (before ++ [c]) < 2 ^ 64
    · rw [fraction_cons_of_some (push?_of_lt h), ih, kept_cons_of_lt h, List.append_assoc,
        List.singleton_append, Scaled.mk.injEq, List.length_cons]
      exact ⟨rfl, by omega⟩
    · have hle := Nat.le_of_not_lt h
      rw [fraction_cons_of_none (push?_of_le hle), kept_cons_of_le hle, List.append_nil,
        List.length_nil, Int.natCast_zero, Int.sub_zero]

/-- **Digits are gathered to what is kept of them.** -/
theorem gather_eq (whole fraction : List Char) :
    (Scaled.whole 0 whole).fraction fraction = gather whole fraction := by
  have hwhole := whole_eq [] whole
  have hfraction := fraction_eq (kept [] whole) fraction (whole.length - (kept [] whole).length)
  exact (congrArg (Scaled.fraction · fraction) hwhole).trans hfraction

theorem gather_lt (whole fraction : List Char) : (gather whole fraction).significand < 2 ^ 64 :=
  digitsValue_kept_lt (@digitsValue_kept_lt [] whole (by decide))

end PageDesign.Decimal
