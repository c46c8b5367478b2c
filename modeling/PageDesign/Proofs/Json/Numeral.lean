import Mathlib.Data.List.TakeWhile
import Mathlib.Data.Nat.Digits.Defs
import PageDesign.Json.Numeral
import PageDesign.Proofs.Decimal.Digits

/-! # The texts of numbers

Whatever text a number is read from, it is read from that text wherever it stands, provided
that what follows cannot extend the number (`numberSpelled_of_numeral`).

An integer is written with its decimal digits, which do not begin with a zero unless they
are a single one.  As long as sixty-four bits hold it, its reader gathers the same number
from the digits (`whole_of_lt`) and keeps it as an integer (`numberSpelled_int`).
-/
namespace PageDesign

/-- Whether a number is an integer of sixty-four bits, signed or unsigned. -/
def Number.Exact : Number → Prop
  | .int n => -2 ^ 63 ≤ n ∧ n < 2 ^ 64
  | .float _ => False

namespace Json
open Decimal

/-- A place behind a number: no digit, point or power of ten goes on there. -/
def EndsNumber (rest : List Char) : Prop :=
  ∀ c ∈ rest.head?, c.isDigit = false ∧ c ≠ '.' ∧ c ≠ 'e' ∧ c ≠ 'E'

/-- A place behind digits: no digit goes on there. -/
def EndsDigits (rest : List Char) : Prop := ∀ c ∈ rest.head?, c.isDigit = false

theorem EndsNumber.digits {rest : List Char} (h : EndsNumber rest) : EndsDigits rest :=
  fun c hc => (h c hc).1

theorem digits_append {ds rest : List Char} (hd : ∀ c ∈ ds, c.isDigit = true)
    (hr : EndsDigits rest) : digits (ds ++ rest) = (ds, rest) := by
  have hend : rest.takeWhile Char.isDigit = [] ∧ rest.dropWhile Char.isDigit = rest := by
    cases rest with
    | nil => exact ⟨rfl, rfl⟩
    | cons c rest =>
      have hc : ¬ c.isDigit = true := by simpa using hr c rfl
      exact ⟨List.takeWhile_cons_of_neg hc, List.dropWhile_cons_of_neg hc⟩
  rw [digits, List.takeWhile_append_of_pos hd, List.dropWhile_append_of_pos hd, hend.1, hend.2,
    List.append_nil]

/-- A number of more than one digit does not begin with a zero. -/
theorem toDigits_ne_zero_cons (n : Nat) (c : Char) (behind : List Char) :
    Nat.toDigits 10 n ≠ '0' :: c :: behind := by
  induction n using Nat.strongRecOn generalizing c behind with
  | ind n ih =>
    rw [Nat.toDigits_eq_if (by decide)]
    split
    · simp
    · next hn =>
      intro h
      -- without its last digit the number has one digit, which is no zero, or begins with one
      rcases hd : Nat.toDigits 10 (n / 10) with _ | ⟨d, _ | ⟨e, more⟩⟩
      · exact absurd hd Nat.toDigits_ne_nil
      · rw [hd] at h
        obtain ⟨rfl, -⟩ : d = '0' ∧ _ := by simpa using h
        have hzero := @Nat.ofDigitChars_ten_toDigits (n / 10)
        rw [hd] at hzero
        have : n / 10 = 0 := hzero.symm
        omega
      · rw [hd] at h
        obtain ⟨rfl, -⟩ : d = '0' ∧ _ := by simpa using h
        exact ih (n / 10) (by omega) e more hd

/-- The digits of a natural number are read back, behind a minus sign or not. -/
theorem unsigned_toDigits {negative : Bool} {n : Nat} {m : Int} {rest : List Char}
    (hn : n < 2 ^ 64) (hm : integer? negative ⟨n, 0⟩ = some m) (hr : EndsNumber rest) :
    unsigned negative (Nat.toDigits 10 n ++ rest) = .ok (.int m, rest) := by
  have hdigits := @digits_append (Nat.toDigits 10 n) rest
    (fun c hc => Nat.isDigit_of_mem_toDigits (by decide) (by decide) hc) hr.digits
  have hvalue : digitsValue (Nat.toDigits 10 n) = n := Nat.ofDigitChars_ten_toDigits
  have hwhole : Scaled.whole 0 (Nat.toDigits 10 n) = ⟨n, 0⟩ := by
    have h := @whole_of_lt (Nat.toDigits 10 n)
    rw [hvalue] at h
    exact h hn
  unfold unsigned
  rw [hdigits]
  simp only [hwhole]
  split
  · next c behind h => exact absurd h (toDigits_ne_zero_cons n c behind)
  · split
    · exact absurd rfl (hr '.' rfl).2.1
    · exact absurd rfl (hr 'e' rfl).2.2.1
    · exact absurd rfl (hr 'E' rfl).2.2.2
    · rw [hm]

/-- The text of an integer: its digits, or a minus sign and digits. -/
theorem text_int (n : Int) :
    (0 ≤ n ∧ (Number.int n).text.toList = Nat.toDigits 10 n.natAbs) ∨
      n < 0 ∧ (Number.int n).text.toList = '-' :: Nat.toDigits 10 n.natAbs := by
  cases n with
  | ofNat n =>
    refine .inl ⟨Int.natCast_nonneg n, ?_⟩
    show (Nat.repr n).toList = _
    rw [Nat.repr_eq_ofList_toDigits, String.toList_ofList]
    rfl
  | negSucc n =>
    refine .inr ⟨Int.negSucc_lt_zero n, ?_⟩
    show ("-" ++ Nat.repr (n + 1)).toList = _
    rw [String.toList_append, Nat.repr_eq_ofList_toDigits]
    simp only [String.toList_ofList]
    rfl

/-! ## What is read does not depend on what follows -/

/-- Whether a reader of numbers reads `n` from `t`, whatever follows that cannot extend the
number. -/
def ReadsNumber (read : List Char → Except Fault (Number × List Char)) (n : Number)
    (t : List Char) : Prop := ∀ rest, EndsNumber rest → read (t ++ rest) = .ok (n, rest)

section Reading
variable {negative : Bool} {sc : Scaled} {s rest : List Char} {n : Number}

theorem digits_eq {ds : List Char} (h : digits s = (ds, rest)) :
    s = ds ++ rest ∧ (∀ c ∈ ds, c.isDigit = true) ∧ EndsDigits rest := by
  obtain ⟨rfl, rfl⟩ := Prod.mk.inj h
  refine ⟨List.takeWhile_append_dropWhile.symm, fun c hc => List.mem_takeWhile_imp hc, ?_⟩
  intro c hc
  have hd := List.head?_dropWhile_not Char.isDigit s
  rw [Option.mem_def.mp hc] at hd
  simpa using hd

theorem finish_eq (h : finish negative sc s = .ok (n, rest)) :
    rest = s ∧ ∀ rest', finish negative sc rest' = .ok (n, rest') := by
  refine ⟨rest_of_finish h, fun rest' => ?_⟩
  unfold finish at h ⊢
  split at h
  · cases h
    rfl
  · cases h

/-- The sign of a power of ten, and what follows it. -/
def sign : List Char → Bool × List Char
  | '+' :: rest => (false, rest)
  | '-' :: rest => (true, rest)
  | rest => (false, rest)

theorem sign_digits {ds : List Char} (hne : ds ≠ []) (hd : ∀ c ∈ ds, c.isDigit = true)
    (rest : List Char) : sign (ds ++ rest) = (false, ds ++ rest) := by
  cases ds with
  | nil => exact absurd rfl hne
  | cons c ds =>
    have hc := hd c (List.mem_cons_self ..)
    rw [List.cons_append]
    unfold sign
    split
    · next he =>
      obtain ⟨rfl, -⟩ := List.cons.inj he
      cases hc
    · next he =>
      obtain ⟨rfl, -⟩ := List.cons.inj he
      cases hc
    · rfl

/-- What follows the digits behind a sign has no say in the sign. -/
theorem exists_sign {ds : List Char} (hne : ds ≠ []) (hd : ∀ c ∈ ds, c.isDigit = true)
    (hs : (sign s).2 = ds ++ rest) :
    ∃ t, s = t ++ (ds ++ rest) ∧
      ∀ rest', sign (t ++ (ds ++ rest')) = ((sign s).1, ds ++ rest') := by
  unfold sign at hs
  split at hs
  · exact ⟨['+'], by rw [← hs]; rfl, fun _ => rfl⟩
  · exact ⟨['-'], by rw [← hs]; rfl, fun _ => rfl⟩
  · obtain rfl : s = ds ++ rest := hs
    refine ⟨[], rfl, fun rest' => ?_⟩
    rw [sign_digits hne hd rest]
    exact sign_digits hne hd rest'

/-- The power of ten that digits write, behind a number. -/
def raised (negative : Bool) (sc : Scaled) (down : Bool) (ds rest : List Char) :
    Except Fault (Number × List Char) :=
  match power 0 ds with
  | .inl n => finish negative (sc.raise (if down then -(n : Int) else n)) rest
  | .inr unread =>
    if sc.significand = 0 || down then .ok (.float (signed negative 0.0), rest)
    else .error (.before .numberOutOfRange (unread ++ rest))

theorem exponent_eq {ds : List Char} (hne : ds ≠ []) (hd : digits (sign s).2 = (ds, rest)) :
    exponent negative sc s = raised negative sc (sign s).1 ds rest := by
  unfold exponent
  split
  next down u hu =>
    have hsign : sign s = (down, u) := hu
    rw [hsign] at hd ⊢
    rw [hd]
    cases ds with
    | nil => exact absurd rfl hne
    | cons c ds => rfl

theorem digits_of_exponent (h : exponent negative sc s = .ok (n, rest)) :
    (digits (sign s).2).1 ≠ [] := by
  unfold exponent at h
  split at h
  next down u hu =>
    have hsign : sign s = (down, u) := hu
    rw [hsign]
    split at h
    · cases h
    · cases h
    · next hne hd =>
      rw [hd]
      exact fun he => hne he

/-- What follows the digits of a power of ten is left as it is. -/
theorem reads_raised {down : Bool} {ds : List Char}
    (h : raised negative sc down ds s = .ok (n, rest)) :
    rest = s ∧ ∀ rest', raised negative sc down ds rest' = .ok (n, rest') := by
  unfold raised at h ⊢
  split at h
  · next k _ =>
    obtain ⟨rfl, hfinish⟩ := finish_eq h
    exact ⟨rfl, hfinish⟩
  · next unread _ =>
    by_cases hz : (sc.significand = 0 || down) = true
    · rw [if_pos hz] at h
      cases h
      exact ⟨rfl, fun rest' => if_pos hz⟩
    · rw [if_neg hz] at h
      cases h

/-- A power of ten is read alike wherever it stands. -/
theorem reads_exponent (h : exponent negative sc s = .ok (n, rest)) :
    ∃ t, s = t ++ rest ∧ ReadsNumber (exponent negative sc) n t := by
  have hne := digits_of_exponent h
  rcases hd : digits (sign s).2 with ⟨ds, r⟩
  rw [hd] at hne
  obtain ⟨hs, hall, -⟩ := digits_eq hd
  obtain ⟨t, rfl, ht⟩ := exists_sign hne hall hs
  rw [exponent_eq hne hd] at h
  obtain ⟨rfl, hraised⟩ := reads_raised h
  refine ⟨t ++ ds, (List.append_assoc ..).symm, fun rest' hr => ?_⟩
  have hd' : digits (sign (t ++ (ds ++ rest'))).2 = (ds, rest') := by
    rw [ht]
    exact digits_append hall hr.digits
  rw [List.append_assoc, exponent_eq hne hd', ht]
  exact hraised rest'

/-- What stands between the digits of a number and its end. -/
theorem reads_tail (h : tail negative sc s = .ok (n, rest)) :
    ∃ t, s = t ++ rest ∧ ReadsNumber (tail negative sc) n t := by
  unfold tail at h
  split at h
  · obtain ⟨t, rfl, ht⟩ := reads_exponent h
    exact ⟨'e' :: t, rfl, ht⟩
  · obtain ⟨t, rfl, ht⟩ := reads_exponent h
    exact ⟨'E' :: t, rfl, ht⟩
  · obtain ⟨rfl, ht⟩ := finish_eq h
    refine ⟨[], rfl, fun rest' hr => ?_⟩
    rw [List.nil_append]
    unfold tail
    split
    · exact absurd rfl (hr 'e' rfl).2.2.1
    · exact absurd rfl (hr 'E' rfl).2.2.2
    · exact ht rest'

/-- What follows the digits before the point. -/
def behindWhole (negative : Bool) (sc : Scaled) : List Char → Except Fault (Number × List Char)
  | '.' :: rest =>
    match digits rest with
    | ([], []) => .error ⟨.endInValue, 0⟩
    | ([], rest) => .error (.inside .invalidNumber rest)
    | (ds, rest) => tail negative (sc.fraction ds) rest
  | 'e' :: rest => exponent negative sc rest
  | 'E' :: rest => exponent negative sc rest
  | rest =>
    match integer? negative sc with
    | some n => .ok (.int n, rest)
    | none => finish negative sc rest

theorem unsigned_eq {whole : List Char} (hd : digits s = (whole, rest))
    (hz : ∀ c behind, whole ≠ '0' :: c :: behind) :
    unsigned negative s = behindWhole negative (Scaled.whole 0 whole) rest := by
  unfold unsigned
  rw [hd]
  simp only
  rfl

theorem zero_alone_of_unsigned (h : unsigned negative s = .ok (n, rest)) (c : Char)
    (behind : List Char) : (digits s).1 ≠ '0' :: c :: behind := by
  intro hz
  rcases hd : digits s with ⟨whole, r⟩
  obtain rfl : whole = '0' :: c :: behind := by rwa [hd] at hz
  unfold unsigned at h
  rw [hd] at h
  cases h

theorem ends_append {p : Char → Prop} {t rest' : List Char} (h : ∀ c ∈ (t ++ rest).head?, p c)
    (h' : ∀ c ∈ rest'.head?, p c) : ∀ c ∈ (t ++ rest').head?, p c := by
  cases t with
  | nil => exact h'
  | cons d t => exact h

/-- What follows the digits before the point is read alike wherever it stands. -/
theorem reads_behindWhole (h : behindWhole negative sc s = .ok (n, rest)) :
    ∃ t, s = t ++ rest ∧ ReadsNumber (behindWhole negative sc) n t := by
  unfold behindWhole at h
  split at h
  · next r =>
    split at h
    · cases h
    · cases h
    · next ds r' _ hne hd =>
      obtain ⟨rfl, hall, hends⟩ := digits_eq hd
      obtain ⟨t, rfl, ht⟩ := reads_tail h
      refine ⟨'.' :: (ds ++ t), by simp, fun rest' hr => ?_⟩
      have hd' := digits_append hall (ends_append hends hr.digits)
      have hne' : ds ≠ [] := fun he => hne he
      rw [List.cons_append, List.append_assoc]
      unfold behindWhole
      simp only [hd']
      cases ds with
      | nil => exact absurd rfl hne'
      | cons d ds => exact ht rest' hr
  · obtain ⟨t, rfl, ht⟩ := reads_exponent h
    exact ⟨'e' :: t, rfl, ht⟩
  · obtain ⟨t, rfl, ht⟩ := reads_exponent h
    exact ⟨'E' :: t, rfl, ht⟩
  · have hend : rest = s ∧ ∀ rest', (match integer? negative sc with
        | some n => Except.ok (Number.int n, rest')
        | none => finish negative sc rest') = .ok (n, rest') := by
      split at h
      · cases h
        exact ⟨rfl, fun _ => rfl⟩
      · exact finish_eq h
    obtain ⟨rfl, hend⟩ := hend
    refine ⟨[], rfl, fun rest' hr => ?_⟩
    rw [List.nil_append]
    unfold behindWhole
    split
    · exact absurd rfl (hr '.' rfl).2.1
    · exact absurd rfl (hr 'e' rfl).2.2.1
    · exact absurd rfl (hr 'E' rfl).2.2.2
    · exact hend rest'

/-- A number without its sign is read alike wherever it stands. -/
theorem reads_unsigned (h : unsigned negative s = .ok (n, rest)) :
    ∃ t, s = t ++ rest ∧ ReadsNumber (unsigned negative) n t := by
  have hz := zero_alone_of_unsigned h
  rcases hd : digits s with ⟨whole, r⟩
  rw [hd] at hz
  rw [unsigned_eq hd hz] at h
  obtain ⟨rfl, hall, hends⟩ := digits_eq hd
  obtain ⟨t, rfl, ht⟩ := reads_behindWhole h
  refine ⟨whole ++ t, (List.append_assoc ..).symm, fun rest' hr => ?_⟩
  have hd' := digits_append hall (ends_append hends hr.digits)
  rw [List.append_assoc, unsigned_eq hd' hz]
  exact ht rest' hr

/-- Whether a number is read from a text, whatever follows that cannot extend it. -/
structure NumberSpelled (n : Number) (t : List Char) : Prop where
  starts : ∃ c u, t = c :: u ∧ (c = '-' ∨ c.isDigit = true)
  reads : ReadsNumber numeral n t

theorem numeral_digit {c : Char} (hc : c.isDigit = true) (s : List Char) :
    numeral (c :: s) = unsigned false (c :: s) := by
  unfold numeral
  split
  · next he =>
    obtain ⟨rfl, -⟩ := List.cons.inj he
    cases hc
  · next he =>
    obtain ⟨rfl, -⟩ := List.cons.inj he
    cases hc
  · rfl

theorem numeral_minus {c : Char} (hc : c.isDigit = true) (s : List Char) :
    numeral ('-' :: c :: s) = unsigned true (c :: s) := if_pos hc

/-- What a number without its sign is read from begins with its first digit. -/
theorem reads_unsigned_cons {c : Char} (hc : c.isDigit = true)
    (h : unsigned negative (c :: s) = .ok (n, rest)) :
    ∃ u, c :: s = c :: u ++ rest ∧ ReadsNumber (unsigned negative) n (c :: u) := by
  have hl := length_lt_of_unsigned hc h
  obtain ⟨t, hs, ht⟩ := reads_unsigned h
  cases t with
  | nil =>
    rw [hs, List.nil_append] at hl
    exact absurd hl (Nat.lt_irrefl _)
  | cons d u =>
    obtain ⟨rfl, rfl⟩ := List.cons.inj hs
    exact ⟨u, rfl, ht⟩

/-- **What a number is read from is read alike wherever it stands.** -/
theorem numberSpelled_of_numeral {c : Char} (hc : c = '-' ∨ c.isDigit = true)
    (h : numeral (c :: s) = .ok (n, rest)) : ∃ t, c :: s = t ++ rest ∧ NumberSpelled n t := by
  by_cases hd : c.isDigit = true
  · rw [numeral_digit hd] at h
    obtain ⟨u, hs, hu⟩ := reads_unsigned_cons hd h
    refine ⟨c :: u, hs, ⟨c, u, rfl, hc⟩, fun rest' hr => ?_⟩
    rw [List.cons_append, numeral_digit hd]
    exact hu rest' hr
  · obtain rfl := hc.resolve_right hd
    cases s with
    | nil => cases h
    | cons d s =>
      by_cases hdigit : d.isDigit = true
      · rw [numeral_minus hdigit] at h
        obtain ⟨u, hs, hu⟩ := reads_unsigned_cons hdigit h
        refine ⟨'-' :: d :: u, by rw [hs]; rfl, ⟨'-', d :: u, rfl, hc⟩, fun rest' hr => ?_⟩
        exact (numeral_minus hdigit _).trans (hu rest' hr)
      · rw [numeral, if_neg hdigit] at h
        cases h

/-! ## Integers -/

theorem exists_digit (n : Nat) : ∃ d ds, Nat.toDigits 10 n = d :: ds ∧ d.isDigit = true := by
  obtain ⟨d, ds, hds⟩ := List.exists_cons_of_ne_nil (@Nat.toDigits_ne_nil n 10)
  exact ⟨d, ds, hds,
    Nat.isDigit_of_mem_toDigits (by decide) (by decide) (hds ▸ List.mem_cons_self)⟩

theorem numberSpelled_toDigits {n : Nat} {m : Int} (hn : n < 2 ^ 64)
    (hm : integer? false ⟨n, 0⟩ = some m) : NumberSpelled (.int m) (Nat.toDigits 10 n) := by
  obtain ⟨d, ds, hds, hd⟩ := exists_digit n
  refine ⟨⟨d, ds, hds, .inr hd⟩, fun rest hr => ?_⟩
  rw [← unsigned_toDigits hn hm hr, hds]
  exact numeral_digit hd _

theorem numberSpelled_minus {n : Nat} {m : Int} (hn : n < 2 ^ 64)
    (hm : integer? true ⟨n, 0⟩ = some m) : NumberSpelled (.int m) ('-' :: Nat.toDigits 10 n) := by
  obtain ⟨d, ds, hds, hd⟩ := exists_digit n
  refine ⟨⟨'-', _, rfl, .inl rfl⟩, fun rest hr => ?_⟩
  rw [← unsigned_toDigits hn hm hr, hds]
  exact numeral_minus hd _

/-- **An integer of sixty-four bits is read from its text**, wherever it stands. -/
theorem numberSpelled_int {i : Int} (h : (Number.int i).Exact) :
    NumberSpelled (.int i) (Number.int i).text.toList := by
  obtain ⟨hlow, hhigh⟩ := h
  have hsize : i.natAbs < 2 ^ 64 := by omega
  rcases text_int i with ⟨hi, ht⟩ | ⟨hi, ht⟩
  · have hint : integer? false ⟨i.natAbs, 0⟩ = some i := by
      simp only [integer?, ne_eq, not_true, if_false, Bool.not_false, if_true]
      congr 1
      omega
    rw [ht]
    exact numberSpelled_toDigits hsize hint
  · have hint : integer? true ⟨i.natAbs, 0⟩ = some i := by
      have hpos : 0 < i.natAbs := by omega
      have hle : i.natAbs ≤ 0x8000000000000000 := by omega
      simp only [integer?, ne_eq, not_true, if_false, Bool.not_true, Bool.false_eq_true, hpos, hle,
        decide_true, Bool.and_true, if_true]
      congr 1
      omega
    rw [ht]
    exact numberSpelled_minus hsize hint

end Reading

end Json
end PageDesign
