import PageDesign.Proofs.Decimal.Value
import PageDesign.Proofs.Json.Numeral

/-! # Which texts are numbers, and which numbers are in range

The text of a number consists of digits, of digits behind a point and of a power of ten
(`NumberParts`).  Whether it is in range is said of these parts: of the digits that are kept, and
of the power of ten that goes with them (`InRange`).  A number whose text is well-formed is read
if it is in range, and found out of range otherwise (`NumberParts.settles`), so numbers are read
from the texts of those in range and from no others (`exists_numberSpelled_iff`).

Which numbers these are depends on how often something is rounded only in one part in `2 ^ 51`
around `2 ^ 1024`: below that all numbers are in range, and above it none is
(`NumberParts.range_bounds`).  A power of ten beyond the limit of its reader is not computed: it
makes anything but zero too large, or anything small.
-/
namespace PageDesign.Json
open Decimal

/-- A digit or more. -/
def Digits (ds : List Char) : Prop := ds ≠ [] ∧ ∀ c ∈ ds, c.isDigit = true

/-- The digits behind a point, and their text; nothing, if there is no point. -/
inductive Fraction : List Char → List Char → Prop
  | none : Fraction [] []
  | point {ds : List Char} (h : Digits ds) : Fraction ds ('.' :: ds)

/-- The sign of a power of ten: whether it is a minus sign. -/
inductive PowerSign : Bool → List Char → Prop
  | none : PowerSign false []
  | plus : PowerSign false ['+']
  | minus : PowerSign true ['-']

/-- The power of ten that digits write, behind a minus sign or not. -/
def powerValue (down : Bool) (ds : List Char) : Int :=
  if down then -(digitsValue ds : Int) else digitsValue ds

/-- A power of ten, and its text; zero, if there is none. -/
inductive Power : Int → List Char → Prop
  | none : Power 0 []
  | mk {e : Char} {down : Bool} {sign ds : List Char} (he : e = 'e' ∨ e = 'E')
      (hs : PowerSign down sign) (h : Digits ds) : Power (powerValue down ds) (e :: (sign ++ ds))

/-- The text of a number with digits before and behind a point and with a power of ten.  The
digits before the point do not begin with a zero unless that is all of them. -/
inductive NumberParts (whole fraction : List Char) (power : Int) : List Char → Prop
  | mk {minus behind last : List Char} (hm : minus = [] ∨ minus = ['-']) (hw : Digits whole)
      (hz : ∀ c more, whole ≠ '0' :: c :: more) (hf : Fraction fraction behind)
      (hp : Power power last) :
      NumberParts whole fraction power (minus ++ (whole ++ (behind ++ last)))

/-- The text of a number. -/
def NumberText (t : List Char) : Prop := ∃ whole fraction power, NumberParts whole fraction power t

/-- Whether a number is in range with a further power of ten: a power above the limit makes
anything but zero too large, and one as far below zero makes anything small. -/
def RangeWith (s : Scaled) (power : Int) : Prop :=
  s.significand = 0 ∨ power < -powerLimit ∨ power ≤ powerLimit ∧ (s.shift power).InRange

/-- Whether digits before and behind a point are in range with a power of ten. -/
def InRange (whole fraction : List Char) (power : Int) : Prop :=
  RangeWith (gather whole fraction) power

/-- The text of a number that is in range. -/
def NumberInRange (t : List Char) : Prop :=
  ∃ whole fraction power, NumberParts whole fraction power t ∧ InRange whole fraction power

/-- All of a text is read as a number if `p` holds, and the number is out of range if not. -/
def Settles (p : Prop) (out : Except Fault (Number × List Char)) : Prop :=
  p ∧ (∃ n, out = .ok (n, [])) ∨ ¬ p ∧ ∃ f, out = .error f ∧ f.cause = .numberOutOfRange

section Numbers
variable {negative : Bool} {sc : Scaled} {n : Number} {power : Int} {p q : Prop}
  {s t rest ds whole fraction behind last : List Char}

theorem Settles.congr {out : Except Fault (Number × List Char)} (h : Settles p out)
    (hpq : p ↔ q) : Settles q out := by
  rwa [Settles, ← hpq]

/-- What is read is in range. -/
theorem Settles.of_ok (h : Settles p (.ok (n, rest))) : p := by
  rcases h with ⟨hp, -⟩ | ⟨-, f, hf, -⟩
  · exact hp
  · cases hf

theorem Digits.digits_append (h : Digits ds) (hr : EndsDigits rest) :
    digits (ds ++ rest) = (ds, rest) :=
  Json.digits_append h.2 hr

theorem Fraction.isDigit (h : Fraction fraction behind) : ∀ c ∈ fraction, c.isDigit = true := by
  cases h with
  | none => exact fun _ => List.not_mem_nil.elim
  | point h => exact h.2

theorem PowerSign.sign_eq {down : Bool} {sgn : List Char} (hs : PowerSign down sgn)
    (h : Digits ds) : sign (sgn ++ ds) = (down, ds) := by
  cases hs with
  | none =>
    have hsign := sign_digits h.1 h.2 []
    rwa [List.append_nil] at hsign
  | plus => rfl
  | minus => rfl

theorem Power.endsDigits (h : Power power last) : EndsDigits last := by
  intro c hc
  cases h with
  | none => cases hc
  | mk he =>
    obtain rfl := Option.some.inj hc
    rcases he with rfl | rfl <;> decide

theorem endsDigits_behind (hf : Fraction fraction behind) (hp : Power power last) :
    EndsDigits (behind ++ last) := by
  cases hf with
  | none => exact hp.endsDigits
  | point =>
    intro c hc
    obtain rfl := Option.some.inj hc
    decide

theorem NumberInRange.text (h : NumberInRange t) : NumberText t := by
  obtain ⟨whole, fraction, power, hparts, -⟩ := h
  exact ⟨whole, fraction, power, hparts⟩

/-! ## The text of a number is read, or the number is out of range -/

theorem rangeWith_iff (hlow : -powerLimit ≤ power) (hhigh : power ≤ powerLimit) :
    RangeWith sc power ↔ (sc.shift power).InRange := by
  constructor
  · rintro (hzero | hsmall | ⟨-, h⟩)
    · exact Scaled.inRange_of_zero hzero
    · omega
    · exact h
  · exact fun h => .inr (.inr ⟨hhigh, h⟩)

theorem rangeWith_zero : RangeWith sc 0 ↔ sc.InRange := by
  have hshift : sc.shift 0 = sc := by rw [Scaled.shift, Int.add_zero]
  rw [rangeWith_iff (by decide) (by decide), hshift]

/-- The value of digits is the power of ten, unless it exceeds the limit. -/
theorem power_cases {before : List Char} (hb : digitsValue before ≤ powerLimit)
    (ds : List Char) :
    digitsValue (before ++ ds) ≤ powerLimit ∧
        Json.power (digitsValue before) ds = .inl (digitsValue (before ++ ds)) ∨
      powerLimit < digitsValue (before ++ ds) ∧
        ∃ unread, Json.power (digitsValue before) ds = .inr unread := by
  induction ds generalizing before with
  | nil =>
    rw [List.append_nil]
    exact .inl ⟨hb, rfl⟩
  | cons c ds ih =>
    have happend : before ++ c :: ds = before ++ [c] ++ ds := by simp
    have hpower : Json.power (digitsValue before) (c :: ds) =
        if powerLimit < digitsValue (before ++ [c]) then .inr ds
        else Json.power (digitsValue (before ++ [c])) ds := by
      rw [digitsValue_concat]
      rfl
    rw [happend, hpower]
    by_cases hc : powerLimit < digitsValue (before ++ [c])
    · rw [if_pos hc]
      exact .inr ⟨Nat.lt_of_lt_of_le hc (digitsValue_le_append ..), ds, rfl⟩
    · rw [if_neg hc]
      exact ih (Nat.le_of_not_lt hc)

theorem finish_settles (negative : Bool) (hs : sc.significand < 2 ^ 64) :
    Settles sc.InRange (finish negative sc []) := by
  unfold finish
  rw [Settles, ← Scaled.isSome_toFloat?_iff hs]
  cases sc.toFloat? with
  | some x => exact .inl ⟨rfl, _, rfl⟩
  | none => exact .inr ⟨Bool.false_ne_true, _, rfl, rfl⟩

theorem powerValue_bounds (down : Bool) (h : digitsValue ds ≤ powerLimit) :
    -powerLimit ≤ powerValue down ds ∧ powerValue down ds ≤ powerLimit := by
  unfold powerValue
  split <;> omega

/-- Digits of a power of ten raise it, or lower it, or exceed the limit. -/
theorem raised_settles (negative : Bool) (hs : sc.significand < 2 ^ 64) (down : Bool)
    (ds : List Char) :
    Settles (RangeWith sc (powerValue down ds)) (raised negative sc down ds []) := by
  unfold raised
  rcases @power_cases [] (Nat.zero_le _) ds with ⟨hle, hp⟩ | ⟨hlt, unread, hp⟩
  · rw [List.nil_append] at hle
    rw [show Json.power 0 ds = .inl (digitsValue ds) from hp]
    have hsig : (sc.raise (powerValue down ds)).significand < 2 ^ 64 := hs
    obtain ⟨hlow, hhigh⟩ := powerValue_bounds down hle
    exact (finish_settles negative hsig).congr
      ((Scaled.inRange_raise hs _).trans (rangeWith_iff hlow hhigh).symm)
  · rw [List.nil_append] at hlt
    rw [show Json.power 0 ds = .inr unread from hp]
    by_cases hzero : sc.significand = 0
    · exact .inl ⟨.inl hzero, _, if_pos (by simp [hzero])⟩
    · cases down with
      | true =>
        have hvalue : powerValue true ds = -(digitsValue ds : Int) := rfl
        exact .inl ⟨.inr (.inl (by omega)), _, if_pos (Bool.or_true _)⟩
      | false =>
        have hvalue : powerValue false ds = digitsValue ds := rfl
        refine .inr ⟨?_, _, if_neg (by simp [hzero]), rfl⟩
        rintro (h | h | ⟨h, -⟩)
        · exact hzero h
        · omega
        · omega

theorem exponent_settles {down : Bool} {sgn : List Char} (hs : sc.significand < 2 ^ 64)
    (hsign : PowerSign down sgn) (h : Digits ds) :
    Settles (RangeWith sc (powerValue down ds)) (exponent negative sc (sgn ++ ds)) := by
  have hsgn := hsign.sign_eq h
  have hd : digits (sign (sgn ++ ds)).2 = (ds, []) := by
    have hend : EndsDigits [] := by simp [EndsDigits]
    rw [hsgn]
    simpa only [List.append_nil] using h.digits_append hend
  rw [exponent_eq h.1 hd, hsgn]
  exact raised_settles negative hs down ds

theorem tail_settles (hs : sc.significand < 2 ^ 64) (h : Power power last) :
    Settles (RangeWith sc power) (tail negative sc last) := by
  cases h with
  | none => exact (finish_settles negative hs).congr rangeWith_zero.symm
  | mk he hsign h => rcases he with rfl | rfl <;> exact exponent_settles hs hsign h

theorem exponent_of_integer? {i : Int} (h : integer? negative sc = some i) : sc.exponent = 0 := by
  by_contra hne
  rw [integer?, if_pos hne] at h
  cases h

theorem behindWhole_settles (hs : (sc.fraction fraction).significand < 2 ^ 64)
    (hf : Fraction fraction behind) (hp : Power power last) :
    Settles (RangeWith (sc.fraction fraction) power)
      (behindWhole negative sc (behind ++ last)) := by
  cases hf with
  | none =>
    rw [show sc.fraction [] = sc from rfl] at hs ⊢
    cases hp with
    | none =>
      cases hi : integer? negative sc with
      | some i =>
        -- an integer has no power of ten, so it is in range
        have hrange := Scaled.inRange_of_nonpos hs (Int.le_of_eq (exponent_of_integer? hi))
        exact .inl ⟨rangeWith_zero.mpr hrange, .int i, by simp [behindWhole, hi]⟩
      | none =>
        have hfinish := (finish_settles negative hs).congr rangeWith_zero.symm
        simpa [behindWhole, hi] using hfinish
    | mk he hsign h => rcases he with rfl | rfl <;> exact exponent_settles hs hsign h
  | point h =>
    rw [List.cons_append]
    unfold behindWhole
    simp only [h.digits_append hp.endsDigits]
    split
    · next he => cases he; exact absurd rfl h.1
    · next he => cases he; exact absurd rfl h.1
    · next he =>
      cases he
      exact tail_settles hs hp

/-- **The text of a number is read if the number is in range**, and the number is out of range if
not. -/
theorem NumberParts.settles (h : NumberParts whole fraction power t) :
    Settles (InRange whole fraction power) (numeral t) := by
  obtain ⟨hm, hw, hz, hf, hp⟩ := h
  next minus behind last =>
  have hall (negative : Bool) : Settles (InRange whole fraction power)
      (unsigned negative (whole ++ (behind ++ last))) := by
    have hgather := gather_eq whole fraction
    have hs := gather_lt whole fraction
    rw [InRange, unsigned_eq (hw.digits_append (endsDigits_behind hf hp)) hz, ← hgather]
    exact behindWhole_settles (hgather.symm ▸ hs) hf hp
  obtain ⟨c, more, rfl⟩ := List.exists_cons_of_ne_nil hw.1
  have hc : c.isDigit = true := hw.2 c List.mem_cons_self
  rcases hm with rfl | rfl
  · exact (numeral_digit hc _).symm ▸ hall false
  · exact (numeral_minus hc _).symm ▸ hall true

theorem NumberParts.starts (h : NumberParts whole fraction power t) :
    ∃ c s, t = c :: s ∧ (c = '-' ∨ c.isDigit = true) := by
  obtain ⟨hm, hw, -, -, -⟩ := h
  obtain ⟨c, more, rfl⟩ := List.exists_cons_of_ne_nil hw.1
  rcases hm with rfl | rfl
  · exact ⟨c, _, rfl, .inr (hw.2 c List.mem_cons_self)⟩
  · exact ⟨'-', _, rfl, .inl rfl⟩

theorem NumberParts.isDigit (h : NumberParts whole fraction power t) :
    (∀ c ∈ whole, c.isDigit = true) ∧ ∀ c ∈ fraction, c.isDigit = true := by
  obtain ⟨-, hw, -, hf, -⟩ := h
  exact ⟨hw.2, hf.isDigit⟩

/-! ## What is read is the text of a number -/

theorem power_of_exponent {e : Char} (he : e = 'e' ∨ e = 'E')
    (h : exponent negative sc s = .ok (n, rest)) :
    ∃ k last, e :: s = last ++ rest ∧ Power k last := by
  have hne := digits_of_exponent h
  rcases hd : digits (sign s).2 with ⟨ds, r⟩
  rw [hd] at hne
  obtain ⟨hs, hall, -⟩ := digits_eq hd
  rw [exponent_eq hne hd] at h
  obtain ⟨rfl, -⟩ := reads_raised h
  unfold sign at hs
  split at hs
  · obtain rfl : _ = ds ++ rest := hs
    exact ⟨_, _, rfl, .mk he .plus ⟨hne, hall⟩⟩
  · obtain rfl : _ = ds ++ rest := hs
    exact ⟨_, _, rfl, .mk he .minus ⟨hne, hall⟩⟩
  · obtain rfl : s = ds ++ rest := hs
    exact ⟨_, _, rfl, .mk he .none ⟨hne, hall⟩⟩

theorem power_of_tail (h : tail negative sc s = .ok (n, rest)) :
    ∃ k last, s = last ++ rest ∧ Power k last := by
  unfold tail at h
  split at h
  · exact power_of_exponent (.inl rfl) h
  · exact power_of_exponent (.inr rfl) h
  · exact ⟨0, [], (rest_of_finish h).symm, .none⟩

theorem fraction_of_behindWhole (h : behindWhole negative sc s = .ok (n, rest)) :
    ∃ fraction behind k last, s = behind ++ (last ++ rest) ∧ Fraction fraction behind ∧
      Power k last := by
  unfold behindWhole at h
  split at h
  · next r =>
    split at h
    · cases h
    · cases h
    · next ds r' _ hne hd =>
      obtain ⟨rfl, hall, -⟩ := digits_eq hd
      obtain ⟨k, last, rfl, hp⟩ := power_of_tail h
      exact ⟨ds, '.' :: ds, k, last, rfl, .point ⟨fun he => hne he, hall⟩, hp⟩
  · obtain ⟨k, last, hs, hp⟩ := power_of_exponent (.inl rfl) h
    exact ⟨[], [], k, last, hs, .none, hp⟩
  · obtain ⟨k, last, hs, hp⟩ := power_of_exponent (.inr rfl) h
    exact ⟨[], [], k, last, hs, .none, hp⟩
  · refine ⟨[], [], 0, [], ?_, .none, .none⟩
    split at h
    · cases h
      rfl
    · exact (rest_of_finish h).symm

/-- What a number without its sign is read from is the text of that number. -/
theorem numberParts_of_unsigned {c : Char} (hc : c.isDigit = true)
    (h : unsigned negative (c :: s) = .ok (n, [])) {minus : List Char}
    (hm : minus = [] ∨ minus = ['-']) : NumberText (minus ++ c :: s) := by
  have hz := zero_alone_of_unsigned h
  rcases hd : digits (c :: s) with ⟨whole, r⟩
  rw [hd] at hz
  rw [unsigned_eq hd hz] at h
  obtain ⟨hs, hall, hends⟩ := digits_eq hd
  have hne : whole ≠ [] := by
    rintro rfl
    rw [List.nil_append] at hs
    have := hends c (by rw [← hs]; rfl)
    rw [hc] at this
    cases this
  obtain ⟨fraction, behind, k, last, rfl, hf, hp⟩ := fraction_of_behindWhole h
  rw [hs, List.append_nil]
  exact ⟨whole, fraction, k, .mk hm ⟨hne, hall⟩ hz hf hp⟩

theorem numberText_of_numeral {c : Char} (hc : c = '-' ∨ c.isDigit = true)
    (h : numeral (c :: s) = .ok (n, [])) : NumberText (c :: s) := by
  by_cases hd : c.isDigit = true
  · rw [numeral_digit hd] at h
    exact numberParts_of_unsigned hd h (.inl rfl)
  · obtain rfl := hc.resolve_right hd
    cases s with
    | nil => cases h
    | cons d s =>
      by_cases hdigit : d.isDigit = true
      · rw [numeral_minus hdigit] at h
        exact numberParts_of_unsigned hdigit h (.inr rfl)
      · rw [numeral, if_neg hdigit] at h
        cases h

/-- **A number can be read just from the text of one in range.** -/
theorem exists_numberSpelled_iff : (∃ n, NumberSpelled n t) ↔ NumberInRange t := by
  constructor
  · rintro ⟨n, ⟨c, s, rfl, hc⟩, hreads⟩
    have h := hreads [] (by simp [EndsNumber])
    rw [List.append_nil] at h
    obtain ⟨whole, fraction, power, hparts⟩ := numberText_of_numeral hc h
    exact ⟨whole, fraction, power, hparts, (h ▸ hparts.settles).of_ok⟩
  · rintro ⟨whole, fraction, power, hparts, hrange⟩
    rcases hparts.settles with ⟨-, n, h⟩ | ⟨hno, -⟩
    · obtain ⟨c, s, rfl, hc⟩ := hparts.starts
      obtain ⟨t, ht, hn⟩ := numberSpelled_of_numeral hc h
      rw [List.append_nil] at ht
      exact ⟨n, ht ▸ hn⟩
    · exact absurd hrange hno

/-! ## Numbers that are clearly in range, or clearly not -/

/-- However a text is taken for that of a number, the number is in range or not. -/
theorem NumberParts.numberInRange_iff (h : NumberParts whole fraction power t) :
    NumberInRange t ↔ InRange whole fraction power := by
  refine ⟨?_, fun hrange => ⟨whole, fraction, power, h, hrange⟩⟩
  rintro ⟨whole', fraction', power', h', hrange⟩
  rcases h'.settles with ⟨-, n, hn⟩ | ⟨hno, -⟩
  · exact (hn ▸ h.settles).of_ok
  · exact absurd hrange hno

/-- **A number is in range unless it is large, and a large one is not**: all are that are smaller
than `2 ^ 1024` by more than one part in `2 ^ 51`, and none is that is larger by as much. -/
theorem NumberParts.range_bounds (h : NumberParts whole fraction power t) :
    (power ≤ powerLimit → 2 ^ 51 * numberValue whole fraction power < (2 ^ 51 - 1) * tooLarge →
      NumberInRange t) ∧
    (-powerLimit ≤ power → NumberInRange t →
      2 ^ 51 * numberValue whole fraction power < (2 ^ 51 + 1) * tooLarge) := by
  have hs : ((gather whole fraction).shift power).significand < 2 ^ 64 := gather_lt whole fraction
  obtain ⟨hclose, hclose'⟩ := gather_close h.isDigit.1 h.isDigit.2 power
  rw [h.numberInRange_iff]
  constructor
  · exact fun hp hv => .inr (.inr ⟨hp, Scaled.inRange_of_value_lt hs hclose hv⟩)
  · rintro hp (hzero | hsmall | ⟨-, hrange⟩)
    · exact Scaled.value_lt_of_inRange hs (Scaled.inRange_of_zero hzero) hclose'
    · omega
    · exact Scaled.value_lt_of_inRange hs hrange hclose'

end Numbers
end PageDesign.Json
