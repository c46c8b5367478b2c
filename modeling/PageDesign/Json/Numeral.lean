import PageDesign.Decimal.Scaled
import PageDesign.Json.Fault
import PageDesign.Json.Value

/-! # Numbers in JSON texts

A number is an optional minus sign, digits without a leading zero, optionally a
point with at least one digit, and optionally a power of ten.  Without the last
two it is an integer if sixty-four bits hold it, unsigned or, behind a minus
sign, signed; `-0` is no integer.  Everything else is floating point.
-/
namespace PageDesign.Json
open Decimal

/-- The longest word of digits at the front of a text, and what follows. -/
def digits (s : List Char) : List Char × List Char :=
  (s.takeWhile Char.isDigit, s.dropWhile Char.isDigit)

theorem length_digits (s : List Char) :
    (digits s).1.length + (digits s).2.length = s.length := by
  rw [digits, ← List.length_append, List.takeWhile_append_dropWhile]

/-- A number with its sign. -/
def signed (negative : Bool) (x : Float) : Float := if negative then -x else x

/-- The largest power of ten that is read. -/
def powerLimit : Nat := 0x7fffffff

/-- The number that digits write, and none left over; or, as soon as it exceeds
`powerLimit`, the digits that are left. -/
def power (value : Nat) : List Char → Nat ⊕ List Char
  | [] => .inl value
  | c :: rest =>
    let next := value * 10 + Scaled.digitValue c
    if powerLimit < next then .inr rest else power next rest

/-- Scales the digits of a number, of which `rest` is left. -/
def finish (negative : Bool) (s : Scaled) (rest : List Char) :
    Except Fault (Number × List Char) :=
  match s.toFloat? with
  | some x => .ok (.float (signed negative x), rest)
  | none => .error (.before .numberOutOfRange rest)

/-- The power of ten behind the letter of an exponent. -/
def exponent (negative : Bool) (s : Scaled) (text : List Char) :
    Except Fault (Number × List Char) :=
  let (down, text) :=
    match text with
    | '+' :: rest => (false, rest)
    | '-' :: rest => (true, rest)
    | rest => (false, rest)
  match digits text with
  | ([], []) => .error ⟨.endInValue, 0⟩
  | ([], rest) => .error (.inside .invalidNumber rest)
  | (ds, rest) =>
    match power 0 ds with
    | .inl n => finish negative (s.raise (if down then -(n : Int) else n)) rest
    | .inr unread =>
      if s.significand = 0 || down then .ok (.float (signed negative 0.0), rest)
      else .error (.before .numberOutOfRange (unread ++ rest))

/-- What may follow the digits before and behind the point: a power of ten. -/
def tail (negative : Bool) (s : Scaled) : List Char → Except Fault (Number × List Char)
  | 'e' :: rest => exponent negative s rest
  | 'E' :: rest => exponent negative s rest
  | rest => finish negative s rest

/-- An integer, if sixty-four bits hold it. -/
def integer? (negative : Bool) (s : Scaled) : Option Int :=
  if s.exponent ≠ 0 then none
  else if !negative then some s.significand
  else if 0 < s.significand && s.significand ≤ 0x8000000000000000 then some (-(s.significand : Int))
  else none

/-- A number from its first digit on. -/
def unsigned (negative : Bool) (text : List Char) : Except Fault (Number × List Char) :=
  let (whole, rest) := digits text
  let s := Scaled.whole 0 whole
  match whole with
  | '0' :: c :: behind => .error (.inside .invalidNumber (c :: behind ++ rest))
  | _ =>
    match rest with
    | '.' :: rest =>
      match digits rest with
      | ([], []) => .error ⟨.endInValue, 0⟩
      | ([], rest) => .error (.inside .invalidNumber rest)
      | (ds, rest) => tail negative (s.fraction ds) rest
    | 'e' :: rest => exponent negative s rest
    | 'E' :: rest => exponent negative s rest
    | rest =>
      match integer? negative s with
      | some n => .ok (.int n, rest)
      | none => finish negative s rest

/-- A number and what follows it; the text begins with a digit or a minus sign. -/
def numeral : List Char → Except Fault (Number × List Char)
  | '-' :: [] => .error ⟨.endInValue, 0⟩
  | '-' :: c :: rest =>
    if c.isDigit then unsigned true (c :: rest)
    else .error (.inside .invalidNumber (c :: rest))
  | text => unsigned false text

theorem rest_of_finish {negative : Bool} {s : Scaled} {text rest : List Char} {n : Number}
    (h : finish negative s text = .ok (n, rest)) : rest = text := by
  unfold finish at h
  split at h
  · simp only [Except.ok.injEq, Prod.mk.injEq] at h
    exact h.2.symm
  · simp at h

theorem length_le_of_exponent {negative : Bool} {s : Scaled} {text rest : List Char}
    {n : Number} (h : exponent negative s text = .ok (n, rest)) :
    rest.length ≤ text.length := by
  have digitsOf : ∀ {t ds r : List Char}, digits t = (ds, r) → r.length ≤ t.length := by
    intro t ds r hd
    have := length_digits t
    rw [hd] at this
    simp only at this
    omega
  unfold exponent at h
  split at h
  next down t ht =>
    have hle : t.length ≤ text.length := by
      split at ht <;> obtain ⟨-, rfl⟩ := Prod.mk.inj ht
      · exact Nat.le_succ _
      · exact Nat.le_succ _
      · exact Nat.le_refl _
    split at h
    · simp at h
    · simp at h
    · next ds r _ _ hd =>
      have hr := digitsOf hd
      split at h
      · rw [rest_of_finish h]
        omega
      · split at h
        · simp only [Except.ok.injEq, Prod.mk.injEq] at h
          rw [← h.2]
          omega
        · simp at h

theorem length_le_of_tail {negative : Bool} {s : Scaled} {text rest : List Char}
    {n : Number} (h : tail negative s text = .ok (n, rest)) : rest.length ≤ text.length := by
  unfold tail at h
  split at h
  · have := length_le_of_exponent h
    simp only [List.length_cons]
    omega
  · have := length_le_of_exponent h
    simp only [List.length_cons]
    omega
  · exact Nat.le_of_eq (congrArg List.length (rest_of_finish h))

/-- A number uses up at least its first digit. -/
theorem length_lt_of_unsigned {negative : Bool} {c : Char} {text rest : List Char} {n : Number}
    (hc : c.isDigit = true) (h : unsigned negative (c :: text) = .ok (n, rest)) :
    rest.length < (c :: text).length := by
  have hw : (digits (c :: text)).2.length < (c :: text).length := by
    have := length_digits (c :: text)
    have : 0 < (digits (c :: text)).1.length := by simp [digits, hc]
    omega
  unfold unsigned at h
  split at h
  next whole r hd =>
    rw [hd] at hw
    simp only at hw h
    split at h
    · simp at h
    · split at h
      · next r' =>
        split at h
        · simp at h
        · simp at h
        · next ds r'' _ _ hd' =>
          have h1 := length_digits r'
          rw [hd'] at h1
          have h2 := length_le_of_tail h
          simp only [List.length_cons] at hw h1 ⊢
          omega
      · next r' =>
        have := length_le_of_exponent h
        simp only [List.length_cons] at hw ⊢
        omega
      · next r' =>
        have := length_le_of_exponent h
        simp only [List.length_cons] at hw ⊢
        omega
      · split at h
        · simp only [Except.ok.injEq, Prod.mk.injEq] at h
          rw [← h.2]
          exact hw
        · rw [rest_of_finish h]
          exact hw

theorem length_lt_of_numeral {s rest : List Char} {n : Number}
    (start : ∀ c ∈ s.head?, c = '-' ∨ c.isDigit = true) (ne : s ≠ [])
    (h : numeral s = .ok (n, rest)) : rest.length < s.length := by
  unfold numeral at h
  split at h
  · simp at h
  · split at h
    · next hc =>
      have := length_lt_of_unsigned hc h
      simp only [List.length_cons] at this ⊢
      omega
    · simp at h
  · next hne hne' =>
    cases s with
    | nil => exact absurd rfl ne
    | cons c t =>
      rcases start c (by simp) with rfl | hc
      · cases t with
        | nil => exact absurd rfl hne
        | cons d t => exact absurd rfl (hne' d t)
      · exact length_lt_of_unsigned hc h

end PageDesign.Json
