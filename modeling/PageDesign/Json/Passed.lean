import PageDesign.Json.Numeral
import PageDesign.Json.Quoted
import PageDesign.Json.Reader

/-! # Passing over values

A value that nobody asks for is passed over.  Only its outline is looked at: the
escapes of a string need not stand for characters, a number may be as large as it
likes, and lists and objects may be nested to any depth.

The lists and objects that are still open are kept on a stack, so a text is passed
over in a single run from left to right.
-/
namespace PageDesign.Json
open Text

/-! ## Strings -/

/-- The letters that stand behind a backslash for one character each. -/
def escapeLetters : List Char := ['"', '\\', '/', 'b', 'f', 'n', 'r', 't']

/-- Passes over what follows a backslash; any four digits will do behind `\u`. -/
def passEscape : List Char → Except Fault (List Char)
  | [] => .error ⟨.endInString, 0⟩
  | c :: rest =>
    if c = 'u' then (hexUnit rest).map (·.2)
    else if c ∈ escapeLetters then .ok rest
    else .error (.inside .invalidEscape (c :: rest))

theorem length_lt_of_passEscape {s rest : List Char} (h : passEscape s = .ok rest) :
    rest.length < s.length := by
  unfold passEscape at h
  split at h
  · simp at h
  · next c r =>
    split at h
    · cases hu : hexUnit r with
      | error f => simp [hu, Except.map] at h
      | ok out =>
        obtain ⟨n, left⟩ := out
        have hlt := length_lt_of_hexUnit hu
        simp only [hu, Except.map, Except.ok.injEq] at h
        rw [← h]
        exact Nat.lt_succ_of_lt hlt
    · split at h
      · simp only [Except.ok.injEq] at h
        rw [← h]
        exact Nat.lt_succ_self _
      · simp at h

/-- Passes over the rest of a string, its closing quote included. -/
def passString (s : List Char) : Except Fault (Left s) :=
  match s with
  | [] => .error ⟨.endInString, 0⟩
  | c :: rest =>
    if c = '"' then .ok ⟨rest, Nat.lt_succ_self _⟩
    else if c = '\\' then
      match h : passEscape rest with
      | .error f => .error f
      | .ok behind =>
        have hb := length_lt_of_passEscape h
        match passString behind with
        | .error f => .error f
        | .ok ⟨last, he⟩ => .ok ⟨last, Nat.lt_succ_of_lt (Nat.lt_trans he hb)⟩
    else if c.toNat < 0x20 then .error (.before .controlCharacter rest)
    else
      match passString rest with
      | .error f => .error f
      | .ok ⟨last, he⟩ => .ok ⟨last, Nat.lt_succ_of_lt he⟩
termination_by s.length
decreasing_by
  · exact Nat.lt_succ_of_lt hb
  · exact Nat.lt_succ_self _

/-! ## Numbers -/

/-- Passes over digits, of which there must be one. -/
def passDigits (s : List Char) : Except Fault (Left s) :=
  match h : digits s with
  | ([], rest) => .error (.inside .invalidNumber rest)
  | (_ :: _, rest) => .ok ⟨rest, by
      have := length_digits s
      simp only [h, List.length_cons] at this
      omega⟩

/-- The text behind a sign that may stand at its front. -/
def behindSign : List Char → List Char
  | '+' :: rest => rest
  | '-' :: rest => rest
  | s => s

theorem length_behindSign_le (s : List Char) : (behindSign s).length ≤ s.length := by
  unfold behindSign
  split <;> simp

/-- Passes over a power of ten, if there is one. -/
def passPower (s : List Char) : Except Fault (Remainder s) :=
  match s with
  | [] => .ok (.all [])
  | c :: rest =>
    if c = 'e' ∨ c = 'E' then
      match passDigits (behindSign rest) with
      | .error f => .error f
      | .ok ⟨behind, h⟩ =>
        .ok ⟨behind, Nat.le_of_lt (Nat.lt_succ_of_lt
          (Nat.lt_of_lt_of_le h (length_behindSign_le rest)))⟩
    else .ok (.all (c :: rest))

/-- Passes over a point with digits and over a power of ten, as far as there are any. -/
def passTail (s : List Char) : Except Fault (Remainder s) :=
  match s with
  | '.' :: rest =>
    match passDigits rest with
    | .error f => .error f
    | .ok ⟨behind, h⟩ =>
      match passPower behind with
      | .error f => .error f
      | .ok ⟨last, he⟩ =>
        .ok ⟨last, Nat.le_trans he (Nat.le_of_lt (Nat.lt_succ_of_lt h))⟩
  | s => passPower s

/-- Passes over a number without its sign; a zero at its front stands alone. -/
def passUnsigned (s : List Char) : Except Fault (Left s) :=
  match passDigits s with
  | .error f => .error f
  | .ok ⟨rest, h⟩ =>
    match (digits s).1 with
    | '0' :: c :: more => .error (.inside .invalidNumber (c :: more ++ rest))
    | _ =>
      match passTail rest with
      | .error f => .error f
      | .ok ⟨last, he⟩ => .ok ⟨last, Nat.lt_of_le_of_lt he h⟩

/-! ## Lists and objects -/

/-- A list or an object that is still open. -/
inductive Opened where
  | list | object
  deriving Repr, DecidableEq

namespace Opened

/-- What a character opens. -/
def ofChar? : Char → Option Opened
  | '[' => some list
  | '{' => some object
  | _ => none

/-- The character that closes it. -/
def closing : Opened → Char
  | list => ']'
  | object => '}'

/-- What is wrong when the text ends inside it. -/
def atEnd : Opened → Cause
  | list => .endInList
  | object => .endInObject

/-- What is wrong when something else follows one of its entries. -/
def separator : Opened → Cause
  | list => .expectedListSeparator
  | object => .expectedObjectSeparator

/-- Passes over what stands before the value of an entry: in an object, its key. -/
def passKey (s : List Char) : Opened → Except Fault (Remainder s)
  | list => .ok (.all s)
  | object =>
    match mark '"' .endInObject .keyNotString s with
    | .error f => .error f
    | .ok ⟨rest, h1⟩ =>
      match passString rest with
      | .error f => .error f
      | .ok ⟨behind, h2⟩ =>
        match mark ':' .endInObject .expectedColon behind with
        | .error f => .error f
        | .ok ⟨start, h3⟩ =>
          .ok ⟨start, Nat.le_of_lt (Nat.lt_trans h3 (Nat.lt_trans h2 h1))⟩

end Opened

/-- Passes over a value that is neither a list nor an object; `c` is its first
character. -/
def passScalar (c : Char) (rest : List Char) : Except Fault (Remainder rest) :=
  let wordOf (w : List Char) : Except Fault (Remainder rest) :=
    match h : word w rest with
    | .error f => .error f
    | .ok left => .ok ⟨left, length_le_of_word h⟩
  if c = 'n' then wordOf ['u', 'l', 'l']
  else if c = 't' then wordOf ['r', 'u', 'e']
  else if c = 'f' then wordOf ['a', 'l', 's', 'e']
  else if c = '"' then (passString rest).map Left.remainder
  else if c = '-' then (passUnsigned rest).map Left.remainder
  else if c.isDigit then
    match passUnsigned (c :: rest) with
    | .error f => .error f
    | .ok ⟨left, h⟩ => .ok ⟨left, Nat.le_of_lt_succ h⟩
  else .error (.inside .expectedValue (c :: rest))

mutual

/-- Passes over a value, and then over the rest of what is open around it. -/
def pass (opened : List Opened) (s : List Char) : Except Fault (Left s) :=
  match h : skipSpace s with
  | [] => .error ⟨.endInValue, 0⟩
  | c :: rest =>
    have hc := length_lt_of_skipSpace h
    match Opened.ofChar? c with
    | none =>
      match passScalar c rest with
      | .error f => .error f
      | .ok ⟨left, hl⟩ =>
        match passRest opened left with
        | .error f => .error f
        | .ok ⟨last, he⟩ => .ok ⟨last, Nat.lt_of_le_of_lt (Nat.le_trans he hl) hc⟩
    | some inner =>
      match next inner.closing inner.atEnd inner.separator true rest with
      | .error f => .error f
      | .ok (.done left hl) =>
        match passRest opened left with
        | .error f => .error f
        | .ok ⟨last, he⟩ => .ok ⟨last, Nat.lt_of_le_of_lt he (Nat.lt_trans hl hc)⟩
      | .ok (.entry start hl) =>
        match inner.passKey start with
        | .error f => .error f
        | .ok ⟨left, hk⟩ =>
          match pass (inner :: opened) left with
          | .error f => .error f
          | .ok ⟨last, he⟩ =>
            .ok ⟨last, Nat.lt_trans he (Nat.lt_of_le_of_lt (Nat.le_trans hk hl) hc)⟩
termination_by s.length
decreasing_by
  · exact Nat.lt_of_le_of_lt hl hc
  · exact Nat.lt_trans hl hc
  · exact Nat.lt_of_le_of_lt (Nat.le_trans hk hl) hc

/-- Passes over the rest of what is open, from behind a value. -/
def passRest (opened : List Opened) (s : List Char) : Except Fault (Remainder s) :=
  match opened with
  | [] => .ok (.all s)
  | inner :: outer =>
    match h : skipSpace s with
    | [] => .error ⟨inner.atEnd, 0⟩
    | c :: rest =>
      have hc := length_lt_of_skipSpace h
      if c = inner.closing then
        match passRest outer rest with
        | .error f => .error f
        | .ok ⟨last, he⟩ => .ok ⟨last, Nat.le_of_lt (Nat.lt_of_le_of_lt he hc)⟩
      else if c = ',' then
        match inner.passKey rest with
        | .error f => .error f
        | .ok ⟨left, hk⟩ =>
          match pass (inner :: outer) left with
          | .error f => .error f
          | .ok ⟨last, he⟩ =>
            .ok ⟨last, Nat.le_of_lt (Nat.lt_trans (Nat.lt_of_lt_of_le he hk) hc)⟩
      else .error (.inside inner.separator (c :: rest))
termination_by s.length
decreasing_by
  · exact hc
  · exact Nat.lt_of_le_of_lt hk hc

end

end PageDesign.Json
