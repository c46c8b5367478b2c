import PageDesign.Json.Fault

/-! # Strings in JSON texts

A string is written between double quotes.  `escape` writes the characters that
may not stand there as they are: quotes, backslashes and control characters.
`string` reads up to the closing quote and accepts every escape of the format,
pairs of surrogates included.
-/
namespace PageDesign.Json

/-! ## Writing -/

/-- The letter behind the backslash of a short escape. -/
def shortEscape? : Char → Option Char
  | '"' => some '"'
  | '\\' => some '\\'
  | '\x08' => some 'b'
  | '\x0c' => some 'f'
  | '\n' => some 'n'
  | '\r' => some 'r'
  | '\t' => some 't'
  | _ => none

/-- A digit of base sixteen. -/
def hexDigit (n : Nat) : Char := Nat.digitChar (n % 16)

/-- A character as it stands in a string. -/
def escapeChar (c : Char) : List Char :=
  match shortEscape? c with
  | some letter => ['\\', letter]
  | none =>
    if c.toNat < 0x20 then ['\\', 'u', '0', '0', hexDigit (c.toNat / 16), hexDigit c.toNat]
    else [c]

/-- A text between quotes. -/
def quote (s : List Char) : List Char := '"' :: (s.flatMap escapeChar ++ ['"'])

/-! ## Reading -/

/-- The value of a digit of base sixteen. -/
def hexValue? (c : Char) : Option Nat :=
  if '0' ≤ c ∧ c ≤ '9' then some (c.toNat - '0'.toNat)
  else if 'a' ≤ c ∧ c ≤ 'f' then some (c.toNat - 'a'.toNat + 10)
  else if 'A' ≤ c ∧ c ≤ 'F' then some (c.toNat - 'A'.toNat + 10)
  else none

/-- What is wrong when `\u` is not followed by four digits: four bytes are taken before
they are looked at. -/
def hexFault (s : List Char) : Fault :=
  if byteCount s < 4 then ⟨.endInString, 0⟩ else ⟨.invalidEscape, byteCount s - 4⟩

/-- The four digits behind `\u`. -/
def hexUnit (s : List Char) : Except Fault (Nat × List Char) :=
  match s with
  | a :: b :: c :: d :: rest =>
    match hexValue? a, hexValue? b, hexValue? c, hexValue? d with
    | some a, some b, some c, some d => .ok (((a * 16 + b) * 16 + c) * 16 + d, rest)
    | _, _, _, _ => .error (hexFault s)
  | _ => .error (hexFault s)

/-- Whether a unit is the first half of a pair of surrogates. -/
def isHighSurrogate (n : Nat) : Bool := 0xD800 ≤ n && n < 0xDC00

/-- Whether a unit is the second half of a pair of surrogates. -/
def isLowSurrogate (n : Nat) : Bool := 0xDC00 ≤ n && n < 0xE000

/-- The second half of a pair of surrogates, with the escape that brings it. -/
def lowSurrogate : List Char → Except Fault (Nat × List Char)
  | [] => .error ⟨.endInString, 0⟩
  | '\\' :: [] => .error ⟨.endInString, 0⟩
  | '\\' :: 'u' :: rest =>
    match hexUnit rest with
    | .error f => .error f
    | .ok (n, rest) =>
      if isLowSurrogate n then .ok (n, rest) else .error (.before .loneSurrogate rest)
  | '\\' :: rest => .error (.inside .endOfEscape rest)
  | rest => .error (.inside .endOfEscape rest)

/-- The character that `\u` and what follows it stand for. -/
def unicode (s : List Char) : Except Fault (Char × List Char) :=
  match hexUnit s with
  | .error f => .error f
  | .ok (n, rest) =>
    if isLowSurrogate n then .error (.before .loneSurrogate rest)
    else if isHighSurrogate n then
      match lowSurrogate rest with
      | .error f => .error f
      | .ok (m, rest) => .ok (Char.ofNat (0x10000 + (n - 0xD800) * 0x400 + (m - 0xDC00)), rest)
    else .ok (Char.ofNat n, rest)

/-- The character that a backslash and what follows it stand for. -/
def escaped : List Char → Except Fault (Char × List Char)
  | [] => .error ⟨.endInString, 0⟩
  | '"' :: rest => .ok ('"', rest)
  | '\\' :: rest => .ok ('\\', rest)
  | '/' :: rest => .ok ('/', rest)
  | 'b' :: rest => .ok ('\x08', rest)
  | 'f' :: rest => .ok ('\x0c', rest)
  | 'n' :: rest => .ok ('\n', rest)
  | 'r' :: rest => .ok ('\r', rest)
  | 't' :: rest => .ok ('\t', rest)
  | 'u' :: rest => unicode rest
  | rest => .error (.inside .invalidEscape rest)

theorem length_lt_of_hexUnit {s rest : List Char} {n : Nat} (h : hexUnit s = .ok (n, rest)) :
    rest.length < s.length := by
  unfold hexUnit at h
  split at h
  · split at h
    · simp only [Except.ok.injEq, Prod.mk.injEq] at h
      rw [← h.2]
      simp
      omega
    · simp at h
  · simp at h

theorem length_lt_of_lowSurrogate {s rest : List Char} {n : Nat}
    (h : lowSurrogate s = .ok (n, rest)) : rest.length < s.length := by
  unfold lowSurrogate at h
  split at h <;> try simp at h
  next r =>
    split at h
    · simp at h
    · next m r' hu =>
      have hlt := length_lt_of_hexUnit hu
      split at h
      · simp only [Except.ok.injEq, Prod.mk.injEq] at h
        rw [← h.2]
        simp only [List.length_cons]
        omega
      · simp at h

theorem length_lt_of_unicode {s rest : List Char} {c : Char} (h : unicode s = .ok (c, rest)) :
    rest.length < s.length := by
  unfold unicode at h
  split at h
  · simp at h
  · next n r hu =>
    have hlt := length_lt_of_hexUnit hu
    split at h
    · simp at h
    · split at h
      · split at h
        · simp at h
        · next m r' hl =>
          have hlt' := length_lt_of_lowSurrogate hl
          simp only [Except.ok.injEq, Prod.mk.injEq] at h
          rw [← h.2]
          omega
      · simp only [Except.ok.injEq, Prod.mk.injEq] at h
        rw [← h.2]
        exact hlt

theorem length_lt_of_escaped {s rest : List Char} {c : Char} (h : escaped s = .ok (c, rest)) :
    rest.length < s.length := by
  unfold escaped at h
  split at h <;> try (simp at h; done)
  case h_10 r =>
    have hlt := length_lt_of_unicode h
    simp only [List.length_cons]
    omega
  all_goals
    simp only [Except.ok.injEq, Prod.mk.injEq] at h
    rw [← h.2]
    simp

/-- The characters up to the closing quote of a string, and what follows it. -/
def string (s : List Char) : Except Fault (List Char × List Char) :=
  match s with
  | [] => .error ⟨.endInString, 0⟩
  | '"' :: rest => .ok ([], rest)
  | '\\' :: rest =>
    match _h : escaped rest with
    | .error f => .error f
    | .ok (c, rest') =>
      (string rest').map fun (text, rest) => (c :: text, rest)
  | c :: rest =>
    if c.toNat < 0x20 then .error (.before .controlCharacter rest)
    else (string rest).map fun (text, rest) => (c :: text, rest)
termination_by s.length
decreasing_by
  · exact Nat.lt_succ_of_lt (length_lt_of_escaped _h)
  · exact Nat.lt_succ_self _

theorem length_lt_of_string {s text rest : List Char} (h : string s = .ok (text, rest)) :
    rest.length < s.length := by
  fun_induction string s generalizing text with
  | case1 => simp at h
  | case2 r =>
    simp only [Except.ok.injEq, Prod.mk.injEq] at h
    rw [← h.2]
    simp
  | case3 => simp at h
  | case4 r c r' he ih =>
    have hlt := length_lt_of_escaped he
    cases hs : string r' with
    | error f => simp [hs, Except.map] at h
    | ok out =>
      simp only [hs, Except.map, Except.ok.injEq, Prod.mk.injEq] at h
      have := @ih out.1 (by rw [hs, ← h.2])
      simp only [List.length_cons]
      omega
  | case5 => simp at h
  | case6 c r _ _ _ ih =>
    cases hs : string r with
    | error f => simp [hs, Except.map] at h
    | ok out =>
      simp only [hs, Except.map, Except.ok.injEq, Prod.mk.injEq] at h
      have := @ih out.1 (by rw [hs, ← h.2])
      simp only [List.length_cons]
      omega

end PageDesign.Json
