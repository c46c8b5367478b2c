import PageDesign.Json.Numeral
import PageDesign.Json.Quoted
import PageDesign.Text.Blank

/-! # Reading JSON texts

A reader looks behind any separators for a value and gives it together with the
text that follows.  Lists and objects may be nested `nestingLimit` deep and no
deeper: the reader of a value recurses on the number of levels that are still
allowed, and the readers of list items and of object members on the text.
-/
namespace PageDesign.Json
open Text

/-- How deep lists and objects may be nested in one another. -/
def nestingLimit : Nat := 127

/-- What is read from the front of `s`, with what follows; at least one character
is used up. -/
abbrev Taken (α : Type) (s : List Char) := { out : α × List Char // out.2.length < s.length }

/-- What is left of `s` once something has been taken from its front. -/
abbrev Left (s : List Char) := { rest : List Char // rest.length < s.length }

/-- What is left of `s` once something or nothing has been taken from its front. -/
abbrev Remainder (s : List Char) := { rest : List Char // rest.length ≤ s.length }

/-- All of `s` is left. -/
def Remainder.all (s : List Char) : Remainder s := ⟨s, Nat.le_refl _⟩

/-- Where something has been taken, something or nothing has been taken. -/
def Left.remainder {s : List Char} (l : Left s) : Remainder s := ⟨l.1, Nat.le_of_lt l.2⟩

variable {α : Type}

/-- The rest of a word of which the first letter has been seen. -/
def word : List Char → List Char → Except Fault (List Char)
  | [], s => .ok s
  | _ :: _, [] => .error ⟨.endInValue, 0⟩
  | a :: w, c :: s => if a = c then word w s else .error (.inside .expectedWord (c :: s))

theorem length_le_of_word {w s rest : List Char} (h : word w s = .ok rest) :
    rest.length ≤ s.length := by
  fun_induction word w s with
  | case1 s => simp_all
  | case2 => simp at h
  | case3 a w s ih => have := ih h; simp only [List.length_cons]; omega
  | case4 => simp at h

/-- The value that a word stands for; behind its first letter, `rest` is left of `s`. -/
def keyword {s rest : List Char} (behind : rest.length < s.length) (w : List Char) (v : Json) :
    Except Fault (Taken Json s) :=
  match h : word w rest with
  | .error f => .error f
  | .ok rest' => .ok ⟨(v, rest'), Nat.lt_of_le_of_lt (length_le_of_word h) behind⟩

/-! ## Lists and objects -/

/-- Another view of what is read. -/
def Taken.map {β : Type} {s : List Char} (f : α → β) (t : Taken α s) : Taken β s :=
  ⟨(f t.1.1, t.1.2), t.2⟩

/-- What is read behind the front of a text is read from that text. -/
def Taken.behind {s rest : List Char} (h : rest.length < s.length) (t : Taken α rest) :
    Taken α s :=
  ⟨t.1, Nat.lt_trans t.2 h⟩

/-- What a list or an object goes on with: nothing, and the text behind its end, or an
entry, which the text `start` begins with. -/
inductive Next (s : List Char) where
  | done (rest : List Char) (h : rest.length < s.length)
  | entry (start : List Char) (h : start.length ≤ s.length)

/-- Looks for the next entry of a list or an object.  Each but the first follows a
comma, and `close` ends them. -/
def next (close : Char) (atEnd separator : Cause) (isFirst : Bool) (s : List Char) :
    Except Fault (Next s) :=
  match h : skipSpace s with
  | [] => .error ⟨atEnd, 0⟩
  | c :: rest =>
    have hc := length_lt_of_skipSpace h
    if c = close then .ok (.done rest hc)
    else if isFirst then .ok (.entry s (Nat.le_refl _))
    else if c = ',' then
      if (skipSpace rest).head? = some close then .error (.inside .trailingComma (skipSpace rest))
      else .ok (.entry rest (Nat.le_of_lt hc))
    else .error (.inside separator (c :: rest))

/-- Entries with commas between them, up to the character `close`. -/
def items (close : Char) (atEnd separator : Cause)
    (item : (s : List Char) → Except Fault (Taken α s)) (isFirst : Bool) (s : List Char) :
    Except Fault (Taken (List α) s) :=
  match next close atEnd separator isFirst s with
  | .error f => .error f
  | .ok (.done rest h) => .ok ⟨([], rest), h⟩
  | .ok (.entry start h) =>
    match item start with
    | .error f => .error f
    | .ok ⟨(first, rest), h1⟩ =>
      match items close atEnd separator item false rest with
      | .error f => .error f
      | .ok ⟨(more, rest'), h2⟩ =>
        .ok ⟨(first :: more, rest'), Nat.lt_of_lt_of_le (Nat.lt_trans h2 h1) h⟩
termination_by s.length
decreasing_by exact Nat.lt_of_lt_of_le h1 h

/-- A single character behind any separators. -/
def mark (c : Char) (atEnd otherwise : Cause) (s : List Char) : Except Fault (Left s) :=
  match h : skipSpace s with
  | [] => .error ⟨atEnd, 0⟩
  | d :: rest =>
    if d = c then .ok ⟨rest, length_lt_of_skipSpace h⟩
    else .error (.inside otherwise (d :: rest))

/-- The key of a member, with the colon behind it. -/
def key (s : List Char) : Except Fault (Taken String s) :=
  match h : skipSpace s with
  | [] => .error ⟨.endInValue, 0⟩
  | '"' :: rest =>
    match hk : string rest with
    | .error f => .error f
    | .ok (name, rest') =>
      match mark ':' .endInObject .expectedColon rest' with
      | .error f => .error f
      | .ok ⟨behind, h1⟩ =>
        .ok ⟨(String.ofList name, behind),
          Nat.lt_trans h1 (Nat.lt_trans (length_lt_of_string hk) (length_lt_of_skipSpace h))⟩
  | rest => .error (.inside .keyNotString rest)

/-- A member of an object: a key, a colon and a value. -/
def member (item : (s : List Char) → Except Fault (Taken α s)) (s : List Char) :
    Except Fault (Taken (String × α) s) :=
  match key s with
  | .error f => .error f
  | .ok ⟨(name, rest), h⟩ =>
    match item rest with
    | .error f => .error f
    | .ok t => .ok ((t.map (name, ·)).behind h)

/-! ## Values -/

/-- A value in which lists and objects may still be nested `depth` deep. -/
def value : (depth : Nat) → (s : List Char) → Except Fault (Taken Json s)
  | depth, s =>
    match h : skipSpace s with
    | [] => .error ⟨.endInValue, 0⟩
    | c :: rest =>
      have hc := length_lt_of_skipSpace h
      if c = 'n' then keyword hc ['u', 'l', 'l'] .null
      else if c = 't' then keyword hc ['r', 'u', 'e'] (.bool true)
      else if c = 'f' then keyword hc ['a', 'l', 's', 'e'] (.bool false)
      else if c = '"' then
        match hq : string rest with
        | .error f => .error f
        | .ok (text, rest') =>
          .ok ⟨(.str (String.ofList text), rest'), Nat.lt_trans (length_lt_of_string hq) hc⟩
      else if hn : c = '-' ∨ c.isDigit = true then
        match hq : numeral (c :: rest) with
        | .error f => .error f
        | .ok (n, rest') =>
          .ok ⟨(.number n, rest'), Nat.lt_of_lt_of_le
            (length_lt_of_numeral (by simpa using hn) (by simp) hq) hc⟩
      else if c = '[' then
        match depth with
        | 0 => .error (.inside .tooDeep (c :: rest))
        | depth + 1 =>
          match items ']' .endInList .expectedListSeparator (value depth) true rest with
          | .error f => .error f
          | .ok t => .ok ((t.map .arr).behind hc)
      else if c = '{' then
        match depth with
        | 0 => .error (.inside .tooDeep (c :: rest))
        | depth + 1 =>
          match items '}' .endInObject .expectedObjectSeparator (member (value depth)) true
            rest with
          | .error f => .error f
          | .ok t => .ok ((t.map .obj).behind hc)
      else .error (.inside .expectedValue (c :: rest))

/-- The value at the front of a text, and what follows it. -/
def front (source : String) : Except Fault (Json × List Char) :=
  match value nestingLimit source.toList with
  | .error f => .error f
  | .ok ⟨out, _⟩ => .ok out

/-- Checks that only separators are left of a text. -/
def finished (rest : List Char) : Except Fault Unit :=
  match skipSpace rest with
  | [] => .ok ()
  | rest => .error (.inside .trailingCharacters rest)

/-- The value that a text consists of. -/
def read (source : String) : Except Fault Json :=
  match front source with
  | .error f => .error f
  | .ok (v, rest) =>
    match finished rest with
    | .error f => .error f
    | .ok () => .ok v

end PageDesign.Json
