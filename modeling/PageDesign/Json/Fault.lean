/-! # Faults in JSON texts

A text that is no JSON, or not what is expected, is refused at a place.  A `Fault`
says why, and how many bytes of the text were left at that place; `Fault.message`
adds the line and the column, which are counted in bytes.
-/
namespace PageDesign.Json

/-- Why a text is refused. -/
inductive Cause where
  | endInValue | endInList | endInObject | endInString
  | expectedValue | expectedWord | expectedListSeparator | expectedObjectSeparator
  | expectedColon | keyNotString | trailingComma | trailingCharacters
  | tooDeep | controlCharacter | invalidEscape | loneSurrogate | endOfEscape
  | invalidNumber | numberOutOfRange
  /-- The text may be JSON, but a value is of another kind than expected. -/
  | mismatch
  deriving Repr, DecidableEq

namespace Cause

/-- What is said of a cause. -/
def text : Cause → String
  | endInValue => "EOF while parsing a value"
  | endInList => "EOF while parsing a list"
  | endInObject => "EOF while parsing an object"
  | endInString => "EOF while parsing a string"
  | expectedValue => "expected value"
  | expectedWord => "expected ident"
  | expectedListSeparator => "expected `,` or `]`"
  | expectedObjectSeparator => "expected `,` or `\x7d`"
  | expectedColon => "expected `:`"
  | keyNotString => "key must be a string"
  | trailingComma => "trailing comma"
  | trailingCharacters => "trailing characters"
  | tooDeep => "recursion limit exceeded"
  | controlCharacter => "control character (\\u0000-\\u001F) found while parsing a string"
  | invalidEscape => "invalid escape"
  | loneSurrogate => "lone leading surrogate in hex escape"
  | endOfEscape => "unexpected end of hex escape"
  | invalidNumber => "invalid number"
  | numberOutOfRange => "number out of range"
  | mismatch => "another kind of value expected"

/-- Whether the text ended too early. -/
def isEnd : Cause → Bool
  | endInValue | endInList | endInObject | endInString => true
  | _ => false

end Cause

/-- A cause, and the number of bytes that were left. -/
structure Fault where
  cause : Cause
  left : Nat
  deriving Repr, DecidableEq

/-- The number of bytes of a text in UTF-8. -/
def byteCount (s : List Char) : Nat := s.foldr (fun c n => c.utf8Size + n) 0

namespace Fault

/-- A fault behind which `rest` is left. -/
def before (cause : Cause) (rest : List Char) : Fault := ⟨cause, byteCount rest⟩

/-- A fault in the first byte of `rest`, or at the end of the text. -/
def inside (cause : Cause) (rest : List Char) : Fault := ⟨cause, byteCount rest - 1⟩

/-- The line and the column of the byte `offset` in the rest of a text that begins at
the byte `place`, in the line `line` whose first byte is `start`. -/
def positionFrom (offset place line start : Nat) : List Char → Nat × Nat
  | [] => (line, offset - start)
  | c :: rest =>
    if offset ≤ place then (line, offset - start)
    else if c = '\n' then positionFrom offset (place + 1) (line + 1) (place + 1) rest
    else positionFrom offset (place + c.utf8Size) line start rest

/-- The line and the column of the byte `offset` of a text; the first line is line 1,
and the first byte of a line has column 0. -/
def position (offset : Nat) (s : List Char) : Nat × Nat := positionFrom offset 0 1 0 s

/-- The fault as it is reported for the text `source`. -/
def message (f : Fault) (source : String) : String :=
  let (line, column) := position (source.utf8ByteSize - f.left) source.toList
  f.cause.text ++ " at line " ++ toString line ++ " column " ++ toString column

end Fault
end PageDesign.Json
