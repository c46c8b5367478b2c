import PageDesign.Json.Passed
import PageDesign.Json.Reader
import PageDesign.Json.Record

/-! # Reading what is expected

A `Shape` says what is expected of a value, and a text is read with it in hand:
members that no record asks for are passed over, and the first character that does
not go with the shape ends the reading.  What is read is brought into one form: a
record is an object with its own fields and no others, and a case is its name.

A value of another kind than expected is a fault of its own, `Cause.mismatch`.  It
is reported only for a text that is JSON as a whole (`Shape.load`).
-/
namespace PageDesign.Json
open Text

/-- What is expected of a value. -/
inductive Shape where
  /-- A value that is neither a list nor an object, and that a test accepts. -/
  | scalar (accepts : Json → Bool)
  /-- Any value that a test accepts once it has been read in full. -/
  | whole (accepts : Json → Bool)
  /-- A field that may be left out or `null`. -/
  | optional (shape : Shape)
  /-- A field that may be left out. -/
  | defaulted (shape : Shape)
  /-- A list of values of one shape. -/
  | list (item : Shape)
  /-- An object whose values have one shape, whatever their keys. -/
  | table (entry : Shape)
  /-- One of several named cases: its name, or an object whose only key is the name
  and whose value is `null`. -/
  | case (names : List String)
  /-- A record: an object with a member for each field, or the list of its fields. -/
  | record (fields : List (String × Shape))

/-- A reader of one value. -/
abbrev Reading := (s : List Char) → Except Fault (Taken Json s)

/-- A field of a record, and how it is read. -/
structure Slot where
  name : String
  required : Bool
  read : Reading

/-! ## Values -/

/-- What has been read, if a test accepts it. -/
def judge (accepts : Json → Bool) {s : List Char} (out : Except Fault (Taken Json s)) :
    Except Fault (Taken Json s) :=
  match out with
  | .error f => .error f
  | .ok t => if accepts t.1.1 then .ok t else .error (.before .mismatch t.1.2)

/-- Reads a value that a test accepts.  A list or an object is refused unread. -/
def readScalar (accepts : Json → Bool) : Reading := fun s =>
  match (skipSpace s).head?.bind Opened.ofChar? with
  | some _ => .error (.inside .mismatch (skipSpace s))
  | none => judge accepts (value 0 s)

/-- Reads a value where something else is expected than is found. -/
def readOther : Reading := readScalar fun _ => false

/-- Reads what stands behind `opened`, one level further down; a value that is not
opened like this is left to `otherwise`. -/
def within (opened : Opened) (depth : Nat) (inner : Nat → Reading) (otherwise : Reading) :
    Reading := fun s =>
  match h : skipSpace s with
  | [] => otherwise s
  | c :: rest =>
    have hc := length_lt_of_skipSpace h
    if Opened.ofChar? c = some opened then
      match depth with
      | 0 => .error (.inside .tooDeep (c :: rest))
      | depth + 1 =>
        match inner depth rest with
        | .error f => .error f
        | .ok t => .ok (t.behind hc)
    else otherwise s

/-! ## Cases -/

/-- Whether a value is one of several names. -/
def isName (names : List String) : Json → Bool
  | str name => names.contains name
  | _ => false

/-- Whether a value is `null`. -/
def isNull : Json → Bool
  | null => true
  | _ => false

/-- Reads a case that is wrapped in an object, from behind the opening brace. -/
def readWrapped (names : List String) : Reading := fun s =>
  match readScalar (isName names) s with
  | .error f => .error f
  | .ok ⟨(name, rest), h1⟩ =>
    match mark ':' .endInObject .expectedColon rest with
    | .error f => .error f
    | .ok ⟨start, h2⟩ =>
      match readScalar isNull start with
      | .error f => .error f
      | .ok ⟨(_, behind), h3⟩ =>
        match mark '}' .endInObject .expectedValue behind with
        | .error f => .error f
        | .ok ⟨left, h4⟩ =>
          .ok ⟨(name, left), Nat.lt_trans h4 (Nat.lt_trans h3 (Nat.lt_trans h2 h1))⟩

/-- Reads the name of a case; nothing but a string can be one. -/
def readName (names : List String) : Reading := fun s =>
  match (skipSpace s).head? with
  | none => .error ⟨.endInValue, 0⟩
  | some c =>
    if c = '"' then readScalar (isName names) s
    else .error (.inside .expectedValue (skipSpace s))

/-! ## Records -/

/-- Reads the fields of a record that is a list.  Trailing fields may be left out if
none of them is required, and nothing may follow the last field. -/
def readListed : List Slot → (isFirst : Bool) → (s : List Char) →
    Except Fault (Taken (List (String × Json)) s)
  | [], isFirst, s =>
    match next ']' .endInList .trailingCharacters isFirst s with
    | .error f => .error f
    | .ok (.done rest h) => .ok ⟨([], rest), h⟩
    | .ok (.entry start _) => .error (.inside .trailingCharacters (skipSpace start))
  | slot :: slots, isFirst, s =>
    match next ']' .endInList .expectedListSeparator isFirst s with
    | .error f => .error f
    | .ok (.done rest h) =>
      if (slot :: slots).any (·.required) then .error (.before .mismatch rest)
      else .ok ⟨([], rest), h⟩
    | .ok (.entry start h) =>
      match slot.read start with
      | .error f => .error f
      | .ok ⟨(v, rest), h1⟩ =>
        match readListed slots false rest with
        | .error f => .error f
        | .ok t => .ok ((t.map ((slot.name, v) :: ·)).behind (Nat.lt_of_lt_of_le h1 h))

/-- Reads the members of a record that is an object; the fields in `seen` have been
read before.  A field may not occur twice, and other members are passed over. -/
def readNamed (slots : List Slot) (isFirst : Bool) (seen : List String) (s : List Char) :
    Except Fault (Taken (List (String × Json)) s) :=
  match next '}' .endInObject .expectedObjectSeparator isFirst s with
  | .error f => .error f
  | .ok (.done rest h) =>
    if slots.any fun slot => slot.required && !seen.contains slot.name then
      .error (.before .mismatch rest)
    else .ok ⟨([], rest), h⟩
  | .ok (.entry start h) =>
    match key start with
    | .error f => .error f
    | .ok ⟨(name, rest), h1⟩ =>
      match slots.find? (·.name == name) with
      | none =>
        match pass [] rest with
        | .error f => .error f
        | .ok ⟨behind, h2⟩ =>
          match readNamed slots false seen behind with
          | .error f => .error f
          | .ok t => .ok (t.behind (Nat.lt_of_lt_of_le (Nat.lt_trans h2 h1) h))
      | some slot =>
        if seen.contains name then .error (.before .mismatch rest)
        else
          match slot.read rest with
          | .error f => .error f
          | .ok ⟨(v, behind), h2⟩ =>
            match readNamed slots false (name :: seen) behind with
            | .error f => .error f
            | .ok t =>
              .ok ((t.map ((name, v) :: ·)).behind
                (Nat.lt_of_lt_of_le (Nat.lt_trans h2 h1) h))
termination_by s.length
decreasing_by all_goals exact Nat.lt_of_lt_of_le (Nat.lt_trans h2 h1) h

/-! ## Shapes -/

namespace Shape

/-- A string. -/
def text : Shape := scalar (·.str?.isSome)

/-- A truth value. -/
def flag : Shape := scalar (·.bool?.isSome)

/-- A number. -/
def number : Shape := scalar (·.float?.isSome)

/-- Whether a field of this shape has to be there. -/
def isRequired : Shape → Bool
  | optional _ => false
  | defaulted _ => false
  | _ => true

mutual

/-- Reads a value of a shape, in which lists and objects may still be nested `depth`
deep. -/
def read : Shape → (depth : Nat) → Reading
  | scalar accepts, _ => readScalar accepts
  | whole accepts, depth => fun s => judge accepts (value depth s)
  | optional shape, depth => fun s =>
    if (skipSpace s).head? = some 'n' then readScalar isNull s else shape.read depth s
  | defaulted shape, depth => shape.read depth
  | list item, depth =>
    within .list depth
      (fun depth rest =>
        (items ']' .endInList .expectedListSeparator (item.read depth) true rest).map
          (Taken.map .arr))
      readOther
  | table entry, depth =>
    within .object depth
      (fun depth rest =>
        (items '}' .endInObject .expectedObjectSeparator (member (entry.read depth)) true
          rest).map (Taken.map .obj))
      readOther
  | case names, depth => within .object depth (fun _ => readWrapped names) (readName names)
  | record fields, depth =>
    within .list depth
      (fun depth rest => (readListed (slots fields depth) true rest).map (Taken.map .obj))
      (within .object depth
        (fun depth rest => (readNamed (slots fields depth) true [] rest).map (Taken.map .obj))
        readOther)

/-- The fields of a record, and how they are read. -/
def slots : List (String × Shape) → (depth : Nat) → List Slot
  | [], _ => []
  | (name, shape) :: rest, depth =>
    ⟨name, shape.isRequired, shape.read depth⟩ :: slots rest depth

end

/-- A mismatch is reported only for JSON: what keeps the text `source` from being JSON
comes first. -/
def settle (source : String) (f : Fault) : Fault :=
  if f.cause = .mismatch then
    match Json.read source with
    | .error g => g
    | .ok _ => f
  else f

/-- What is stored in the text `source` in a certain shape. -/
def load {α : Type} (shape : Shape) (decode : Json → Option α) (source : String) :
    Except Fault α :=
  match shape.read nestingLimit source.toList with
  | .error f => .error (settle source f)
  | .ok ⟨(v, rest), _⟩ =>
    match decode v with
    | none => .error (settle source (.before .mismatch rest))
    | some a => (finished rest).map fun _ => a

end Shape

/-- What is stored in the text `source`, which is read in full before it is judged. -/
def load {α : Type} (decode : Json → Option α) (source : String) : Except Fault α :=
  match Json.read source with
  | .error f => .error f
  | .ok v =>
    match decode v with
    | none => .error ⟨.mismatch, 0⟩
    | some a => .ok a

end PageDesign.Json
