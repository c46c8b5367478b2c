import PageDesign.Json.Quoted
import PageDesign.Json.Value

/-! # Writing JSON texts

A value is written without any space (`compact`), or with each item and each
member on a line of its own, indented by two spaces a level (`pretty`).  Empty
lists and objects are written in two characters either way.
-/
namespace PageDesign.Json

/-- A text between quotes. -/
def quoteString (s : String) : String := String.ofList (quote s.toList)

mutual

/-- A value without any space. -/
def compact : Json → String
  | .null => "null"
  | .bool true => "true"
  | .bool false => "false"
  | .number n => n.text
  | .str s => quoteString s
  | .arr vs => "[" ++ ",".intercalate (compactItems vs) ++ "]"
  | .obj ms => "\x7b" ++ ",".intercalate (compactMembers ms) ++ "\x7d"

/-- The items of a list without any space. -/
def compactItems : List Json → List String
  | [] => []
  | v :: rest => compact v :: compactItems rest

/-- The members of an object without any space. -/
def compactMembers : List (String × Json) → List String
  | [] => []
  | (key, v) :: rest => (quoteString key ++ ":" ++ compact v) :: compactMembers rest

end

/-- Entries between two brackets, each on a line of its own at `depth + 1`. -/
def block (opening closing : String) (depth : Nat) (entries : List String) : String :=
  let line (depth : Nat) := "\n" ++ String.join (List.replicate depth "  ")
  if entries.isEmpty then opening ++ closing
  else opening ++ line (depth + 1) ++ ("," ++ line (depth + 1)).intercalate entries ++
    line depth ++ closing

mutual

/-- A value laid out over lines, at nesting depth `depth`. -/
def prettyAt (depth : Nat) : Json → String
  | .arr vs => block "[" "]" depth (prettyItems depth vs)
  | .obj ms => block "\x7b" "\x7d" depth (prettyMembers depth ms)
  | .null => compact .null
  | .bool b => compact (.bool b)
  | .number n => compact (.number n)
  | .str s => compact (.str s)

/-- The items of a list at nesting depth `depth`. -/
def prettyItems (depth : Nat) : List Json → List String
  | [] => []
  | v :: rest => prettyAt (depth + 1) v :: prettyItems depth rest

/-- The members of an object at nesting depth `depth`. -/
def prettyMembers (depth : Nat) : List (String × Json) → List String
  | [] => []
  | (key, v) :: rest =>
    (quoteString key ++ ": " ++ prettyAt (depth + 1) v) :: prettyMembers depth rest

end

/-- A value laid out over lines. -/
def pretty (v : Json) : String := prettyAt 0 v

end PageDesign.Json
