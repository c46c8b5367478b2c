import PageDesign.Markup.Scout

/-! # Errors in markup

A text is refused either because no reading takes it apart, or because a
closing tag names another tag than the one it closes.  The first kind is
explained by a picture: the line that could not be read, a mark under the place,
and the rules that were expected there.
-/
namespace PageDesign.Markup

/-- A place in a text where reading got stuck. -/
structure Snag where
  /-- The number of the line, from 1. -/
  line : Nat
  /-- The number of the character in its line, from 1. -/
  column : Nat
  /-- The characters of the line. -/
  text : List Char
  /-- The rules that were expected at the place. -/
  expected : List Rule

namespace Snag

/-- The snag in a text that a reading has left a trail of. -/
def ofTrail (s : List Char) (trail : Trail) : Snag :=
  let before := s.take (s.length - trail.left)
  let onLine := (before.reverse.takeWhile (· != '\n')).reverse
  let behind := (s.drop before.length).takeWhile (· != '\n')
  { line := before.count '\n' + 1
    column := onLine.length + 1
    text := (onLine ++ behind).filter (· != '\r')
    expected := trail.rules }

/-- Names as they stand in a sentence: `a`, `a or b`, `a, b, or c`. -/
def listing : List String → String
  | [] => ""
  | [a] => a
  | [a, b] => a ++ " or " ++ b
  | names => ", ".intercalate names.dropLast ++ ", or " ++ names.getLastD ""

/-- The mark below the place: it stands under the character, tabs kept. -/
def underline (snag : Snag) : String :=
  String.ofList ((snag.text.take (snag.column - 1)).map fun c => if c == '\t' then c else ' ')
    ++ "^---"

/-- The picture of a snag. -/
def picture (snag : Snag) : String :=
  let line := toString snag.line
  let margin := String.ofList (List.replicate line.length ' ')
  "\n".intercalate
    [margin ++ "--> " ++ line ++ ":" ++ toString snag.column,
     margin ++ " |",
     line ++ " | " ++ String.ofList snag.text,
     margin ++ " | " ++ snag.underline,
     margin ++ " |",
     margin ++ " = expected " ++ listing (snag.expected.map Rule.name)]

end Snag

/-- Why a markup text is refused. -/
inductive Error where
  /-- No reading takes the text apart. -/
  | unreadable (snag : Snag)
  /-- A closing tag bears another name than the tag that it closes. -/
  | mismatch (tags : Tags)

namespace Error

/-- The error as it is reported. -/
def message : Error → String
  | unreadable snag => "markup syntax error: " ++ snag.picture
  | mismatch tags =>
    "closing tag `</" ++ tags.closing ++ ">` does not match `<" ++ tags.opening ++ ">`"

end Error
end PageDesign.Markup
