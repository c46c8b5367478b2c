import PageDesign.Markup.Style
import PageDesign.Node.Basic
import PageDesign.Text.Entity

/-! # Printing a page as markup

An element is printed as an opening tag, its children one level deeper and a
closing tag.  It is a single tag instead when it is marked as self-closing or
has no children, and a child that is a lone text stays on the line of its tags.
A root only holds its children together, and an attribute node prints as it
would inside a tag.

Texts are printed as they are.  Attribute values are escaped, a true flag is its
bare name, and a false flag leaves nothing behind, not even a space.
-/
namespace PageDesign

/-- An attribute as it stands inside a tag. -/
def Attribute.markup (a : Attribute) : String :=
  match a.value with
  | .flag true => a.name
  | .flag false => ""
  | .text content => a.name ++ "=\"" ++ String.ofList (Text.escape content.toList) ++ "\""

/-- A list of attributes as it follows the name of a tag: each after a space,
those that print as nothing left out. -/
def attributesMarkup (attributes : List Attribute) : String :=
  String.join (((attributes.map Attribute.markup).filter (· ≠ "")).map (" " ++ ·))

namespace Element

/-- The name of a tag and its attributes. -/
def heading (e : Element) : String := e.tag ++ attributesMarkup e.attributes

/-- The tag before the children. -/
def openTag (e : Element) : String := "<" ++ e.heading ++ ">"

/-- The tag behind the children. -/
def closeTag (e : Element) : String := "</" ++ e.tag ++ ">"

/-- The tag of an element that is printed without its children. -/
def singleTag (e : Element) : String := "<" ++ e.heading ++ " />"

end Element

namespace Node

mutual

/-- A node in the given style, at nesting depth `depth`. -/
def print (style : Style) (depth : Nat) : Node → String
  | root children => style.lineBreak.intercalate (printAll style depth children)
  | text content => style.margin depth ++ content
  | attr item => item.markup
  | element info children =>
    let margin := style.margin depth
    if info.selfClosing then margin ++ info.singleTag else
    match children with
    | [] => margin ++ info.singleTag
    | [text content] => margin ++ info.openTag ++ content ++ info.closeTag
    | children =>
      let inner := style.lineBreak.intercalate (printAll style (depth + 1) children)
      margin ++ info.openTag ++ style.lineBreak ++ inner ++ style.lineBreak ++ margin ++
        info.closeTag

/-- The nodes of a list, each on its own. -/
def printAll (style : Style) (depth : Nat) : List Node → List String
  | [] => []
  | n :: rest => print style depth n :: printAll style depth rest

end

/-- The markup of a page in the given style. -/
def markup (style : Style) (n : Node) : String := n.print style.effective 0

end Node
end PageDesign
