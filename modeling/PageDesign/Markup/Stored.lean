import PageDesign.Json.Shape
import PageDesign.Markup.Style

/-! # The stored form of printing styles

A style is stored as its unit of indentation and whether it spreads markup over
lines; either may be left out.
-/
namespace PageDesign
namespace Style
open Json

/-- A style as it is stored. -/
def toJson (style : Style) : Json :=
  .obj [("indent", .str style.indent), ("format", .bool style.multiline)]

/-- The style that is stored. -/
def ofJson? (v : Json) : Option Style := do
  let [indent, multiline] ← v.record? ["indent", "format"] | none
  let plain : Style := {}
  return { indent := ← orElse plain.indent (str? ·.1) indent
           multiline := ← orElse plain.multiline (bool? ·.1) multiline }

/-- What is expected of a stored style. -/
def shape : Shape := .record [("indent", .defaulted .text), ("format", .defaulted .flag)]

/-- The style that is stored in a text. -/
def load (source : String) : Except Fault Style := shape.load ofJson? source

end Style
end PageDesign
