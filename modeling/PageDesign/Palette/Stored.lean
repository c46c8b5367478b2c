import PageDesign.Json.Writer
import PageDesign.Node.Stored
import PageDesign.Palette.Stock

/-! # The stored form of palettes

All fields of a palette, of its sections and of what they offer are required.  A
template is stored as an element, without naming its kind.
-/
namespace PageDesign
open Json

namespace Template

/-- A template as it is stored. -/
def toJson (t : Template) : Json := .obj (t.info.members (Node.toJsonList t.children))

/-- The template that is stored. -/
def ofJson? (v : Json) : Option Template := do
  let fields ← v.fields?
  let (info, children) ← Element.ofFields? (fun p => Node.ofJson? .alone p.1) fields
  return { info, children }

end Template

namespace Offer

/-- A component of a palette as it is stored. -/
def toJson (o : Offer) : Json :=
  .obj [("name", .str o.name), ("label", .str o.label), ("category", o.group.toJson),
    ("template", o.template.toJson)]

/-- The component of a palette that is stored. -/
def ofJson? (v : Json) : Option Offer := do
  let [name, label, group, template] ←
    v.record? ["name", "label", "category", "template"] | none
  return { name := ← required (str? ·.1) name
           label := ← required (str? ·.1) label
           group := ← required (case? Group.names ·.1) group
           template := ← required (Template.ofJson? ·.1) template }

/-- What is expected of a stored component of a palette. -/
def shape : Shape :=
  .record [("name", .text), ("label", .text), ("category", .case (Group.names.map (·.1))),
    ("template", Element.shape)]

end Offer

namespace Section

/-- A section as it is stored. -/
def toJson (s : Section) : Json :=
  .obj [("name", s.group.toJson), ("label", .str s.label),
    ("components", .arr (s.offers.map Offer.toJson))]

/-- The section that is stored. -/
def ofJson? (v : Json) : Option Section := do
  let [group, label, offers] ← v.record? ["name", "label", "components"] | none
  return { group := ← required (case? Group.names ·.1) group
           label := ← required (str? ·.1) label
           offers := ← required (listOf (Offer.ofJson? ·.1)) offers }

/-- What is expected of a stored section. -/
def shape : Shape :=
  .record [("name", .case (Group.names.map (·.1))), ("label", .text),
    ("components", .list Offer.shape)]

end Section

namespace Palette

/-- A palette as it is stored. -/
def toJson (p : Palette) : Json := .obj [("categories", .arr (p.sections.map Section.toJson))]

/-- The palette that is stored. -/
def ofJson? (v : Json) : Option Palette := do
  let [sections] ← v.record? ["categories"] | none
  return { sections := ← required (listOf (Section.ofJson? ·.1)) sections }

/-- What is expected of a stored palette. -/
def shape : Shape := .record [("categories", .list Section.shape)]

/-- The palette that is stored in a text. -/
def load (source : String) : Except Fault Palette := shape.load ofJson? source

/-- A palette as a text to be stored, laid out over lines. -/
def text (p : Palette) : String := Json.pretty p.toJson

end Palette
end PageDesign
