import PageDesign.Node.Basic

/-! # The component palette

A palette offers components to drop onto a page, in sections.  What is dropped is
a copy of a component's template with an id of its own; names and labels are for
the palette alone.
-/
namespace PageDesign

/-- The element that a component starts out as. -/
structure Template where
  info : Element
  children : List Node := []
  deriving DecidableEq

/-- A template as a node. -/
def Template.toNode (t : Template) : Node := .element t.info t.children

/-- A component that a palette offers. -/
structure Offer where
  /-- The key by which the component is looked up. -/
  name : String
  label : String
  group : Group
  template : Template
  deriving DecidableEq

/-- A fresh copy of the template that carries `id`. -/
def Offer.instantiate (o : Offer) (id : String) : Template :=
  { o.template with info := { o.template.info with id := some id } }

/-- A section of a palette. -/
structure Section where
  group : Group
  label : String
  offers : List Offer
  deriving DecidableEq

/-- A palette of components. -/
structure Palette where
  sections : List Section
  deriving DecidableEq

namespace Palette

/-- Everything that a palette offers, in order. -/
def offers (p : Palette) : List Offer := p.sections.flatMap (·.offers)

/-- The first component with a name. -/
def find? (p : Palette) (name : String) : Option Offer := p.offers.find? (·.name = name)

/-- The first section of a group. -/
def section? (p : Palette) (group : Group) : Option Section :=
  p.sections.find? (·.group = group)

/-- A line for each component: the label of its section, its name and its label,
separated by tabs. -/
def lines (p : Palette) : List String :=
  p.sections.flatMap fun s =>
    s.offers.map fun o => "\t".intercalate [s.label, o.name, o.label]

end Palette
end PageDesign
