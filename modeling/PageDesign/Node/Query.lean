import PageDesign.Node.Basic

/-! # Properties to search for

A query is a property of a single node that a search can be asked for.
-/
namespace PageDesign

/-- A property of a node. -/
inductive Query where
  | any
  | root
  | element
  | text
  | attr
  /-- An element with this tag. -/
  | tag (name : String)
  /-- An element that carries this id. -/
  | id (id : String)
  /-- A text with exactly this content. -/
  | content (text : String)
  /-- An element with an attribute of this name. -/
  | has (name : String)
  /-- An element whose first attribute of this name has this value. -/
  | equals (name : String) (value : Value)
  deriving Repr, DecidableEq

/-- Whether a node has the property. -/
def Query.holds : Query → Node → Bool
  | any, _ => true
  | root, .root _ => true
  | element, .element .. => true
  | text, .text _ => true
  | attr, .attr _ => true
  | tag name, n => n.hasTag name
  | id handle, n => n.hasId handle
  | content expected, n => n.text? == some expected
  | has name, .element info _ => (info.value? name).isSome
  | equals name value, .element info _ => info.value? name == some value
  | _, _ => false

end PageDesign
