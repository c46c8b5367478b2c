import PageDesign.Json.Shape
import PageDesign.Node.Basic

/-! # The stored form of a page

A page is stored as JSON.  Every record of the tree becomes an object whose
absent optional fields are left out; a node also names its kind under `type`.

Reading is more liberal than writing: records may be lists, fields with a
default may be left out, optional ones may be `null`, and unknown fields are
ignored.  Inside another node a kind may also be given by its number.

A node is read in full before it is judged.  An element that stands by itself is
read along its `Element.shape`, and only its children are read as nodes.
-/
namespace PageDesign
open Json

/-! ## Canvas -/

/-- Members without those that are absent. -/
def present (members : List (String × Option Json)) : Json :=
  .obj (members.filterMap fun (key, v) => v.map (key, ·))

namespace Dimension

/-- A dimension as it is stored. -/
def toJson : Dimension → Json
  | pixels x => .number (.float x)
  | css text => .str text

/-- The dimension that is stored as a number or a string. -/
def ofJson? : Json → Option Dimension
  | .number n => some (pixels n.toFloat)
  | .str text => some (css text)
  | _ => none

end Dimension

namespace Position

/-- A position as it is stored. -/
def toJson (p : Position) : Json :=
  .obj [("x", .number (.float p.x)), ("y", .number (.float p.y))]

/-- The position that is stored. -/
def ofJson? (v : Json) : Option Position := do
  let [x, y] ← v.record? ["x", "y"] | none
  return { x := ← required (float? ·.1) x, y := ← required (float? ·.1) y }

/-- What is expected of a stored position. -/
def shape : Shape := .record [("x", .number), ("y", .number)]

end Position

namespace Size

/-- A size as it is stored. -/
def toJson (s : Size) : Json :=
  present [("width", s.width.map Dimension.toJson), ("height", s.height.map Dimension.toJson)]

/-- The size that is stored. -/
def ofJson? (v : Json) : Option Size := do
  let [width, height] ← v.record? ["width", "height"] | none
  return { width := ← optional (Dimension.ofJson? ·.1) width
           height := ← optional (Dimension.ofJson? ·.1) height }

/-- What is expected of a stored size. -/
def shape : Shape :=
  let length : Shape := .optional (.whole fun v => (Dimension.ofJson? v).isSome)
  .record [("width", length), ("height", length)]

end Size

namespace Layout

/-- What the layouts are called. -/
def names : List (String × Layout) := [("flex", flex), ("block", block), ("grid", grid)]

/-- A layout as it is stored. -/
def toJson : Layout → Json
  | flex => .str "flex"
  | block => .str "block"
  | grid => .str "grid"

end Layout

namespace Group

/-- What the groups are called. -/
def names : List (String × Group) := [("basic", basic), ("high", high), ("business", business)]

/-- What a group is called. -/
def name : Group → String
  | basic => "basic"
  | high => "high"
  | business => "business"

/-- A group as it is stored. -/
def toJson (g : Group) : Json := .str g.name

end Group

namespace FlexBox

/-- The settings of a flexible box as they are stored. -/
def toJson (f : FlexBox) : Json :=
  present [("direction", f.direction.map .str), ("justify", f.justify.map .str),
    ("align", f.align.map .str), ("wrap", f.wrap.map .str),
    ("gap", f.gap.map fun x => .number (.float x))]

/-- The settings of a flexible box that are stored. -/
def ofJson? (v : Json) : Option FlexBox := do
  let [direction, justify, align, wrap, gap] ←
    v.record? ["direction", "justify", "align", "wrap", "gap"] | none
  return { direction := ← optional (str? ·.1) direction
           justify := ← optional (str? ·.1) justify
           align := ← optional (str? ·.1) align
           wrap := ← optional (str? ·.1) wrap
           gap := ← optional (float? ·.1) gap }

/-- What is expected of the stored settings of a flexible box. -/
def shape : Shape :=
  .record [("direction", .optional .text), ("justify", .optional .text),
    ("align", .optional .text), ("wrap", .optional .text), ("gap", .optional .number)]

end FlexBox

namespace Canvas

/-- What the canvas knows about an element, as it is stored. -/
def toJson (c : Canvas) : Json :=
  present [("position", c.position.map Position.toJson), ("size", c.size.map Size.toJson),
    ("layout", c.layout.map Layout.toJson), ("isContainer", c.isContainer.map .bool),
    ("category", c.group.map Group.toJson), ("flexProps", c.flex.map FlexBox.toJson)]

/-- What the canvas knows about an element, from its stored form. -/
def ofJson? (v : Json) : Option Canvas := do
  let [position, size, layout, isContainer, group, flex] ←
    v.record? ["position", "size", "layout", "isContainer", "category", "flexProps"] | none
  return { position := ← optional (Position.ofJson? ·.1) position
           size := ← optional (Size.ofJson? ·.1) size
           layout := ← optional (case? Layout.names ·.1) layout
           isContainer := ← optional (bool? ·.1) isContainer
           group := ← optional (case? Group.names ·.1) group
           flex := ← optional (FlexBox.ofJson? ·.1) flex }

/-- What is expected of what is stored about an element. -/
def shape : Shape :=
  .record [("position", .optional Position.shape), ("size", .optional Size.shape),
    ("layout", .optional (.case (Layout.names.map (·.1)))), ("isContainer", .optional .flag),
    ("category", .optional (.case (Group.names.map (·.1)))),
    ("flexProps", .optional FlexBox.shape)]

end Canvas

/-! ## Attributes -/

namespace Value

/-- A value of an attribute as it is stored. -/
def toJson : Value → Json
  | flag on => .bool on
  | text content => .str content

/-- The value of an attribute that is stored as a truth value or a string. -/
def ofJson? : Json → Option Value
  | .bool on => some (flag on)
  | .str content => some (text content)
  | _ => none

end Value

namespace Attribute

/-- The members of a stored attribute. -/
def members (a : Attribute) : List (String × Json) :=
  [("name", .str a.name), ("value", a.value.toJson)]

/-- The attribute whose fields are stored. -/
def ofFields? {v : Json} (fields : Fields v) : Option Attribute := do
  let [name, value] ← fields.pick? ["name", "value"] | none
  return { name := ← required (str? ·.1) name, value := ← required (Value.ofJson? ·.1) value }

/-- The attribute that is stored. -/
def ofJson? (v : Json) : Option Attribute := v.fields?.bind ofFields?

/-- What is expected of a stored attribute. -/
def shape : Shape :=
  .record [("name", .text), ("value", .whole fun v => (Value.ofJson? v).isSome)]

end Attribute

/-! ## Elements -/

namespace Element

/-- The members of a stored element whose children are stored as `children`. -/
def members (e : Element) (children : List Json) : List (String × Json) :=
  [("id", e.id.map Json.str), ("tag", some (.str e.tag)),
    ("attributes", some (.arr (e.attributes.map fun a => .obj a.members))),
    ("children", some (.arr children)), ("isSelfClosing", some (.bool e.selfClosing)),
    ("meta", e.canvas.map Canvas.toJson)].filterMap fun (key, v) => v.map (key, ·)

/-- The element whose fields are stored, and its children. -/
def ofFields? {v : Json} (child : Part v → Option Node) (fields : Fields v) :
    Option (Element × List Node) := do
  let [id, tag, attributes, children, selfClosing, canvas] ←
    fields.pick? ["id", "tag", "attributes", "children", "isSelfClosing", "meta"] | none
  let info : Element :=
    { id := ← optional (str? ·.1) id
      tag := ← required (str? ·.1) tag
      attributes := ← orElse [] (listOf (Attribute.ofJson? ·.1)) attributes
      selfClosing := ← orElse false (bool? ·.1) selfClosing
      canvas := ← optional (Canvas.ofJson? ·.1) canvas }
  return (info, ← orElse [] (listOf child) children)

end Element

/-! ## Nodes -/

namespace Node

mutual

/-- A node as it is stored. -/
def toJson : Node → Json
  | root children => .obj [("type", .str "Root"), ("children", .arr (toJsonList children))]
  | element info children =>
    .obj (("type", .str "Element") :: info.members (toJsonList children))
  | text content => .obj [("type", .str "Text"), ("content", .str content)]
  | attr item => .obj (("type", .str "Attribute") :: item.members)

/-- Nodes as they are stored. -/
def toJsonList : List Node → List Json
  | [] => []
  | n :: rest => toJson n :: toJsonList rest

end

/-- The kinds of nodes. -/
inductive Kind where
  | root | element | text | attr
  deriving Repr, DecidableEq

/-- What the kinds are called, in the order of their numbers. -/
def Kind.names : List (String × Kind) :=
  [("Root", root), ("Element", element), ("Text", text), ("Attribute", attr)]

/-- Where a stored node stands: by itself, or inside another node. -/
inductive Place where
  | alone | inside
  deriving DecidableEq

/-- The kind that a value names; inside another node it may be a number. -/
def Kind.ofJson? : Place → Json → Option Kind
  | _, .str name => names.lookup name
  | .inside, .number (.int n) => if 0 ≤ n then (names[n.toNat]?).map (·.2) else none
  | _, _ => none

/-- The kind of a stored node and its other fields. -/
def tagged? (place : Place) (v : Json) : Option (Kind × Fields v) :=
  match v.fields? with
  | some (.named members) =>
    match members.filter (·.1 == "type") with
    | [(_, kind)] =>
      (Kind.ofJson? place kind.1).map (·, .named (members.filter (·.1 != "type")))
    | _ => none
  | some (.listed (kind :: rest)) => (Kind.ofJson? place kind.1).map (·, .listed rest)
  | _ => none

/-- The node that is stored. -/
def ofJson? (place : Place) (v : Json) : Option Node :=
  match tagged? place v with
  | none => none
  | some (.root, fields) => do
    let [children] ← fields.pick? ["children"] | none
    return root (← orElse [] (listOf fun p => ofJson? .inside p.1) children)
  | some (.element, fields) => do
    let (info, children) ← Element.ofFields? (fun p => ofJson? .inside p.1) fields
    return element info children
  | some (.text, fields) => do
    let [content] ← fields.pick? ["content"] | none
    return text (← required (str? ·.1) content)
  | some (.attr, fields) => (Attribute.ofFields? fields).map attr
termination_by sizeOf v
decreasing_by all_goals exact p.2

/-- The node that is stored in a text. -/
def load (source : String) : Except Fault Node := Json.load (ofJson? .alone) source

end Node

/-- What is expected of a stored element that does not name its kind. -/
def Element.shape : Shape :=
  .record [("id", .optional .text), ("tag", .text),
    ("attributes", .defaulted (.list Attribute.shape)),
    ("children", .defaulted (.list (.whole fun v => (Node.ofJson? .alone v).isSome))),
    ("isSelfClosing", .defaulted .flag), ("meta", .optional Canvas.shape)]

end PageDesign
