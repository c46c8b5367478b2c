import PageDesign.Component.Config
import PageDesign.Json.Shape

/-! # The stored form of configurations

A configuration is stored as a JSON record of a tag, props, children and a
self-closing mark.  A child is a string or a configuration.  A design is a list of
configurations if every item is one, and otherwise a single configuration; a list
of fields then passes for one, too.

A design is refused with one of two errors: its text is no JSON, or no design.
The value at the front of the text is judged before what stands behind it.
-/
namespace PageDesign
open Json

namespace Scalar

/-- A scalar as it is stored. -/
def toJson : Scalar → Json
  | flag on => .bool on
  | text content => .str content
  | number n => .number n
  | null => .null

/-- The scalar that is stored. -/
def ofJson? : Json → Option Scalar
  | .bool on => some (flag on)
  | .str content => some (text content)
  | .number n => some (number n)
  | .null => some null
  | .arr _ => none
  | .obj _ => none

end Scalar

namespace Props

/-- Props as they are stored. -/
def toJson (props : Props) : Json :=
  .obj (props.entries.map fun entry => (entry.1, entry.2.toJson))

/-- The props that are stored; a repeated one has its last value. -/
def ofJson? : Json → Option Props
  | .obj members =>
    (members.mapM fun m => (Scalar.ofJson? m.2).map (m.1, ·)).map ofList
  | _ => none

end Props

/-- The members of a stored component whose children are stored as `children`. -/
def Component.members (c : Component) (children : List Json) : List (String × Json) :=
  [("tag", some (.str c.tag)), ("props", some c.props.toJson),
    ("children", some (.arr children)),
    ("isSelfClosing", c.selfClosing.map .bool)].filterMap fun (key, v) => v.map (key, ·)

/-- The component whose fields are stored, and its children. -/
def Component.ofJson? (v : Json) (child : Part v → Option Child) :
    Option (Component × List Child) := do
  let [tag, props, children, selfClosing] ←
    v.record? ["tag", "props", "children", "isSelfClosing"] | none
  let info : Component :=
    { tag := ← required (str? ·.1) tag
      props := ← orElse .empty (Props.ofJson? ·.1) props
      selfClosing := ← optional (bool? ·.1) selfClosing }
  return (info, ← orElse [] (listOf child) children)

namespace Child

mutual

/-- A child as it is stored. -/
def toJson : Child → Json
  | text content => .str content
  | component info children => .obj (info.members (toJsonList children))

/-- Children as they are stored. -/
def toJsonList : List Child → List Json
  | [] => []
  | c :: rest => toJson c :: toJsonList rest

end

/-- The child that is stored. -/
def ofJson? (v : Json) : Option Child :=
  match v.str? with
  | some content => some (text content)
  | none => (Component.ofJson? v fun p => ofJson? p.1).map fun (info, children) =>
      component info children
termination_by sizeOf v
decreasing_by exact p.2

end Child

namespace Config

/-- A configuration as it is stored. -/
def toJson (c : Config) : Json := c.toChild.toJson

/-- The configuration that is stored. -/
def ofJson? (v : Json) : Option Config :=
  (Component.ofJson? v fun p => Child.ofJson? p.1).map fun (info, children) => { info, children }

/-- The list of configurations that is stored. -/
def listOfJson? : Json → Option (List Config)
  | .arr items => items.mapM ofJson?
  | _ => none

/-- What is expected of a stored configuration. -/
def shape : Shape :=
  .record [("tag", .text),
    ("props", .defaulted (.table (.whole fun v => (Scalar.ofJson? v).isSome))),
    ("children", .defaulted (.list (.whole fun v => (Child.ofJson? v).isSome))),
    ("isSelfClosing", .optional .flag)]

/-- The configuration that is stored in a text. -/
def load (source : String) : Except Fault Config := shape.load ofJson? source

/-- The list of configurations that is stored in a text. -/
def loadList (source : String) : Except Fault (List Config) :=
  (Shape.list shape).load listOfJson? source

end Config

namespace Design

/-- A design as it is stored. -/
def toJson : Design → Json
  | one config => config.toJson
  | many configs => .arr (configs.map Config.toJson)

/-- The design that is stored: a list of configurations if it can be one,
otherwise a single configuration. -/
def ofJson? (v : Json) : Option Design :=
  match Config.listOfJson? v with
  | some configs => some (many configs)
  | none => (Config.ofJson? v).map one

/-- The design that is stored in a text. -/
def load (source : String) : Except Fault Design := Json.load ofJson? source

/-- Why a text is no design. -/
inductive Error where
  /-- It is no JSON. -/
  | fault (fault : Fault)
  /-- It is neither a configuration nor a list of them. -/
  | shape
  deriving Repr, DecidableEq

/-- What is wrong with the text `source`. -/
def Error.detail (source : String) : Error → String
  | fault f => f.message source
  | shape => "data did not match any variant of untagged enum ConfigInput"

/-- The error as it is reported for the text `source`. -/
def Error.message (source : String) (e : Error) : String :=
  "invalid component config: " ++ e.detail source

/-- The design that a text holds. -/
def read (source : String) : Except Error Design :=
  match front source with
  | .error f => .error (.fault f)
  | .ok (v, rest) =>
    match ofJson? v with
    | none => .error .shape
    | some design =>
      match finished rest with
      | .error f => .error (.fault f)
      | .ok () => .ok design

end Design
end PageDesign
