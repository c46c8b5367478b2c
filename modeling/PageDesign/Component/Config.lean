import PageDesign.Json.Value
import PageDesign.Node.Basic

/-! # Component configurations

A component is configured by the tag it becomes, its props, its children and
whether it closes itself.  Props are scalars under distinct names, in the order in
which the names first came up; setting a prop again keeps its place.

A configuration becomes an element (`Config.toNode`).  Its props become
attributes: numbers by their spelling, and `null` as a flag that is off.
-/
namespace PageDesign

/-- The value of a prop. -/
inductive Scalar where
  | flag (on : Bool)
  | text (content : String)
  | number (value : Number)
  | null
  deriving DecidableEq

/-- The value of an attribute that comes from a prop. -/
def Scalar.toValue : Scalar → Value
  | flag on => .flag on
  | text content => .text content
  | number n => .text n.text
  | null => .flag false

/-- The entries of a table with `name` standing for `value`, at its old place if
it has one. -/
def setEntry {α : Type} (name : String) (value : α) : List (String × α) → List (String × α)
  | [] => [(name, value)]
  | (key, old) :: rest =>
    if key = name then (name, value) :: rest else (key, old) :: setEntry name value rest

theorem mem_keys_setEntry {α : Type} {name key : String} {value : α}
    {entries : List (String × α)} :
    key ∈ (setEntry name value entries).map Prod.fst ↔
      key = name ∨ key ∈ entries.map Prod.fst := by
  induction entries with
  | nil => simp [setEntry]
  | cons e rest ih =>
    by_cases h : e.1 = name
    · simp [setEntry, h]
    · simp only [setEntry, h, if_false, List.map_cons, List.mem_cons, ih]
      exact or_left_comm

theorem nodup_keys_setEntry {α : Type} {name : String} {value : α}
    {entries : List (String × α)} (h : (entries.map Prod.fst).Nodup) :
    ((setEntry name value entries).map Prod.fst).Nodup := by
  induction entries with
  | nil => simp [setEntry]
  | cons e rest ih =>
    rw [List.map_cons, List.nodup_cons] at h
    by_cases he : e.1 = name
    · simp only [setEntry, he, if_true, List.map_cons, List.nodup_cons]
      exact ⟨he ▸ h.1, h.2⟩
    · simp only [setEntry, he, if_false, List.map_cons, List.nodup_cons]
      refine ⟨fun hm => ?_, ih h.2⟩
      rcases mem_keys_setEntry.mp hm with hn | hm
      · exact he hn
      · exact h.1 hm

/-- Props: scalars under distinct names. -/
structure Props where
  entries : List (String × Scalar)
  distinct : (entries.map Prod.fst).Nodup
  deriving DecidableEq

namespace Props

/-- No props. -/
def empty : Props := ⟨[], List.nodup_nil⟩

/-- The props with one of them set. -/
def set (props : Props) (name : String) (value : Scalar) : Props :=
  ⟨setEntry name value props.entries, nodup_keys_setEntry props.distinct⟩

/-- The props that are set one after another. -/
def ofList (entries : List (String × Scalar)) : Props :=
  entries.foldl (fun props entry => props.set entry.1 entry.2) empty

/-- The attributes that the props become. -/
def attributes (props : Props) : List Attribute :=
  props.entries.map fun entry => ⟨entry.1, entry.2.toValue⟩

end Props

/-- What a configuration says about a component, its children apart. -/
structure Component where
  tag : String
  props : Props := .empty
  selfClosing : Option Bool := none
  deriving DecidableEq

/-- The element that a component becomes. -/
def Component.toElement (c : Component) : Element :=
  { tag := c.tag, attributes := c.props.attributes, selfClosing := c.selfClosing.getD false }

/-- A child in a configuration. -/
inductive Child where
  | text (content : String)
  | component (info : Component) (children : List Child)

namespace Child

mutual

/-- The node that a child becomes. -/
def toNode : Child → Node
  | text content => .text content
  | component info children => .element info.toElement (toNodes children)

/-- The nodes that children become. -/
def toNodes : List Child → List Node
  | [] => []
  | c :: rest => toNode c :: toNodes rest

end

end Child

/-- The configuration of a component. -/
structure Config where
  info : Component
  children : List Child := []

namespace Config

/-- A component with nothing but a tag. -/
def new (tag : String) : Config := { info := { tag } }

/-- The configuration with one of its props set. -/
def prop (c : Config) (name : String) (value : Scalar) : Config :=
  { c with info := { c.info with props := c.info.props.set name value } }

/-- The configuration as a child of another. -/
def toChild (c : Config) : Child := .component c.info c.children

/-- The configuration with one more child. -/
def child (c : Config) (child : Child) : Config := { c with children := c.children ++ [child] }

/-- The configuration with its self-closing mark set. -/
def selfClosing (c : Config) (yes : Bool) : Config :=
  { c with info := { c.info with selfClosing := some yes } }

/-- The node that a configuration becomes. -/
def toNode (c : Config) : Node := c.toChild.toNode

/-- The page of a single component. -/
def page (c : Config) : Node := .root [c.toNode]

/-- The page of several components. -/
def pageOf (configs : List Config) : Node := .root (configs.map toNode)

end Config

/-- What a designer hands over: one configuration, or a list of them. -/
inductive Design where
  | one (config : Config)
  | many (configs : List Config)

/-- The page that is designed. -/
def Design.page : Design → Node
  | one config => config.page
  | many configs => Config.pageOf configs

end PageDesign
