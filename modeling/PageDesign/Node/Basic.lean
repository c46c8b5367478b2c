import PageDesign.Node.Canvas

/-! # Page trees

A page is a tree of nodes.  Roots and elements have a list of children; texts
and attribute nodes have none.  What an element says about itself, its children
apart, is an `Element`: the name of its tag, its attributes in order, whether it
is written as a single tag, the id that edits address it by, and its `Canvas`.

An attribute list may name an attribute twice.  The first of a name is the one
that `Element.value?` reads and `Element.set` replaces.
-/
namespace PageDesign

/-- The value of an attribute.  A true flag is written as the bare name, and a
false one is not written at all. -/
inductive Value where
  | flag (on : Bool)
  | text (content : String)
  deriving Repr, DecidableEq

/-- A named value. -/
structure Attribute where
  name : String
  value : Value
  deriving Repr, DecidableEq

/-- What an element says about itself, its children apart. -/
structure Element where
  /-- The handle by which edits address the element; it is no part of the markup. -/
  id : Option String := none
  tag : String
  attributes : List Attribute := []
  /-- Whether the element is written as a single tag, whatever its children. -/
  selfClosing : Bool := false
  canvas : Option Canvas := none
  deriving DecidableEq

/-- A node of a page tree. -/
inductive Node where
  | root (children : List Node)
  | element (info : Element) (children : List Node)
  | text (content : String)
  | attr (item : Attribute)

/-! ## Attribute lists -/

/-- Gives the first attribute called `name` a value, or appends one when there
is none. -/
def setAttribute (name : String) (value : Value) : List Attribute → List Attribute
  | [] => [⟨name, value⟩]
  | a :: rest =>
    if a.name = name then ⟨name, value⟩ :: rest else a :: setAttribute name value rest

namespace Element

/-- The value of the first attribute called `name`. -/
def value? (e : Element) (name : String) : Option Value :=
  (e.attributes.find? (·.name = name)).map (·.value)

/-- The element with the first attribute called `name` set to `value`. -/
def set (e : Element) (name : String) (value : Value) : Element :=
  { e with attributes := setAttribute name value e.attributes }

end Element

/-! ## Parts of a node -/

namespace Node

/-- The child list of a node that has one. -/
def children? : Node → Option (List Node)
  | root children => some children
  | element _ children => some children
  | text _ => none
  | attr _ => none

/-- The children of a node; texts and attribute nodes have none. -/
def children (n : Node) : List Node := n.children?.getD []

/-- What an element says about itself. -/
def element? : Node → Option Element
  | element info _ => some info
  | _ => none

/-- The content of a text. -/
def text? : Node → Option String
  | text content => some content
  | _ => none

/-- Whether a node is an element. -/
def isElement (n : Node) : Bool := n.element?.isSome

/-- Whether a node is a text. -/
def isText (n : Node) : Bool := n.text?.isSome

/-- Whether a node is an element that carries `id`. -/
def hasId (id : String) : Node → Bool
  | element info _ => info.id == some id
  | _ => false

/-- Whether a node is an element with the tag `tag`. -/
def hasTag (tag : String) : Node → Bool
  | element info _ => info.tag == tag
  | _ => false

/-! ## Equality -/

mutual

/-- Equality of nodes can be decided. -/
def decideEq : (a b : Node) → Decidable (a = b)
  | root xs, root ys =>
    match decideEqList xs ys with
    | isTrue h => isTrue (by rw [h])
    | isFalse h => isFalse (by simpa using h)
  | element i xs, element j ys =>
    if hi : i = j then
      match decideEqList xs ys with
      | isTrue h => isTrue (by rw [hi, h])
      | isFalse h => isFalse (by simp [h])
    else isFalse (by simp [hi])
  | text s, text t => if h : s = t then isTrue (by rw [h]) else isFalse (by simpa using h)
  | attr s, attr t =>
    if h : s = t then isTrue (by rw [h]) else isFalse (by simpa using h)
  | root _, element .. | root _, text _ | root _, attr _
  | element .., root _ | element .., text _ | element .., attr _
  | text _, root _ | text _, element .. | text _, attr _
  | attr _, root _ | attr _, element .. | attr _, text _ =>
    isFalse (by simp)

/-- Equality of lists of nodes can be decided. -/
def decideEqList : (xs ys : List Node) → Decidable (xs = ys)
  | [], [] => isTrue rfl
  | [], _ :: _ | _ :: _, [] => isFalse (by simp)
  | a :: xs, b :: ys =>
    match decideEq a b with
    | isFalse h => isFalse (by simp [h])
    | isTrue h =>
      match decideEqList xs ys with
      | isTrue hs => isTrue (by rw [h, hs])
      | isFalse hs => isFalse (by simp [hs])

end

instance : DecidableEq Node := decideEq

end Node
end PageDesign
