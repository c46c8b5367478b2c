import PageDesign.Node.Search

/-! # Editing a page

An edit changes a tree at one place, which it finds as a search would: at the
first node in pre-order.  Everything else stays as it is, and an edit that cannot
be made changes nothing.

The node that an edit is asked of can be found and changed, but not removed: a
removal only looks below it.
-/
namespace PageDesign

/-- Why a node cannot be inserted. -/
inductive InsertError where
  /-- No element carries the id of the parent. -/
  | parentNotFound (id : String)
  /-- The parent has only `length` children. -/
  | indexOutOfBounds (index length : Nat)
  deriving Repr, DecidableEq

/-- The error as it is reported. -/
def InsertError.message : InsertError → String
  | parentNotFound id => "no element with id `" ++ id ++ "`"
  | indexOutOfBounds index length =>
    "insert index " ++ toString index ++ " is out of bounds for " ++ toString length ++ " children"

namespace Node

mutual

/-- The tree with its first node with the property `p` changed by `f`; `none` if
there is no such node. -/
def modify? (p : Node → Bool) (f : Node → Node) (n : Node) : Option Node :=
  if p n then some (f n)
  else
    match n with
    | root children => (modifyIn? p f children).map root
    | element info children => (modifyIn? p f children).map (element info)
    | text _ => none
    | attr _ => none

/-- The list with the first node with the property `p` in or below it changed. -/
def modifyIn? (p : Node → Bool) (f : Node → Node) : List Node → Option (List Node)
  | [] => none
  | n :: rest =>
    match modify? p f n with
    | some changed => some (changed :: rest)
    | none => (modifyIn? p f rest).map (n :: ·)

end

/-- The node with other children, if it has a child list. -/
def mapChildren (f : List Node → List Node) : Node → Node
  | root children => root (f children)
  | element info children => element info (f children)
  | text content => text content
  | attr item => attr item

/-- The node with other things to say about itself, if it is an element. -/
def mapElement (f : Element → Element) : Node → Node
  | element info children => element (f info) children
  | n => n

/-- The tree with `child` at place `index` among the children of the first
element that carries `parent`. -/
def insert (n : Node) (parent : String) (index : Nat) (child : Node) :
    Except InsertError Node :=
  match n.findById? parent with
  | none => .error (.parentNotFound parent)
  | some found =>
    let length := found.children.length
    if length < index then .error (.indexOutOfBounds index length)
    else
      let placed := n.modify? (hasId parent) (mapChildren (·.insertIdx index child))
      .ok (placed.getD n)

mutual

/-- The first node below `n` that carries `id`, and the tree without it. -/
def remove? (id : String) : Node → Option (Node × Node)
  | root children => (removeIn? id children).map fun (removed, left) => (removed, root left)
  | element info children =>
    (removeIn? id children).map fun (removed, left) => (removed, element info left)
  | text _ => none
  | attr _ => none

/-- The first node in or below a list that carries `id`, and the list without it. -/
def removeIn? (id : String) : List Node → Option (Node × List Node)
  | [] => none
  | n :: rest =>
    if n.hasId id then some (n, rest)
    else
      match remove? id n with
      | some (removed, left) => some (removed, left :: rest)
      | none => (removeIn? id rest).map fun (removed, left) => (removed, n :: left)

end

/-- The tree with the attribute `name` of the first element that carries `id` set
to `value`. -/
def setAttribute? (n : Node) (id name : String) (value : Value) : Option Node :=
  n.modify? (hasId id) (mapElement (·.set name value))

end Node
end PageDesign
