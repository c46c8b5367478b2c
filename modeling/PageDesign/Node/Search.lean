import PageDesign.Node.Basic

/-! # Searching a page

A search goes through a tree in *pre-order*: a node comes before its children,
and these come from left to right.  `preorder` lists all nodes in that order; an
element's own list of attributes holds no nodes.  `find?` stops at the first node
with a property, and `findAll` gives all of them.
-/
namespace PageDesign
namespace Node

mutual

/-- A node and all nodes below it, in pre-order. -/
def preorder : Node → List Node
  | root children => root children :: preorderAll children
  | element info children => element info children :: preorderAll children
  | text content => [text content]
  | attr item => [attr item]

/-- The nodes of a list and all nodes below them, in pre-order. -/
def preorderAll : List Node → List Node
  | [] => []
  | n :: rest => preorder n ++ preorderAll rest

end

mutual

/-- The first node with the property `p`. -/
def find? (p : Node → Bool) (n : Node) : Option Node :=
  if p n then some n
  else
    match n with
    | root children => findIn? p children
    | element _ children => findIn? p children
    | text _ => none
    | attr _ => none

/-- The first node with the property `p` in or below a list of nodes. -/
def findIn? (p : Node → Bool) : List Node → Option Node
  | [] => none
  | n :: rest =>
    match find? p n with
    | some found => some found
    | none => findIn? p rest

end

mutual

/-- All nodes with the property `p`. -/
def findAll (p : Node → Bool) (n : Node) : List Node :=
  let below :=
    match n with
    | root children => findAllIn p children
    | element _ children => findAllIn p children
    | text _ => []
    | attr _ => []
  if p n then n :: below else below

/-- All nodes with the property `p` in or below a list of nodes. -/
def findAllIn (p : Node → Bool) : List Node → List Node
  | [] => []
  | n :: rest => findAll p n ++ findAllIn p rest

end

/-- The first element that carries `id`. -/
def findById? (id : String) (n : Node) : Option Node := n.find? (hasId id)

mutual

/-- The number of nodes of a tree. -/
def count : Node → Nat
  | root children => countAll children + 1
  | element _ children => countAll children + 1
  | text _ => 1
  | attr _ => 1

/-- The number of nodes in and below a list of nodes. -/
def countAll : List Node → Nat
  | [] => 0
  | n :: rest => count n + countAll rest

end

mutual

/-- The number of levels of a tree; a node without children has one. -/
def depth : Node → Nat
  | root children => depthAll children + 1
  | element _ children => depthAll children + 1
  | text _ => 1
  | attr _ => 1

/-- The number of levels of the deepest tree in a list. -/
def depthAll : List Node → Nat
  | [] => 0
  | n :: rest => max (depth n) (depthAll rest)

end

/-- The number of elements of a tree. -/
def elementCount (n : Node) : Nat := (n.findAll isElement).length

end Node
end PageDesign
