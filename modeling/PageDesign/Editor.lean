import PageDesign.Component.Stored
import PageDesign.Markup.Printer
import PageDesign.Markup.Reader
import PageDesign.Node.Edit
import PageDesign.Palette.Stock

/-! # The page editor

An editor holds a page and a clipboard.  Each of its commands gives the editor
afterwards, or says why the command is refused; a refused command leaves the
editor as it was.  What is removed from the page goes to the clipboard.
-/
namespace PageDesign

/-- A page under work. -/
structure Editor where
  page : Node := .root []
  clipboard : Option Node := none

namespace Editor

/-- Why a command is refused. -/
inductive Refusal where
  | insert (error : InsertError)
  /-- There is nothing on the clipboard. -/
  | emptyClipboard
  /-- The palette offers no such component. -/
  | unknownComponent
  /-- No node of the page is meant. -/
  | notFound
  /-- The node that is meant is no text. -/
  | notText
  /-- The node that is meant is no element. -/
  | notElement
  /-- The node that is meant has no child list. -/
  | noChildren
  deriving Repr, DecidableEq

variable (e : Editor)

/-- Puts a node among the children of an element. -/
def insert (parent : String) (index : Nat) (n : Node) : Except Refusal Editor :=
  match e.page.insert parent index n with
  | .ok page => .ok { e with page }
  | .error error => .error (.insert error)

/-- Puts a component of the stock palette among the children of an element. -/
def insertComponent (parent : String) (index : Nat) (name id : String) :
    Except Refusal Editor :=
  match Palette.stock.find? name with
  | none => .error .unknownComponent
  | some offer => e.insert parent index (offer.instantiate id).toNode

/-- Puts a copy of the clipboard among the children of an element. -/
def paste (parent : String) (index : Nat) : Except Refusal Editor :=
  match e.clipboard with
  | none => .error .emptyClipboard
  | some n => e.insert parent index n

/-- Takes the first element that carries `id` off the page, to the clipboard. -/
def remove? (id : String) : Option (Node × Editor) :=
  (e.page.remove? id).map fun (removed, page) => (removed, { page, clipboard := some removed })

/-- Sets an attribute of the first element that carries `id`. -/
def setAttribute (id name : String) (value : Value) : Except Refusal Editor :=
  match e.page.setAttribute? id name value with
  | none => .error .notFound
  | some page => .ok { e with page }

/-- The value of an attribute of the first element that carries `id`. -/
def attribute? (id name : String) : Except Refusal (Option Value) :=
  match (e.page.findById? id).bind Node.element? with
  | none => .error .notFound
  | some info => .ok (info.value? name)

/-- Changes the first node with the property `p`, unless `fit` finds it unfit. -/
def change (p : Node → Bool) (fit : Node → Option Refusal) (f : Node → Node) :
    Except Refusal Editor :=
  match e.page.find? p, e.page.modify? p f with
  | some n, some page =>
    match fit n with
    | some refusal => .error refusal
    | none => .ok { e with page }
  | _, _ => .error .notFound

/-- Gives the first node with the property `p`, which must be a text, a new
content. -/
def setText (p : Node → Bool) (content : String) : Except Refusal Editor :=
  e.change p (fun n => if n.isText then none else some .notText) fun _ => .text content

/-- Gives the first node with the property `p`, which must be an element, a new
tag. -/
def rename (p : Node → Bool) (tag : String) : Except Refusal Editor :=
  e.change p (fun n => if n.isElement then none else some .notElement)
    (Node.mapElement fun info => { info with tag })

/-- Gives the first node with the property `p`, which must be an element, another
id or none. -/
def setId (p : Node → Bool) (id : Option String) : Except Refusal Editor :=
  e.change p (fun n => if n.isElement then none else some .notElement)
    (Node.mapElement fun info => { info with id })

/-- Appends a child to the first node with the property `p`. -/
def pushChild (p : Node → Bool) (child : Node) : Except Refusal Editor :=
  e.change p (fun n => if n.children?.isSome then none else some .noChildren)
    (Node.mapChildren (· ++ [child]))

/-- Replaces the page by what its markup reads back as. -/
def reparse (style : Style) : Except Markup.Error Editor :=
  match Node.ofMarkup (e.page.markup style) with
  | .ok page => .ok { e with page }
  | .error error => .error error

end Editor
end PageDesign
