/-! # Where reading got stuck

Reading a markup text tries one rule after another, and most of the attempts
that fail mean nothing.  What explains a failure is the *furthest* place at which
a rule was refused, and the rules that were refused there.  A `Trail` keeps just
that while the attempts go on; nothing that is read later takes it back.

A rule that fails because of one other rule tried at the same place adds
nothing: the other rule is the better explanation.  If several rules failed
inside it there, they give way to it; if none did, it stands for itself.
-/
namespace PageDesign.Markup

/-- The rules of the grammar that an explanation may name. -/
inductive Rule where
  | endOfInput | document | element | singleTag | openTag | closeTag
  | tagName | attr | attrName | quoted | text
  deriving Repr, DecidableEq

namespace Rule

/-- The rules in the order in which an explanation lists them. -/
def all : List Rule :=
  [endOfInput, document, element, singleTag, openTag, closeTag, tagName, attr,
   attrName, quoted, text]

/-- What a rule is called in an explanation. -/
def name : Rule → String
  | endOfInput => "EOI"
  | document => "document"
  | element => "element"
  | singleTag => "self_closing_tag"
  | openTag => "open_tag"
  | closeTag => "close_tag"
  | tagName => "tag_name"
  | attr => "attribute"
  | attrName => "attr_name"
  | quoted => "quoted"
  | text => "text"

end Rule

/-- The furthest place at which a rule was refused, as the number of characters
left there, and the rules refused at that place. -/
structure Trail where
  left : Nat
  refused : List Rule := []
  deriving Repr

namespace Trail

/-- How many rules have been refused so far at the place with `left` characters
left, if no refusal lies further. -/
def countAt (t : Trail) (left : Nat) : Nat := if t.left = left then t.refused.length else 0

/-- The trail after `rule` was refused at the place with `left` characters left.
When the rule was entered, `before` rules had been refused there. -/
def refuse (t : Trail) (rule : Rule) (left before : Nat) : Trail :=
  if t.countAt left = before + 1 then t
  else if t.left = left then { t with refused := t.refused.take before ++ [rule] }
  else if left < t.left then { left, refused := [rule] }
  else t

/-- The rules refused at the furthest place, in the order of explanations. -/
def rules (t : Trail) : List Rule := Rule.all.filter (· ∈ t.refused)

end Trail
end PageDesign.Markup
