import PageDesign.Node.Basic
import PageDesign.Text.Blank

/-! # Pieces of markup

Reading a markup text first takes it apart into pieces: runs of plain text,
single tags, and pairs of tags with pieces between them.  A pair keeps the name
in its closing tag, whatever it is; whether the names agree is a question about
pieces that have been read, and the first disagreement is the one whose closing
tag comes first (`mismatch?`).

Pieces become nodes by dropping what only lays the text out: a run loses the
blank characters at its ends, and vanishes if nothing else is left.
-/
namespace PageDesign.Markup

/-- One piece of a markup text. -/
inductive Piece where
  | run (text : String)
  | single (tag : String) (attributes : List Attribute)
  | pair (tag : String) (attributes : List Attribute) (inner : List Piece) (closing : String)

/-- An opening tag and a closing tag that were read as a pair. -/
structure Tags where
  opening : String
  closing : String
  deriving Repr, DecidableEq

/-- The text of a run, if it is not blank. -/
def textNodes (text : String) : List Node :=
  match Text.trim text.toList with
  | [] => []
  | content => [.text (String.ofList content)]

namespace Piece

mutual

/-- The node that a piece stands for; none for a blank run. -/
def nodes : Piece → List Node
  | run text => textNodes text
  | single tag attributes => [.element { tag, attributes, selfClosing := true } []]
  | pair tag attributes inner _ => [.element { tag, attributes } (nodesOf inner)]

/-- The nodes that a list of pieces stands for. -/
def nodesOf : List Piece → List Node
  | [] => []
  | p :: rest => nodes p ++ nodesOf rest

end

mutual

/-- The pairs of tags in a piece, in the order of their closing tags. -/
def pairs : Piece → List Tags
  | run _ => []
  | single _ _ => []
  | pair opening _ inner closing => pairsOf inner ++ [⟨opening, closing⟩]

/-- The pairs of tags in a list of pieces, in the order of their closing tags. -/
def pairsOf : List Piece → List Tags
  | [] => []
  | p :: rest => pairs p ++ pairsOf rest

end

/-- The first pair of tags whose names differ. -/
def mismatch? (pieces : List Piece) : Option Tags :=
  (pairsOf pieces).find? fun tags => tags.closing ≠ tags.opening

end Piece
end PageDesign.Markup
