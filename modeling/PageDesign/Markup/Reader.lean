import PageDesign.Markup.Error

/-! # Reading a page from markup

A markup text is read in two steps: it is taken apart into pieces, and if the
names in all pairs of tags agree, the pieces become the children of a root.
-/
namespace PageDesign

/-- The page that a markup text describes. -/
def Node.ofMarkup (source : String) : Except Markup.Error Node :=
  match Markup.document? source.toList with
  | none => .error (.unreadable (.ofTrail source.toList (Markup.Scout.retrace source.toList)))
  | some pieces =>
    match Markup.Piece.mismatch? pieces with
    | some tags => .error (.mismatch tags)
    | none => .ok (.root (Markup.Piece.nodesOf pieces))

end PageDesign
