import PageDesign.Node.Basic

/-! # Pages that are alike

A zero on the canvas has a sign, which its stored form keeps.  Two pages are *alike*
if they differ in no more than signs of zeros (`Node.alike`).
-/
namespace PageDesign

/-- A number whose sign is dropped if it is zero. -/
def plainZero (x : Float) : Float := if x == 0 then 0 else x

namespace Dimension

/-- A dimension without the sign of a zero. -/
def plainZeros : Dimension → Dimension
  | pixels count => pixels (plainZero count)
  | css text => css text

end Dimension

/-- What the canvas knows, without the signs of zeros. -/
def Canvas.plainZeros (c : Canvas) : Canvas :=
  { c with
    position := c.position.map fun p => ⟨plainZero p.x, plainZero p.y⟩
    size := c.size.map fun s =>
      ⟨s.width.map Dimension.plainZeros, s.height.map Dimension.plainZeros⟩
    flex := c.flex.map fun f => { f with gap := f.gap.map plainZero } }

/-- An element without the signs of zeros. -/
def Element.plainZeros (e : Element) : Element :=
  { e with canvas := e.canvas.map Canvas.plainZeros }

namespace Node

mutual

/-- A page without the signs of zeros. -/
def plainZeros : Node → Node
  | root children => root (plainZerosList children)
  | element info children => element info.plainZeros (plainZerosList children)
  | text content => text content
  | attr item => attr item

/-- Pages without the signs of zeros. -/
def plainZerosList : List Node → List Node
  | [] => []
  | n :: rest => plainZeros n :: plainZerosList rest

end

/-- Whether two pages differ in no more than signs of zeros. -/
def alike (a b : Node) : Bool := a.plainZeros = b.plainZeros

end Node
end PageDesign
