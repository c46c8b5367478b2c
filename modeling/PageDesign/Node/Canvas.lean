/-! # What the canvas knows about an element

An element placed on the canvas carries where it stands, how large it is, how it
lays out its children and which group of the palette it came from.  None of this
is ever printed as markup; it only travels in the stored form of a page.
-/
namespace PageDesign

/-- A length: a number of pixels, or a length as a style sheet writes it. -/
inductive Dimension where
  | pixels (count : Float)
  | css (text : String)
  deriving DecidableEq

/-- Where an element stands on the canvas. -/
structure Position where
  x : Float
  y : Float
  deriving DecidableEq

/-- How large an element is, as far as it is known. -/
structure Size where
  width : Option Dimension := none
  height : Option Dimension := none
  deriving DecidableEq

/-- How an element lays out its children. -/
inductive Layout where
  | flex | block | grid
  deriving Repr, DecidableEq

/-- The groups of the component palette. -/
inductive Group where
  | basic | high | business
  deriving Repr, DecidableEq

/-- The settings of a flexible box. -/
structure FlexBox where
  direction : Option String := none
  justify : Option String := none
  align : Option String := none
  wrap : Option String := none
  gap : Option Float := none
  deriving DecidableEq

/-- All that the canvas knows about an element. -/
structure Canvas where
  position : Option Position := none
  size : Option Size := none
  layout : Option Layout := none
  isContainer : Option Bool := none
  group : Option Group := none
  flex : Option FlexBox := none
  deriving DecidableEq

end PageDesign
