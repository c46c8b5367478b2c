import PageDesign.Decimal.Shortest

/-! # JSON values

A JSON value as pages and configurations are stored in.  Integers of sixty-four
bits, signed or unsigned, are kept apart from other numbers, which are floating
point.  An object keeps its members in the order of the text, repeated keys
included; what a repeated key means is for the reader of a record to say.
-/
namespace PageDesign

/-- A number of a JSON text. -/
inductive Number where
  | int (value : Int)
  | float (value : Float)
  deriving DecidableEq

/-- A JSON value. -/
inductive Json where
  | null
  | bool (value : Bool)
  | number (value : Number)
  | str (value : String)
  | arr (items : List Json)
  | obj (members : List (String × Json))

namespace Number

/-- How a floating-point number is written: the shortest digits that read back,
positional from `0.00001` up to sixteen digits before the point, otherwise with a
power of ten. -/
def floatText (x : Float) : String :=
  let sign := if Decimal.Binary64.isNegative x then "-" else ""
  if x == 0 then sign ++ "0.0"
  else
    let d := Decimal.shortest (.ofFloat x)
    sign ++ if -5 ≤ d.power && d.power < 16 then d.positional else d.scientific

/-- How a number is written. -/
def text : Number → String
  | int n => toString n
  | float x => floatText x

/-- A number in floating point. -/
def toFloat : Number → Float
  | int n => if n < 0 then -(UInt64.ofNat n.natAbs).toFloat else (UInt64.ofNat n.natAbs).toFloat
  | float x => x

end Number
end PageDesign
