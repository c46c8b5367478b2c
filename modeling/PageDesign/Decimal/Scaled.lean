/-! # Reading decimal numbers by scaling

A decimal number with a point or a power of ten is read into a floating-point
number in two steps.  Its digits are gathered into a significand of sixty-four
bits, as long as they fit; then the significand is scaled by a power of ten in
floating-point arithmetic.  Both steps may round, so the result can differ from
the nearest floating-point number in its last bit.
-/
namespace PageDesign.Decimal

/-- The number `significand · 10 ^ exponent`, as far as its digits were kept. -/
structure Scaled where
  significand : Nat
  exponent : Int
  deriving Repr, DecidableEq

namespace Scaled

/-- The value of a digit. -/
def digitValue (c : Char) : Nat := c.toNat - '0'.toNat

/-- The significand with one more digit, if it still has sixty-four bits. -/
def push? (significand : Nat) (digit : Char) : Option Nat :=
  let next := significand * 10 + digitValue digit
  if next < UInt64.size then some next else none

/-- Gathers the digits before the point.  From the first one that does not fit
on, a digit only raises the power of ten. -/
def whole (significand : Nat) : List Char → Scaled
  | [] => ⟨significand, 0⟩
  | c :: rest =>
    match push? significand c with
    | some next => whole next rest
    | none => ⟨significand, rest.length + 1⟩

/-- Gathers the digits behind the point.  From the first one that does not fit
on, the digits are dropped. -/
def fraction (s : Scaled) : List Char → Scaled
  | [] => s
  | c :: rest =>
    match push? s.significand c with
    | some next => fraction ⟨next, s.exponent - 1⟩ rest
    | none => s

/-- The number with its power of ten raised by `amount`, which stops at the
bounds of thirty-two bits. -/
def raise (s : Scaled) (amount : Int) : Scaled :=
  { s with exponent := max (-0x80000000) (min 0x7fffffff (s.exponent + amount)) }

/-- The floating-point number nearest to a power of ten. -/
def tenTo (exponent : Nat) : Float := Float.ofScientific 1 false exponent

/-- Scales a floating-point number by a power of ten; `none` if the result is too
large.  A power below all floating-point numbers is applied in several steps. -/
def scale? (x : Float) (exponent : Int) : Option Float :=
  if exponent < -308 then
    if x == 0 then some x else scale? (x / tenTo 308) (exponent + 308)
  else if exponent < 0 then
    some (x / tenTo exponent.natAbs)
  else if exponent ≤ 308 then
    let y := x * tenTo exponent.natAbs
    if y.isInf then none else some y
  else
    if x == 0 then some x else none
termination_by exponent.natAbs
decreasing_by omega

/-- The floating-point number that a scaled number is read as; `none` if it is
too large. -/
def toFloat? (s : Scaled) : Option Float :=
  scale? (UInt64.ofNat s.significand).toFloat s.exponent

end Scaled
end PageDesign.Decimal
