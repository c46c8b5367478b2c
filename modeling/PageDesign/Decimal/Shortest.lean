import PageDesign.Decimal.Binary64

/-! # The shortest decimal that reads back

`Decimal.shortest` gives the decimal number with the fewest digits that is
rounded to a given binary64 number, and of several the one nearest to it.

The decimals of `n` digits next to a number are its two neighbours on the grid
of that many digits.  If any decimal of the grid is rounded to the number, one of
these two is, so trying the grids from the coarsest on finds the fewest digits.
Seventeen digits always suffice.
-/
namespace PageDesign

/-- The decimal number `coefficient · 10 ^ exponent`. -/
structure Decimal where
  coefficient : Nat
  exponent : Int
  deriving Repr, DecidableEq

namespace Decimal

/-- The number that a decimal stands for. -/
def value (d : Decimal) : Ratio := .scaled d.coefficient 10 d.exponent

/-- The power of ten of the first digit of a positive number. -/
def leadingPower (r : Ratio) : Int :=
  let guess : Int := (Nat.toDigits 10 r.num).length - (Nat.toDigits 10 r.den).length
  if (Ratio.scaled 1 10 guess).le r then guess else guess - 1

/-- Of the two neighbours of `b` on the grid with step `10 ^ exponent`, those
that are rounded to `b`; the nearer one if both are, and of two equally near ones
the one that ends in an even digit. -/
def onGrid? (b : Binary64) (exponent : Int) : Option Decimal :=
  let below := (b.value.div (.scaled 1 10 exponent)).floor
  let low : Decimal := ⟨below, exponent⟩
  let high : Decimal := ⟨below + 1, exponent⟩
  match b.rounds low.value, b.rounds high.value with
  | false, false => none
  | true, false => some low
  | false, true => some high
  | true, true =>
    let down := b.value.distance low.value
    let up := b.value.distance high.value
    if down.lt up then some low
    else if up.lt down then some high
    else if below % 2 = 0 then some low else some high

/-- The shortest decimal that is rounded to the positive number `b`. -/
def shortest (b : Binary64) : Decimal :=
  let power := leadingPower b.value
  let found := (List.range 17).findSome? fun n : Nat => onGrid? b (power - (n : Int))
  found.getD ⟨b.value.floor, 0⟩

/-- The digits of a decimal, the zeros at its end left out. -/
def digits (d : Decimal) : List Char :=
  ((Nat.toDigits 10 d.coefficient).reverse.dropWhile (· == '0')).reverse

/-- The power of ten of the first digit of a decimal. -/
def power (d : Decimal) : Int := (Nat.toDigits 10 d.coefficient).length - 1 + d.exponent

/-- A decimal with a point and at least one digit on either side of it. -/
def positional (d : Decimal) : String :=
  let digits := d.digits
  match d.power with
  | .ofNat p =>
    let whole := digits.take (p + 1)
    let fraction := digits.drop (p + 1)
    String.ofList (whole ++ List.replicate (p + 1 - whole.length) '0') ++ "." ++
      (if fraction.isEmpty then "0" else String.ofList fraction)
  | .negSucc p => "0." ++ String.ofList (List.replicate p '0' ++ digits)

/-- A decimal as a digit, the further digits behind a point, and a signed power
of ten. -/
def scientific (d : Decimal) : String :=
  let digits := d.digits
  let fraction := digits.drop 1
  String.ofList (digits.take 1) ++
    (if fraction.isEmpty then "" else "." ++ String.ofList fraction) ++
    (if d.power < 0 then "e-" else "e+") ++ toString d.power.natAbs

end Decimal
end PageDesign
