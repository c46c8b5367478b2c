/-! # What a floating-point number stands for

A finite binary64 number is a natural number times a power of two, with a sign.
Reading a decimal number rounds it to the nearest such value, so a value stands
for an interval of reals: those that are nearer to it than to its neighbours,
together with the two ends when its significand is even.

The interval is asymmetric at a power of two, where the neighbour below is only
half as far away as the neighbour above.
-/
namespace PageDesign.Decimal

/-- A non-negative rational number, as a quotient that need not be reduced. -/
structure Ratio where
  num : Nat
  den : Nat
  deriving Repr

namespace Ratio

/-- The number `count · base ^ exponent`. -/
def scaled (count base : Nat) (exponent : Int) : Ratio :=
  match exponent with
  | .ofNat e => ⟨count * base.pow e, 1⟩
  | .negSucc e => ⟨count, base.pow (e + 1)⟩

/-- Whether one number is at most another. -/
def le (a b : Ratio) : Bool := a.num * b.den ≤ b.num * a.den

/-- Whether one number is less than another. -/
def lt (a b : Ratio) : Bool := a.num * b.den < b.num * a.den

/-- The quotient of two numbers. -/
def div (a b : Ratio) : Ratio := ⟨a.num * b.den, a.den * b.num⟩

/-- The distance of two numbers. -/
def distance (a b : Ratio) : Ratio :=
  let x := a.num * b.den
  let y := b.num * a.den
  ⟨(x - y) + (y - x), a.den * b.den⟩

/-- The largest natural number that is not above a number. -/
def floor (a : Ratio) : Nat := a.num / a.den

end Ratio

/-- The size of a finite binary64 number: `significand · 2 ^ exponent`. -/
structure Binary64 where
  significand : Nat
  exponent : Int
  /-- Whether the neighbour below is half as far away as the neighbour above. -/
  atPower : Bool
  deriving Repr

namespace Binary64

/-- Whether the sign bit of a number is set. -/
def isNegative (x : Float) : Bool := x.toBits ≥ 0x8000000000000000

/-- The leading bit of a significand: it stands above the 52 bits that are stored. -/
def leadingBit : Nat := 0x10000000000000

/-- The size of a number, from its bits. -/
def ofFloat (x : Float) : Binary64 :=
  let bits := x.toBits.toNat
  let fraction : Nat := bits % leadingBit
  let scale : Nat := bits / leadingBit % 0x800
  if scale = 0 then
    { significand := fraction, exponent := -1074, atPower := false }
  else
    { significand := fraction + leadingBit, exponent := (scale : Int) - 1075
      atPower := fraction = 0 && scale > 1 }

/-- The number itself. -/
def value (b : Binary64) : Ratio := .scaled b.significand 2 b.exponent

/-- The lower end of the interval of reals that are rounded to the number. -/
def lower (b : Binary64) : Ratio :=
  .scaled (4 * b.significand - if b.atPower then 1 else 2) 2 (b.exponent - 2)

/-- The upper end of the interval of reals that are rounded to the number. -/
def upper (b : Binary64) : Ratio := .scaled (4 * b.significand + 2) 2 (b.exponent - 2)

/-- Whether a number is rounded to this one. -/
def rounds (b : Binary64) (r : Ratio) : Bool :=
  if b.significand % 2 = 0 then b.lower.le r && r.le b.upper
  else b.lower.lt r && r.lt b.upper

end Binary64
end PageDesign.Decimal
