import TreeLang.Double.Decimal

namespace TreeLang

structure Decimal where
  digits : Nat
  exponent : Int
  deriving DecidableEq

namespace Decimal

def strip : Nat → Decimal → Decimal
  | 0, d => d
  | n + 1, d =>
    if d.digits % 10 = 0 ∧ d.digits ≠ 0 then strip n ⟨d.digits / 10, d.exponent + 1⟩ else d

end Decimal

namespace Double

/-- The quarter steps around a finite positive number `m · 2 ^ q`: in units of `2 ^ (q - 2)` the
number is `4 m`, the upper end of what reads back as it is `4 m + 2`, and the lower end is as far
below, or half as far where the step below is half as wide. -/
def lowerEnd (x : Double) : Nat :=
  if x.fraction = 0 ∧ 1 < x.exponentField then 4 * x.significand - 1 else 4 * x.significand - 2

@[inherit_doc lowerEnd]
def upperEnd (x : Double) : Nat :=
  4 * x.significand + 2

/-- A quarter step in units of `10 ^ k`. -/
def quarter (x : Double) (k : Int) : Ratio :=
  (Ratio.scale ⟨1, 1⟩ 2 (x.exponent - 2)).scale 10 (-k)

/-- Whether `d · 10 ^ k` reads back as the number. An end of the interval does when the significand
is even. -/
def within (x : Double) (k : Int) (d : Nat) : Bool :=
  let low := x.lowerEnd * (x.quarter k).num
  let high := x.upperEnd * (x.quarter k).num
  if x.significand % 2 = 0 then low ≤ d * (x.quarter k).den && d * (x.quarter k).den ≤ high
  else low < d * (x.quarter k).den && d * (x.quarter k).den < high

/-- The two multiples of `10 ^ k` next to the number, if they read back as it; the nearer one if both
do. -/
def nearest? (x : Double) (k : Int) : Option Nat :=
  let unit := x.quarter k
  let below := 4 * x.significand * unit.num / unit.den
  let twice := 8 * x.significand * unit.num
  match x.within k below, x.within k (below + 1) with
  | true, true => if twice < (2 * below + 1) * unit.den then some below else some (below + 1)
  | true, false => some below
  | false, true => some (below + 1)
  | false, false => none

/-- The shortest decimal of the magnitude of a finite number: of the decimals that read back as it, one
with the fewest digits, and of those the nearest. Seventeen digits always suffice. -/
def shortest (x : Double) : Decimal :=
  if x.isZero then ⟨0, 0⟩
  else
    let top := x.ratio.decade
    let found := (List.range 17).findSome? fun (n : Nat) =>
      (x.nearest? (top - n)).map fun d => Decimal.strip 17 ⟨d, top - n⟩
    found.getD ⟨0, 0⟩

end Double

end TreeLang
