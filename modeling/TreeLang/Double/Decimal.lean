import TreeLang.Double.Basic

namespace TreeLang

/-- `a / b` to the nearest whole number, a half to the even one. -/
def roundDiv (a b : Nat) : Nat :=
  let q := a / b
  let r := 2 * (a % b)
  if b < r ∨ (b = r ∧ q % 2 = 1) then q + 1 else q

/-- The digits of `n` in base ten, at least `width` of them. -/
def paddedDigits (width n : Nat) : List Char :=
  let ds := Nat.toDigits 10 n
  List.replicate (width - ds.length) '0' ++ ds

/-- A quotient of whole numbers, such as a finite magnitude; the denominator is positive wherever one is
built. Rounding it to a number of decimals or of significant digits, and rounding a decimal to the
nearest binary64, are one division each, in which a half goes to the even neighbour. -/
structure Ratio where
  num : Nat
  den : Nat

namespace Ratio

/-- `n · b ^ e` for an exponent of either sign. -/
def scale (r : Ratio) (b : Nat) (e : Int) : Ratio :=
  if 0 ≤ e then ⟨r.num * Nat.pow b e.toNat, r.den⟩
  else ⟨r.num, r.den * Nat.pow b (-e).toNat⟩

def round (r : Ratio) : Nat :=
  roundDiv r.num r.den

/-- The exponent of the largest power of ten that is at most `r`, for a positive `r`: the difference
of the two lengths, or one less. -/
def decade (r : Ratio) : Int :=
  let guess : Int := (Nat.toDigits 10 r.num).length - (Nat.toDigits 10 r.den).length
  let t := r.scale 10 (-guess)
  if t.den ≤ t.num then guess else guess - 1

/-- The exponent of the largest power of two that is at most `r`, for a positive `r`: the difference
of the two lengths, or one less. -/
def binade (r : Ratio) : Int :=
  let guess : Int := r.num.log2 - r.den.log2
  let t := r.scale 2 (-guess)
  if t.den ≤ t.num then guess else guess - 1

def fixed (r : Ratio) (places : Nat) : List Char :=
  let n := (r.scale 10 places).round
  let whole := Nat.toDigits 10 (n / Nat.pow 10 places)
  if places = 0 then whole else whole ++ '.' :: paddedDigits places (n % Nat.pow 10 places)

/-- `r` with one digit before the point and `places` behind it, and the power of ten it is to be
multiplied by. Rounding up to the next power of ten moves the point. -/
def scientific (r : Ratio) (places : Nat) : Nat × Int :=
  if r.num = 0 then (0, 0)
  else
    let x := r.decade
    let n := (r.scale 10 (places - x)).round
    if n = Nat.pow 10 (places + 1) then (Nat.pow 10 places, x + 1) else (n, x)

end Ratio

/-- The significand `n` of `places + 1` digits with its point. -/
def mantissa (n places : Nat) : List Char :=
  match paddedDigits (places + 1) n with
  | [] => []
  | d :: ds => if places = 0 then [d] else d :: '.' :: ds

namespace Double

def ratio (x : Double) : Ratio :=
  Ratio.scale ⟨x.significand, 1⟩ 2 x.exponent

/-- The nearest binary64 to `r`, from half a step past the largest finite one on an infinity. The
pattern of `m · 2 ^ q` is `(q + 1074) · 2 ^ 52 + m`, also where `m` is rounded up to `2 ^ 53`. -/
def ofRatio (negative : Bool) (r : Ratio) : Double :=
  let magnitude : Nat :=
    if r.num = 0 then 0
    else
      let q := max (r.binade - 52) (-1074)
      let m := (r.scale 2 (-q)).round
      min ((q + 1074).toNat * fractionCount + m) 0x7ff0000000000000
  ⟨UInt64.ofNat (if negative then signBit.toNat + magnitude else magnitude)⟩

/-- The nearest binary64 to `n · 10 ^ e`. Beyond the decades that binary64 covers the answer is known
without the power. -/
def ofDecimal (negative : Bool) (n : Nat) (e : Int) : Double :=
  let reach : Int := e + (Nat.toDigits 10 n).length
  if n = 0 ∨ reach < -330 then ofRatio negative ⟨0, 1⟩
  else if 310 < reach then if negative then infinity.neg else infinity
  else ofRatio negative (Ratio.scale ⟨n, 1⟩ 10 e)

end Double

end TreeLang
