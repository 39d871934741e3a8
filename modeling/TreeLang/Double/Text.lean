import TreeLang.Double.Shortest

namespace TreeLang

/-- Where positional notation begins and ends: from `10 ^ low` on, below `10 ^ high`. -/
structure Style where
  low : Int
  high : Int

/-- Listings and source text: `0.0001` and `1e-5`, `1000000000000000.0` and `1e16`. -/
def Style.literal : Style := ⟨-4, 16⟩

/-- Documents: `0.00001` and `1e-6`. -/
def Style.document : Style := ⟨-5, 16⟩

namespace Decimal

/-- A decimal whose last digit is not zero, with at least one digit on each side of the point, or
with an exponent that has neither plus nor padding. -/
def text (n : Style) (d : Decimal) : List Char :=
  let ds := Nat.toDigits 10 d.digits
  let point : Int := d.exponent + ds.length
  if d.digits = 0 then ['0', '.', '0']
  else if n.low < point ∧ point ≤ n.high then
    if point ≤ 0 then ['0', '.'] ++ List.replicate (-point).toNat '0' ++ ds
    else if ds.length ≤ point.toNat then
      ds ++ List.replicate (point.toNat - ds.length) '0' ++ ['.', '0']
    else ds.take point.toNat ++ '.' :: ds.drop point.toNat
  else
    let head := if ds.length = 1 then ds else ds.take 1 ++ '.' :: ds.drop 1
    head ++ 'e' :: (toString (point - 1)).toList

end Decimal

namespace Double

def chars (n : Style) (x : Double) : List Char :=
  let sign := if x.negative then ['-'] else []
  if x.isNaN then "NaN".toList
  else if x.isFinite then sign ++ x.shortest.text n
  else sign ++ "inf".toList

def literal (x : Double) : String :=
  String.ofList (x.chars .literal)

end Double

end TreeLang
