import TreeLang.Text.Blank
import TreeLang.Double.Decimal

namespace TreeLang.Scan

/-- Whether a leading sign is a minus, and the text behind the sign. -/
def sign : List Char → Bool × List Char
  | '-' :: cs => (true, cs)
  | '+' :: cs => (false, cs)
  | cs => (false, cs)

def digits (cs : List Char) : List Char × List Char :=
  (cs.takeWhile Char.isDigit, cs.dropWhile Char.isDigit)

theorem digits_append (cs : List Char) : (digits cs).1 ++ (digits cs).2 = cs := by
  simp [digits]

def natural (ds : List Char) : Nat :=
  Nat.ofDigitChars 10 ds 0

/-- The leading integer of the line, 0 where there is none or where it does not fit. -/
def int32 (line : List Char) : Int32 :=
  let (negative, cs) := sign (Text.trim line)
  let ds := (digits cs).1
  let value : Int := if negative then -(natural ds : Int) else natural ds
  if ds ≠ [] ∧ Int32.minValue.toInt ≤ value ∧ value ≤ Int32.maxValue.toInt then Int32.ofInt value
  else 0

/-- The exponent part of a decimal, which has to reach the end of the text. -/
def exponent? : List Char → Option Int
  | [] => some 0
  | e :: cs =>
    let (negative, cs) := sign cs
    let (ds, rest) := digits cs
    if (e = 'e' ∨ e = 'E') ∧ ds ≠ [] ∧ rest = [] then
      some (if negative then -(natural ds : Int) else natural ds)
    else none

/-- A decimal without its sign: digits with an optional point among them or beside them, then an
optional exponent. -/
def decimal? (negative : Bool) (cs : List Char) : Option Double :=
  let (whole, rest) := digits cs
  let (places, rest) := match rest with
    | '.' :: rest => digits rest
    | rest => ([], rest)
  if whole = [] ∧ places = [] then none
  else
    (exponent? rest).map fun e =>
      Double.ofDecimal negative (natural (whole ++ places)) (e - places.length)

/-- The text as a decimal, or as one of the words for an infinity and for what is no number. -/
def double? (cs : List Char) : Option Double :=
  let (negative, cs) := sign cs
  let signed (x : Double) : Double := if negative then x.neg else x
  let word := String.ofList (cs.map Char.toLower)
  if word = "inf" ∨ word = "infinity" then some (signed .infinity)
  else if word = "nan" then some (signed .nan)
  else decimal? negative cs

/-- The number on the line, zero where there is none. -/
def double (line : List Char) : Double :=
  (double? (Text.trim line)).getD .zero

end TreeLang.Scan
