import TreeLang.Format.Pieces
import TreeLang.Double.Decimal
import TreeLang.Text.Utf8

namespace TreeLang.Format

namespace Spec

def sign (s : Spec) (negative : Bool) : List Char :=
  if negative then ['-'] else if s.plus then ['+'] else if s.space then [' '] else []

/-- Fills the field up to its width: behind the text, between sign and digits, or before the sign. -/
def pad (s : Spec) (sign : List Char) (body : List UInt8) (numeric : Bool) : List UInt8 :=
  let sign := Text.encode sign
  let fill := s.width.getD 0 - (sign.length + body.length)
  if s.left then sign ++ body ++ List.replicate fill 0x20
  else if s.zero && numeric then sign ++ List.replicate fill 0x30 ++ body
  else List.replicate fill 0x20 ++ sign ++ body

/-- At least as many digits as the precision says; no digit at all for a zero at precision 0. -/
def widen (s : Spec) (digits : List Char) : List Char :=
  match s.precision with
  | none => digits
  | some p =>
    let digits := if p = 0 ∧ digits = ['0'] then [] else digits
    List.replicate (p - digits.length) '0' ++ digits

def integer (s : Spec) (sign digits : List Char) : List UInt8 :=
  s.pad sign (Text.encode (s.widen digits)) s.precision.isNone

end Spec

/-- `d.ddde+XX`: the exponent has a sign and at least two digits. -/
def exponentForm (r : Ratio) (places : Nat) (upper : Bool) : List Char :=
  let (n, x) := r.scientific places
  mantissa n places ++ (if upper then 'E' else 'e') :: (if x < 0 then '-' else '+') ::
    paddedDigits 2 x.natAbs

/-- Drops the zeros behind the point that end the digits, and a point that is left last. -/
def stripZeros (text : List Char) : List Char :=
  let isMark := fun c => c == 'e' || c == 'E'
  let digits := text.takeWhile (!isMark ·)
  let rest := text.dropWhile (!isMark ·)
  if '.' ∈ digits then
    ((digits.reverse.dropWhile (· == '0')).dropWhile (· == '.')).reverse ++ rest
  else text

/-- The form that the decimal exponent of the rounded value asks for: positional from `10 ^ -4` on as
long as the digits reach the point. The bound is a 32-bit word. -/
def generalForm (r : Ratio) (precision : Nat) (upper : Bool) : List Char :=
  let significant := max precision 1
  let x := if r.num = 0 then 0 else (r.scientific (significant - 1)).2
  let bound := Int.bmod significant UInt32.size
  stripZeros <|
    if -4 ≤ x ∧ x < bound then r.fixed (bound - 1 - x).toNat
    else exponentForm r (significant - 1) upper

abbrev Form := Ratio → Nat → List Char

def Spec.float (s : Spec) (form : Form) (upper : Bool) (x : Double) : List UInt8 :=
  let sign := s.sign (x.negative && !x.isNaN)
  if x.isFinite then s.pad sign (Text.encode (form x.ratio (s.precision.getD 6))) true
  else
    let text := match x.isNaN, upper with
      | true, false => "nan"
      | true, true => "NAN"
      | false, false => "inf"
      | false, true => "INF"
    s.pad sign (Text.bytes text) false

/-- One conversion of one cell. `resolve` gives the bytes of the string at an address. -/
def convert (resolve : UInt64 → List UInt8) (s : Spec) (cell : UInt64) : Conversion → List UInt8
  | .signed =>
    let n := cell.toInt64.toInt
    s.integer (s.sign (n < 0)) (Nat.toDigits 10 n.natAbs)
  | .unsigned => s.integer [] (Nat.toDigits 10 cell.toUInt32.toNat)
  | .hex false => s.integer [] (Nat.toDigits 16 cell.toUInt32.toNat)
  | .hex true => s.integer [] ((Nat.toDigits 16 cell.toUInt32.toNat).map Char.toUpper)
  | .fixed upper => s.float Ratio.fixed upper ⟨cell⟩
  | .exponent upper => s.float (exponentForm · · upper) upper ⟨cell⟩
  | .general upper => s.float (generalForm · · upper) upper ⟨cell⟩
  | .string =>
    let text := resolve cell
    s.pad [] (match s.precision with | none => text | some p => text.take p) false
  | .char => s.pad [] [cell.toUInt8] false

/-- Conversions take the cells in order; one without a cell renders as nothing. -/
def renderPieces (resolve : UInt64 → List UInt8) : List Piece → List UInt64 → List UInt8
  | [], _ => []
  | .literal bytes :: ps, cells => bytes ++ renderPieces resolve ps cells
  | .argument _ _ :: ps, [] => renderPieces resolve ps []
  | .argument s c :: ps, cell :: cells =>
    convert resolve s cell c ++ renderPieces resolve ps cells

/-- Renders a format over argument cells. A cell is a word of 64 bits without a type of its own; the
conversion that takes it decides how it is read. -/
def render (resolve : UInt64 → List UInt8) (format : List UInt8) (cells : List UInt64) :
    List UInt8 :=
  renderPieces resolve (pieces format) cells

/-- For each argument that the pieces take, whether it is taken as a string. -/
def stringArguments : List Piece → List Bool
  | [] => []
  | .literal _ :: ps => stringArguments ps
  | .argument _ c :: ps => (c == .string) :: stringArguments ps

end TreeLang.Format
