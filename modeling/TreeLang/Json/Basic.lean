import TreeLang.Double.Text

namespace TreeLang

/-- The number `± digits · 10 ^ exponent`; `integral` when it is written without point and exponent,
which then is 0. -/
structure Numeral where
  negative : Bool
  digits : Nat
  exponent : Int
  integral : Bool
  deriving DecidableEq

/-- Values of the JSON data model. An object keeps its members in order and keeps repeated keys, and a
number keeps whether it was written as an integer. -/
inductive Json where
  | null
  | bool (value : Bool)
  | number (value : Numeral)
  | string (value : String)
  | array (elements : List Json)
  | object (members : List (String × Json))

namespace Numeral

def ofInt (n : Int) : Numeral :=
  ⟨n < 0, n.natAbs, 0, true⟩

def ofDouble (x : Double) : Numeral :=
  ⟨x.negative, x.shortest.digits, x.shortest.exponent, false⟩

/-- The integer that is written. A negative zero is not one. -/
def int? (n : Numeral) : Option Int :=
  if n.integral ∧ ¬(n.negative ∧ n.digits = 0) then
    some (if n.negative then -(n.digits : Int) else n.digits)
  else none

def double (n : Numeral) : Double :=
  Double.ofDecimal n.negative n.digits n.exponent

def chars (n : Numeral) : List Char :=
  let sign := if n.negative then ['-'] else []
  if n.integral then sign ++ Nat.toDigits 10 n.digits
  else sign ++ Decimal.text .document ⟨n.digits, n.exponent⟩

end Numeral

namespace Json

def int (n : Int) : Json :=
  number (.ofInt n)

/-- A pattern that is no finite number has no decimal; null stands for it. -/
def double (x : Double) : Json :=
  if x.isFinite then number (.ofDouble x) else null

def strings (ss : List String) : Json :=
  array (ss.map string)

def escape (c : Char) : List Char :=
  match c with
  | '"' => ['\\', '"']
  | '\\' => ['\\', '\\']
  | '\x08' => ['\\', 'b']
  | '\t' => ['\\', 't']
  | '\n' => ['\\', 'n']
  | '\x0c' => ['\\', 'f']
  | '\r' => ['\\', 'r']
  | c =>
    if c.toNat < 0x20 then
      ['\\', 'u', '0', '0', (c.toNat / 16).digitChar, (c.toNat % 16).digitChar]
    else [c]

def stringChars (s : String) : List Char :=
  '"' :: s.toList.flatMap escape ++ ['"']

/-- How a document is set: what stands before a part of an array or object at a depth, and behind the
colon of a member. -/
structure Layout where
  lead : Nat → List Char
  gap : List Char

def Layout.compact : Layout := ⟨fun _ => [], []⟩

/-- Every part on a line of its own, two blanks further in than what it belongs to. -/
def Layout.indented : Layout := ⟨fun depth => '\n' :: List.replicate (2 * depth) ' ', [' ']⟩

mutual

def chars (l : Layout) (depth : Nat) : Json → List Char
  | null => "null".toList
  | bool true => "true".toList
  | bool false => "false".toList
  | number n => n.chars
  | string s => stringChars s
  | array [] => ['[', ']']
  | array (x :: xs) =>
    '[' :: l.lead (depth + 1) ++ x.chars l (depth + 1) ++ elementChars l depth xs
  | object [] => ['\x7b', '\x7d']
  | object ((k, x) :: ms) =>
    '\x7b' :: l.lead (depth + 1) ++ stringChars k ++ ':' :: l.gap ++ x.chars l (depth + 1) ++
      memberChars l depth ms

/-- The elements behind the first, and the closing bracket. -/
def elementChars (l : Layout) (depth : Nat) : List Json → List Char
  | [] => l.lead depth ++ [']']
  | x :: xs => ',' :: l.lead (depth + 1) ++ x.chars l (depth + 1) ++ elementChars l depth xs

/-- The members behind the first, and the closing brace. -/
def memberChars (l : Layout) (depth : Nat) : List (String × Json) → List Char
  | [] => l.lead depth ++ ['\x7d']
  | (k, x) :: ms =>
    ',' :: l.lead (depth + 1) ++ stringChars k ++ ':' :: l.gap ++ x.chars l (depth + 1) ++
      memberChars l depth ms

end

def render (j : Json) : String :=
  String.ofList (j.chars .compact 0)

def pretty (j : Json) : String :=
  String.ofList (j.chars .indented 0)

end Json

end TreeLang
