import TreeLang.Json.Basic
import TreeLang.Text.Utf8

namespace TreeLang.Json

inductive Fault where
  | truncated
  | malformed
  deriving DecidableEq

/-- How many arrays and objects may be open at once. -/
def maxDepth : Nat := 127

def isSpace (c : Char) : Bool :=
  c = ' ' || c = '\n' || c = '\t' || c = '\r'

def skipSpace (cs : List Char) : List Char :=
  cs.dropWhile isSpace

def word : List Char → List Char → Except Fault (List Char)
  | [], cs => .ok cs
  | _ :: _, [] => .error .truncated
  | w :: ws, c :: cs => if w = c then word ws cs else .error .malformed

def hexValue? (c : Char) : Option Nat :=
  if c.isDigit then some (c.toNat - '0'.toNat)
  else if 'a' ≤ c ∧ c ≤ 'f' then some (c.toNat - 'a'.toNat + 10)
  else if 'A' ≤ c ∧ c ≤ 'F' then some (c.toNat - 'A'.toNat + 10)
  else none

def hex4? (a b c d : Char) : Option Nat := do
  let a ← hexValue? a
  let b ← hexValue? b
  let c ← hexValue? c
  let d ← hexValue? d
  return ((a * 16 + b) * 16 + c) * 16 + d

/-- Why fewer than four characters cannot be the digits of an escape: they are cut short when they
are fewer than four bytes, and wrong when they are not. -/
def shortEscape (cs : List Char) : Fault :=
  if (Text.encode cs).length < 4 then .truncated else .malformed

def simpleEscape? : Char → Option Char
  | '"' => some '"'
  | '\\' => some '\\'
  | '/' => some '/'
  | 'b' => some '\x08'
  | 'f' => some '\x0c'
  | 'n' => some '\n'
  | 'r' => some '\r'
  | 't' => some '\t'
  | _ => none

def push (c : Char) (r : Except Fault (List Char × List Char)) :
    Except Fault (List Char × List Char) :=
  r.map fun (cs, rest) => (c :: cs, rest)

def isHigh (n : Nat) : Bool := 0xd800 ≤ n && n ≤ 0xdbff

def isLow (n : Nat) : Bool := 0xdc00 ≤ n && n ≤ 0xdfff

def pair (high low : Nat) : Char :=
  Char.ofNat ((high - 0xd800) * 0x400 + (low - 0xdc00) + 0x10000)

/-- The characters up to the closing quote, and what follows it. -/
def stringBody (strict : Bool) : List Char → Except Fault (List Char × List Char)
  | [] => .error .truncated
  | '"' :: cs => .ok ([], cs)
  | ['\\'] => .error .truncated
  | '\\' :: 'u' :: a :: b :: c :: d :: cs =>
    match hex4? a b c d with
    | none => .error .malformed
    | some n =>
      if !strict then push (Char.ofNat n) (stringBody strict cs)
      else if isLow n then .error .malformed
      else if isHigh n then
        match cs with
        | [] => .error .truncated
        | ['\\'] => .error .truncated
        | '\\' :: 'u' :: e :: f :: g :: h :: cs =>
          match hex4? e f g h with
          | none => .error .malformed
          | some m => if isLow m then push (pair n m) (stringBody strict cs) else .error .malformed
        | '\\' :: 'u' :: cs => .error (shortEscape cs)
        | _ => .error .malformed
      else push (Char.ofNat n) (stringBody strict cs)
  | '\\' :: 'u' :: cs => .error (shortEscape cs)
  | '\\' :: c :: cs =>
    match simpleEscape? c with
    | none => .error .malformed
    | some e => push e (stringBody strict cs)
  | c :: cs => if c.toNat < 0x20 then .error .malformed else push c (stringBody strict cs)

/-- The digits a number needs here, and what follows them. -/
def someDigits (strict : Bool) (cs : List Char) : Except Fault (List Char × List Char) :=
  match cs.takeWhile Char.isDigit, cs.dropWhile Char.isDigit with
  | [], [] => .error (if strict then .truncated else .malformed)
  | [], _ => .error .malformed
  | ds, rest => .ok (ds, rest)

def wholePart (strict : Bool) (cs : List Char) : Except Fault (List Char × List Char) := do
  let (ds, rest) ← someDigits strict cs
  match ds with
  | '0' :: _ :: _ => .error .malformed
  | _ => return (ds, rest)

def places (strict : Bool) (cs : List Char) : Except Fault (Nat × List Char) :=
  (someDigits strict cs).map fun (ds, rest) => (Nat.ofDigitChars 10 ds 0, rest)

def exponentPart (strict : Bool) : List Char → Except Fault (Int × List Char)
  | '-' :: cs => (places strict cs).map fun (n, rest) => (-n, rest)
  | '+' :: cs => (places strict cs).map fun (n, rest) => (n, rest)
  | cs => (places strict cs).map fun (n, rest) => (n, rest)

def fractionPart (strict : Bool) : List Char → Except Fault (Option (List Char) × List Char)
  | '.' :: cs => (someDigits strict cs).map fun (ds, rest) => (some ds, rest)
  | cs => .ok (none, cs)

def scalePart (strict : Bool) : List Char → Except Fault (Option Int × List Char)
  | 'e' :: cs | 'E' :: cs => (exponentPart strict cs).map fun (e, rest) => (some e, rest)
  | cs => .ok (none, cs)

/-- A number that is looked at has to lie within the range of binary64. -/
def numeral (strict : Bool) (negative : Bool) (cs : List Char) :
    Except Fault (Numeral × List Char) := do
  let (whole, rest) ← wholePart strict cs
  let (places?, rest) ← fractionPart strict rest
  let (e?, rest) ← scalePart strict rest
  let places := places?.getD []
  let n : Numeral :=
    ⟨negative, Nat.ofDigitChars 10 (whole ++ places) 0, e?.getD 0 - places.length,
      places?.isNone && e?.isNone⟩
  if strict && !n.double.isFinite then .error .malformed else return (n, rest)

/-- What decides how closely a value is read: whether it counts, the keys that lead to it, innermost
first, and how many more arrays and objects may be opened. An element of an array has the empty key. A
value that does not count is only skimmed: its numbers may be out of range, its escapes need not form
characters and it may nest at will. -/
structure Place where
  strict : Bool
  path : List String
  depth : Nat

def Place.member (ignored : List String → Bool) (p : Place) (key : String) : Place :=
  let path := key :: p.path
  { p with strict := p.strict && !ignored path, path := path }

/-- The place of the elements, which are read as closely as their array. -/
def Place.element (p : Place) : Place :=
  { p with path := "" :: p.path }

def Place.enter? (p : Place) : Option Place :=
  if !p.strict then some p
  else if p.depth = 0 then none
  else some { p with depth := p.depth - 1 }

mutual

/-- Reads one value. `fuel` bounds the steps; twice the length of the text is enough. -/
def value (ignored : List String → Bool) :
    Nat → Place → List Char → Except Fault (Json × List Char)
  | 0, _, _ => .error .truncated
  | fuel + 1, place, cs =>
    match skipSpace cs with
    | [] => .error .truncated
    | 'n' :: cs => (word "ull".toList cs).map fun rest => (.null, rest)
    | 't' :: cs => (word "rue".toList cs).map fun rest => (.bool true, rest)
    | 'f' :: cs => (word "alse".toList cs).map fun rest => (.bool false, rest)
    | '"' :: cs => (stringBody place.strict cs).map fun (s, rest) => (.string (.ofList s), rest)
    | '-' :: cs => (numeral place.strict true cs).map fun (n, rest) => (.number n, rest)
    | '[' :: cs =>
      match place.enter? with
      | none => .error .malformed
      | some place =>
        match skipSpace cs with
        | ']' :: rest => .ok (.array [], rest)
        | cs => (elements ignored fuel place.element cs).map fun (xs, rest) => (.array xs, rest)
    | '\x7b' :: cs =>
      match place.enter? with
      | none => .error .malformed
      | some place =>
        match skipSpace cs with
        | '\x7d' :: rest => .ok (.object [], rest)
        | cs => (members ignored fuel place cs).map fun (ms, rest) => (.object ms, rest)
    | c :: cs =>
      if c.isDigit then (numeral place.strict false (c :: cs)).map fun (n, rest) => (.number n, rest)
      else .error .malformed

/-- Reads the elements of an array at their place from a first one on, up to and with the bracket. -/
def elements (ignored : List String → Bool) :
    Nat → Place → List Char → Except Fault (List Json × List Char)
  | 0, _, _ => .error .truncated
  | fuel + 1, place, cs => do
    let (x, rest) ← value ignored fuel place cs
    match skipSpace rest with
    | [] => .error .truncated
    | ']' :: rest => return ([x], rest)
    | ',' :: rest =>
      let (xs, rest) ← elements ignored fuel place rest
      return (x :: xs, rest)
    | _ => .error .malformed

/-- Reads the members of an object from a first one on, up to and with the brace. -/
def members (ignored : List String → Bool) :
    Nat → Place → List Char → Except Fault (List (String × Json) × List Char)
  | 0, _, _ => .error .truncated
  | fuel + 1, place, cs =>
    match skipSpace cs with
    | [] => .error .truncated
    | '"' :: cs => do
      let (key, rest) ← stringBody place.strict cs
      let key := String.ofList key
      match skipSpace rest with
      | [] => .error .truncated
      | ':' :: rest =>
        let (x, rest) ← value ignored fuel (place.member ignored key) rest
        match skipSpace rest with
        | [] => .error .truncated
        | '\x7d' :: rest => return ([(key, x)], rest)
        | ',' :: rest =>
          let (ms, rest) ← members ignored fuel place rest
          return ((key, x) :: ms, rest)
        | _ => .error .malformed
      | _ => .error .malformed
    | _ => .error .malformed

end

def fuelFor (cs : List Char) : Nat :=
  2 * cs.length + 2

/-- The document that the whole text is, read from left to right; the first problem is the answer. A
text that could still go on is truncated, any other problem makes it malformed. The value under a path
that `ignored` names is skimmed. -/
def parse (ignored : List String → Bool) (text : String) : Except Fault Json := do
  let cs := text.toList
  let (j, rest) ← value ignored (fuelFor cs) ⟨true, [], maxDepth⟩ cs
  if skipSpace rest = [] then return j else .error .malformed

end TreeLang.Json
