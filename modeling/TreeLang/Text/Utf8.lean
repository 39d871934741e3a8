
namespace TreeLang.Text

def encode (cs : List Char) : List UInt8 :=
  cs.flatMap String.utf8EncodeChar

theorem encode_append (as bs : List Char) : encode (as ++ bs) = encode as ++ encode bs := by
  simp [encode]

def bytes (s : String) : List UInt8 :=
  encode s.toList

def replacement : Char := '\ufffd'

/-- What a leading byte asks of the bytes behind it: how many there are, and the range of the first
of them, which excludes overlong forms, surrogates and code points past the last one. -/
structure Lead where
  more : Nat
  low : Nat
  high : Nat

def lead? (b : Nat) : Option Lead :=
  if b < 0x80 then some ⟨0, 0, 0⟩
  else if b < 0xc2 then none
  else if b < 0xe0 then some ⟨1, 0x80, 0xbf⟩
  else if b = 0xe0 then some ⟨2, 0xa0, 0xbf⟩
  else if b = 0xed then some ⟨2, 0x80, 0x9f⟩
  else if b < 0xf0 then some ⟨2, 0x80, 0xbf⟩
  else if b = 0xf0 then some ⟨3, 0x90, 0xbf⟩
  else if b < 0xf4 then some ⟨3, 0x80, 0xbf⟩
  else if b = 0xf4 then some ⟨3, 0x80, 0x8f⟩
  else none

def payload (more b : Nat) : Nat :=
  match more with
  | 0 => b
  | 1 => b % 0x20
  | 2 => b % 0x10
  | _ => b % 0x08

/-- A character of which `more` bytes are still to come; `code` holds its bits so far, and the next
byte has to lie between `low` and `high`. -/
structure Pending where
  more : Nat
  code : Nat
  low : Nat
  high : Nat

/-- Reads a byte that begins a character or stands alone. -/
def begin (b : UInt8) : List Char × Option Pending :=
  match lead? b.toNat with
  | none => ([replacement], none)
  | some ⟨0, _, _⟩ => ([Char.ofNat b.toNat], none)
  | some ⟨n + 1, low, high⟩ => ([], some ⟨n + 1, payload (n + 1) b.toNat, low, high⟩)

/-- Reads one byte. A byte that cannot go on with the pending character ends that one as an
ill-formed piece and is read afresh. -/
def feed (pending : Option Pending) (b : UInt8) : List Char × Option Pending :=
  match pending with
  | none => begin b
  | some p =>
    if p.low ≤ b.toNat ∧ b.toNat ≤ p.high then
      let code := p.code * 0x40 + b.toNat % 0x40
      if p.more ≤ 1 then ([Char.ofNat code], none) else ([], some ⟨p.more - 1, code, 0x80, 0xbf⟩)
    else
      let (cs, next) := begin b
      (replacement :: cs, next)

def decodeFrom (pending : Option Pending) : List UInt8 → List Char
  | [] => if pending.isSome then [replacement] else []
  | b :: bs =>
    let (cs, next) := feed pending b
    cs ++ decodeFrom next bs

/-- The text of the bytes, where every maximal ill-formed piece becomes one replacement character. -/
def decodeLossy (bs : List UInt8) : List Char :=
  decodeFrom none bs

/-- The text of the bytes when they are well-formed UTF-8. -/
def decode? (bs : List UInt8) : Option (List Char) :=
  let cs := decodeLossy bs
  if encode cs = bs then some cs else none

def terminated (bs : List UInt8) : List UInt8 :=
  bs.takeWhile (· != 0)

end TreeLang.Text
