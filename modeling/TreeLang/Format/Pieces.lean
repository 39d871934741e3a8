
namespace TreeLang.Format

inductive Conversion where
  | signed
  | unsigned
  | hex (upper : Bool)
  | fixed (upper : Bool)
  | exponent (upper : Bool)
  | general (upper : Bool)
  | string
  | char
  deriving DecidableEq

def Conversion.ofChar? : Char → Option Conversion
  | 'd' | 'i' => some .signed
  | 'u' => some .unsigned
  | 'x' => some (.hex false)
  | 'X' => some (.hex true)
  | 'f' => some (.fixed false)
  | 'F' => some (.fixed true)
  | 'e' => some (.exponent false)
  | 'E' => some (.exponent true)
  | 'g' => some (.general false)
  | 'G' => some (.general true)
  | 's' => some .string
  | 'c' => some .char
  | _ => none

structure Spec where
  left : Bool
  zero : Bool
  plus : Bool
  space : Bool
  width : Option Nat
  precision : Option Nat
  deriving DecidableEq

def Spec.plain : Spec := ⟨false, false, false, false, none, none⟩

inductive Piece where
  | literal (bytes : List UInt8)
  | argument (spec : Spec) (conversion : Conversion)
  deriving DecidableEq

/-- The part of a specification that is being read, with the digits of a width or a precision. -/
inductive Stage where
  | flags
  | width (digits : List Char)
  | precision (digits : List Char)
  | length
  deriving DecidableEq

/-- A specification that has begun: its bytes from the percent sign on, and what they say. -/
structure Begun where
  raw : List UInt8
  spec : Spec
  stage : Stage
  deriving DecidableEq

/-- The value of a run of digits; none for an empty run and for a value past 64 bits. -/
def number? (digits : List Char) : Option Nat :=
  let n := Nat.ofDigitChars 10 digits 0
  if digits ≠ [] ∧ n < UInt64.size then some n else none

/-- The specification with the digits of its last part taken in. A precision without a value is 0. -/
def Begun.settled (b : Begun) : Spec :=
  match b.stage with
  | .width ds => { b.spec with width := number? ds }
  | .precision ds => { b.spec with precision := some ((number? ds).getD 0) }
  | .flags | .length => b.spec

def Spec.flag? (s : Spec) : Char → Option Spec
  | '-' => some { s with left := true }
  | '0' => some { s with zero := true }
  | '+' => some { s with plus := true }
  | ' ' => some { s with space := true }
  | _ => none

def isLength (c : Char) : Bool :=
  c = 'l' || c = 'h' || c = 'z'

/-- What the next character makes of the specification, if it belongs to it and does not end it. The
parts come in the order flags, width, precision, length. -/
def Begun.part? (b : Begun) (c : Char) : Option (Spec × Stage) :=
  match b.stage with
  | .flags =>
    match b.spec.flag? c with
    | some s => some (s, .flags)
    | none =>
      if c.isDigit then some (b.spec, .width [c])
      else if c = '.' then some (b.spec, .precision [])
      else if isLength c then some (b.spec, .length)
      else none
  | .width ds =>
    if c.isDigit then some (b.spec, .width (ds ++ [c]))
    else if c = '.' then some (b.settled, .precision [])
    else if isLength c then some (b.settled, .length)
    else none
  | .precision ds =>
    if c.isDigit then some (b.spec, .precision (ds ++ [c]))
    else if isLength c then some (b.settled, .length)
    else none
  | .length => if isLength c then some (b.spec, .length) else none

/-- The piece that a conversion character makes of the specification. -/
def Begun.finish (b : Begun) (byte : UInt8) : Piece :=
  let c := Char.ofNat byte.toNat
  if c = '%' then .literal [byte]
  else
    match Conversion.ofChar? c with
    | some conversion => .argument b.settled conversion
    | none => .literal (b.raw ++ [byte])

/-- Reads one byte, inside a specification or outside of one. -/
def step (begun : Option Begun) (byte : UInt8) : List Piece × Option Begun :=
  let c := Char.ofNat byte.toNat
  match begun with
  | none => if c = '%' then ([], some ⟨[byte], .plain, .flags⟩) else ([.literal [byte]], none)
  | some b =>
    match b.part? c with
    | some (spec, stage) => ([], some ⟨b.raw ++ [byte], spec, stage⟩)
    | none => ([b.finish byte], none)

/-- The specification that the bytes leave unfinished. -/
def state (begun : Option Begun) : List UInt8 → Option Begun
  | [] => begun
  | byte :: bytes => state (step begun byte).2 bytes

def piecesFrom (begun : Option Begun) : List UInt8 → List Piece
  | [] => match begun with
    | none => []
    | some b => [.literal b.raw]
  | byte :: bytes => (step begun byte).1 ++ piecesFrom (step begun byte).2 bytes

/-- A format is read byte by byte into pieces: bytes that stand for themselves and conversions, each
with its flags, width and precision. A specification that the format does not finish, or whose
conversion is unknown, stands for itself. -/
def pieces (format : List UInt8) : List Piece :=
  piecesFrom none format

theorem state_append (begun : Option Begun) (as bs : List UInt8) :
    state begun (as ++ bs) = state (state begun as) bs := by
  induction as generalizing begun with
  | nil => rfl
  | cons a as ih => exact ih _

end TreeLang.Format
