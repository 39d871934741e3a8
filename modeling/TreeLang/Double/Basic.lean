
namespace TreeLang

/-- A binary64 number as its bit pattern, which splits into a sign, an exponent field and a fraction; a
finite one denotes a whole number of powers of two. Arithmetic follows the processor also where the
result is no number: an operand that is no number passes through, and an invalid operation gives one
fixed pattern. -/
structure Double where
  bits : UInt64
  deriving DecidableEq

namespace Double

def signBit : UInt64 := 0x8000000000000000

/-- The bit that tells a quiet pattern from a signalling one. -/
def quietBit : UInt64 := 0x0008000000000000

def zero : Double := ⟨0⟩

def infinity : Double := ⟨0x7ff0000000000000⟩

def nan : Double := ⟨0x7ff8000000000000⟩

/-- What an operation without a meaningful result gives. -/
def invalid : Double := ⟨0xfff8000000000000⟩

def fractionCount : Nat := 0x10000000000000

def negative (x : Double) : Bool :=
  signBit.toNat ≤ x.bits.toNat

def exponentField (x : Double) : Nat :=
  x.bits.toNat / fractionCount % 0x800

def fraction (x : Double) : Nat :=
  x.bits.toNat % fractionCount

def isNaN (x : Double) : Bool :=
  x.exponentField == 2047 && x.fraction != 0

def isFinite (x : Double) : Bool :=
  x.exponentField != 2047

def isZero (x : Double) : Bool :=
  x.exponentField == 0 && x.fraction == 0

/-- The significand `m` and the exponent `q` of a finite magnitude `m · 2 ^ q`. -/
def significand (x : Double) : Nat :=
  if x.exponentField = 0 then x.fraction else x.fraction + fractionCount

@[inherit_doc significand]
def exponent (x : Double) : Int :=
  if x.exponentField = 0 then -1074 else x.exponentField - 1075

def neg (x : Double) : Double :=
  ⟨x.bits ^^^ signBit⟩

def abs (x : Double) : Double :=
  ⟨x.bits &&& ~~~signBit⟩

def quiet (x : Double) : Double :=
  ⟨x.bits ||| quietBit⟩

def toFloat (x : Double) : Float :=
  Float.ofBits x.bits

def ofFloat (f : Float) : Double :=
  if f.isNaN then invalid else ⟨f.toBits⟩

def lift₁ (f : Float → Float) (x : Double) : Double :=
  if x.isNaN then x.quiet else ofFloat (f x.toFloat)

def lift₂ (f : Float → Float → Float) (x y : Double) : Double :=
  if x.isNaN then x.quiet else if y.isNaN then y.quiet else ofFloat (f x.toFloat y.toFloat)

def add : Double → Double → Double := lift₂ (· + ·)

def sub : Double → Double → Double := lift₂ (· - ·)

def mul : Double → Double → Double := lift₂ (· * ·)

def div : Double → Double → Double := lift₂ (· / ·)

def sqrt : Double → Double := lift₁ Float.sqrt

def sin : Double → Double := lift₁ Float.sin

def cos : Double → Double := lift₁ Float.cos

/-- One to any power and any base to the power zero are one, also where the other operand is no
number, so the operands are looked at only after the result. -/
def pow (x y : Double) : Double :=
  let f := Float.pow x.toFloat y.toFloat
  if f.isNaN then lift₂ Float.pow x y else ⟨f.toBits⟩

def pi : Double := ⟨0x400921fb54442d18⟩

def lt (x y : Double) : Bool := x.toFloat < y.toFloat

def le (x y : Double) : Bool := x.toFloat ≤ y.toFloat

/-- The two zeros are equal, and a pattern that is no number equals nothing. -/
def eq (x y : Double) : Bool := x.toFloat == y.toFloat

/-- The number a word of 32 bits denotes, which binary64 holds exactly. -/
def ofInt32 (n : Int32) : Double :=
  ofFloat (Float.ofInt n.toInt)

/-- The integer part, held within the range of the word; 0 for a pattern that is no number. -/
def toInt32 (x : Double) : Int32 :=
  if x.isNaN then 0
  else
    let whole : Nat :=
      if x.isFinite then
        if 0 ≤ x.exponent then x.significand * Nat.pow 2 (min x.exponent.toNat 64)
        else x.significand / Nat.pow 2 (-x.exponent).toNat
      else UInt64.size
    if x.negative then Int32.ofInt (-(min whole 0x80000000 : Nat))
    else Int32.ofInt (min whole 0x7fffffff : Nat)

end Double

end TreeLang
