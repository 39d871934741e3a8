import TreeLang.Ir.Basic
import TreeLang.Text.Utf8

namespace TreeLang.Machine

/-- Where a string is in memory: among the strings of the module, or read as a line of the input. -/
inductive Place where
  | literal (id : Nat)
  | line (number : Nat)
  deriving DecidableEq, Hashable

/-- A string in memory: its place, and its bytes up to the NUL that ends it. -/
structure Stored where
  place : Place
  bytes : List UInt8
  deriving DecidableEq, Hashable

def Stored.literal (id : Nat) (text : String) : Stored :=
  ⟨.literal id, Text.terminated (Text.bytes text)⟩

/-- A truth value is a word of 8 bits, an integer one of 32. A pointer may point to nothing. -/
inductive Value where
  | bool (word : Int8)
  | i32 (word : Int32)
  | f64 (x : Double)
  | ptr (target : Option Stored)
  deriving DecidableEq

/-- Why a program stops before its entry function returns. -/
inductive Fault where
  /-- An integer division without a result. -/
  | division
  /-- A text is read at an address that holds none, or the address itself counts. -/
  | wildAddress
  /-- An instruction meets what no valid program shows it. -/
  | stuck
  deriving DecidableEq

namespace Value

def ofBool (b : Bool) : Value := bool (if b then 1 else 0)

def ofConstant : Ir.Constant → Value
  | .bool b => ofBool b
  | .i32 n => i32 n
  | .f64 x => f64 x

def ofText (id : Nat) (text : String) : Value :=
  ptr (some (.literal id text))

/-- What a slot holds before anything is stored in it. -/
def zero? : Ir.Ty → Option Value
  | .bool => some (bool 0)
  | .i32 => some (i32 0)
  | .f64 => some (f64 .zero)
  | .ptr => some (ptr none)
  | .void => none

def ty : Value → Ir.Ty
  | bool _ => .bool
  | i32 _ => .i32
  | f64 _ => .f64
  | ptr _ => .ptr

theorem ty_of_zero? {t : Ir.Ty} {v : Value} (h : zero? t = some v) : v.ty = t := by
  cases t <;> simp_all [zero?] <;> subst h <;> rfl

theorem ty_ofConstant (c : Ir.Constant) : (ofConstant c).ty = c.ty := by
  cases c <;> rfl

/-- Whether a branch on the value is taken: any word but 0 counts as true. -/
def test : Value → Except Fault Bool
  | bool w => .ok (w != 0)
  | i32 w => .ok (w != 0)
  | ptr p => .ok p.isSome
  | f64 _ => .error .stuck

theorem test_ofBool (b : Bool) : (ofBool b).test = .ok b := by
  cases b <;> rfl

/-- A truth value as an integer that is not negative. -/
def widen (w : Int8) : Int32 := w.toUInt8.toUInt32.toInt32

/-- The low 32 bits of a word, where they are known. -/
def low? : Value → Option Int32
  | bool w => some (widen w)
  | i32 w => some w
  | ptr none => some 0
  | ptr (some _) | f64 _ => none

end Value

/-- The integer instructions on words of one width, whose least one is `least`. -/
@[specialize]
def onWords {α : Type} [Add α] [Sub α] [Mul α] [Div α] [Neg α] [OfNat α 0] [OfNat α 1] [LT α] [LE α]
    [DecidableEq α] [DecidableLT α] [DecidableLE α] (least : α) (value : α → Value) (op : Ir.BinOp)
    (a b : α) : Except Fault Value :=
  match op with
  | .add => .ok (value (a + b))
  | .sub => .ok (value (a - b))
  | .mul => .ok (value (a * b))
  | .div => if b = 0 ∨ (a = least ∧ b = -1) then .error .division else .ok (value (a / b))
  | .eq => .ok (.ofBool (a = b))
  | .ne => .ok (.ofBool (a ≠ b))
  | .lt => .ok (.ofBool (a < b))
  | .gt => .ok (.ofBool (b < a))
  | .le => .ok (.ofBool (a ≤ b))
  | .ge => .ok (.ofBool (b ≤ a))

def onBools (op : Ir.BinOp) (a b : Int8) : Except Fault Value :=
  onWords Int8.minValue .bool op a b

def onInts (op : Ir.BinOp) (a b : Int32) : Except Fault Value :=
  onWords Int32.minValue .i32 op a b

def onDoubles (op : Ir.BinOp) (x y : Double) : Value :=
  match op with
  | .add => .f64 (x.add y)
  | .sub => .f64 (x.sub y)
  | .mul => .f64 (x.mul y)
  | .div => .f64 (x.div y)
  | .eq => .ofBool (x.eq y)
  | .ne => .ofBool (x.lt y || y.lt x)
  | .lt => .ofBool (x.lt y)
  | .gt => .ofBool (y.lt x)
  | .le => .ofBool (x.le y)
  | .ge => .ofBool (y.le x)

/-- Whether one address is below another. The address of nothing is 0 and below all others, and the
strings of the module lie in their order; how two other strings lie is not known. -/
def below (p q : Option Stored) : Except Fault Bool :=
  if p = q then .ok false
  else
    match p, q with
    | none, _ => .ok true
    | _, none => .ok false
    | some ⟨.literal a, _⟩, some ⟨.literal b, _⟩ => .ok (a < b)
    | some _, some _ => .error .wildAddress

/-- The integer instructions on addresses, as far as the result hangs on none of them. -/
def onPointers (op : Ir.BinOp) (p q : Option Stored) : Except Fault Value :=
  match op, p, q with
  | .add, p, none | .add, none, p | .sub, p, none => .ok (.ptr p)
  | .sub, p, q => if p = q then .ok (.ptr none) else .error .wildAddress
  | .mul, _, none | .mul, none, _ => .ok (.ptr none)
  | .div, _, none => .error .division
  | .div, none, _ => .ok (.ptr none)
  | .add, _, _ | .mul, _, _ | .div, _, _ => .error .wildAddress
  | .eq, p, q => .ok (.ofBool (p = q))
  | .ne, p, q => .ok (.ofBool (p ≠ q))
  | .lt, p, q => (below p q).map .ofBool
  | .gt, p, q => (below q p).map .ofBool
  | .le, p, q => (below q p).map fun b => .ofBool !b
  | .ge, p, q => (below p q).map fun b => .ofBool !b

/-- Words wrap around, integer division goes toward zero and has no result at two places, and
comparisons of doubles are ordered: each of them, also the test for being different, fails where one
side is no number. An instruction of type `f64` works on doubles, any other one on words, whose width is
that of its operands. -/
def binary (op : Ir.BinOp) (ty : Ir.Ty) (left right : Value) : Except Fault Value :=
  if ty = .f64 then
    match left, right with
    | .f64 x, .f64 y => .ok (onDoubles op x y)
    | _, _ => .error .stuck
  else
    match left, right with
    | .bool a, .bool b => onBools op a b
    | .i32 a, .i32 b => onInts op a b
    | .ptr p, .ptr q => onPointers op p q
    | _, _ => .error .stuck

def negate (ty : Ir.Ty) (v : Value) : Except Fault Value :=
  if ty = .f64 then
    match v with
    | .f64 x => .ok (.f64 x.neg)
    | _ => .error .stuck
  else
    match v with
    | .bool w => .ok (.bool (-w))
    | .i32 w => .ok (.i32 (-w))
    | .ptr none => .ok (.ptr none)
    | .ptr (some _) => .error .wildAddress
    | .f64 _ => .error .stuck

def toDouble : Value → Except Fault Value
  | .bool w => .ok (.f64 (.ofInt32 w.toInt32))
  | .i32 w => .ok (.f64 (.ofInt32 w))
  | .ptr none => .ok (.f64 .zero)
  | .ptr (some _) => .error .wildAddress
  | .f64 _ => .error .stuck

/-- A conversion between two types; one to the same type keeps any value. -/
def cast (source target : Ir.Ty) (v : Value) : Except Fault Value :=
  if source = target then .ok v
  else
    match source, target, v with
    | .i32, .f64, v => toDouble v
    | .f64, .i32, .f64 x => .ok (.i32 x.toInt32)
    | .bool, .i32, .bool w => .ok (.i32 (Value.widen w))
    | .bool, .f64, .bool w => .ok (.f64 (.ofInt32 (Value.widen w)))
    | _, _, _ => .error .stuck

end TreeLang.Machine
