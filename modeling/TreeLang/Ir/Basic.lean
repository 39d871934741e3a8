import TreeLang.Double.Basic

namespace TreeLang.Ir

/-- Machine types. A `bool` is the result of a comparison, a `ptr` the address of a string. -/
inductive Ty where
  | bool
  | i32
  | f64
  | ptr
  | void
  deriving DecidableEq

inductive Constant where
  | bool (value : Bool)
  | i32 (value : Int32)
  | f64 (value : Double)
  deriving DecidableEq

/-- What an instruction may name: a temporary, an incoming argument, a constant or a string of the
module. -/
inductive Operand where
  | temp (id : Nat)
  | param (index : Nat)
  | constant (value : Constant)
  | str (id : Nat)
  deriving DecidableEq

inductive BinOp where
  | add
  | sub
  | mul
  | div
  | eq
  | ne
  | lt
  | gt
  | le
  | ge
  deriving DecidableEq

inductive Instruction where
  | alloca (slot : Nat) (ty : Ty) (name : String)
  | load (result : Operand) (slot : Nat) (ty : Ty)
  | store (slot : Nat) (value : Operand) (ty : Ty)
  | binary (op : BinOp) (result left right : Operand) (ty : Ty)
  | neg (result operand : Operand) (ty : Ty)
  | cast (result value : Operand) (source target : Ty)
  | call (result : Option Operand) (callee : String) (args : List Operand) (returns : Ty)
  deriving DecidableEq

/-- How a block ends; a block under construction is `unset`. -/
inductive Terminator where
  | jump (target : Nat)
  | branch (condition : Operand) (thenBlock elseBlock : Nat)
  | ret (value : Option Operand)
  | unset
  deriving DecidableEq

/-- A block holds instructions and ends in a terminator. -/
structure Block where
  id : Nat
  label : String
  instructions : List Instruction
  terminator : Terminator
  deriving DecidableEq

structure Param where
  name : String
  ty : Ty
  deriving DecidableEq

/-- A storage cell of a function. Its number is its position among the slots. -/
structure Slot where
  name : String
  ty : Ty
  deriving DecidableEq

/-- A function of basic blocks over typed storage slots. Blocks are found by their number and keep the
order in which they were made. -/
structure Function where
  name : String
  params : List Param
  returns : Ty
  entry : Nat
  blocks : List Block
  slots : List Slot
  /-- The numbers that the next block and the next temporary take. -/
  nextBlock : Nat
  nextTemp : Nat
  deriving DecidableEq

/-- A function that a program may call without defining it. -/
structure External where
  name : String
  params : List Ty
  returns : Ty
  variadic : Bool
  deriving DecidableEq

/-- Defined functions, declared externals and strings. A name is defined or declared, never both. -/
structure Module where
  name : String
  functions : List Function
  externals : List External
  strings : List String
  deriving DecidableEq

namespace Ty

def size : Ty → Nat
  | bool => 1
  | i32 => 4
  | f64 | ptr => 8
  | void => 0

def isNumeric : Ty → Bool
  | i32 | f64 => true
  | bool | ptr | void => false

def text : Ty → String
  | bool => "bool"
  | i32 => "i32"
  | f64 => "f64"
  | ptr => "ptr"
  | void => "void"

end Ty

namespace Constant

def ty : Constant → Ty
  | bool _ => .bool
  | i32 _ => .i32
  | f64 _ => .f64

def zero? : Ty → Option Constant
  | .bool => some (bool false)
  | .i32 => some (i32 0)
  | .f64 => some (f64 .zero)
  | .ptr | .void => none

theorem ty_of_zero? {t : Ty} {c : Constant} (h : zero? t = some c) : c.ty = t := by
  cases t <;> simp_all [zero?] <;> subst h <;> rfl

end Constant

namespace Operand

def int (value : Int32) : Operand := constant (.i32 value)

def float (value : Double) : Operand := constant (.f64 value)

end Operand

namespace BinOp

def isComparison : BinOp → Bool
  | add | sub | mul | div => false
  | eq | ne | lt | gt | le | ge => true

def mnemonic : BinOp → String
  | add => "add"
  | sub => "sub"
  | mul => "mul"
  | div => "div"
  | eq => "eq"
  | ne => "ne"
  | lt => "lt"
  | gt => "gt"
  | le => "le"
  | ge => "ge"

end BinOp

namespace Instruction

def result? : Instruction → Option Operand
  | alloca .. | store .. => none
  | load result .. | binary _ result .. | neg result .. | cast result .. => some result
  | call result .. => result

/-- The type of the value that the instruction defines, `void` where it defines none. -/
def resultType : Instruction → Ty
  | alloca .. | store .. => .void
  | load _ _ ty | neg _ _ ty => ty
  | binary op _ _ _ ty => if op.isComparison then .bool else ty
  | cast _ _ _ target => target
  | call _ _ _ returns => returns

def operands : Instruction → List Operand
  | alloca .. | load .. => []
  | store _ value _ => [value]
  | binary _ _ left right _ => [left, right]
  | neg _ operand _ => [operand]
  | cast _ value _ _ => [value]
  | call _ _ args _ => args

def isAlloca : Instruction → Bool
  | alloca .. => true
  | _ => false

def isComparison : Instruction → Bool
  | binary op .. => op.isComparison
  | _ => false

def isCall : Instruction → Bool
  | call .. => true
  | _ => false

/-- Whether the instruction only names a value again: it casts to the type it casts from. -/
def isCopy : Instruction → Bool
  | cast _ _ source target => source == target
  | _ => false

def mnemonic : Instruction → String
  | alloca .. => "alloca"
  | load .. => "load"
  | store .. => "store"
  | binary op .. => op.mnemonic
  | neg .. => "neg"
  | cast .. => "cast"
  | call .. => "call"

end Instruction

namespace Terminator

def successors : Terminator → List Nat
  | jump target => [target]
  | branch _ thenBlock elseBlock => [thenBlock, elseBlock]
  | ret _ | unset => []

def isReturn : Terminator → Bool
  | ret _ => true
  | _ => false

def isJumpTo (t : Terminator) (block : Nat) : Bool :=
  t = .jump block

end Terminator

namespace Block

def empty (id : Nat) (label : String) : Block := ⟨id, label, [], .unset⟩

def isTerminated (b : Block) : Bool :=
  b.terminator ≠ .unset

end Block

namespace Function

/-- A function with an empty entry block, numbered 0. -/
def empty (name : String) (params : List Param) (returns : Ty) : Function :=
  ⟨name, params, returns, 0, [.empty 0 "entry"], [], 1, 0⟩

def block? (f : Function) (id : Nat) : Option Block :=
  f.blocks.find? (·.id == id)

/-- Puts the block in the place of the one with its number, or behind all others. -/
def putBlock (f : Function) (b : Block) : Function :=
  if f.blocks.any (·.id == b.id) then
    { f with blocks := f.blocks.map fun c => if c.id == b.id then b else c }
  else { f with blocks := f.blocks ++ [b] }

def updateBlock (f : Function) (id : Nat) (change : Block → Block) : Function :=
  { f with blocks := f.blocks.map fun b => if b.id == id then change b else b }

def slot? (f : Function) (slot : Nat) : Option Slot :=
  f.slots[slot]?

def blocksLabelled (f : Function) (label : String) : List Block :=
  f.blocks.filter (·.label == label)

end Function

namespace External

def accepts (e : External) (count : Nat) : Bool :=
  if e.variadic then e.params.length ≤ count else count == e.params.length

end External

def prototypes : List External :=
  [⟨"printi", [.i32], .i32, false⟩, ⟨"printd", [.f64], .i32, false⟩,
   ⟨"print", [.ptr], .i32, true⟩, ⟨"println", [.ptr], .i32, true⟩,
   ⟨"readi", [], .i32, false⟩, ⟨"readd", [], .f64, false⟩, ⟨"readline", [], .ptr, false⟩,
   ⟨"fabs", [.f64], .f64, false⟩, ⟨"pow", [.f64, .f64], .f64, false⟩,
   ⟨"sqrt", [.f64], .f64, false⟩, ⟨"sin", [.f64], .f64, false⟩, ⟨"cos", [.f64], .f64, false⟩,
   ⟨"pi", [], .f64, false⟩]

def prototype? (name : String) : Option External :=
  prototypes.find? (·.name == name)

end TreeLang.Ir
