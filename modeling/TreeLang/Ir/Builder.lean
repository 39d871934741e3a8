import TreeLang.Ir.Graph
import TreeLang.Ir.Verify

namespace TreeLang.Ir

/-- A function so far and the block that instructions are appended to. An operation that fails leaves
the builder as it was. -/
structure Builder where
  function : Function
  current : Option Nat
  deriving DecidableEq

namespace Builder

/-- The insertion point of a new function is its entry block. -/
def start (name : String) (params : List Param) (returns : Ty) : Builder :=
  ⟨.empty name params returns, some 0⟩

/-- The number of the new block, and the builder, still at its block. -/
def createBlock (b : Builder) (label : String) : Nat × Builder :=
  let id := b.function.nextBlock
  let f := b.function
  (id, { b with function := { f with blocks := f.blocks ++ [.empty id label], nextBlock := id + 1 } })

def switchTo (b : Builder) (id : Nat) : Except Error Builder :=
  if b.function.blocks.any (·.id == id) then .ok { b with current := some id }
  else .error (.builder (.missingBlock id b.function.name))

/-- The operand of a parameter, whose number is a word of 32 bits. -/
def param (index : Nat) : Operand := .param (index % UInt32.size)

def isTerminated (b : Builder) : Bool :=
  ((b.current.bind b.function.block?).map Block.isTerminated).getD false

def isReachable (b : Builder) (id : Nat) : Bool :=
  b.function.graph.isReachable id

/-- Puts an alloca behind those that the block begins with. -/
def insertAlloca (a : Instruction) : List Instruction → List Instruction
  | [] => [a]
  | i :: is => if i.isAlloca then i :: insertAlloca a is else a :: i :: is

/-- Reserves a slot. Its alloca goes to the top of the entry block, wherever the cursor is. -/
def alloca (b : Builder) (name : String) (ty : Ty) : Except Error (Nat × Builder) :=
  if ty = .void then .error (.type (.voidSlot name))
  else
    let f := b.function
    let slot := f.slots.length
    let f : Function := { f with slots := f.slots ++ [⟨name, ty⟩] }
    let f := f.updateBlock f.entry fun e =>
      { e with instructions := insertAlloca (.alloca slot ty name) e.instructions }
    .ok (slot, { b with function := f })

def cursor (b : Builder) : Except Error Nat :=
  match b.current with
  | some id => .ok id
  | none => .error (.builder .noCurrentBlock)

def append (b : Builder) (i : Instruction) : Except Error Builder := do
  let id ← b.cursor
  return { b with
    function := b.function.updateBlock id fun c => { c with instructions := c.instructions ++ [i] } }

/-- Appends an instruction that defines the next temporary. -/
def define (b : Builder) (i : Operand → Instruction) : Except Error (Operand × Builder) := do
  let result := Operand.temp b.function.nextTemp
  let b ← b.append (i result)
  return (result, { b with function := { b.function with nextTemp := b.function.nextTemp + 1 } })

def load (b : Builder) (slot : Nat) (ty : Ty) : Except Error (Operand × Builder) :=
  b.define (.load · slot ty)

def store (b : Builder) (slot : Nat) (value : Operand) (ty : Ty) : Except Error Builder :=
  b.append (.store slot value ty)

def binary (b : Builder) (op : BinOp) (left right : Operand) (ty : Ty) :
    Except Error (Operand × Builder) :=
  b.define (.binary op · left right ty)

def neg (b : Builder) (operand : Operand) (ty : Ty) : Except Error (Operand × Builder) :=
  b.define (.neg · operand ty)

def isConversion : Ty → Ty → Bool
  | .i32, .f64 | .f64, .i32 | .bool, .i32 | .bool, .f64 => true
  | _, _ => false

/-- Converts between numeric types. A conversion of a type to itself emits nothing. -/
def cast (b : Builder) (value : Operand) (source target : Ty) : Except Error (Operand × Builder) := do
  let _ ← b.cursor
  if source = target then return (value, b)
  else if isConversion source target then b.define (.cast · value source target)
  else throw (.type (.noConversion source target))

def call (b : Builder) (callee : String) (args : List Operand) (returns : Ty) :
    Except Error (Option Operand × Builder) :=
  if returns = .void then do
    return (none, ← b.append (.call none callee args returns))
  else do
    let (result, b) ← b.define fun result => .call (some result) callee args returns
    return (some result, b)

def terminate (b : Builder) (t : Terminator) : Except Error Builder := do
  let id ← b.cursor
  match b.function.block? id with
  | none => throw (.builder .blockNotFound)
  | some c =>
    if c.isTerminated then throw (.builder (.alreadyTerminated id))
    else
      return { b with function := b.function.updateBlock id fun c => { c with terminator := t } }

def jump (b : Builder) (target : Nat) : Except Error Builder :=
  b.terminate (.jump target)

def branch (b : Builder) (condition : Operand) (thenBlock elseBlock : Nat) : Except Error Builder :=
  b.terminate (.branch condition thenBlock elseBlock)

def returnValue (b : Builder) (value : Option Operand) : Except Error Builder :=
  b.terminate (.ret value)

/-- Drops the blocks that cannot be reached, and the cursor with its block. The entry stays. -/
def prune (b : Builder) : Builder :=
  let f := b.function
  let reachable := f.graph.reachable
  let blocks := f.blocks.filter fun c => c.id == f.entry || c.id ∈ reachable
  { function := { f with blocks := blocks }
    current := b.current.filter fun id => blocks.any (·.id == id) }

def build (b : Builder) : Except Error Function := do
  b.function.verify
  return b.function

end Builder

end TreeLang.Ir
