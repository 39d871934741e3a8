import TreeLang.Ir.Builder

namespace TreeLang.Ir

/-- An operation of a builder as it is carried out, one change after the other. What it did before it
failed would stay done, and an instruction for a block that does not exist would be lost. -/
abbrev Edit (α : Type) := ExceptT Error (StateM Builder) α

namespace Edit

/-- The result, and the builder as it is then, whether or not the work has failed. -/
def outcome {α : Type} (e : Edit α) (b : Builder) : Except Error α × Builder :=
  e.run.run b

def change (g : Function → Function) : Edit Unit :=
  modify fun b => { b with function := g b.function }

def createBlock (label : String) : Edit Nat := do
  let id := (← get).function.nextBlock
  change fun f => { f with nextBlock := id + 1 }
  change (·.putBlock (.empty id label))
  return id

def switchTo (id : Nat) : Edit Unit := do
  let b ← get
  if b.function.blocks.any (·.id == id) then set { b with current := some id }
  else throw (.builder (.missingBlock id b.function.name))

def addSlot (name : String) (ty : Ty) : Edit Nat := do
  let slot := (← get).function.slots.length
  change fun f => { f with slots := f.slots ++ [⟨name, ty⟩] }
  return slot

/-- The slot is there before the entry block is looked up. -/
def alloca (name : String) (ty : Ty) : Edit Nat := do
  if ty = .void then throw (.type (.voidSlot name))
  let slot ← addSlot name ty
  let f := (← get).function
  match f.block? f.entry with
  | none => throw (.builder .noEntry)
  | some _ =>
    change (·.updateBlock f.entry fun e =>
      { e with instructions := Builder.insertAlloca (.alloca slot ty name) e.instructions })
    return slot

def cursor : Edit Nat := do
  match (← get).current with
  | some id => return id
  | none => throw (.builder .noCurrentBlock)

def nextTemp : Edit Operand := do
  let temp := (← get).function.nextTemp
  change fun f => { f with nextTemp := temp + 1 }
  return .temp temp

/-- Nothing happens if there is no such block. -/
def insert (block : Nat) (i : Instruction) : Edit Unit := do
  match (← get).function.block? block with
  | none => return ()
  | some _ => change (·.updateBlock block fun c => { c with instructions := c.instructions ++ [i] })

def append (i : Instruction) : Edit Unit := do
  insert (← cursor) i

/-- Appends an instruction that defines the next temporary, which is taken first. -/
def define (i : Operand → Instruction) : Edit Operand := do
  let block ← cursor
  let result ← nextTemp
  insert block (i result)
  return result

def cast (value : Operand) (source target : Ty) : Edit Operand := do
  let block ← cursor
  if source = target then return value
  else if Builder.isConversion source target then
    let result ← nextTemp
    insert block (.cast result value source target)
    return result
  else throw (.type (.noConversion source target))

def call (callee : String) (args : List Operand) (returns : Ty) : Edit (Option Operand) := do
  let block ← cursor
  let result ← if returns = .void then pure none else some <$> nextTemp
  insert block (.call result callee args returns)
  return result

def terminate (t : Terminator) : Edit Unit := do
  let block ← cursor
  match (← get).function.block? block with
  | none => throw (.builder .blockNotFound)
  | some c =>
    if c.isTerminated then throw (.builder (.alreadyTerminated block))
    else change (·.updateBlock block fun c => { c with terminator := t })

/-- The number of blocks that were dropped. -/
def prune : Edit Nat := do
  let f := (← get).function
  let reachable := f.graph.reachable
  change fun f => { f with blocks := f.blocks.filter fun c => c.id == f.entry || c.id ∈ reachable }
  let kept := (← get).function.blocks
  modify fun b => { b with current := b.current.filter fun id => kept.any (·.id == id) }
  return f.blocks.length - kept.length

end Edit

inductive Operation where
  | createBlock (label : String)
  | switchTo (id : Nat)
  | alloca (name : String) (ty : Ty)
  | load (slot : Nat) (ty : Ty)
  | store (slot : Nat) (value : Operand) (ty : Ty)
  | binary (op : BinOp) (left right : Operand) (ty : Ty)
  | neg (operand : Operand) (ty : Ty)
  | cast (value : Operand) (source target : Ty)
  | call (callee : String) (args : List Operand) (returns : Ty)
  | jump (target : Nat)
  | branch (condition : Operand) (thenBlock elseBlock : Nat)
  | ret (value : Option Operand)
  | prune
  deriving DecidableEq

inductive Answer where
  | block (id : Nat)
  | slot (id : Nat)
  | value (v : Option Operand)
  | removed (count : Nat)
  | done
  deriving DecidableEq

namespace Operation

def perform : Operation → Edit Answer
  | createBlock label => .block <$> Edit.createBlock label
  | switchTo id => Edit.switchTo id *> pure .done
  | alloca name ty => .slot <$> Edit.alloca name ty
  | load slot ty => (.value ∘ some) <$> Edit.define (.load · slot ty)
  | store slot value ty => Edit.append (.store slot value ty) *> pure .done
  | binary op left right ty => (.value ∘ some) <$> Edit.define (.binary op · left right ty)
  | neg operand ty => (.value ∘ some) <$> Edit.define (.neg · operand ty)
  | cast value source target => (.value ∘ some) <$> Edit.cast value source target
  | call callee args returns => .value <$> Edit.call callee args returns
  | jump target => Edit.terminate (.jump target) *> pure .done
  | branch condition thenBlock elseBlock =>
    Edit.terminate (.branch condition thenBlock elseBlock) *> pure .done
  | ret value => Edit.terminate (.ret value) *> pure .done
  | prune => .removed <$> Edit.prune

def step (op : Operation) (b : Builder) : Except Error Answer × Builder :=
  op.perform.outcome b

end Operation

/-- Carries out one operation after the other; those that fail do not stop it. -/
def Builder.perform (b : Builder) : List Operation → List (Except Error Answer) × Builder
  | [] => ([], b)
  | op :: ops =>
    let (answer, b) := op.step b
    let (answers, b) := b.perform ops
    (answer :: answers, b)

end TreeLang.Ir
