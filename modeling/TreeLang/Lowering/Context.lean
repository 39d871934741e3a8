import TreeLang.Ir.Builder
import TreeLang.Ir.Module
import TreeLang.Typing.Rules
import TreeLang.Typing.Scope

namespace TreeLang.Lowering

open TreeLang.Tree (Ty)

/-- A lowered expression. `repr` is the machine type that holds the value: a comparison is a number
of the language, held as a `bool`. -/
structure Typed where
  value : Ir.Operand
  ty : Ty
  repr : Ir.Ty
  deriving DecidableEq

/-- A value held in the machine type of its own type. -/
def Typed.plain (value : Ir.Operand) (ty : Ty) : Typed := ⟨value, ty, ty.toIr⟩

def Typed.comparison (value : Ir.Operand) (ty : Ty) : Typed := ⟨value, ty, .bool⟩

structure Storage where
  slot : Nat
  ty : Ty
  deriving DecidableEq

/-- A function under construction. Of two entries for a name the first holds. -/
structure Frame where
  builder : Ir.Builder
  params : List (String × Storage)
  locals : List (String × Storage)
  returns : Ty
  deriving DecidableEq

namespace Frame

def start (name : String) (params : List Tree.Param) (returns : Ty) : Frame where
  builder := .start name (params.map fun p => ⟨p.name, p.ty.toIr⟩) returns.toIr
  params := []
  locals := []
  returns := returns

def name (f : Frame) : String := f.builder.function.name

/-- Variables hide parameters. -/
def storage? (f : Frame) (name : String) : Option Storage :=
  (f.locals.lookup name).or (f.params.lookup name)

end Frame

/-- What lowering works on: the module under construction, the bindings in force and one frame for each
function that is being built. Work that fails keeps what it had emitted. -/
structure Context where
  module : Ir.Module
  scopes : Typing.Scopes
  /-- The function at hand, then the functions around it. -/
  frames : List Frame

namespace Context

/-- An empty module with every prototype, and no function begun. -/
def start (name : String) : Context := ⟨.withPrototypes name, .ofReturns .int, []⟩

def function (c : Context) : String :=
  (c.frames.head?.map Frame.name).getD entryName

def declare (c : Context) (name : String) (ty : Ty) : Context :=
  { c with scopes := c.scopes.declare name ty }

def enter (c : Context) (f : Frame) : Context :=
  { c with scopes := c.scopes.enter f.returns, frames := f :: c.frames }

def leave (c : Context) : Context :=
  { c with scopes := c.scopes.leave, frames := c.frames.tail }

end Context

/-- Work on a context that may fail; what it did before it failed stays done. -/
abbrev Lower (ε α : Type) := ExceptT ε (StateM Context) α

namespace Lower

def onFailure {ε α : Type} (m : Lower ε α) (after : StateM Context Unit) : Lower ε α :=
  tryCatch m fun e => do
    after
    throw e

def pinned {α : Type} (function node : String) (m : Lower Cause α) : Lower Diagnostic α :=
  m.adapt (Diagnostic.pin function node)

/-- A failure inside a block expression is one of the expression. -/
def located {α : Type} (m : Lower Diagnostic α) : Lower Cause α :=
  m.adapt .located

def frame : Lower Cause Frame := do
  match (← get).frames with
  | [] => throw (.emission .noFunction)
  | f :: _ => return f

def setFrame (f : Frame) : Lower Cause Unit :=
  modify fun c => { c with frames := f :: c.frames.tail }

def build {α : Type} (step : Ir.Builder → Except Ir.Error (α × Ir.Builder)) : Lower Cause α := do
  let f ← frame
  match step f.builder with
  | .ok (a, b) =>
    setFrame { f with builder := b }
    return a
  | .error e => throw (.builder e)

def emit (step : Ir.Builder → Except Ir.Error Ir.Builder) : Lower Cause Unit :=
  build fun b => return ((), ← step b)

def createBlock (label : String) : Lower Cause Nat :=
  build fun b => .ok (b.createBlock label)

def switchTo (block : Nat) : Lower Cause Unit :=
  emit (·.switchTo block)

/-- The slot of a name in the function at hand. A name bound around it only has none. -/
def storage (name : String) : Lower Cause Storage := do
  let f ← frame
  match f.storage? name with
  | some s => return s
  | none =>
    if ((← get).scopes.lookup name).isSome then throw (.unboundStorage name)
    else throw (.unboundName name)

/-- Copies the incoming arguments, the first of which has number `index`, to slots of their own. -/
def storeParams (index : Nat) : List Tree.Param → Lower Cause Unit
  | [] => pure ()
  | p :: ps => do
    if p.ty = .void then throw (.voidBinding p.name)
    let slot ← build (·.alloca p.name p.ty.toIr)
    emit (·.store slot (.param index) p.ty.toIr)
    let f ← frame
    setFrame { f with params := (p.name, ⟨slot, p.ty⟩) :: f.params }
    modify (·.declare p.name p.ty)
    storeParams (index + 1) ps

def enterFunction (name : String) (params : List Tree.Param) (returns : Ty) : Lower Cause Unit := do
  modify (·.enter (.start name params returns))
  (storeParams 0 params).onFailure (modify (·.leave))

/-- Goes back to the function around the one at hand, which is given out. -/
def finishFunction : Lower Cause Frame := do
  match (← get).frames with
  | [] => throw (.emission .noFrame)
  | f :: _ =>
    modify (·.leave)
    return f

/-- Drops dead blocks and adds the function to the module. -/
def install (f : Frame) : Lower Cause Unit := do
  let c ← get
  match f.builder.prune.build >>= c.module.define with
  | .ok m => set { c with module := m }
  | .error e => throw (.builder e)

end Lower

end TreeLang.Lowering
