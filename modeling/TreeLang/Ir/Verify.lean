import TreeLang.Ir.Error

namespace TreeLang.Ir

/-- The temporaries that instructions define, with their types. -/
def definitions : List Instruction → List (Nat × Ty)
  | [] => []
  | i :: is =>
    match i.result? with
    | some (.temp id) => (id, i.resultType) :: definitions is
    | _ => definitions is

def Function.definitions (f : Function) : List (Nat × Ty) :=
  Ir.definitions (f.blocks.flatMap (·.instructions))

/-- The first temporary that has an earlier definition. -/
def repeated? (seen : List Nat) : List (Nat × Ty) → Option Nat
  | [] => none
  | (id, _) :: ds => if id ∈ seen then some id else repeated? (id :: seen) ds

/-- The type of an operand, given all definitions; a temporary may be defined anywhere in the body. -/
def Function.typeOf (f : Function) (defined : List (Nat × Ty)) : Operand → Except VerifyFault Ty
  | .temp id =>
    match defined.lookup id with
    | some ty => .ok ty
    | none => .error (.undefinedTemp id)
  | .param index =>
    match f.params[index]? with
    | some p => .ok p.ty
    | none => .error (.noParameter index)
  | .constant c => .ok c.ty
  | .str _ => .ok .ptr

def Function.verifyOperands (f : Function) (defined : List (Nat × Ty)) :
    List Operand → Except VerifyFault Unit
  | [] => .ok ()
  | o :: os => do
    let _ ← f.typeOf defined o
    f.verifyOperands defined os

/-- A load or a store names a slot and has its type. -/
def Function.verifyAccess (f : Function) (slot : Nat) (ty : Ty) : Except VerifyFault Unit :=
  match f.slot? slot with
  | none => .error (.unknownSlot slot)
  | some s => if s.ty = ty then .ok () else .error (.slotType slot s.ty ty)

def Function.verifyStorage (f : Function) (defined : List (Nat × Ty)) :
    Instruction → Except VerifyFault Unit
  | .load _ slot ty => f.verifyAccess slot ty
  | .store slot value ty => do
    f.verifyAccess slot ty
    let stored ← f.typeOf defined value
    if stored = ty then .ok () else .error (.storedType stored ty slot)
  | _ => .ok ()

/-- `prologue` holds as long as only allocas of the entry block have been seen. -/
def Function.verifyInstructions (f : Function) (defined : List (Nat × Ty)) (block : Nat)
    (prologue : Bool) : List Instruction → Except VerifyFault Unit
  | [] => .ok ()
  | i :: is => do
    if i.isAlloca && !prologue then throw (.misplacedAlloca block)
    f.verifyOperands defined i.operands
    f.verifyStorage defined i
    f.verifyInstructions defined block (prologue && i.isAlloca) is

def Function.verifyReturn (f : Function) (defined : List (Nat × Ty)) :
    Option Operand → Except VerifyFault Unit
  | none => if f.returns = .void then .ok () else .error (.voidReturn f.returns)
  | some value => do
    if f.returns = .void then throw .valueReturned
    let found ← f.typeOf defined value
    if found = f.returns then .ok () else .error (.returnType found f.returns)

def Function.verifyTerminator (f : Function) (defined : List (Nat × Ty)) (b : Block) :
    Except VerifyFault Unit :=
  match b.terminator with
  | .unset => .error (.unterminated b.id b.label)
  | .ret value => f.verifyReturn defined value
  | .branch condition _ _ => do
    if (← f.typeOf defined condition) = .bool then .ok () else .error .conditionType
  | .jump _ => .ok ()

def Function.verifyTargets (f : Function) (block : Nat) : List Nat → Except VerifyFault Unit
  | [] => .ok ()
  | target :: targets =>
    if f.blocks.any (·.id == target) then f.verifyTargets block targets
    else .error (.missingTarget block target)

def Function.verifyBlock (f : Function) (defined : List (Nat × Ty)) (b : Block) :
    Except VerifyFault Unit := do
  f.verifyInstructions defined b.id (b.id == f.entry) b.instructions
  f.verifyTerminator defined b
  f.verifyTargets b.id b.terminator.successors

def Function.verifyBlocks (f : Function) (defined : List (Nat × Ty)) :
    List Block → Except VerifyFault Unit
  | [] => .ok ()
  | b :: bs => do
    f.verifyBlock defined b
    f.verifyBlocks defined bs

/-- The structural check of a finished function. It looks at the definitions first and then at each
block in order; the first fault is the answer. -/
def Function.verify (f : Function) : Except Error Unit :=
  match repeated? [] f.definitions with
  | some id => .error (.verify f.name (.definedTwice id))
  | none => (f.verifyBlocks f.definitions f.blocks).mapError (.verify f.name)

end TreeLang.Ir
