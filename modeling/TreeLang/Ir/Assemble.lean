import TreeLang.Ir.Module

namespace TreeLang.Ir

/-- The values and slots that the instructions taken so far have made known. -/
structure Known where
  values : List Operand
  slots : List Nat
  deriving DecidableEq

namespace Known

def none : Known := ⟨[], []⟩

def define (k : Known) (result : Operand) : Known :=
  { k with values := result :: k.values }

def slot (k : Known) (slot : Nat) : Except Error Unit :=
  if slot ∈ k.slots then .ok () else .error (.code (.beforeAlloca slot))

/-- Constants are always known, strings of the module too. -/
def operand (k : Known) (m : Module) : Operand → Except Error Unit
  | .constant _ => .ok ()
  | .str id => if id < m.strings.length then .ok () else .error (.code (.undeclaredString id))
  | v => if v ∈ k.values then .ok () else .error (.code (.undefinedValue v))

end Known

/-- A parameter has to have a machine representation, and `void` has none. -/
def representable (params : List Ty) : Except Error Unit :=
  if .void ∈ params then .error (.type (.unrepresentable .void)) else .ok ()

def Function.target (f : Function) (id : Nat) : Except Error Unit :=
  if f.blocks.any (·.id == id) then .ok () else .error (.code (.unknownBlock id))

structure Linkage where
  /-- The least number of arguments, for a callee that takes trailing ones. -/
  fixed : Option Nat
  returns : Ty
  deriving DecidableEq

namespace Module

def linkage? (m : Module) (name : String) : Option Linkage :=
  match m.function? name with
  | some f => some ⟨none, f.returns⟩
  | none =>
    (m.external? name).map fun e => ⟨if e.variadic then some e.params.length else none, e.returns⟩

def assembleInstruction (m : Module) (k : Known) : Instruction → Except Error Known
  | .alloca slot ty _ =>
    if ty = .void then .error (.type (.unrepresentable ty))
    else .ok { k with slots := slot :: k.slots }
  | .load result slot _ => do
    k.slot slot
    return k.define result
  | .store slot value _ => do
    k.slot slot
    k.operand m value
    return k
  | .binary op result left right ty => do
    k.operand m left
    k.operand m right
    if op.isComparison ∧ (ty = .ptr ∨ ty = .void) then throw (.code (.incomparable ty))
    return k.define result
  | .neg result operand _ => do
    k.operand m operand
    return k.define result
  | .cast result value source target => do
    k.operand m value
    match source, target with
    | .i32, .f64 | .f64, .i32 | .bool, .i32 | .bool, .f64 => return k.define result
    | _, _ =>
      if source = target then return k.define result
      else throw (.code (.unsupportedCast source target))
  | .call result callee args _ => do
    match m.linkage? callee with
    | none => throw (.unknownFunction callee)
    | some link =>
      let fixed := link.fixed.getD 0
      if args.length < fixed then throw (.code (.missingArguments fixed))
      args.forM (k.operand m)
      match result with
      | none => return k
      | some result =>
        if link.returns = .void then throw (.code (.noResult callee)) else return k.define result

def assembleTerminator (m : Module) (f : Function) (k : Known) : Terminator → Except Error Unit
  | .jump target => f.target target
  | .branch condition thenBlock elseBlock => do
    k.operand m condition
    f.target thenBlock
    f.target elseBlock
  | .ret (some value) => k.operand m value
  | .ret none => .ok ()
  | .unset => .error (.code .unterminated)

/-- The incoming arguments are known from the entry block on. -/
def assembleBlock (m : Module) (f : Function) (k : Known) (b : Block) : Except Error Known := do
  let k : Known :=
    if b.id = f.entry then { k with values := (List.range f.params.length).map .param ++ k.values }
    else k
  let k ← b.instructions.foldlM (assembleInstruction m) k
  assembleTerminator m f k b.terminator
  return k

def assembleFunction (m : Module) (f : Function) : Except Error Unit := do
  f.target f.entry
  let _ ← f.blocks.foldlM (assembleBlock m f) .none
  return ()

/-- A string may not have the symbol of a function. -/
def assembleString (m : Module) (id : Nat) : Except Error Unit :=
  let symbol := stringSymbol id
  if m.functions.any (·.name == symbol) || m.externals.any (·.name == symbol) then
    .error (.symbolClash symbol)
  else .ok ()

/-- What machine code needs of a module: every signature can be represented, every string has a symbol
of its own, and every block, slot, value, string and callee is known where it is named, when functions
are taken in order and blocks in the order in which they were made. -/
def assemble (m : Module) : Except Error Unit := do
  m.externals.forM (representable ·.params)
  m.functions.forM fun f => representable (f.params.map (·.ty))
  (List.range m.strings.length).forM m.assembleString
  m.functions.forM m.assembleFunction

end Module

end TreeLang.Ir
