import TreeLang.Lowering.Context

namespace TreeLang

def Tree.BinaryOp.toIr : Tree.BinaryOp → Ir.BinOp
  | .add => .add
  | .sub => .sub
  | .mul => .mul
  | .div => .div
  | .eq => .eq
  | .ne => .ne
  | .gt => .gt
  | .ge => .ge
  | .lt => .lt
  | .le => .le

theorem Tree.BinaryOp.isComparison_toIr (op : Tree.BinaryOp) :
    op.toIr.isComparison = op.isComparison := by
  cases op <;> rfl

namespace Lowering.Lower

open TreeLang.Tree (Ty)
open Typing (coercible)

/-- The value of an expression that has to have one. -/
def needed (role : String) (e : Tree.Expr) (m : Lower Cause (Option Typed)) : Lower Cause Typed := do
  match ← m with
  | some t => return t
  | none => throw (.emission (.noValue role e.source))

/-- Widens a comparison to the number it stands for. -/
def materialize (t : Typed) : Lower Cause Ir.Operand :=
  if t.repr = .bool then build (·.cast t.value .bool t.ty.toIr) else pure t.value

def coerce (t : Typed) (target : Ty) : Lower Cause Ir.Operand := do
  let value ← materialize t
  if t.ty = target then return value
  else if t.ty.isNumeric && target.isNumeric then
    build (·.cast value t.ty.toIr target.toIr)
  else throw (.emission (.noConversion t.ty target))

def negate (t : Typed) : Lower Cause Typed := do
  let ty ← liftExcept (Typing.negType t.ty)
  let value ← materialize t
  return .plain (← build (·.neg value ty.toIr)) ty

/-- Both operands are converted to the type of the expression first. -/
def combine (op : Tree.BinaryOp) (left right : Typed) : Lower Cause Typed := do
  let ty ← liftExcept (Typing.binaryType op left.ty right.ty)
  let l ← coerce left ty
  let r ← coerce right ty
  let result ← build (·.binary op.toIr l r ty.toIr)
  return if op.isComparison then .comparison result ty else .plain result ty

def readName (name : String) : Lower Cause Typed := do
  let s ← storage name
  return .plain (← build (·.load s.slot s.ty.toIr)) s.ty

def storeInto (name : String) (s : Storage) (t : Typed) : Lower Cause Unit := do
  if coercible t.ty s.ty then
    let value ← coerce t s.ty
    emit (·.store s.slot value s.ty.toIr)
  else throw (.incompatibleAssignment name s.ty t.ty)

/-- An argument is converted to the type of its parameter, or only widened if it has none. -/
def argument (callee : Typing.Callee) (index : Nat) (t : Typed) : Lower Cause Ir.Operand :=
  match callee.params[index]? with
  | some expected =>
    if coercible t.ty expected then coerce t expected
    else throw (.argumentTypeMismatch callee.name index expected t.ty)
  | none => materialize t

def call (callee : Typing.Callee) (args : List Ir.Operand) : Lower Cause (Option Typed) := do
  let result ← build (·.call callee.name args callee.returns.toIr)
  return result.map (Typed.plain · callee.returns)

/-- The `bool` to branch on: a comparison as it is, a number tested against zero. -/
def test (role : String) (t : Typed) : Lower Cause Ir.Operand :=
  if t.repr = .bool then pure t.value
  else
    match t.ty with
    | .int => build (·.binary .ne t.value (.int 0) .i32)
    | .double => build (·.binary .ne t.value (.float .zero) .f64)
    | ty => throw (.invalidOperand (.condition role) ty)

def declareVar (name : String) (ty : Ty) : Lower Cause Storage := do
  let s : Storage := ⟨← build (·.alloca name ty.toIr), ty⟩
  let f ← frame
  setFrame { f with locals := (name, s) :: f.locals }
  modify (·.declare name ty)
  return s

end Lowering.Lower

end TreeLang
