import TreeLang.Diagnostic
import TreeLang.Tree.Walk

namespace TreeLang.Typing

open TreeLang.Tree (Ty BinaryOp FunctionDecl)

/-- Whether a value of type `source` may be stored where `target` is expected, as it is or converted
between numbers. -/
def coercible (source target : Ty) : Bool :=
  source == target || (source.isNumeric && target.isNumeric)

/-- The type of a binary expression. A comparison has the type that its operands are converted to. -/
def binaryType (op : BinaryOp) (left right : Ty) : Except Cause Ty :=
  if left ≠ right ∧ !(left.isNumeric && right.isNumeric) then .error (.typeMismatch op left right)
  else
    match [left, right].find? (!·.isNumeric) with
    | some ty => .error (.invalidOperand (.operator op) ty)
    | none => .ok (if left = .double ∨ right = .double then .double else .int)

def negType (operand : Ty) : Except Cause Ty :=
  if operand.isNumeric then .ok operand else .error (.invalidOperand .negation operand)

end Typing

def Tree.Ty.toIr : Tree.Ty → Ir.Ty
  | .int => .i32
  | .double => .f64
  | .string => .ptr
  | .void => .void

def Tree.Ty.ofIr : Ir.Ty → Tree.Ty
  | .i32 | .bool => .int
  | .f64 => .double
  | .ptr => .string
  | .void => .void

namespace Typing

open TreeLang.Tree (Ty FunctionDecl)

/-- The functions that a program declares, at any depth, in the order of the deep walk. -/
structure Registry where
  functions : List FunctionDecl

namespace Registry

def empty : Registry := ⟨[]⟩

def get? (r : Registry) (name : String) : Option FunctionDecl :=
  r.functions.find? (·.name == name)

def contains (r : Registry) (name : String) : Bool :=
  (r.get? name).isSome

/-- The declarations whose name is taken: the entry's, or that of an earlier declaration. -/
def duplicates (seen : List String) : List FunctionDecl → List Diagnostic
  | [] => []
  | d :: ds =>
    if d.name = entryName ∨ d.name ∈ seen then
      ⟨d.name, d.header, .duplicateFunction d.name⟩ :: duplicates seen ds
    else duplicates (d.name :: seen) ds

def collect (program : Tree.Block) : Except (List Diagnostic) Registry :=
  let declared := Tree.nestedFunctions program
  match duplicates [] declared with
  | [] => .ok ⟨declared⟩
  | ds => .error ds

end Registry

inductive Callee where
  | declared (decl : FunctionDecl)
  | external (ext : Ir.External)

namespace Callee

def resolve (r : Registry) (externals : String → Option Ir.External) (name : String) :
    Except Cause Callee :=
  match r.get? name with
  | some decl => .ok (declared decl)
  | none =>
    match externals name with
    | some ext => .ok (external ext)
    | none => .error (.unknownCallee name)

def name : Callee → String
  | declared decl => decl.name
  | external ext => ext.name

def returns : Callee → Ty
  | declared decl => decl.returns
  | external ext => .ofIr ext.returns

def params : Callee → List Ty
  | declared decl => decl.params.map (·.ty)
  | external ext => ext.params.map .ofIr

def isVariadic : Callee → Bool
  | declared _ => false
  | external ext => ext.variadic

def accepts : Callee → Nat → Bool
  | declared decl, found => found == decl.params.length
  | external ext, found => ext.accepts found

def checkArity (c : Callee) (found : Nat) : Except Cause Unit :=
  if c.accepts found then .ok ()
  else .error (.arityMismatch c.name c.params.length found c.isVariadic)

end Callee

end Typing

end TreeLang
