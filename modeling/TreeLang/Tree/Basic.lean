import TreeLang.Double.Basic

namespace TreeLang.Tree

inductive Ty where
  | int
  | double
  | string
  | void
  deriving DecidableEq

inductive BinaryOp where
  | add
  | sub
  | mul
  | div
  | eq
  | ne
  | gt
  | ge
  | lt
  | le
  deriving DecidableEq

structure Param where
  name : String
  ty : Ty
  deriving DecidableEq

mutual

/-- Syntax trees of the language. Functions may be declared at any depth, since an expression may be a
block. -/
inductive Expr where
  | int (value : Int32)
  | double (value : Double)
  | str (value : String)
  | ident (name : String)
  | neg (operand : Expr)
  | binary (op : BinaryOp) (lhs rhs : Expr)
  | assign (target : String) (value : Expr)
  | call (callee : String) (args : List Expr)
  /-- Its value is that of its last statement. -/
  | block (stmts : List Stmt)

inductive Stmt where
  | expr (expr : Expr)
  | var (name : String) (ty : Ty) (init : Option Expr)
  | function (decl : FunctionDecl)
  | ret (value : Option Expr)
  | ite (cond : Expr) (thenBlock : List Stmt) (elseBlock : Option (List Stmt))
  | loop (init : List Expr) (cond : Expr) (post : List Expr) (body : List Stmt)

structure FunctionDecl where
  name : String
  params : List Param
  returns : Ty
  body : List Stmt

end

/-- A program is a block, the statements of its entry function. -/
abbrev Block := List Stmt

namespace Ty

def isNumeric : Ty → Bool
  | int | double => true
  | string | void => false

def text : Ty → String
  | int => "int"
  | double => "double"
  | string => "string"
  | void => "void"

end Ty

namespace BinaryOp

def isComparison : BinaryOp → Bool
  | add | sub | mul | div => false
  | eq | ne | gt | ge | lt | le => true

def symbol : BinaryOp → String
  | add => "+"
  | sub => "-"
  | mul => "*"
  | div => "/"
  | eq => "=="
  | ne => "!="
  | gt => ">"
  | ge => ">="
  | lt => "<"
  | le => "<="

def all : List BinaryOp :=
  [add, sub, mul, div, eq, ne, gt, ge, lt, le]

end BinaryOp

mutual

/-- Whether every path through the statement ends in a `return`. -/
def Stmt.definitelyReturns : Stmt → Bool
  | .ret _ => true
  | .ite _ thenBlock (some elseBlock) => returnsAtEnd thenBlock && returnsAtEnd elseBlock
  | _ => false

/-- Whether the last statement of the block definitely returns. -/
def returnsAtEnd : List Stmt → Bool
  | [] => false
  | [s] => s.definitelyReturns
  | _ :: s :: ss => returnsAtEnd (s :: ss)

end

end TreeLang.Tree
