import TreeLang.Tree.Basic
import TreeLang.Double.Text
import TreeLang.Text.Quoted

namespace TreeLang.Tree

/-- The declared form of a function: `returns name(type param, ...)`. -/
def FunctionDecl.header (d : FunctionDecl) : String :=
  d.returns.text ++ " " ++ d.name ++ "(" ++
    ", ".intercalate (d.params.map fun p => p.ty.text ++ " " ++ p.name) ++ ")"

def indentation (depth : Nat) : String :=
  String.ofList (List.replicate (4 * depth) ' ')

def int32Text (n : Int32) : String :=
  toString n.toInt

/-- Whether an operand of this form needs parentheses. -/
def Expr.isCompound : Expr → Bool
  | .binary .. | .assign .. => true
  | _ => false

def parenthesize (compound : Bool) (text : String) : String :=
  if compound then "(" ++ text ++ ")" else text

/-- The lines of a block between its braces, at the depth of the closing one. -/
def braced (depth : Nat) (empty : Bool) (lines : String) : String :=
  if empty then "\x7b \x7d" else "\x7b\n" ++ lines ++ indentation depth ++ "\x7d"

mutual

/-- Operands are put in parentheses when they are binary expressions or assignments and are left bare
otherwise; a block stands on lines of its own, indented by its depth. Arguments and the lists of a loop
header start again at depth 0. -/
def Expr.sourceAt (depth : Nat) : Expr → String
  | .int value => int32Text value
  | .double value => value.literal
  | .str value => Text.quote value
  | .ident name => name
  | .neg operand => "-" ++ parenthesize operand.isCompound (operand.sourceAt depth)
  | .binary op lhs rhs =>
    parenthesize lhs.isCompound (lhs.sourceAt depth) ++ " " ++ op.symbol ++ " " ++
      parenthesize rhs.isCompound (rhs.sourceAt depth)
  | .assign target value => target ++ " = " ++ value.sourceAt depth
  | .call callee args => callee ++ "(" ++ ", ".intercalate (sourcesOfExprs args) ++ ")"
  | .block stmts => braced depth stmts.isEmpty (linesAt (depth + 1) stmts)

def sourcesOfExprs : List Expr → List String
  | [] => []
  | e :: es => e.sourceAt 0 :: sourcesOfExprs es

def Stmt.sourceAt (depth : Nat) : Stmt → String
  | .expr e => e.sourceAt depth ++ ";"
  | .var name ty none => ty.text ++ " " ++ name ++ ";"
  | .var name ty (some init) => ty.text ++ " " ++ name ++ " = " ++ init.sourceAt depth ++ ";"
  | .function decl => decl.sourceAt depth
  | .ret none => "return;"
  | .ret (some value) => "return " ++ value.sourceAt depth ++ ";"
  | .ite cond thenBlock none =>
    "if (" ++ cond.sourceAt depth ++ ") " ++
      braced depth thenBlock.isEmpty (linesAt (depth + 1) thenBlock)
  | .ite cond thenBlock (some elseBlock) =>
    "if (" ++ cond.sourceAt depth ++ ") " ++
      braced depth thenBlock.isEmpty (linesAt (depth + 1) thenBlock) ++ " else " ++
      braced depth elseBlock.isEmpty (linesAt (depth + 1) elseBlock)
  | .loop init cond post body =>
    "for (" ++ ", ".intercalate (sourcesOfExprs init) ++ "; " ++ cond.sourceAt depth ++ "; " ++
      ", ".intercalate (sourcesOfExprs post) ++ ") " ++
      braced depth body.isEmpty (linesAt (depth + 1) body)

def FunctionDecl.sourceAt (depth : Nat) : FunctionDecl → String
  | ⟨name, params, returns, body⟩ =>
    FunctionDecl.header ⟨name, params, returns, body⟩ ++ " " ++
      braced depth body.isEmpty (linesAt (depth + 1) body)

def linesAt (depth : Nat) : List Stmt → String
  | [] => ""
  | s :: ss => indentation depth ++ s.sourceAt depth ++ "\n" ++ linesAt depth ss

end

def blockSource (block : Block) : String :=
  braced 0 block.isEmpty (linesAt 1 block)

def Expr.source (e : Expr) : String :=
  e.sourceAt 0

def Stmt.source (s : Stmt) : String :=
  s.sourceAt 0

/-- A program: its statements without braces around them. -/
def programSource (program : Block) : String :=
  linesAt 0 program

/-- The text a diagnostic points with: compound statements stop at their header. -/
def Stmt.summary : Stmt → String
  | .function decl => decl.header
  | .ite cond _ _ => "if (" ++ cond.source ++ ")"
  | .loop init cond post _ =>
    "for (" ++ ", ".intercalate (sourcesOfExprs init) ++ "; " ++ cond.source ++ "; " ++
      ", ".intercalate (sourcesOfExprs post) ++ ")"
  | s => s.source

end TreeLang.Tree
