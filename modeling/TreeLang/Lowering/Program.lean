import TreeLang.Lowering.Control

namespace TreeLang.Lowering

open TreeLang.Tree (Expr Stmt FunctionDecl)
open Typing (Registry Callee)
open Lower

mutual

/-- An assignment and a call of a function without a result have no value. -/
def lowerExpr (r : Registry) : Expr → Lower Cause (Option Typed)
  | .int value => return some (.plain (.int value) .int)
  | .double value => return some (.plain (.float value) .double)
  | .str value => do
    let c ← get
    let (id, m) := c.module.addString value
    set { c with module := m }
    return some (.plain (.str id) .string)
  | .ident name => some <$> readName name
  | .neg operand => do
    let t ← needed "operand" operand (lowerExpr r operand)
    some <$> negate t
  | .binary op lhs rhs => do
    let left ← needed "operand" lhs (lowerExpr r lhs)
    let right ← needed "operand" rhs (lowerExpr r rhs)
    some <$> combine op left right
  | .assign target value => do
    let s ← storage target
    let t ← needed "right-hand side" value (lowerExpr r value)
    storeInto target s t
    return none
  | .call name args => do
    let callee ← liftExcept (Callee.resolve r (← get).module.external? name)
    liftExcept (callee.checkArity args.length)
    let values ← lowerArgs r callee 0 args
    call callee values
  | .block stmts => located (lowerStmts r none stmts)

/-- Lowers the arguments of a call from position `index` on. -/
def lowerArgs (r : Registry) (callee : Callee) (index : Nat) :
    List Expr → Lower Cause (List Ir.Operand)
  | [] => return []
  | e :: es => do
    let t ← needed "argument" e (lowerExpr r e)
    let value ← argument callee index t
    return value :: (← lowerArgs r callee (index + 1) es)

def lowerEach (r : Registry) : List Expr → Lower Cause Unit
  | [] => pure ()
  | e :: es => do
    let _ ← lowerExpr r e
    lowerEach r es

/-- The value of the last statement, `last` if there is none. -/
def lowerStmts (r : Registry) (last : Option Typed) : List Stmt → Lower Diagnostic (Option Typed)
  | [] => return last
  | s :: ss => do
    let value ← pinned (← get).function s.summary (lowerStmtValue r s)
    lowerStmts r value ss

def lowerStmtValue (r : Registry) : Stmt → Lower Cause (Option Typed)
  | .expr e => lowerExpr r e
  | .var name ty none => do
    if ty = .void then throw (.voidBinding name)
    let _ ← declareVar name ty
    return none
  | .var name ty (some init) => do
    if ty = .void then throw (.voidBinding name)
    let t ← needed "initializer" init (lowerExpr r init)
    let s ← declareVar name ty
    storeInto name s t
    return none
  | .function decl => do
    located (lowerFunction r decl)
    return none
  | .ret none => do
    returnFrom none
    return none
  | .ret (some value) => do
    let _ ← frame
    let t ← needed "return value" value (lowerExpr r value)
    returnFrom (some t)
    return none
  | .ite cond thenBlock none => do
    let t ← needed "if condition" cond (lowerExpr r cond)
    conditional (← test "if condition" t) (located (discard (lowerStmts r none thenBlock))) (pure ())
    return none
  | .ite cond thenBlock (some elseBlock) => do
    let t ← needed "if condition" cond (lowerExpr r cond)
    conditional (← test "if condition" t) (located (discard (lowerStmts r none thenBlock)))
      (located (discard (lowerStmts r none elseBlock)))
    return none
  | .loop init cond post body => do
    lowerEach r init
    repeated
      (do
        let t ← needed "for condition" cond (lowerExpr r cond)
        test "for condition" t)
      (do
        located (discard (lowerStmts r none body))
        lowerEach r post)
    return none

def lowerFunction (r : Registry) : FunctionDecl → Lower Diagnostic Unit
  | ⟨name, params, returns, body⟩ =>
    define name (FunctionDecl.header ⟨name, params, returns, body⟩) params returns do
      return .value (← lowerStmts r none body)

end

def lowerBlock (r : Registry) (block : Tree.Block) : Lower Diagnostic (Option Typed) :=
  lowerStmts r none block

def lowerStmt (r : Registry) (s : Stmt) : Lower Diagnostic (Option Typed) := do
  pinned (← get).function s.summary (lowerStmtValue r s)

def lowerValue (r : Registry) (e : Expr) (role : String) : Lower Cause Typed :=
  needed role e (lowerExpr r e)

/-- Lowers the statements of a program to its entry function, which returns 0 at its end. -/
def lowerEntry (r : Registry) (program : Tree.Block) : Lower Diagnostic Unit :=
  define entryName "<top level>" [] .int do
    let _ ← lowerBlock r program
    return .zero

/-- The module of a program. A name declared twice, or the first failure, is reported alone. Every
expression is lowered into the block at hand; a conditional and a loop make blocks of their own and go
on in the last of them. A function is lowered where its declaration stands, in a frame of its own, so it
comes before the functions around it. -/
def lower (program : Tree.Block) (name : String) : Except Diagnostic Ir.Module :=
  let declared := Tree.nestedFunctions program
  match Registry.duplicates [] declared with
  | d :: _ => .error d
  | [] =>
    match (lowerEntry ⟨declared⟩ program).run.run (.start name) with
    | (.ok (), c) => .ok c.module
    | (.error d, _) => .error d

end TreeLang.Lowering
