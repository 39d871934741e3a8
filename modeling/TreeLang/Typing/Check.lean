import TreeLang.Typing.Rules
import TreeLang.Typing.Scope

namespace TreeLang.Typing

open TreeLang.Tree (Ty Expr Stmt FunctionDecl)

structure Checker where
  scopes : Scopes
  /-- The functions being checked, innermost first. -/
  functions : List String
  /-- The failures recorded so far, in the order in which they were found. -/
  diagnostics : List Diagnostic

namespace Checker

/-- A checker of statements in the body of the entry function. -/
def start (scopes : Scopes) : Checker := ⟨scopes, [entryName], []⟩

def function (c : Checker) : String := c.functions.headD entryName

def report (c : Checker) (d : Diagnostic) : Checker :=
  { c with diagnostics := c.diagnostics ++ [d] }

def declare (c : Checker) (name : String) (ty : Ty) : Checker :=
  { c with scopes := c.scopes.declare name ty }

def enter (c : Checker) (function : String) (returns : Ty) : Checker :=
  { c with scopes := c.scopes.enter returns, functions := function :: c.functions }

def leave (c : Checker) : Checker :=
  { c with scopes := c.scopes.leave, functions := c.functions.tail }

end Checker

/-- A computation on a checker that may fail; what it did before it failed stays done. -/
abbrev Check (ε α : Type) := ExceptT ε (StateM Checker) α

namespace Check

/-- Runs `after` where `m` fails, then fails as `m` did. -/
def onFailure {ε α : Type} (m : Check ε α) (after : StateM Checker Unit) : Check ε α :=
  tryCatch m fun e => do
    after
    throw e

/-- Pins a failure to a statement of the function at hand. -/
def pinned {α : Type} (s : Stmt) (m : Check Cause α) : Check Diagnostic α := do
  let c ← get
  m.adapt (Diagnostic.pin c.function s.summary)

/-- A failure inside a block expression is one of the expression. -/
def located {α : Type} (m : Check Diagnostic α) : Check Cause α :=
  m.adapt .located

/-- Checks the body of a function in a table of its own and records its failure. -/
def inFunction (function : String) (returns : Ty) (body : Check Diagnostic Unit) :
    StateM Checker Unit := do
  modify (·.enter function returns)
  let outcome ← body.run
  modify (·.leave)
  match outcome with
  | .ok () => pure ()
  | .error d => modify (·.report d)

end Check

open Check

def nameType (name : String) : Check Cause Ty := do
  match (← get).scopes.lookup name with
  | some ty => pure ty
  | none => throw (.unboundName name)

def requireCondition (role : String) (ty : Ty) : Except Cause Unit :=
  if ty.isNumeric then .ok () else .error (.invalidOperand (.condition role) ty)

/-- An argument fits its parameter; one without a parameter only has to be a value. -/
def requireArgument (callee : Callee) (index : Nat) (found : Ty) : Except Cause Unit :=
  match callee.params[index]? with
  | some expected =>
    if coercible found expected then .ok ()
    else .error (.argumentTypeMismatch callee.name index expected found)
  | none =>
    if found = .void then .error (.invalidOperand (.variadic callee.name) found) else .ok ()

def requireAssignable (name : String) (expected found : Ty) : Except Cause Unit :=
  if coercible found expected then .ok () else .error (.incompatibleAssignment name expected found)

/-- Checks the value of a `return` statement against the type that the function returns. -/
def requireReturn (found : Ty) : Check Cause Unit := do
  let c ← get
  if coercible found c.scopes.returns then pure ()
  else throw (.returnTypeMismatch c.function c.scopes.returns found)

def requireStorable (name : String) (ty : Ty) : Except Cause Unit :=
  if ty = .void then .error (.voidBinding name) else .ok ()

/-- Declares the parameters of a function, up to the first one that cannot hold a value. -/
def declareParams (decl : FunctionDecl) : List Tree.Param → Check Diagnostic Unit
  | [] => pure ()
  | p :: ps => do
    liftExcept <| (requireStorable p.name p.ty).mapError (Diagnostic.mk decl.name decl.header)
    modify (·.declare p.name p.ty)
    declareParams decl ps

/-- The end of a function is not reached, or has a value of the type that the function returns. -/
def requireResult (decl : FunctionDecl) (found : Ty) : Except Diagnostic Unit :=
  if decl.returns = .void ∨ Tree.returnsAtEnd decl.body ∨ coercible found decl.returns then .ok ()
  else .error ⟨decl.name, decl.header, .returnTypeMismatch decl.name decl.returns found⟩

mutual

def typeOf (r : Registry) : Expr → Check Cause Ty
  | .int _ => pure .int
  | .double _ => pure .double
  | .str _ => pure .string
  | .ident name => nameType name
  | .neg operand => do
    liftExcept (negType (← typeOf r operand))
  | .binary op lhs rhs => do
    let left ← typeOf r lhs
    let right ← typeOf r rhs
    liftExcept (binaryType op left right)
  | .assign target value => do
    let expected ← nameType target
    liftExcept (requireAssignable target expected (← typeOf r value))
    return .void
  | .call name args => do
    let callee ← liftExcept (Callee.resolve r Ir.prototype? name)
    liftExcept (callee.checkArity args.length)
    checkArgs r callee 0 args
    return callee.returns
  | .block stmts => located (typeOfStmts r .void stmts)

/-- Checks the arguments of a call from position `index` on. -/
def checkArgs (r : Registry) (callee : Callee) (index : Nat) : List Expr → Check Cause Unit
  | [] => pure ()
  | e :: es => do
    liftExcept (requireArgument callee index (← typeOf r e))
    checkArgs r callee (index + 1) es

def checkEach (r : Registry) : List Expr → Check Cause Unit
  | [] => pure ()
  | e :: es => do
    let _ ← typeOf r e
    checkEach r es

/-- The type of the last statement, `last` if there is none. Behind a failing statement only the
functions are checked. -/
def typeOfStmts (r : Registry) (last : Ty) : List Stmt → Check Diagnostic Ty
  | [] => pure last
  | s :: ss => do
    let ty ← (pinned s (typeOfStmt r s)).onFailure (checkFunctionsIn r ss)
    typeOfStmts r ty ss

def typeOfStmt (r : Registry) : Stmt → Check Cause Ty
  | .expr e => typeOf r e
  | .var name ty none => do
    liftExcept (requireStorable name ty)
    modify (·.declare name ty)
    return .void
  | .var name ty (some init) => do
    liftExcept (requireStorable name ty)
    let found ← (typeOf r init).onFailure (modify (·.declare name ty))
    modify (·.declare name ty)
    liftExcept (requireAssignable name ty found)
    return .void
  | .function decl => do
    checkFunction r decl
    return .void
  | .ret none => do
    requireReturn .void
    return .void
  | .ret (some value) => do
    requireReturn (← typeOf r value)
    return .void
  | .ite cond thenBlock none => do
    onFailure
      (do liftExcept (requireCondition "if condition" (← typeOf r cond)))
      (checkFunctionsIn r thenBlock)
    let _ ← located (typeOfStmts r .void thenBlock)
    return .void
  | .ite cond thenBlock (some elseBlock) => do
    onFailure
      (do liftExcept (requireCondition "if condition" (← typeOf r cond)))
      (do checkFunctionsIn r thenBlock; checkFunctionsIn r elseBlock)
    let _ ← (located (typeOfStmts r .void thenBlock)).onFailure (checkFunctionsIn r elseBlock)
    let _ ← located (typeOfStmts r .void elseBlock)
    return .void
  | .loop init cond post body => do
    onFailure
      (do
        checkEach r init
        liftExcept (requireCondition "for condition" (← typeOf r cond)))
      (checkFunctionsIn r body)
    let _ ← located (typeOfStmts r .void body)
    checkEach r post
    return .void

/-- Checks a function in a table of its own. Its failure is recorded, never returned. -/
def checkFunction (r : Registry) : FunctionDecl → StateM Checker Unit
  | ⟨name, params, returns, body⟩ =>
    inFunction name returns do
      declareParams ⟨name, params, returns, body⟩ params
      let found ← typeOfStmts r .void body
      liftExcept (requireResult ⟨name, params, returns, body⟩ found)

/-- Checks the functions that the shallow walk of a block meets. -/
def checkFunctionsIn (r : Registry) : List Stmt → StateM Checker Unit
  | [] => pure ()
  | s :: ss => do
    checkFunctionsInStmt r s
    checkFunctionsIn r ss

def checkFunctionsInStmt (r : Registry) : Stmt → StateM Checker Unit
  | .expr e => checkFunctionsInExpr r e
  | .var _ _ none => pure ()
  | .var _ _ (some init) => checkFunctionsInExpr r init
  | .function decl => checkFunction r decl
  | .ret none => pure ()
  | .ret (some value) => checkFunctionsInExpr r value
  | .ite cond thenBlock none => do
    checkFunctionsInExpr r cond
    checkFunctionsIn r thenBlock
  | .ite cond thenBlock (some elseBlock) => do
    checkFunctionsInExpr r cond
    checkFunctionsIn r thenBlock
    checkFunctionsIn r elseBlock
  | .loop init cond post body => do
    checkFunctionsInExprs r init
    checkFunctionsInExpr r cond
    checkFunctionsInExprs r post
    checkFunctionsIn r body

def checkFunctionsInExpr (r : Registry) : Expr → StateM Checker Unit
  | .int _ | .double _ | .str _ | .ident _ => pure ()
  | .neg operand => checkFunctionsInExpr r operand
  | .binary _ lhs rhs => do
    checkFunctionsInExpr r lhs
    checkFunctionsInExpr r rhs
  | .assign _ value => checkFunctionsInExpr r value
  | .call _ args => checkFunctionsInExprs r args
  | .block stmts => checkFunctionsIn r stmts

def checkFunctionsInExprs (r : Registry) : List Expr → StateM Checker Unit
  | [] => pure ()
  | e :: es => do
    checkFunctionsInExpr r e
    checkFunctionsInExprs r es

end

/-- The type of a block is that of its last statement, `void` for an empty one. -/
def typeOfBlock (r : Registry) (block : Tree.Block) : Check Diagnostic Ty :=
  typeOfStmts r .void block

def checkStmt (r : Registry) (s : Stmt) : Check Diagnostic Ty :=
  pinned s (typeOfStmt r s)

/-- Whether the statement passes; its failure is recorded. -/
def passes (r : Registry) (s : Stmt) : StateM Checker Bool := do
  match ← (checkStmt r s).run with
  | .ok _ => return true
  | .error d =>
    modify (·.report d)
    return false

/-- Checks the statements of a program, the body of a function that returns an integer. -/
def checkProgram (r : Registry) (program : Tree.Block) : StateM Checker Unit := do
  match ← (typeOfBlock r program).run with
  | .ok _ => pure ()
  | .error d => modify (·.report d)

/-- The functions of a program that passes, else all that is wrong with it. A failure inside a function
is recorded and does not fail the statements around the function, and what follows a failure is still
searched for functions, so one pass reports on every function that it comes to. -/
def check (program : Tree.Block) : Except (List Diagnostic) Registry := do
  let r ← Registry.collect program
  let (_, checker) := (checkProgram r program).run (.start (.ofReturns .int))
  match checker.diagnostics with
  | [] => return r
  | ds => throw ds

end TreeLang.Typing
