import TreeLang.Proofs.Meaning.Library
import TreeLang.Proofs.Meaning.Names

namespace TreeLang.Meaning

open TreeLang.Tree (Ty Expr Stmt FunctionDecl Param)
open Typing (Registry Callee)
open Machine (Fault Console Stored)

inductive Halt where
  | failed (fault : Fault)
  /-- The bound was too small. -/
  | exhausted
  deriving DecidableEq

inductive Stop where
  | returned (value : Option Value)
  | halted (halt : Halt)
  deriving DecidableEq

structure World where
  cells : List Value
  console : Console

abbrev Answer := Except Halt (Option Value) × Console

structure Env where
  registry : Registry
  returns : Ty
  /-- How often a loop may go round. -/
  rounds : Nat
  invoke : FunctionDecl → List Value → Console → Answer

abbrev Eval (α : Type) := ExceptT Stop (StateM World) α

namespace Eval

def fail {α : Type} (fault : Fault) : Eval α := throw (.halted (.failed fault))

def attempt {α : Type} : Except Fault α → Eval α
  | .ok a => pure a
  | .error fault => fail fault

def needed (m : Eval (Option Value)) : Eval Value := do
  match ← m with
  | some v => return v
  | none => fail .stuck

def read (names : Names) (name : String) : Eval Value := do
  let w ← get
  match (names.cell? name).bind (w.cells[·.index]?) with
  | some v => return v
  | none => fail .stuck

def assign (names : Names) (name : String) (v : Value) : Eval Unit := do
  match names.cell? name with
  | some cell =>
    let v ← attempt (v.convert cell.ty)
    modify fun w => { w with cells := w.cells.set cell.index v }
  | none => fail .stuck

def argument (expected : Option Ty) (v : Value) : Eval Value :=
  match expected with
  | some ty => attempt (v.convert ty)
  | none => pure v

def answer : Answer → Eval (Option Value)
  | (result, console) => do
    modify fun w => { w with console := console }
    match result with
    | .ok v => return v
    | .error halt => throw (.halted halt)

def resolve (env : Env) (name : String) : Eval Callee :=
  match Callee.resolve env.registry Ir.prototype? name with
  | .ok callee => pure callee
  | .error _ => fail .stuck

def call (env : Env) (callee : Callee) (args : List Value) : Eval (Option Value) := do
  let console := (← get).console
  match callee with
  | .declared decl => answer (env.invoke decl args console)
  | .external ext =>
    match library console ext.name args with
    | .ok (v, console) => answer (.ok (some v), console)
    | .error fault => fail fault

def iterate (test : Eval Bool) (round : Eval Unit) : Nat → Eval Unit
  | 0 => throw (.halted .exhausted)
  | n + 1 => do
    if ← test then
      round
      iterate test round n
    else pure ()

end Eval

open Eval

mutual

/-- An assignment and a call of a function without a result have no value. -/
def evalExpr (env : Env) (names : Names) : Expr → Eval (Option Value)
  | .int n => return some (.int n)
  | .double x => return some (.double x)
  | .str text => return some (.string (some (Stored.literal names.literals text)))
  | .ident name => some <$> read names name
  | .neg operand => do
    let v ← needed (evalExpr env names operand)
    some <$> attempt v.negate
  | .binary op lhs rhs => do
    let l ← needed (evalExpr env names lhs)
    let r ← needed (evalExpr env (names.afterExpr lhs) rhs)
    some <$> attempt (Value.binary op l r)
  | .assign target value => do
    let v ← needed (evalExpr env names value)
    assign names target v
    return none
  | .call name args => do
    let callee ← resolve env name
    let values ← evalArgs env names callee.params args
    call env callee values
  | .block stmts => evalStmts env names none stmts

/-- The arguments of a call, and the types of the parameters for them. -/
def evalArgs (env : Env) (names : Names) (params : List Ty) : List Expr → Eval (List Value)
  | [] => return []
  | e :: es => do
    let v ← needed (evalExpr env names e)
    let v ← argument params.head? v
    return v :: (← evalArgs env (names.afterExpr e) params.tail es)

def evalEach (env : Env) (names : Names) : List Expr → Eval Unit
  | [] => pure ()
  | e :: es => do
    let _ ← evalExpr env names e
    evalEach env (names.afterExpr e) es

/-- The value of the last statement, `last` if there is none. -/
def evalStmts (env : Env) (names : Names) (last : Option Value) : List Stmt → Eval (Option Value)
  | [] => return last
  | s :: ss => do
    let v ← evalStmt env names s
    evalStmts env (names.afterStmt s) v ss

def evalStmt (env : Env) (names : Names) : Stmt → Eval (Option Value)
  | .expr e => evalExpr env names e
  | .var _ _ none => return none
  | .var name ty (some init) => do
    let v ← needed (evalExpr env names init)
    assign ((names.afterExpr init).declare name ty) name v
    return none
  | .function _ => return none
  | .ret none => throw (.returned none)
  | .ret (some value) => do
    let v ← needed (evalExpr env names value)
    let v ← attempt (v.convert env.returns)
    throw (.returned (some v))
  | .ite cond thenBlock none => do
    let v ← needed (evalExpr env names cond)
    if ← attempt v.isTrue then discard (evalStmts env (names.afterExpr cond) none thenBlock)
    return none
  | .ite cond thenBlock (some elseBlock) => do
    let v ← needed (evalExpr env names cond)
    let names := names.afterExpr cond
    if ← attempt v.isTrue then discard (evalStmts env names none thenBlock)
    else discard (evalStmts env (names.afterStmts thenBlock) none elseBlock)
    return none
  | .loop init cond post body => do
    evalEach env names init
    let names := names.afterExprs init
    let inside := names.afterExpr cond
    iterate
      (do
        let v ← needed (evalExpr env names cond)
        attempt v.isTrue)
      (do
        discard (evalStmts env inside none body)
        evalEach env (inside.afterStmts body) post)
      env.rounds
    return none

end

/-- Evaluates a body in an activation of its own. So many literals come before the body, the arguments
are in the first cells, and `ending` says what is returned where the body does not return by itself. -/
def activate (env : Env) (literals : Nat) (params : List Param) (body : List Stmt)
    (ending : Option Value → Except Fault (Option Value)) (args : List Value) (console : Console) :
    Answer :=
  let names := Names.enter literals params
  let cells := (names.afterStmts body).cells
  let result : Eval (Option Value) := do
    let last ← evalStmts env names none body
    attempt (ending last)
  match result.run.run ⟨args ++ (cells.drop args.length).map .zero, console⟩ with
  | (.ok v, w) | (.error (.returned v), w) => (.ok v, w.console)
  | (.error (.halted halt), w) => (.error halt, w.console)

/-- A function that returns a value and does not do so by itself returns that of its last statement. -/
def lastValue (returns : Ty) (last : Option Value) : Except Fault (Option Value) :=
  if returns = .void then .ok none
  else
    match last with
    | some v => some <$> v.convert returns
    | none => .error .stuck

/-- Calls a declared function; `literals` is the number of literals before the body of each. -/
def invoke (r : Registry) (literals : String → Nat) :
    Nat → FunctionDecl → List Value → Console → Answer
  | 0, _, _, console => (.error .exhausted, console)
  | n + 1, decl, args, console =>
    activate ⟨r, decl.returns, n, invoke r literals n⟩ (literals decl.name) decl.params decl.body
      (lastValue decl.returns) args console

inductive Ending where
  | exit (code : Int32)
  | trap (fault : Fault)
  deriving DecidableEq

/-- Evaluates a program within a bound. It ends with 0 where it does not return by itself. -/
def evalEntry (program : Tree.Block) (bound : Nat) (console : Console) : Answer :=
  let r : Registry := ⟨Tree.nestedFunctions program⟩
  activate ⟨r, .int, bound, invoke r (literalsBefore program) bound⟩ 0 [] program
    (fun _ => .ok (some (.int 0))) [] console

/-- How a program ends that gives the answer; nothing if the bound was too small. -/
def Ending.ofAnswer? : Answer → Option (Ending × Console)
  | (.ok (some (.int code)), console) => some (.exit code, console)
  | (.ok _, console) => some (.trap .stuck, console)
  | (.error (.failed fault), console) => some (.trap fault, console)
  | (.error .exhausted, _) => none

/-- What a program does within a bound. Operands and arguments are evaluated from left to right and
passed by value, each activation of a function has cells of its own that are zero at first, and a `var`
without an initializer leaves its cell as it is. With a bound of `n` a loop may go round `n` times and
calls may be `n` deep. -/
def run (program : Tree.Block) (bound : Nat) (console : Console) : Option (Ending × Console) :=
  Ending.ofAnswer? (evalEntry program bound console)

end TreeLang.Meaning
