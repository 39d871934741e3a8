import TreeLang.Files
import TreeLang.Lowering.Program
import TreeLang.Machine.Run
import TreeLang.Tree.Document
import TreeLang.Typing.Check

namespace TreeLang

inductive Failure where
  | file (path : String) (fault : FileFault)
  | settings (path : String) (error : Json.ReadError)
  | program (error : Json.ReadError)
  | typeCheck (diagnostics : List Diagnostic)
  | lowering (diagnostic : Diagnostic)
  | code (error : Ir.Error)

namespace Failure

def message : Failure → String
  | file path fault => path ++ ": " ++ fault.message
  | settings path error => "invalid configuration in " ++ path ++ ": " ++ error.category
  | program error => "invalid syntax tree: " ++ error.category
  | typeCheck diagnostics =>
    "type check failed with " ++ toString diagnostics.length ++ " error(s)"
  | lowering diagnostic => "lowering failed " ++ diagnostic.text
  | code error => "code generation failed: " ++ error.message

/-- What is wrong with the program itself, in the order of the report. -/
def diagnostics : Failure → List Diagnostic
  | typeCheck ds => ds
  | lowering d => [d]
  | _ => []

end Failure

def parse (text : String) : Except Failure Tree.Block :=
  (Tree.ofText text).mapError .program

def typeCheck (program : Tree.Block) : Except Failure Typing.Registry :=
  (Typing.check program).mapError .typeCheck

/-- The module of a program that passes the type check. -/
def compile (program : Tree.Block) (name : String) : Except Failure Ir.Module := do
  let _ ← typeCheck program
  (Lowering.lower program name).mapError .lowering

/-- Runs a module; nothing if it needs more than `fuel` steps. -/
def execute (m : Ir.Module) (fuel : Nat) (console : Machine.Console) :
    Except Failure (Option (Machine.Ending × Machine.Console)) :=
  (Machine.launch m fuel console).mapError .code

/-- Whether an object file can be made of the module. -/
def assemble (m : Ir.Module) : Except Failure Unit :=
  m.assemble.mapError .code

end TreeLang
