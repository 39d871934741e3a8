import TreeLang.Ir.Error
import TreeLang.Tree.Source

namespace TreeLang

open TreeLang.Tree (Ty BinaryOp)

/-- The place of an operand that has to be a number, or at least a value. -/
inductive Usage where
  | operator (op : BinaryOp)
  | negation
  | variadic (callee : String)
  | condition (role : String)
  deriving DecidableEq

inductive EmissionFault where
  | noFunction
  /-- The frame of the function that is to be finished is gone. -/
  | noFrame
  | noValue (role : String) (expr : String)
  | noConversion (source target : Ty)
  | noZero (ty : Ty)
  | openEnd (function : String)
  deriving DecidableEq

mutual

/-- What can be wrong with a part of a program, as it is found in an expression. -/
inductive Cause where
  | unboundName (name : String)
  /-- The name is bound in an enclosing function only. -/
  | unboundStorage (name : String)
  | typeMismatch (op : BinaryOp) (left right : Ty)
  | invalidOperand (usage : Usage) (ty : Ty)
  | incompatibleAssignment (name : String) (expected found : Ty)
  | returnTypeMismatch (function : String) (expected found : Ty)
  | arityMismatch (callee : String) (expected found : Nat) (variadic : Bool)
  | argumentTypeMismatch (callee : String) (index : Nat) (expected found : Ty)
  | unknownCallee (name : String)
  | emission (fault : EmissionFault)
  | voidBinding (name : String)
  | duplicateFunction (name : String)
  | builder (error : Ir.Error)
  /-- The cause has been pinned down inside a block expression. -/
  | located (diagnostic : Diagnostic)

structure Diagnostic where
  function : String
  node : String
  cause : Cause

end

def Usage.text : Usage → String
  | .operator op => "`" ++ op.symbol ++ "`"
  | .negation => "unary `-`"
  | .variadic callee => "variadic argument of `" ++ callee ++ "`"
  | .condition role => role

def EmissionFault.message : EmissionFault → String
  | .noFunction => "no function is being lowered"
  | .noFrame => "function frame already popped"
  | .noValue role expr => role ++ " `" ++ expr ++ "` produced no value"
  | .noConversion source target => "no conversion from " ++ source.text ++ " to " ++ target.text
  | .noZero ty => "no zero value of type " ++ ty.text
  | .openEnd function => "`" ++ function ++ "` can reach its end without returning a value"

mutual

def Cause.message : Cause → String
  | .unboundName name => "Unbound name `" ++ name ++ "`"
  | .unboundStorage name => "No storage slot for `" ++ name ++ "` in the current function"
  | .typeMismatch op left right =>
    "Type mismatch: `" ++ op.symbol ++ "` cannot combine " ++ left.text ++ " and " ++ right.text
  | .invalidOperand usage ty => "Invalid operand of type " ++ ty.text ++ " for " ++ usage.text
  | .incompatibleAssignment name expected found =>
    "Cannot assign " ++ found.text ++ " to `" ++ name ++ "` of type " ++ expected.text
  | .returnTypeMismatch function expected found =>
    "Function `" ++ function ++ "` returns " ++ found.text ++ " but is declared " ++ expected.text
  | .arityMismatch callee expected found variadic =>
    "`" ++ callee ++ "` expects " ++ (if variadic then "at least " else "") ++ toString expected ++
      " argument(s), got " ++ toString found
  | .argumentTypeMismatch callee index expected found =>
    "Argument " ++ toString index ++ " of `" ++ callee ++ "` is " ++ found.text ++ ", expected " ++
      expected.text
  | .unknownCallee name => "Unknown function `" ++ name ++ "`"
  | .emission fault => "Emission error: " ++ fault.message
  | .voidBinding name => "`" ++ name ++ "` cannot have type void"
  | .duplicateFunction name => "Function `" ++ name ++ "` is declared more than once"
  | .builder error => "IR builder error: " ++ error.message
  | .located diagnostic => diagnostic.text

def Diagnostic.text : Diagnostic → String
  | ⟨function, node, cause⟩ =>
    "in `" ++ function ++ "`: " ++ cause.message ++ " at `" ++ node ++ "`"

end

/-- Pins a cause to a function and a node, unless it has been pinned closer to its place. -/
def Diagnostic.pin (function node : String) : Cause → Diagnostic
  | .located diagnostic => diagnostic
  | cause => ⟨function, node, cause⟩

/-- The name of the function that the statements of a program belong to. -/
def entryName : String := "main"

end TreeLang
