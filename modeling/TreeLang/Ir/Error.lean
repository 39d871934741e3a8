import TreeLang.Ir.Text

namespace TreeLang.Ir

inductive TypeFault where
  | voidSlot (name : String)
  | noConversion (source target : Ty)
  | unrepresentable (ty : Ty)
  deriving DecidableEq

inductive BuilderFault where
  | missingBlock (id : Nat) (function : String)
  | noCurrentBlock
  | alreadyTerminated (id : Nat)
  | blockNotFound
  | noEntry
  deriving DecidableEq

inductive VerifyFault where
  | definedTwice (temp : Nat)
  | undefinedTemp (temp : Nat)
  | noParameter (index : Nat)
  | misplacedAlloca (block : Nat)
  | unknownSlot (slot : Nat)
  | slotType (slot : Nat) (holds accessed : Ty)
  | storedType (stored ty : Ty) (slot : Nat)
  | unterminated (block : Nat) (label : String)
  | voidReturn (expected : Ty)
  | valueReturned
  | returnType (found expected : Ty)
  | conditionType
  | missingTarget (block target : Nat)
  deriving DecidableEq

/-- Why no machine code can be made of an instruction. -/
inductive CodeFault where
  | unknownBlock (id : Nat)
  | beforeAlloca (slot : Nat)
  | undefinedValue (value : Operand)
  | undeclaredString (id : Nat)
  | unsupportedCast (source target : Ty)
  | incomparable (ty : Ty)
  | missingArguments (fixed : Nat)
  | noResult (callee : String)
  | unterminated
  deriving DecidableEq

inductive Error where
  | type (fault : TypeFault)
  | code (fault : CodeFault)
  | builder (fault : BuilderFault)
  | verify (function : String) (fault : VerifyFault)
  | duplicateFunction (name : String)
  | unknownFunction (name : String)
  /-- A string of the module is linked under the name of a function. -/
  | symbolClash (symbol : String)
  deriving DecidableEq

def TypeFault.message : TypeFault → String
  | .voidSlot name => "cannot allocate storage of type void for `" ++ name ++ "`"
  | .noConversion source target => "no conversion from " ++ source.text ++ " to " ++ target.text
  | .unrepresentable ty => ty.text ++ " has no machine representation"

def BuilderFault.message : BuilderFault → String
  | .missingBlock id function =>
    "Block " ++ blockText id ++ " does not exist in `" ++ function ++ "`"
  | .noCurrentBlock => "No current block - call switch_to_block first"
  | .alreadyTerminated id => "Block " ++ blockText id ++ " already terminated"
  | .blockNotFound => "Block not found"
  | .noEntry => "Entry block missing"

def VerifyFault.message : VerifyFault → String
  | .definedTwice temp => tempText temp ++ " is defined twice"
  | .undefinedTemp temp => "use of undefined value " ++ tempText temp
  | .noParameter index => "no parameter " ++ paramText index
  | .misplacedAlloca block => "alloca outside the entry prologue in " ++ blockText block
  | .unknownSlot slot => "unknown " ++ slotText slot
  | .slotType slot holds accessed =>
    slotText slot ++ " holds " ++ holds.text ++ " but is accessed as " ++ accessed.text
  | .storedType stored ty slot =>
    stored.text ++ " value stored into " ++ ty.text ++ " slot " ++ slotText slot
  | .unterminated block label => blockText block ++ " (" ++ label ++ ") is not terminated"
  | .voidReturn expected => "void return in function returning " ++ expected.text
  | .valueReturned => "value returned from void function"
  | .returnType found expected => "returns " ++ found.text ++ " but is declared " ++ expected.text
  | .conditionType => "branch condition is not a bool"
  | .missingTarget block target => blockText block ++ " branches to missing " ++ blockText target

def CodeFault.message : CodeFault → String
  | .unknownBlock id => "unknown block " ++ blockText id
  | .beforeAlloca slot => slotText slot ++ " used before its alloca"
  | .undefinedValue value => "undefined value " ++ value.text
  | .undeclaredString id => "undeclared string " ++ stringText id
  | .unsupportedCast source target =>
    "unsupported cast from " ++ source.text ++ " to " ++ target.text
  | .incomparable ty => "cannot compare values of type " ++ ty.text
  | .missingArguments fixed => "variadic call needs at least " ++ toString fixed ++ " arguments"
  | .noResult callee => "`" ++ callee ++ "` returns no value"
  | .unterminated => "cannot lower an unterminated block"

def Error.message : Error → String
  | .type fault => "Type error: " ++ fault.message
  | .code fault => "Invalid instruction: " ++ fault.message
  | .builder fault => "Builder error: " ++ fault.message
  | .verify function fault => "Verification of `" ++ function ++ "` failed: " ++ fault.message
  | .duplicateFunction name => "Function `" ++ name ++ "` is defined twice"
  | .unknownFunction name => "Unknown function: " ++ name
  | .symbolClash symbol => "Incompatible declaration of identifier: " ++ symbol

end TreeLang.Ir
