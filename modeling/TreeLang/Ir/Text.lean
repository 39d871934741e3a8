import TreeLang.Ir.Basic
import TreeLang.Double.Text

namespace TreeLang.Ir

def blockText (id : Nat) : String := "block" ++ toString id

def slotText (slot : Nat) : String := "slot" ++ toString slot

def tempText (id : Nat) : String := "t" ++ toString id

def paramText (index : Nat) : String := "p" ++ toString index

/-- The name under which a string of the module is linked. -/
def stringSymbol (id : Nat) : String := "_str" ++ toString id

def stringText (id : Nat) : String := "@" ++ stringSymbol id

def Constant.text : Constant → String
  | .bool true => "true"
  | .bool false => "false"
  | .i32 value => toString value.toInt
  | .f64 value => value.literal

def Operand.text : Operand → String
  | .temp id => tempText id
  | .param index => paramText index
  | .constant value => value.text
  | .str id => stringText id

/-- The type behind a mnemonic, where types are shown. -/
def suffix (types : Bool) (ty : Ty) : String :=
  if types then "." ++ ty.text else ""

def operandsText (operands : List Operand) : String :=
  ", ".intercalate (operands.map Operand.text)

def Instruction.text (types : Bool) : Instruction → String
  | .alloca slot ty _ => slotText slot ++ " = alloca " ++ ty.text
  | .load result slot ty => result.text ++ " = load" ++ suffix types ty ++ " " ++ slotText slot
  | .store slot value ty => "store" ++ suffix types ty ++ " " ++ slotText slot ++ ", " ++ value.text
  | .binary op result left right ty =>
    result.text ++ " = " ++ op.mnemonic ++ suffix types ty ++ " " ++ left.text ++ ", " ++ right.text
  | .neg result operand ty => result.text ++ " = neg" ++ suffix types ty ++ " " ++ operand.text
  | .cast result value source target =>
    result.text ++ " = cast " ++ value.text ++ ", " ++ source.text ++ " -> " ++ target.text
  | .call (some result) callee args returns =>
    result.text ++ " = call" ++ suffix types returns ++ " @" ++ callee ++ "(" ++
      operandsText args ++ ")"
  | .call none callee args _ => "call @" ++ callee ++ "(" ++ operandsText args ++ ")"

def Terminator.text : Terminator → String
  | .ret none => "return"
  | .ret (some value) => "return " ++ value.text
  | .jump target => "jump " ++ blockText target
  | .branch condition thenBlock elseBlock =>
    "br " ++ condition.text ++ ", " ++ blockText thenBlock ++ ", " ++ blockText elseBlock
  | .unset => "invalid"

def signatureText (params : List Ty) (returns : Ty) (variadic : Bool) : String :=
  "(" ++ ", ".intercalate (params.map Ty.text ++ if variadic then ["..."] else []) ++ ") -> " ++
    returns.text

end TreeLang.Ir
