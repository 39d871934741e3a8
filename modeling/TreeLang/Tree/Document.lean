import TreeLang.Tree.Basic
import TreeLang.Json.Member

namespace TreeLang.Tree

def Ty.ofText? (s : String) : Option Ty :=
  [Ty.int, .double, .string, .void].find? (·.text == s)

def BinaryOp.ofSymbol? (s : String) : Option BinaryOp :=
  all.find? (·.symbol == s)

def Ty.ofJson? (j : Json) : Option Ty :=
  j.variant?.bind ofText?

def Param.toJson (p : Param) : Json :=
  .object [("name", .string p.name), ("type", .string p.ty.text)]

def Param.ofJson? (j : Json) : Option Param := do
  let ms ← Json.members? ["name", "type"] j
  let name ← (← Json.required? ms "name").string?
  let ty ← Ty.ofJson? (← Json.required? ms "type")
  return ⟨name, ty⟩

/-- The kinds of expressions with their fields, in the order in which they are declared. -/
def Expr.kinds : List (String × List String) :=
  [("int", ["value"]), ("double", ["value"]), ("str", ["value"]), ("ident", ["name"]),
    ("unary", ["op", "operand"]), ("binary", ["op", "lhs", "rhs"]),
    ("assign", ["target", "value"]), ("call", ["callee", "args"]), ("block", ["stmts"])]

def Stmt.kinds : List (String × List String) :=
  [("expr", ["expr"]), ("var", ["name", "type", "init"]),
    ("function", ["name", "params", "returns", "body"]), ("return", ["value"]),
    ("if", ["cond", "then_block", "else_block"]), ("for", ["init", "cond", "post", "body"])]

mutual

/-- Every node is written as an object with a `kind`, absent parts as null or as an empty array. -/
def Expr.toJson : Expr → Json
  | .int value => .object [("kind", .string "int"), ("value", .int value.toInt)]
  | .double value => .object [("kind", .string "double"), ("value", .double value)]
  | .str value => .object [("kind", .string "str"), ("value", .string value)]
  | .ident name => .object [("kind", .string "ident"), ("name", .string name)]
  | .neg operand =>
    .object [("kind", .string "unary"), ("op", .string "-"), ("operand", operand.toJson)]
  | .binary op lhs rhs =>
    .object [("kind", .string "binary"), ("op", .string op.symbol), ("lhs", lhs.toJson),
      ("rhs", rhs.toJson)]
  | .assign target value =>
    .object [("kind", .string "assign"), ("target", .string target), ("value", value.toJson)]
  | .call callee args =>
    .object [("kind", .string "call"), ("callee", .string callee),
      ("args", .array (exprsToJson args))]
  | .block stmts => .object [("kind", .string "block"), ("stmts", .array (stmtsToJson stmts))]

def exprsToJson : List Expr → List Json
  | [] => []
  | e :: es => e.toJson :: exprsToJson es

def Stmt.toJson : Stmt → Json
  | .expr e => .object [("kind", .string "expr"), ("expr", e.toJson)]
  | .var name ty none =>
    .object [("kind", .string "var"), ("name", .string name), ("type", .string ty.text),
      ("init", .null)]
  | .var name ty (some init) =>
    .object [("kind", .string "var"), ("name", .string name), ("type", .string ty.text),
      ("init", init.toJson)]
  | .function decl => .object (("kind", .string "function") :: decl.toMembers)
  | .ret none => .object [("kind", .string "return"), ("value", .null)]
  | .ret (some value) => .object [("kind", .string "return"), ("value", value.toJson)]
  | .ite cond thenBlock none =>
    .object [("kind", .string "if"), ("cond", cond.toJson),
      ("then_block", .object [("stmts", .array (stmtsToJson thenBlock))]), ("else_block", .null)]
  | .ite cond thenBlock (some elseBlock) =>
    .object [("kind", .string "if"), ("cond", cond.toJson),
      ("then_block", .object [("stmts", .array (stmtsToJson thenBlock))]),
      ("else_block", .object [("stmts", .array (stmtsToJson elseBlock))])]
  | .loop init cond post body =>
    .object [("kind", .string "for"), ("init", .array (exprsToJson init)), ("cond", cond.toJson),
      ("post", .array (exprsToJson post)),
      ("body", .object [("stmts", .array (stmtsToJson body))])]

def FunctionDecl.toMembers : FunctionDecl → List (String × Json)
  | ⟨name, params, returns, body⟩ =>
    [("name", .string name), ("params", .array (params.map Param.toJson)),
      ("returns", .string returns.text), ("body", .object [("stmts", .array (stmtsToJson body))])]

def stmtsToJson : List Stmt → List Json
  | [] => []
  | s :: ss => s.toJson :: stmtsToJson ss

end

def blockToJson (block : Block) : Json :=
  .object [("stmts", .array (stmtsToJson block))]

mutual

/-- `fuel` bounds the nesting of nodes. -/
def Expr.ofJson? : Nat → Json → Option Expr
  | fuel + 1, j => do
    let (kind, ms) ← Json.node? Expr.kinds j
    match kind with
    | "int" => return .int (← (← Json.required? ms "value").int32?)
    | "double" => return .double (← (← Json.required? ms "value").double?)
    | "str" => return .str (← (← Json.required? ms "value").string?)
    | "ident" => return .ident (← (← Json.required? ms "name").string?)
    | "unary" =>
      let op ← (← Json.required? ms "op").variant?
      let operand ← Expr.ofJson? fuel (← Json.required? ms "operand")
      if op = "-" then return .neg operand else none
    | "binary" =>
      let op ← BinaryOp.ofSymbol? (← (← Json.required? ms "op").variant?)
      let lhs ← Expr.ofJson? fuel (← Json.required? ms "lhs")
      let rhs ← Expr.ofJson? fuel (← Json.required? ms "rhs")
      return .binary op lhs rhs
    | "assign" =>
      let target ← (← Json.required? ms "target").string?
      let value ← Expr.ofJson? fuel (← Json.required? ms "value")
      return .assign target value
    | "call" =>
      let callee ← (← Json.required? ms "callee").string?
      return .call callee (← Json.list? ms "args" (Expr.ofJson? fuel))
    | "block" => return .block (← Json.list? ms "stmts" (Stmt.ofJson? fuel))
    | _ => none
  | 0, _ => none

def Stmt.ofJson? : Nat → Json → Option Stmt
  | fuel + 1, j => do
    let (kind, ms) ← Json.node? Stmt.kinds j
    match kind with
    | "expr" => return .expr (← Expr.ofJson? fuel (← Json.required? ms "expr"))
    | "var" =>
      let name ← (← Json.required? ms "name").string?
      let ty ← Ty.ofJson? (← Json.required? ms "type")
      return .var name ty (← Json.optional? ms "init" (Expr.ofJson? fuel))
    | "function" => return .function (← FunctionDecl.ofMembers? fuel ms)
    | "return" => return .ret (← Json.optional? ms "value" (Expr.ofJson? fuel))
    | "if" =>
      let cond ← Expr.ofJson? fuel (← Json.required? ms "cond")
      let thenBlock ← blockOfJson? fuel (← Json.required? ms "then_block")
      return .ite cond thenBlock (← Json.optional? ms "else_block" (blockOfJson? fuel))
    | "for" =>
      let init ← Json.list? ms "init" (Expr.ofJson? fuel)
      let cond ← Expr.ofJson? fuel (← Json.required? ms "cond")
      let post ← Json.list? ms "post" (Expr.ofJson? fuel)
      let body ← blockOfJson? fuel (← Json.required? ms "body")
      return .loop init cond post body
    | _ => none
  | 0, _ => none

def FunctionDecl.ofMembers? : Nat → List (String × Json) → Option FunctionDecl
  | fuel + 1, ms => do
    let name ← (← Json.required? ms "name").string?
    let params ← Json.list? ms "params" Param.ofJson?
    let returns ← Ty.ofJson? (← Json.required? ms "returns")
    let body ← blockOfJson? fuel (← Json.required? ms "body")
    return ⟨name, params, returns, body⟩
  | 0, _ => none

def blockOfJson? : Nat → Json → Option Block
  | fuel + 1, j => do Json.list? (← Json.members? ["stmts"] j) "stmts" (Stmt.ofJson? fuel)
  | 0, _ => none

end

/-- Nodes nest no deeper than twice the arrays and objects that the reader lets them open. -/
def nodeDepth : Nat := 2 * Json.maxDepth + 2

/-- A statement of the program itself. Its tag is read before all else, and has to be a string. -/
def Stmt.outermost? (j : Json) : Option Stmt := do
  let _ ← (← j.tag?).string?
  Stmt.ofJson? nodeDepth j

/-- A program is a block that is read as the text goes. -/
def programOfJson (j : Json) : Except Json.ReadError Block :=
  Json.takeAll (fun _ key x => if key = "stmts" then some (Json.expect (statements? x)) else none) []
    ["stmts"] j
where
  statements? : Json → Option Block
    | .array xs => xs.mapM Stmt.outermost?
    | _ => none

/-- Of the program's own members only the statements count. -/
def isExtra : List String → Bool
  | [key] => key != "stmts"
  | _ => false

def ofText (text : String) : Except Json.ReadError Block :=
  Json.decodeText isExtra programOfJson text

def toText (program : Block) : String :=
  (blockToJson program).pretty

end TreeLang.Tree
