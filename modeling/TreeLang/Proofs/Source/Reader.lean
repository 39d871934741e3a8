import TreeLang.Proofs.Source.Lines
import TreeLang.Proofs.Text.Words

namespace TreeLang.Tree

open Text

def reserved : List String :=
  ["int", "double", "string", "void", "return", "if", "for"]

/-- A name that no literal and no keyword can be mistaken for. -/
structure IsIdentifier (name : String) : Prop where
  nonempty : name ≠ ""
  word : ∀ c ∈ name.toList, isWord c = true
  digit : ∀ c ∈ name.toList.head?, c.isDigit = false
  reserved : name ∉ reserved

def skipIndentation (cs : List Char) : List Char :=
  cs.dropWhile (· = ' ')

def readNumber (cs : List Char) : Option (Expr × List Char) :=
  match Json.numeral false false cs with
  | .ok (n, cs) => some (if n.integral then .int (.ofNat n.digits) else .double n.double, cs)
  | .error _ => none

/-- The negation of what was read behind the sign. The digits of the least integer are out of range
without it, and stand for that integer itself. -/
def negated (behind : List Char) (e : Expr) : Expr :=
  match e with
  | .int n => if n = Int32.minValue ∧ behind.head? ≠ some '-' then .int n else .neg (.int n)
  | e => .neg e

def readOperator (cs : List Char) : Option (BinaryOp × List Char) :=
  BinaryOp.all.findSome? fun op => (skip (op.symbol ++ " ") cs).map (op, ·)

def ofWord? (word : String) : Option Ty :=
  [Ty.int, .double, .string, .void].find? (·.text == word)

/-- The parameters up to the closing parenthesis; each takes one unit of fuel. -/
def readParams : Nat → List Char → List Param × List Char
  | 0, cs => ([], cs)
  | fuel + 1, cs =>
    let (word, behind) := readWord cs
    match ofWord? word, skip " " behind with
    | some ty, some behind =>
      let (name, behind) := readWord behind
      match skip ", " behind with
      | some behind =>
        let (params, behind) := readParams fuel behind
        (⟨name, ty⟩ :: params, behind)
      | none => ([⟨name, ty⟩], behind)
    | _, _ => ([], cs)

mutual

def readOperand : Nat → List Char → Option (Expr × List Char)
  | 0, _ => none
  | fuel + 1, '(' :: cs => do
    let (e, cs) ← readExpr fuel cs
    let cs ← skip ")" cs
    return (e, cs)
  | fuel + 1, '-' :: cs => do
    let (e, rest) ← readOperand fuel cs
    return (negated cs e, rest)
  | _ + 1, '"' :: cs => do
    let (s, cs) ← unquote cs
    return (.str (.ofList s), cs)
  | fuel + 1, '\x7b' :: cs => do
    let (stmts, cs) ← readBlock fuel ('\x7b' :: cs)
    return (.block stmts, cs)
  | fuel + 1, cs => if cs.head?.any Char.isDigit then readNumber cs else readNamed fuel cs

def readNamed : Nat → List Char → Option (Expr × List Char)
  | 0, _ => none
  | fuel + 1, cs =>
    let (name, behind) := readWord cs
    if name = "" then none
    else
      match skip "(" behind with
      | none => some (.ident name, behind)
      | some cs => do
        let (args, cs) := readExprs fuel cs
        let cs ← skip ")" cs
        return (.call name args, cs)

def readExpr : Nat → List Char → Option (Expr × List Char)
  | 0, _ => none
  | fuel + 1, cs => do
    let (lhs, cs) ← readOperand fuel cs
    match skip " " cs with
    | none => return (lhs, cs)
    | some cs =>
      match skip "= " cs with
      | some cs =>
        match lhs with
        | .ident target => do
          let (value, cs) ← readExpr fuel cs
          return (.assign target value, cs)
        | _ => none
      | none => do
        let (op, cs) ← readOperator cs
        let (rhs, cs) ← readOperand fuel cs
        return (.binary op lhs rhs, cs)

/-- As many expressions as there are, with commas between them. -/
def readExprs : Nat → List Char → List Expr × List Char
  | 0, cs => ([], cs)
  | fuel + 1, cs =>
    match readExpr fuel cs with
    | none => ([], cs)
    | some (e, cs) =>
      match skip ", " cs with
      | none => ([e], cs)
      | some cs =>
        let (es, cs) := readExprs fuel cs
        (e :: es, cs)

def readStmt : Nat → List Char → Option (Stmt × List Char)
  | 0, _ => none
  | fuel + 1, cs =>
    let (word, behind) := readWord cs
    if word = "return" then readReturn fuel behind
    else if word = "if" then readConditional fuel behind
    else if word = "for" then readLoop fuel behind
    else
      match ofWord? word with
      | some ty => readDeclaration fuel ty behind
      | none => do
        let (e, cs) ← readExpr fuel cs
        let cs ← skip ";" cs
        return (.expr e, cs)

def readReturn : Nat → List Char → Option (Stmt × List Char)
  | 0, _ => none
  | fuel + 1, cs =>
    match skip " " cs with
    | none => do
      let cs ← skip ";" cs
      return (.ret none, cs)
    | some cs => do
      let (value, cs) ← readExpr fuel cs
      let cs ← skip ";" cs
      return (.ret (some value), cs)

def readConditional : Nat → List Char → Option (Stmt × List Char)
  | 0, _ => none
  | fuel + 1, cs => do
    let cs ← skip " (" cs
    let (cond, cs) ← readExpr fuel cs
    let cs ← skip ") " cs
    let (thenBlock, cs) ← readBlock fuel cs
    match skip " else " cs with
    | none => return (.ite cond thenBlock none, cs)
    | some cs => do
      let (elseBlock, cs) ← readBlock fuel cs
      return (.ite cond thenBlock (some elseBlock), cs)

def readLoop : Nat → List Char → Option (Stmt × List Char)
  | 0, _ => none
  | fuel + 1, cs => do
    let cs ← skip " (" cs
    let (init, cs) := readExprs fuel cs
    let cs ← skip "; " cs
    let (cond, cs) ← readExpr fuel cs
    let cs ← skip "; " cs
    let (post, cs) := readExprs fuel cs
    let cs ← skip ") " cs
    let (body, cs) ← readBlock fuel cs
    return (.loop init cond post body, cs)

def readDeclaration : Nat → Ty → List Char → Option (Stmt × List Char)
  | 0, _, _ => none
  | fuel + 1, ty, cs => do
    let cs ← skip " " cs
    let (name, cs) := readWord cs
    match skip "(" cs, skip " = " cs with
    | some cs, _ => do
      let (params, cs) := readParams fuel cs
      let cs ← skip ") " cs
      let (body, cs) ← readBlock fuel cs
      return (.function ⟨name, params, ty, body⟩, cs)
    | none, some cs => do
      let (init, cs) ← readExpr fuel cs
      let cs ← skip ";" cs
      return (.var name ty (some init), cs)
    | none, none => do
      let cs ← skip ";" cs
      return (.var name ty none, cs)

/-- As many statements as there are, each on lines of its own; what is left begins behind its
indentation. -/
def readLines : Nat → List Char → List Stmt × List Char
  | 0, cs => ([], skipIndentation cs)
  | fuel + 1, cs =>
    match readStmt fuel (skipIndentation cs) with
    | some (s, '\n' :: cs) =>
      let (ss, cs) := readLines fuel cs
      (s :: ss, cs)
    | _ => ([], skipIndentation cs)

def readBlock : Nat → List Char → Option (List Stmt × List Char)
  | 0, _ => none
  | fuel + 1, cs =>
    match skip "\x7b \x7d" cs with
    | some cs => some ([], cs)
    | none => do
      let cs ← skip "\x7b\n" cs
      let (stmts, cs) := readLines fuel cs
      let cs ← skip "\x7d" cs
      return (stmts, cs)

end

end TreeLang.Tree
