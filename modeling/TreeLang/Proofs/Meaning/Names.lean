import TreeLang.Tree.Basic

namespace TreeLang.Meaning

open TreeLang.Tree (Ty Expr Stmt FunctionDecl Param)

structure Cell where
  index : Nat
  ty : Ty
  deriving DecidableEq

/-- What the names of a function denote: the declarations met so far on a walk of its body, each with a
cell of its own. Of two cells for a name the first holds. The walk goes through the condition of an `if`
before its branches, through the first part of a loop header, the condition, the body and the last part,
and through an initializer before its own binding. Which branch is taken at run time plays no part in
it. -/
structure Names where
  /-- The type of each cell. -/
  cells : List Ty
  bound : List (String × Cell)
  /-- How many string literals of the program come before. -/
  literals : Nat
  deriving DecidableEq

namespace Names

def start (literals : Nat) : Names := ⟨[], [], literals⟩

def cell? (names : Names) (name : String) : Option Cell :=
  names.bound.lookup name

def declare (names : Names) (name : String) (ty : Ty) : Names where
  cells := names.cells ++ [ty]
  bound := (name, ⟨names.cells.length, ty⟩) :: names.bound
  literals := names.literals

def declareParams (names : Names) : List Param → Names
  | [] => names
  | p :: ps => (names.declare p.name p.ty).declareParams ps

/-- Where a body begins behind so many literals. The parameters are declared first. -/
def enter (literals : Nat) (params : List Param) : Names :=
  (start literals).declareParams params

mutual

def afterExpr (names : Names) : Expr → Names
  | .int _ | .double _ | .ident _ => names
  | .str _ => { names with literals := names.literals + 1 }
  | .neg operand => names.afterExpr operand
  | .binary _ lhs rhs => (names.afterExpr lhs).afterExpr rhs
  | .assign _ value => names.afterExpr value
  | .call _ args => names.afterExprs args
  | .block stmts => names.afterStmts stmts

def afterExprs (names : Names) : List Expr → Names
  | [] => names
  | e :: es => (names.afterExpr e).afterExprs es

def afterStmt (names : Names) : Stmt → Names
  | .expr e => names.afterExpr e
  | .var name ty none => names.declare name ty
  | .var name ty (some init) => (names.afterExpr init).declare name ty
  | .function decl => names.afterFunction decl
  | .ret none => names
  | .ret (some value) => names.afterExpr value
  | .ite cond thenBlock none => (names.afterExpr cond).afterStmts thenBlock
  | .ite cond thenBlock (some elseBlock) =>
    ((names.afterExpr cond).afterStmts thenBlock).afterStmts elseBlock
  | .loop init cond post body =>
    (((names.afterExprs init).afterExpr cond).afterStmts body).afterExprs post

/-- The names of a function are its own; its literals are numbered along with those around it. -/
def afterFunction (names : Names) : FunctionDecl → Names
  | ⟨_, params, _, body⟩ =>
    { names with literals := ((enter names.literals params).afterStmts body).literals }

def afterStmts (names : Names) : List Stmt → Names
  | [] => names
  | s :: ss => (names.afterStmt s).afterStmts ss

end

mutual

/-- The functions declared in an expression, each where its body ends, and how many literals come
before that body. -/
def bodiesOfExpr (names : Names) : Expr → List (String × Nat)
  | .int _ | .double _ | .str _ | .ident _ => []
  | .neg operand => names.bodiesOfExpr operand
  | .binary _ lhs rhs => names.bodiesOfExpr lhs ++ (names.afterExpr lhs).bodiesOfExpr rhs
  | .assign _ value => names.bodiesOfExpr value
  | .call _ args => names.bodiesOfExprs args
  | .block stmts => names.bodies stmts

def bodiesOfExprs (names : Names) : List Expr → List (String × Nat)
  | [] => []
  | e :: es => names.bodiesOfExpr e ++ (names.afterExpr e).bodiesOfExprs es

def bodiesOfStmt (names : Names) : Stmt → List (String × Nat)
  | .expr e => names.bodiesOfExpr e
  | .var _ _ none => []
  | .var _ _ (some init) => names.bodiesOfExpr init
  | .function decl => names.bodiesOfFunction decl
  | .ret none => []
  | .ret (some value) => names.bodiesOfExpr value
  | .ite cond thenBlock none =>
    names.bodiesOfExpr cond ++ (names.afterExpr cond).bodies thenBlock
  | .ite cond thenBlock (some elseBlock) =>
    let inside := names.afterExpr cond
    names.bodiesOfExpr cond ++
      (inside.bodies thenBlock ++ (inside.afterStmts thenBlock).bodies elseBlock)
  | .loop init cond post body =>
    let test := names.afterExprs init
    let inside := test.afterExpr cond
    names.bodiesOfExprs init ++ (test.bodiesOfExpr cond ++
      (inside.bodies body ++ (inside.afterStmts body).bodiesOfExprs post))

def bodiesOfFunction (names : Names) : FunctionDecl → List (String × Nat)
  | ⟨name, params, _, body⟩ =>
    (enter names.literals params).bodies body ++ [(name, names.literals)]

def bodies (names : Names) : List Stmt → List (String × Nat)
  | [] => []
  | s :: ss => names.bodiesOfStmt s ++ (names.afterStmt s).bodies ss

end

end Names

/-- How many string literals of the program come before the body of the function. -/
def literalsBefore (program : Tree.Block) (name : String) : Nat :=
  (((Names.enter 0 []).bodies program).lookup name).getD 0

end TreeLang.Meaning
