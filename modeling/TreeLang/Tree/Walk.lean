import TreeLang.Tree.Basic

namespace TreeLang.Tree

mutual

/-- The function declarations of a tree in the order in which they are met: conditions before branches,
and the three parts of a loop header before its body. This walk stops at a declaration. -/
def Expr.outerFunctions : Expr → List FunctionDecl
  | .int _ | .double _ | .str _ | .ident _ => []
  | .neg operand => operand.outerFunctions
  | .binary _ lhs rhs => lhs.outerFunctions ++ rhs.outerFunctions
  | .assign _ value => value.outerFunctions
  | .call _ args => outerOfExprs args
  | .block stmts => outerOfBlock stmts

def outerOfExprs : List Expr → List FunctionDecl
  | [] => []
  | e :: es => e.outerFunctions ++ outerOfExprs es

/-- The declarations met without entering the body of another one. -/
def Stmt.outerFunctions : Stmt → List FunctionDecl
  | .expr e => e.outerFunctions
  | .var _ _ none => []
  | .var _ _ (some init) => init.outerFunctions
  | .function decl => [decl]
  | .ret none => []
  | .ret (some value) => value.outerFunctions
  | .ite cond thenBlock none => cond.outerFunctions ++ outerOfBlock thenBlock
  | .ite cond thenBlock (some elseBlock) =>
    cond.outerFunctions ++ outerOfBlock thenBlock ++ outerOfBlock elseBlock
  | .loop init cond post body =>
    outerOfExprs init ++ cond.outerFunctions ++ outerOfExprs post ++ outerOfBlock body

def outerOfBlock : List Stmt → List FunctionDecl
  | [] => []
  | s :: ss => s.outerFunctions ++ outerOfBlock ss

end

mutual

def Expr.nestedFunctions : Expr → List FunctionDecl
  | .int _ | .double _ | .str _ | .ident _ => []
  | .neg operand => operand.nestedFunctions
  | .binary _ lhs rhs => lhs.nestedFunctions ++ rhs.nestedFunctions
  | .assign _ value => value.nestedFunctions
  | .call _ args => nestedOfExprs args
  | .block stmts => nestedFunctions stmts

def nestedOfExprs : List Expr → List FunctionDecl
  | [] => []
  | e :: es => e.nestedFunctions ++ nestedOfExprs es

def Stmt.nestedFunctions : Stmt → List FunctionDecl
  | .expr e => e.nestedFunctions
  | .var _ _ none => []
  | .var _ _ (some init) => init.nestedFunctions
  | .function decl => decl.withNested
  | .ret none => []
  | .ret (some value) => value.nestedFunctions
  | .ite cond thenBlock none => cond.nestedFunctions ++ nestedFunctions thenBlock
  | .ite cond thenBlock (some elseBlock) =>
    cond.nestedFunctions ++ nestedFunctions thenBlock ++ nestedFunctions elseBlock
  | .loop init cond post body =>
    nestedOfExprs init ++ cond.nestedFunctions ++ nestedOfExprs post ++ nestedFunctions body

def FunctionDecl.withNested : FunctionDecl → List FunctionDecl
  | ⟨name, params, returns, body⟩ => ⟨name, params, returns, body⟩ :: nestedFunctions body

/-- Every declaration in the block, at any depth: this walk goes on into the body of a declaration. -/
def nestedFunctions : List Stmt → List FunctionDecl
  | [] => []
  | s :: ss => s.nestedFunctions ++ nestedFunctions ss

end

end TreeLang.Tree
