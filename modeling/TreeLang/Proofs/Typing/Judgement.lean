import TreeLang.Typing.Rules

namespace TreeLang.Tree

mutual

/-- The variables that the walk of an expression declares in the function at hand. -/
def Expr.locals : Expr → List Param
  | .int _ | .double _ | .str _ | .ident _ => []
  | .neg operand => operand.locals
  | .binary _ lhs rhs => lhs.locals ++ rhs.locals
  | .assign _ value => value.locals
  | .call _ args => localsOfExprs args
  | .block stmts => locals stmts

def localsOfExprs : List Expr → List Param
  | [] => []
  | e :: es => e.locals ++ localsOfExprs es

/-- An initializer comes before the variable, and the body of a loop before the last part of its
header. The variables of a function that is declared here are its own. -/
def Stmt.locals : Stmt → List Param
  | .expr e => e.locals
  | .var name ty none => [⟨name, ty⟩]
  | .var name ty (some init) => init.locals ++ [⟨name, ty⟩]
  | .function _ => []
  | .ret none => []
  | .ret (some value) => value.locals
  | .ite cond thenBlock none => cond.locals ++ locals thenBlock
  | .ite cond thenBlock (some elseBlock) =>
    cond.locals ++ locals thenBlock ++ locals elseBlock
  | .loop init cond post body =>
    localsOfExprs init ++ cond.locals ++ locals body ++ localsOfExprs post

def locals : List Stmt → List Param
  | [] => []
  | s :: ss => s.locals ++ locals ss

end

end TreeLang.Tree

namespace TreeLang.Typing

open TreeLang.Tree (Ty Expr Stmt FunctionDecl Param locals localsOfExprs)

inductive Numeric : Ty → Prop
  | int : Numeric .int
  | double : Numeric .double

/-- A value goes where its own type is expected, and a number where any number is. -/
inductive Assignable : Ty → Ty → Prop
  | same (ty : Ty) : Assignable ty ty
  | number {source target : Ty} (hs : Numeric source) (ht : Numeric target) :
    Assignable source target

/-- The type in which two numbers are combined or compared: a double next to a double, else an
integer. -/
inductive Promotes : Ty → Ty → Ty → Prop
  | ints : Promotes .int .int .int
  | left {ty : Ty} (h : Numeric ty) : Promotes .double ty .double
  | right {ty : Ty} (h : Numeric ty) : Promotes ty .double .double

/-- The type of a name in a table. The later of two declarations of the name holds. -/
def typeIn (table : List Param) (name : String) : Option Ty :=
  (table.reverse.find? (·.name == name)).map (·.ty)

/-- What is in force at a place of a function. It has one table: its parameters, then the variables of
its body in the order of the walk, each in force for the rest of the function, whatever block declares
it. Names that are not in the table are looked for in those of the functions around. -/
structure Env where
  own : List Param
  /-- The tables of the functions around it, nearest first. -/
  around : List (List Param)
  returns : Ty

namespace Env

def type? (Γ : Env) (name : String) : Option Ty :=
  (Γ.own :: Γ.around).findSome? (typeIn · name)

def after (Γ : Env) (declared : List Param) : Env := { Γ with own := Γ.own ++ declared }

def within (Γ : Env) (decl : FunctionDecl) : Env :=
  ⟨decl.params, Γ.own :: Γ.around, decl.returns⟩

/-- What is in force where a program begins, which returns an integer. -/
def entry : Env := ⟨[], [], .int⟩

@[simp] theorem after_nil (Γ : Env) : Γ.after [] = Γ := by
  simp [after]

@[simp] theorem after_after (Γ : Env) (ds ds' : List Param) :
    (Γ.after ds).after ds' = Γ.after (ds ++ ds') := by
  simp [after]

end Env

structure Signature where
  params : List Ty
  variadic : Bool
  returns : Ty

/-- What a call of the name calls: the functions of the program come before the prototypes. -/
inductive Named (r : Registry) (name : String) : Signature → Prop
  | declared {decl : FunctionDecl} (h : r.get? name = some decl) :
    Named r name ⟨decl.params.map (·.ty), false, decl.returns⟩
  | prototype {ext : Ir.External} (hno : r.get? name = none) (h : Ir.prototype? name = some ext) :
    Named r name ⟨ext.params.map .ofIr, ext.variadic, .ofIr ext.returns⟩

mutual

inductive HasType (r : Registry) : Env → Expr → Ty → Prop
  | int {Γ : Env} (n : Int32) : HasType r Γ (.int n) .int
  | double {Γ : Env} (x : Double) : HasType r Γ (.double x) .double
  | str {Γ : Env} (text : String) : HasType r Γ (.str text) .string
  | ident {Γ : Env} {name : String} {ty : Ty} (h : Γ.type? name = some ty) :
    HasType r Γ (.ident name) ty
  | neg {Γ : Env} {e : Expr} {ty : Ty} (he : HasType r Γ e ty) (hn : Numeric ty) :
    HasType r Γ (.neg e) ty
  | binary {Γ : Env} {op : Tree.BinaryOp} {lhs rhs : Expr} {left right ty : Ty}
    (hl : HasType r Γ lhs left) (hr : HasType r (Γ.after lhs.locals) rhs right)
    (hp : Promotes left right ty) : HasType r Γ (.binary op lhs rhs) ty
  /-- An assignment has no value. Its target is looked up before its value. -/
  | assign {Γ : Env} {target : String} {value : Expr} {expected found : Ty}
    (ht : Γ.type? target = some expected) (hv : HasType r Γ value found)
    (ha : Assignable found expected) : HasType r Γ (.assign target value) .void
  | call {Γ : Env} {name : String} {args : List Expr} {s : Signature} (hs : Named r name s)
    (ha : Suits r Γ s.variadic s.params args) : HasType r Γ (.call name args) s.returns
  | block {Γ : Env} {stmts : List Stmt} {ty : Ty} (hb : BlockType r Γ stmts ty) :
    HasType r Γ (.block stmts) ty

/-- The arguments suit the parameters. Only a variadic function takes more, each of them a value. -/
inductive Suits (r : Registry) : Env → Bool → List Ty → List Expr → Prop
  | nil {Γ : Env} {variadic : Bool} : Suits r Γ variadic [] []
  | cons {Γ : Env} {variadic : Bool} {e : Expr} {es : List Expr} {param found : Ty}
    {params : List Ty} (he : HasType r Γ e found) (ha : Assignable found param)
    (hes : Suits r (Γ.after e.locals) variadic params es) :
    Suits r Γ variadic (param :: params) (e :: es)
  | more {Γ : Env} {e : Expr} {es : List Expr} {found : Ty} (he : HasType r Γ e found)
    (hv : found ≠ .void) (hes : Suits r (Γ.after e.locals) true [] es) :
    Suits r Γ true [] (e :: es)

inductive Each (r : Registry) : Env → List Expr → Prop
  | nil {Γ : Env} : Each r Γ []
  | cons {Γ : Env} {e : Expr} {es : List Expr} {ty : Ty} (he : HasType r Γ e ty)
    (hes : Each r (Γ.after e.locals) es) : Each r Γ (e :: es)

/-- The type of a block is that of its last statement. -/
inductive BlockType (r : Registry) : Env → List Stmt → Ty → Prop
  | nil {Γ : Env} : BlockType r Γ [] .void
  | last {Γ : Env} {s : Stmt} {ty : Ty} (hs : StmtType r Γ s ty) : BlockType r Γ [s] ty
  | cons {Γ : Env} {s s' : Stmt} {ss : List Stmt} {t ty : Ty} (hs : StmtType r Γ s t)
    (hss : BlockType r (Γ.after s.locals) (s' :: ss) ty) : BlockType r Γ (s :: s' :: ss) ty

/-- Only an expression has a type other than `void` as a statement. -/
inductive StmtType (r : Registry) : Env → Stmt → Ty → Prop
  | expr {Γ : Env} {e : Expr} {ty : Ty} (he : HasType r Γ e ty) : StmtType r Γ (.expr e) ty
  | var {Γ : Env} {name : String} {ty : Ty} (hv : ty ≠ .void) :
    StmtType r Γ (.var name ty none) .void
  | init {Γ : Env} {name : String} {ty found : Ty} {init : Expr} (hv : ty ≠ .void)
    (hi : HasType r Γ init found) (ha : Assignable found ty) :
    StmtType r Γ (.var name ty (some init)) .void
  /-- The body of a function that returns a value has one, or returns on every path. -/
  | function {Γ : Env} {decl : FunctionDecl} {ty : Ty} (hp : ∀ p ∈ decl.params, p.ty ≠ .void)
    (hb : BlockType r (Γ.within decl) decl.body ty)
    (he : decl.returns = .void ∨ Tree.returnsAtEnd decl.body = true ∨ Assignable ty decl.returns) :
    StmtType r Γ (.function decl) .void
  | ret {Γ : Env} (ha : Assignable .void Γ.returns) : StmtType r Γ (.ret none) .void
  | retValue {Γ : Env} {value : Expr} {found : Ty} (hv : HasType r Γ value found)
    (ha : Assignable found Γ.returns) : StmtType r Γ (.ret (some value)) .void
  | ite {Γ : Env} {cond : Expr} {thenBlock : List Stmt} {found t : Ty}
    (hc : HasType r Γ cond found) (hn : Numeric found)
    (ht : BlockType r (Γ.after cond.locals) thenBlock t) :
    StmtType r Γ (.ite cond thenBlock none) .void
  | iteElse {Γ : Env} {cond : Expr} {thenBlock elseBlock : List Stmt} {found t t' : Ty}
    (hc : HasType r Γ cond found) (hn : Numeric found)
    (ht : BlockType r (Γ.after cond.locals) thenBlock t)
    (he : BlockType r (Γ.after (cond.locals ++ locals thenBlock)) elseBlock t') :
    StmtType r Γ (.ite cond thenBlock (some elseBlock)) .void
  | loop {Γ : Env} {init : List Expr} {cond : Expr} {post : List Expr} {body : List Stmt}
    {found t : Ty} (hi : Each r Γ init)
    (hc : HasType r (Γ.after (localsOfExprs init)) cond found) (hn : Numeric found)
    (hb : BlockType r (Γ.after (localsOfExprs init ++ cond.locals)) body t)
    (hp : Each r (Γ.after (localsOfExprs init ++ cond.locals ++ locals body)) post) :
    StmtType r Γ (.loop init cond post body) .void

end

end TreeLang.Typing
