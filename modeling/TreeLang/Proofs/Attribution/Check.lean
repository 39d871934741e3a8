import TreeLang.Proofs.Typing.Parts

namespace TreeLang

/-- Whether a cause has been pinned to a place of its own already. -/
def Cause.isLocated : Cause → Bool
  | .located _ => true
  | _ => false

/-- A function, and the statement of it or the header that a failure stands in. -/
structure Locus where
  function : String
  node : String

/-- What is reported where the place itself is at fault. -/
def Locus.blame (p : Locus) (cause : Cause) : Diagnostic := ⟨p.function, p.node, cause⟩

/-- A cause without a place of its own is pinned to the one it is found at. -/
theorem Diagnostic.pin_eq_blame {cause : Cause} (h : cause.isLocated = false) (function node : String) :
    Diagnostic.pin function node cause = Locus.blame ⟨function, node⟩ cause := by
  cases cause with
  | located d => cases h
  | _ => rfl

namespace Typing

open TreeLang.Tree (Ty Expr Stmt FunctionDecl)
open Check

section

variable {cause : Cause}

/-- The rules of typing refuse without naming a place; this is left to the statement around the
expression. -/
theorem located_negType {ty : Ty} (h : negType ty = .error cause) : cause.isLocated = false := by
  unfold negType at h
  split at h
  · cases h
  · cases h
    rfl

theorem located_binaryType {op : Tree.BinaryOp} {left right : Ty}
    (h : binaryType op left right = .error cause) : cause.isLocated = false := by
  unfold binaryType at h
  split at h
  · cases h
    rfl
  · split at h
    · cases h
      rfl
    · cases h

theorem located_requireAssignable {name : String} {expected found : Ty}
    (h : requireAssignable name expected found = .error cause) : cause.isLocated = false := by
  unfold requireAssignable at h
  split at h
  · cases h
  · cases h
    rfl

theorem located_requireStorable {name : String} {ty : Ty}
    (h : requireStorable name ty = .error cause) : cause.isLocated = false := by
  unfold requireStorable at h
  split at h
  · cases h
    rfl
  · cases h

theorem located_requireCondition {role : String} {ty : Ty}
    (h : requireCondition role ty = .error cause) : cause.isLocated = false := by
  unfold requireCondition at h
  split at h
  · cases h
  · cases h
    rfl

theorem located_requireArgument {callee : Callee} {index : Nat} {found : Ty}
    (h : requireArgument callee index found = .error cause) : cause.isLocated = false := by
  unfold requireArgument at h
  split at h
  · split at h
    · cases h
    · cases h
      rfl
  · split at h
    · cases h
      rfl
    · cases h

theorem located_resolve {r : Registry} {externals : String → Option Ir.External} {name : String}
    (h : Callee.resolve r externals name = .error cause) : cause.isLocated = false := by
  unfold Callee.resolve at h
  split at h
  · cases h
  · split at h
    · cases h
    · cases h
      rfl

theorem located_checkArity {callee : Callee} {n : Nat} (h : callee.checkArity n = .error cause) :
    cause.isLocated = false := by
  unfold Callee.checkArity at h
  split at h
  · cases h
  · cases h
    rfl

end

mutual

/-- An expression at the place fails, and the diagnostic says where and why. -/
inductive FaultyExpr (r : Registry) : Locus → Checker → Expr → Diagnostic → Prop
  | ident {p : Locus} {k : Checker} {name : String} (unbound : k.scopes.lookup name = none) :
    FaultyExpr r p k (.ident name) (p.blame (.unboundName name))
  | operand {p : Locus} {k : Checker} {e : Expr} {d : Diagnostic} (fault : FaultyExpr r p k e d) :
    FaultyExpr r p k (.neg e) d
  | neg {p : Locus} {k k' : Checker} {e : Expr} {ty : Ty} {cause : Cause}
    (operand : Gives (typeOf r e) k ty k') (refused : negType ty = .error cause) :
    FaultyExpr r p k (.neg e) (p.blame cause)
  | left {p : Locus} {k : Checker} {op : Tree.BinaryOp} {lhs rhs : Expr} {d : Diagnostic}
    (fault : FaultyExpr r p k lhs d) : FaultyExpr r p k (.binary op lhs rhs) d
  | right {p : Locus} {k k₁ : Checker} {op : Tree.BinaryOp} {lhs rhs : Expr} {left : Ty}
    {d : Diagnostic} (passed : Gives (typeOf r lhs) k left k₁) (fault : FaultyExpr r p k₁ rhs d) :
    FaultyExpr r p k (.binary op lhs rhs) d
  | binary {p : Locus} {k k₁ k₂ : Checker} {op : Tree.BinaryOp} {lhs rhs : Expr} {left right : Ty}
    {cause : Cause} (lhs_passed : Gives (typeOf r lhs) k left k₁)
    (rhs_passed : Gives (typeOf r rhs) k₁ right k₂)
    (refused : binaryType op left right = .error cause) :
    FaultyExpr r p k (.binary op lhs rhs) (p.blame cause)
  | target {p : Locus} {k : Checker} {target : String} {value : Expr}
    (unbound : k.scopes.lookup target = none) :
    FaultyExpr r p k (.assign target value) (p.blame (.unboundName target))
  | value {p : Locus} {k : Checker} {target : String} {value : Expr} {expected : Ty} {d : Diagnostic}
    (bound : k.scopes.lookup target = some expected) (fault : FaultyExpr r p k value d) :
    FaultyExpr r p k (.assign target value) d
  | assign {p : Locus} {k k' : Checker} {target : String} {value : Expr} {expected found : Ty}
    {cause : Cause} (bound : k.scopes.lookup target = some expected)
    (passed : Gives (typeOf r value) k found k')
    (refused : requireAssignable target expected found = .error cause) :
    FaultyExpr r p k (.assign target value) (p.blame cause)
  | callee {p : Locus} {k : Checker} {name : String} {args : List Expr} {cause : Cause}
    (refused : Callee.resolve r Ir.prototype? name = .error cause) :
    FaultyExpr r p k (.call name args) (p.blame cause)
  | arity {p : Locus} {k : Checker} {name : String} {args : List Expr} {callee : Callee} {cause : Cause}
    (known : Callee.resolve r Ir.prototype? name = .ok callee)
    (refused : callee.checkArity args.length = .error cause) :
    FaultyExpr r p k (.call name args) (p.blame cause)
  | args {p : Locus} {k : Checker} {name : String} {args : List Expr} {callee : Callee}
    {d : Diagnostic} (known : Callee.resolve r Ir.prototype? name = .ok callee)
    (arity : callee.checkArity args.length = .ok ()) (fault : FaultyArgs r p callee 0 k args d) :
    FaultyExpr r p k (.call name args) d
  /-- The statements of a block expression are places of their own. -/
  | block {p : Locus} {k : Checker} {stmts : List Stmt} {d : Diagnostic}
    (fault : FaultyStmts r p.function k stmts d) : FaultyExpr r p k (.block stmts) d

/-- One of the arguments from position `index` on fails, or does not fit its parameter. -/
inductive FaultyArgs (r : Registry) : Locus → Callee → Nat → Checker → List Expr → Diagnostic → Prop
  | head {p : Locus} {callee : Callee} {index : Nat} {k : Checker} {e : Expr} {es : List Expr}
    {d : Diagnostic} (fault : FaultyExpr r p k e d) : FaultyArgs r p callee index k (e :: es) d
  | unfit {p : Locus} {callee : Callee} {index : Nat} {k k' : Checker} {e : Expr} {es : List Expr}
    {found : Ty} {cause : Cause} (passed : Gives (typeOf r e) k found k')
    (refused : requireArgument callee index found = .error cause) :
    FaultyArgs r p callee index k (e :: es) (p.blame cause)
  | tail {p : Locus} {callee : Callee} {index : Nat} {k k' : Checker} {e : Expr} {es : List Expr}
    {found : Ty} {d : Diagnostic} (passed : Gives (typeOf r e) k found k')
    (fits : requireArgument callee index found = .ok ())
    (fault : FaultyArgs r p callee (index + 1) k' es d) : FaultyArgs r p callee index k (e :: es) d

inductive FaultyEach (r : Registry) : Locus → Checker → List Expr → Diagnostic → Prop
  | head {p : Locus} {k : Checker} {e : Expr} {es : List Expr} {d : Diagnostic}
    (fault : FaultyExpr r p k e d) : FaultyEach r p k (e :: es) d
  | tail {p : Locus} {k k' : Checker} {e : Expr} {es : List Expr} {found : Ty} {d : Diagnostic}
    (passed : Gives (typeOf r e) k found k') (fault : FaultyEach r p k' es d) :
    FaultyEach r p k (e :: es) d

inductive FaultyStmts (r : Registry) : String → Checker → List Stmt → Diagnostic → Prop
  | head {function : String} {k : Checker} {s : Stmt} {ss : List Stmt} {d : Diagnostic}
    (fault : FaultyStmt r ⟨function, s.summary⟩ k s d) : FaultyStmts r function k (s :: ss) d
  | tail {function : String} {k k' : Checker} {s : Stmt} {ss : List Stmt} {ty : Ty} {d : Diagnostic}
    (passed : Gives (typeOfStmt r s) k ty k') (fault : FaultyStmts r function k' ss d) :
    FaultyStmts r function k (s :: ss) d

/-- What goes wrong in a declared function is not a fault of the statement that declares it. -/
inductive FaultyStmt (r : Registry) : Locus → Checker → Stmt → Diagnostic → Prop
  | expr {p : Locus} {k : Checker} {e : Expr} {d : Diagnostic} (fault : FaultyExpr r p k e d) :
    FaultyStmt r p k (.expr e) d
  | binding {p : Locus} {k : Checker} {name : String} {ty : Ty} {init : Option Expr} {cause : Cause}
    (refused : requireStorable name ty = .error cause) :
    FaultyStmt r p k (.var name ty init) (p.blame cause)
  | init {p : Locus} {k : Checker} {name : String} {ty : Ty} {init : Expr} {d : Diagnostic}
    (storable : requireStorable name ty = .ok ()) (fault : FaultyExpr r p k init d) :
    FaultyStmt r p k (.var name ty (some init)) d
  | unfit {p : Locus} {k k' : Checker} {name : String} {ty found : Ty} {init : Expr} {cause : Cause}
    (storable : requireStorable name ty = .ok ()) (passed : Gives (typeOf r init) k found k')
    (refused : requireAssignable name ty found = .error cause) :
    FaultyStmt r p k (.var name ty (some init)) (p.blame cause)
  | retNone {p : Locus} {k : Checker} (unfit : coercible .void k.scopes.returns = false) :
    FaultyStmt r p k (.ret none)
      (p.blame (.returnTypeMismatch p.function k.scopes.returns .void))
  | retValue {p : Locus} {k : Checker} {e : Expr} {d : Diagnostic} (fault : FaultyExpr r p k e d) :
    FaultyStmt r p k (.ret (some e)) d
  | ret {p : Locus} {k k' : Checker} {e : Expr} {found : Ty} (passed : Gives (typeOf r e) k found k')
    (unfit : coercible found k'.scopes.returns = false) :
    FaultyStmt r p k (.ret (some e))
      (p.blame (.returnTypeMismatch p.function k'.scopes.returns found))
  | condition {p : Locus} {k : Checker} {cond : Expr} {thenBlock : List Stmt}
    {elseBlock : Option (List Stmt)} {d : Diagnostic} (fault : FaultyExpr r p k cond d) :
    FaultyStmt r p k (.ite cond thenBlock elseBlock) d
  | test {p : Locus} {k k' : Checker} {cond : Expr} {thenBlock : List Stmt}
    {elseBlock : Option (List Stmt)} {found : Ty} {cause : Cause}
    (passed : Gives (typeOf r cond) k found k')
    (refused : requireCondition "if condition" found = .error cause) :
    FaultyStmt r p k (.ite cond thenBlock elseBlock) (p.blame cause)
  | thenPart {p : Locus} {k k' : Checker} {cond : Expr} {thenBlock : List Stmt}
    {elseBlock : Option (List Stmt)} {found : Ty} {d : Diagnostic}
    (passed : Gives (typeOf r cond) k found k')
    (numeric : requireCondition "if condition" found = .ok ())
    (fault : FaultyStmts r p.function k' thenBlock d) :
    FaultyStmt r p k (.ite cond thenBlock elseBlock) d
  | elsePart {p : Locus} {k k₁ k₂ : Checker} {cond : Expr} {thenBlock elseBlock : List Stmt}
    {found ty : Ty} {d : Diagnostic} (passed : Gives (typeOf r cond) k found k₁)
    (numeric : requireCondition "if condition" found = .ok ())
    (then_passed : Gives (typeOfStmts r .void thenBlock) k₁ ty k₂)
    (fault : FaultyStmts r p.function k₂ elseBlock d) :
    FaultyStmt r p k (.ite cond thenBlock (some elseBlock)) d
  | loopInit {p : Locus} {k : Checker} {init : List Expr} {cond : Expr} {post : List Expr}
    {body : List Stmt} {d : Diagnostic} (fault : FaultyEach r p k init d) :
    FaultyStmt r p k (.loop init cond post body) d
  | loopCondition {p : Locus} {k k₁ : Checker} {init : List Expr} {cond : Expr} {post : List Expr}
    {body : List Stmt} {d : Diagnostic} (init_passed : Gives (checkEach r init) k () k₁)
    (fault : FaultyExpr r p k₁ cond d) : FaultyStmt r p k (.loop init cond post body) d
  | loopTest {p : Locus} {k k₁ k₂ : Checker} {init : List Expr} {cond : Expr} {post : List Expr}
    {body : List Stmt} {found : Ty} {cause : Cause} (init_passed : Gives (checkEach r init) k () k₁)
    (passed : Gives (typeOf r cond) k₁ found k₂)
    (refused : requireCondition "for condition" found = .error cause) :
    FaultyStmt r p k (.loop init cond post body) (p.blame cause)
  | loopBody {p : Locus} {k k₁ k₂ : Checker} {init : List Expr} {cond : Expr} {post : List Expr}
    {body : List Stmt} {found : Ty} {d : Diagnostic} (init_passed : Gives (checkEach r init) k () k₁)
    (passed : Gives (typeOf r cond) k₁ found k₂)
    (numeric : requireCondition "for condition" found = .ok ())
    (fault : FaultyStmts r p.function k₂ body d) : FaultyStmt r p k (.loop init cond post body) d
  | loopPost {p : Locus} {k k₁ k₂ k₃ : Checker} {init : List Expr} {cond : Expr} {post : List Expr}
    {body : List Stmt} {found ty : Ty} {d : Diagnostic}
    (init_passed : Gives (checkEach r init) k () k₁) (passed : Gives (typeOf r cond) k₁ found k₂)
    (numeric : requireCondition "for condition" found = .ok ())
    (body_passed : Gives (typeOfStmts r .void body) k₂ ty k₃) (fault : FaultyEach r p k₃ post d) :
    FaultyStmt r p k (.loop init cond post body) d

end

/-- A function fails: at its header where a parameter cannot hold a value or the end of the body is
of another type, or in its body. -/
inductive FaultyFunction (r : Registry) : Checker → FunctionDecl → Diagnostic → Prop
  | param {k : Checker} {decl : FunctionDecl} {before after : List Tree.Param} {param : Tree.Param}
    (params : decl.params = before ++ param :: after) (storable : ∀ q ∈ before, q.ty ≠ .void)
    (void : param.ty = .void) :
    FaultyFunction r k decl (Locus.blame ⟨decl.name, decl.header⟩ (.voidBinding param.name))
  | body {k k₁ : Checker} {decl : FunctionDecl} {d : Diagnostic}
    (params : Gives (declareParams decl decl.params) (k.enter decl.name decl.returns) () k₁)
    (fault : FaultyStmts r decl.name k₁ decl.body d) : FaultyFunction r k decl d
  | result {k k₁ k₂ : Checker} {decl : FunctionDecl} {found : Ty}
    (params : Gives (declareParams decl decl.params) (k.enter decl.name decl.returns) () k₁)
    (passed : Gives (typeOfStmts r .void decl.body) k₁ found k₂) (value : decl.returns ≠ .void)
    (reached : Tree.returnsAtEnd decl.body = false) (unfit : coercible found decl.returns = false) :
    FaultyFunction r k decl
      (Locus.blame ⟨decl.name, decl.header⟩ (.returnTypeMismatch decl.name decl.returns found))

/-- In the function, and not pinned to a place inside of its own cause. -/
def PinnedIn (function : String) (d : Diagnostic) : Prop :=
  d.function = function ∧ d.cause.isLocated = false

mutual

/-- A fault in an expression is pinned to the function at hand, whatever lies between it and the
statement. -/
theorem FaultyExpr.pinned {r : Registry} : ∀ {p : Locus} {k : Checker} {e : Expr} {d : Diagnostic},
    FaultyExpr r p k e d → PinnedIn p.function d
  | _, _, _, _, .ident _ => ⟨rfl, rfl⟩
  | _, _, _, _, .operand h => h.pinned
  | _, _, _, _, .neg _ hr => ⟨rfl, located_negType hr⟩
  | _, _, _, _, .left h => h.pinned
  | _, _, _, _, .right _ h => h.pinned
  | _, _, _, _, .binary _ _ hr => ⟨rfl, located_binaryType hr⟩
  | _, _, _, _, .target _ => ⟨rfl, rfl⟩
  | _, _, _, _, .value _ h => h.pinned
  | _, _, _, _, .assign _ _ hr => ⟨rfl, located_requireAssignable hr⟩
  | _, _, _, _, .callee hr => ⟨rfl, located_resolve hr⟩
  | _, _, _, _, .arity _ hr => ⟨rfl, located_checkArity hr⟩
  | _, _, _, _, .args _ _ h => h.pinned
  | _, _, _, _, .block h => h.pinned

theorem FaultyArgs.pinned {r : Registry} : ∀ {p : Locus} {callee : Callee} {index : Nat} {k : Checker}
    {es : List Expr} {d : Diagnostic}, FaultyArgs r p callee index k es d →
    PinnedIn p.function d
  | _, _, _, _, _, _, .head h => h.pinned
  | _, _, _, _, _, _, .unfit _ hr => ⟨rfl, located_requireArgument hr⟩
  | _, _, _, _, _, _, .tail _ _ h => h.pinned

theorem FaultyEach.pinned {r : Registry} : ∀ {p : Locus} {k : Checker} {es : List Expr}
    {d : Diagnostic}, FaultyEach r p k es d → PinnedIn p.function d
  | _, _, _, _, .head h => h.pinned
  | _, _, _, _, .tail _ h => h.pinned

/-- Among the statements of a block the place changes, the function does not. -/
theorem FaultyStmts.pinned {r : Registry} : ∀ {function : String} {k : Checker} {ss : List Stmt}
    {d : Diagnostic}, FaultyStmts r function k ss d → PinnedIn function d
  | _, _, _, _, .head h => h.pinned
  | _, _, _, _, .tail _ h => h.pinned

theorem FaultyStmt.pinned {r : Registry} : ∀ {p : Locus} {k : Checker} {s : Stmt} {d : Diagnostic},
    FaultyStmt r p k s d → PinnedIn p.function d
  | _, _, _, _, .expr h => h.pinned
  | _, _, _, _, .binding hr => ⟨rfl, located_requireStorable hr⟩
  | _, _, _, _, .init _ h => h.pinned
  | _, _, _, _, .unfit _ _ hr => ⟨rfl, located_requireAssignable hr⟩
  | _, _, _, _, .retNone _ => ⟨rfl, rfl⟩
  | _, _, _, _, .retValue h => h.pinned
  | _, _, _, _, .ret _ _ => ⟨rfl, rfl⟩
  | _, _, _, _, .condition h => h.pinned
  | _, _, _, _, .test _ hr => ⟨rfl, located_requireCondition hr⟩
  | _, _, _, _, .thenPart _ _ h => h.pinned
  | _, _, _, _, .elsePart _ _ _ h => h.pinned
  | _, _, _, _, .loopInit h => h.pinned
  | _, _, _, _, .loopCondition _ h => h.pinned
  | _, _, _, _, .loopTest _ _ hr => ⟨rfl, located_requireCondition hr⟩
  | _, _, _, _, .loopBody _ _ _ h => h.pinned
  | _, _, _, _, .loopPost _ _ _ _ h => h.pinned

end

/-- What goes wrong in a function is pinned to this function and to none around it. -/
theorem FaultyFunction.pinned {r : Registry} {k : Checker} {decl : FunctionDecl} {d : Diagnostic}
    (h : FaultyFunction r k decl d) : PinnedIn decl.name d := by
  cases h with
  | param => exact ⟨rfl, rfl⟩
  | body _ fault => exact fault.pinned
  | result => exact ⟨rfl, rfl⟩

variable {r : Registry} {k k' : Checker}

theorem Kept.function (h : Kept k k') : k'.function = k.function := by
  unfold Checker.function
  rw [h.functions]

/-- What is done after a failure does not change the failure. -/
theorem fails_onFailure {ε α : Type} {m : Check ε α} {after : StateM Checker Unit} {e : ε}
    (h : Fails (m.onFailure after) k e k') : ∃ t, Fails m k e t := by
  obtain ⟨e', t, hm, hthrow⟩ := fails_tryCatch.mp h
  rcases fails_bind.mp hthrow with hno | ⟨_, _, _, hthrow⟩
  · exact absurd hno fails_lift
  · obtain ⟨rfl, _⟩ := fails_throw.mp hthrow
    exact ⟨t, hm⟩

theorem fails_pinned {α : Type} {s : Stmt} {m : Check Cause α} {d : Diagnostic}
    (h : Fails (pinned s m) k d k') :
    ∃ cause, Fails m k cause k' ∧ d = Diagnostic.pin k.function s.summary cause := by
  rcases fails_bind.mp h with hno | ⟨_, _, hget, hm⟩
  · exact absurd hno fails_get
  · obtain ⟨rfl, rfl⟩ := gives_get.mp hget
    exact fails_adapt.mp hm

/-- A name is refused only where no table in force binds it. -/
theorem fails_nameType {name : String} {cause : Cause} (h : Fails (nameType name) k cause k') :
    k.scopes.lookup name = none ∧ cause = .unboundName name := by
  unfold nameType at h
  rcases fails_bind.mp h with hno | ⟨_, _, hget, hm⟩
  · exact absurd hno fails_get
  · obtain ⟨rfl, rfl⟩ := gives_get.mp hget
    split at hm
    · exact absurd hm fails_pure
    · exact ⟨by assumption, (fails_throw.mp hm).1⟩

theorem fails_requireReturn {found : Ty} {cause : Cause} (h : Fails (requireReturn found) k cause k') :
    coercible found k.scopes.returns = false ∧
      cause = .returnTypeMismatch k.function k.scopes.returns found := by
  unfold requireReturn at h
  rcases fails_bind.mp h with hno | ⟨_, _, hget, hm⟩
  · exact absurd hno fails_get
  · obtain ⟨rfl, rfl⟩ := gives_get.mp hget
    split at hm
    · exact absurd hm fails_pure
    · rename_i hno
      exact ⟨Bool.eq_false_iff.mpr hno, (fails_throw.mp hm).1⟩

/-- The condition of a statement, with the test that its type is a number. -/
theorem fails_condition {role : String} {m : Check Cause Ty} {cause : Cause}
    (h : Fails (do liftExcept (requireCondition role (← m))) k cause k') :
    Fails m k cause k' ∨ ∃ found k₁, Gives m k found k₁ ∧ requireCondition role found = .error cause := by
  rcases fails_bind.mp h with hf | ⟨found, k₁, hg, hf⟩
  · exact .inl hf
  · exact .inr ⟨found, k₁, hg, (fails_liftExcept.mp hf).1⟩

theorem gives_condition {role : String} {m : Check Cause Ty} {u : Unit}
    (h : Gives (do liftExcept (requireCondition role (← m))) k u k') :
    ∃ found, Gives m k found k' ∧ requireCondition role found = .ok () := by
  obtain ⟨found, k₁, hg, hlift⟩ := gives_bind.mp h
  obtain ⟨hreq, rfl⟩ := gives_liftExcept.mp hlift
  exact ⟨found, hg, hreq⟩

section Forms

variable {node : String} {cond : Expr} {init post : List Expr} {thenBlock body : List Stmt}
  {elseBlock : Option (List Stmt)} {found : Ty} {k₁ : Checker} {cause : Cause}

/-- What goes wrong in a block stands in the function around it. -/
theorem faulty_located {name : String} (hname : k.function = name)
    (fault : ∀ {d k'}, Fails (typeOfStmts r .void body) k d k' → FaultyStmts r k.function k body d)
    (h : Fails (located (typeOfStmts r .void body)) k cause k') :
    FaultyStmts r name k body (Diagnostic.pin name node cause) := by
  obtain ⟨d, hd, rfl⟩ := fails_adapt.mp h
  exact hname ▸ fault hd

/-- What can be wrong with a condition is the expression itself, or its type. -/
theorem faulty_condition {after : StateM Checker Unit}
    (fault : ∀ {k' cause}, Fails (typeOf r cond) k cause k' →
      FaultyExpr r ⟨k.function, node⟩ k cond (Diagnostic.pin k.function node cause))
    (h : Fails (onFailure (do liftExcept (requireCondition "if condition" (← typeOf r cond))) after)
      k cause k') : FaultyStmt r ⟨k.function, node⟩ k (.ite cond thenBlock elseBlock)
      (Diagnostic.pin k.function node cause) := by
  obtain ⟨t, hf⟩ := fails_onFailure h
  rcases fails_condition hf with hf | ⟨found, k₁, hg, hreq⟩
  · exact .condition (fault hf)
  · rw [Diagnostic.pin_eq_blame (located_requireCondition hreq)]
    exact .test hg hreq

/-- The branch stands behind a condition that passed. -/
theorem faulty_thenPart (hg : Gives (typeOf r cond) k found k₁)
    (hreq : requireCondition "if condition" found = .ok ())
    (fault : ∀ {d k'}, Fails (typeOfStmts r .void thenBlock) k₁ d k' →
      FaultyStmts r k₁.function k₁ thenBlock d)
    (h : Fails (located (typeOfStmts r .void thenBlock)) k₁ cause k') :
    FaultyStmt r ⟨k.function, node⟩ k (.ite cond thenBlock elseBlock)
      (Diagnostic.pin k.function node cause) :=
  .thenPart hg hreq (faulty_located ((typeOf_steady r cond).of_gives hg).function fault h)

/-- A loop fails in its header, at the place of the loop itself, or in a statement of its body, at the
place of this statement. -/
theorem loop_faulty
    (finit : ∀ {k' cause}, Fails (checkEach r init) k cause k' →
      FaultyEach r ⟨k.function, node⟩ k init (Diagnostic.pin k.function node cause))
    (fcond : ∀ {k k' cause}, Fails (typeOf r cond) k cause k' →
      FaultyExpr r ⟨k.function, node⟩ k cond (Diagnostic.pin k.function node cause))
    (fbody : ∀ {k k' d}, Fails (typeOfStmts r .void body) k d k' →
      FaultyStmts r k.function k body d)
    (fpost : ∀ {k k' cause}, Fails (checkEach r post) k cause k' →
      FaultyEach r ⟨k.function, node⟩ k post (Diagnostic.pin k.function node cause))
    (h : Fails (typeOfStmt r (.loop init cond post body)) k cause k') :
    FaultyStmt r ⟨k.function, node⟩ k (.loop init cond post body)
      (Diagnostic.pin k.function node cause) := by
  rw [typeOfStmt] at h
  rcases fails_bind.mp h with hf | ⟨_, k₂, hhead, h⟩
  · obtain ⟨t, hf⟩ := fails_onFailure hf
    rcases fails_bind.mp hf with hf | ⟨_, k₁, hi, hf⟩
    · exact .loopInit (finit hf)
    rcases fails_condition hf with hf | ⟨found, k₂, hg, hreq⟩
    · have hname := ((checkEach_steady r init).of_gives hi).function
      exact .loopCondition hi (hname ▸ fcond hf)
    · rw [Diagnostic.pin_eq_blame (located_requireCondition hreq)]
      exact .loopTest hi hg hreq
  obtain ⟨_, k₁, hi, hcond⟩ := gives_bind.mp (gives_onFailure.mp hhead)
  obtain ⟨found, hg, hreq⟩ := gives_condition hcond
  have hname := (((checkEach_steady r init).of_gives hi).trans
    ((typeOf_steady r cond).of_gives hg)).function
  rcases fails_bind.mp h with hf | ⟨ty, k₃, hb, h⟩
  · exact .loopBody hi hg hreq (faulty_located hname fbody hf)
  have hb := gives_located.mp hb
  rcases fails_bind.mp h with hf | ⟨_, _, _, hno⟩
  · have hname' := ((typeOfStmts_steady r .void body).of_gives hb).function.trans hname
    exact .loopPost hi hg hreq hb (hname' ▸ fpost hf)
  · exact absurd hno fails_pure

end Forms

mutual

/-- The place of a failure is passed inwards, so a failing expression is pinned to the statement it
stands in. -/
theorem typeOf_faulty (r : Registry) : ∀ (e : Expr) {k k' : Checker} {cause : Cause} (node : String),
    Fails (typeOf r e) k cause k' →
    FaultyExpr r ⟨k.function, node⟩ k e (Diagnostic.pin k.function node cause)
  | .int _, k, k', cause, node, h => by simp [typeOf] at h
  | .double _, k, k', cause, node, h => by simp [typeOf] at h
  | .str _, k, k', cause, node, h => by simp [typeOf] at h
  | .ident name, k, k', cause, node, h => by
    rw [typeOf] at h
    obtain ⟨hlook, rfl⟩ := fails_nameType h
    exact .ident hlook
  | .neg operand, k, k', cause, node, h => by
    rw [typeOf] at h
    rcases fails_bind.mp h with hf | ⟨ty, k₁, hg, hf⟩
    · exact .operand (typeOf_faulty r operand node hf)
    · obtain ⟨hreq, _⟩ := fails_liftExcept.mp hf
      rw [Diagnostic.pin_eq_blame (located_negType hreq)]
      exact .neg hg hreq
  | .binary op lhs rhs, k, k', cause, node, h => by
    rw [typeOf] at h
    rcases fails_bind.mp h with hf | ⟨left, k₁, hl, h⟩
    · exact .left (typeOf_faulty r lhs node hf)
    rcases fails_bind.mp h with hf | ⟨right, k₂, hr, hf⟩
    · have hrhs := typeOf_faulty r rhs node hf
      rw [((typeOf_steady r lhs).of_gives hl).function] at hrhs
      exact .right hl hrhs
    · obtain ⟨hreq, _⟩ := fails_liftExcept.mp hf
      rw [Diagnostic.pin_eq_blame (located_binaryType hreq)]
      exact .binary hl hr hreq
  | .assign target value, k, k', cause, node, h => by
    rw [typeOf] at h
    rcases fails_bind.mp h with hf | ⟨expected, k₁, hname, h₁⟩
    · obtain ⟨hlook, rfl⟩ := fails_nameType hf
      exact .target hlook
    obtain ⟨hlook, rfl⟩ := gives_nameType.mp hname
    rcases fails_bind.mp h₁ with hf | ⟨found, k₂, hv, h₂⟩
    · exact .value hlook (typeOf_faulty r value node hf)
    rcases fails_bind.mp h₂ with hf | ⟨_, _, _, hno⟩
    · obtain ⟨hreq, _⟩ := fails_liftExcept.mp hf
      rw [Diagnostic.pin_eq_blame (located_requireAssignable hreq)]
      exact .assign hlook hv hreq
    · exact absurd hno fails_pure
  | .call name args, k, k', cause, node, h => by
    rw [typeOf] at h
    rcases fails_bind.mp h with hf | ⟨callee, k₁, hcallee, h₁⟩
    · obtain ⟨hno, _⟩ := fails_liftExcept.mp hf
      rw [Diagnostic.pin_eq_blame (located_resolve hno)]
      exact .callee hno
    obtain ⟨hres, rfl⟩ := gives_liftExcept.mp hcallee
    rcases fails_bind.mp h₁ with hf | ⟨_, k₂, hcount, h₂⟩
    · obtain ⟨hno, _⟩ := fails_liftExcept.mp hf
      rw [Diagnostic.pin_eq_blame (located_checkArity hno)]
      exact .arity hres hno
    obtain ⟨harity, rfl⟩ := gives_liftExcept.mp hcount
    rcases fails_bind.mp h₂ with hf | ⟨_, _, _, hno⟩
    · exact .args hres harity (checkArgs_faulty r callee 0 args node hf)
    · exact absurd hno fails_pure
  | .block stmts, k, k', cause, node, h => by
    rw [typeOf] at h
    obtain ⟨d, hf, rfl⟩ := fails_adapt.mp h
    exact .block (typeOfStmts_faulty r .void stmts hf)

theorem checkArgs_faulty (r : Registry) (callee : Callee) (index : Nat) : ∀ (es : List Expr)
    {k k' : Checker} {cause : Cause} (node : String), Fails (checkArgs r callee index es) k cause k' →
    FaultyArgs r ⟨k.function, node⟩ callee index k es (Diagnostic.pin k.function node cause)
  | [], k, k', cause, node, h => by simp [checkArgs] at h
  | e :: es, k, k', cause, node, h => by
    rw [checkArgs] at h
    rcases fails_bind.mp h with hf | ⟨found, k₁, hg, h₁⟩
    · exact .head (typeOf_faulty r e node hf)
    rcases fails_bind.mp h₁ with hf | ⟨_, k₂, hfits, hf⟩
    · obtain ⟨hno, _⟩ := fails_liftExcept.mp hf
      rw [Diagnostic.pin_eq_blame (located_requireArgument hno)]
      exact .unfit hg hno
    · obtain ⟨hreq, rfl⟩ := gives_liftExcept.mp hfits
      have hrest := checkArgs_faulty r callee (index + 1) es node hf
      rw [((typeOf_steady r e).of_gives hg).function] at hrest
      exact .tail hg hreq hrest

theorem checkEach_faulty (r : Registry) : ∀ (es : List Expr) {k k' : Checker} {cause : Cause}
    (node : String), Fails (checkEach r es) k cause k' →
    FaultyEach r ⟨k.function, node⟩ k es (Diagnostic.pin k.function node cause)
  | [], k, k', cause, node, h => by simp [checkEach] at h
  | e :: es, k, k', cause, node, h => by
    rw [checkEach] at h
    rcases fails_bind.mp h with hf | ⟨found, k₁, hg, hf⟩
    · exact .head (typeOf_faulty r e node hf)
    · have hrest := checkEach_faulty r es node hf
      rw [((typeOf_steady r e).of_gives hg).function] at hrest
      exact .tail hg hrest

/-- The statement that fails is the first that does, behind statements that passed. -/
theorem typeOfStmts_faulty (r : Registry) (last : Ty) : ∀ (ss : List Stmt) {k k' : Checker}
    {d : Diagnostic}, Fails (typeOfStmts r last ss) k d k' → FaultyStmts r k.function k ss d
  | [], k, k', d, h => by simp [typeOfStmts] at h
  | s :: ss, k, k', d, h => by
    rw [typeOfStmts] at h
    rcases fails_bind.mp h with hf | ⟨ty, k₁, hg, hf⟩
    · obtain ⟨t, hs⟩ := fails_onFailure hf
      obtain ⟨cause, hs', rfl⟩ := fails_pinned hs
      exact .head (typeOfStmt_faulty r s s.summary hs')
    · have hs := gives_pinned.mp (gives_onFailure.mp hg)
      have hrest := typeOfStmts_faulty r ty ss hf
      rw [((typeOfStmt_steady r s).of_gives hs).function] at hrest
      exact .tail hs hrest

/-- Each rule fails in a part of the tree, or names what the tree itself is refused for behind parts
that passed. -/
theorem typeOfStmt_faulty (r : Registry) : ∀ (s : Stmt) {k k' : Checker} {cause : Cause}
    (node : String), Fails (typeOfStmt r s) k cause k' →
    FaultyStmt r ⟨k.function, node⟩ k s (Diagnostic.pin k.function node cause)
  | .expr e, k, k', cause, node, h => by
    rw [typeOfStmt] at h
    exact .expr (typeOf_faulty r e node h)
  | .var name ty none, k, k', cause, node, h => by
    rw [typeOfStmt] at h
    rcases fails_bind.mp h with hf | ⟨_, _, _, h⟩
    · obtain ⟨hreq, _⟩ := fails_liftExcept.mp hf
      rw [Diagnostic.pin_eq_blame (located_requireStorable hreq)]
      exact .binding hreq
    · simp at h
  | .var name ty (some init), k, k', cause, node, h => by
    rw [typeOfStmt] at h
    rcases fails_bind.mp h with hf | ⟨_, _, hvalue, h₁⟩
    · obtain ⟨hreq, _⟩ := fails_liftExcept.mp hf
      rw [Diagnostic.pin_eq_blame (located_requireStorable hreq)]
      exact .binding hreq
    obtain ⟨hstore, rfl⟩ := gives_liftExcept.mp hvalue
    rcases fails_bind.mp h₁ with hf | ⟨found, k₁, hg, h₂⟩
    · obtain ⟨t, hi⟩ := fails_onFailure hf
      exact .init hstore (typeOf_faulty r init node hi)
    rcases fails_bind.mp h₂ with hno | ⟨_, _, _, h₃⟩
    · exact absurd hno fails_modify
    rcases fails_bind.mp h₃ with hf | ⟨_, _, _, hno⟩
    · obtain ⟨hreq, _⟩ := fails_liftExcept.mp hf
      rw [Diagnostic.pin_eq_blame (located_requireAssignable hreq)]
      exact .unfit hstore (gives_onFailure.mp hg) hreq
    · exact absurd hno fails_pure
  | .function decl, k, k', cause, node, h => by simp [typeOfStmt] at h
  | .ret none, k, k', cause, node, h => by
    rw [typeOfStmt] at h
    rcases fails_bind.mp h with hf | ⟨_, _, _, hno⟩
    · obtain ⟨hco, rfl⟩ := fails_requireReturn hf
      exact .retNone hco
    · exact absurd hno fails_pure
  | .ret (some value), k, k', cause, node, h => by
    rw [typeOfStmt] at h
    rcases fails_bind.mp h with hf | ⟨found, k₁, hg, h⟩
    · exact .retValue (typeOf_faulty r value node hf)
    rcases fails_bind.mp h with hf | ⟨_, _, _, hno⟩
    · obtain ⟨hco, rfl⟩ := fails_requireReturn hf
      rw [((typeOf_steady r value).of_gives hg).function]
      exact .ret hg hco
    · exact absurd hno fails_pure
  | .ite cond thenBlock none, k, k', cause, node, h => by
    rw [typeOfStmt] at h
    rcases fails_bind.mp h with hf | ⟨_, k₁, hcond, h⟩
    · exact faulty_condition (typeOf_faulty r cond node) hf
    obtain ⟨found, hg, hreq⟩ := gives_condition (gives_onFailure.mp hcond)
    rcases fails_bind.mp h with hf | ⟨_, _, _, hno⟩
    · exact faulty_thenPart hg hreq (typeOfStmts_faulty r .void thenBlock) hf
    · exact absurd hno fails_pure
  | .ite cond thenBlock (some elseBlock), k, k', cause, node, h => by
    rw [typeOfStmt] at h
    rcases fails_bind.mp h with hf | ⟨_, k₁, hcond, h⟩
    · exact faulty_condition (typeOf_faulty r cond node) hf
    obtain ⟨found, hg, hreq⟩ := gives_condition (gives_onFailure.mp hcond)
    rcases fails_bind.mp h with hf | ⟨ty, k₂, ht, h⟩
    · obtain ⟨t, hf⟩ := fails_onFailure hf
      exact faulty_thenPart hg hreq (typeOfStmts_faulty r .void thenBlock) hf
    have ht := gives_located.mp (gives_onFailure.mp ht)
    rcases fails_bind.mp h with hf | ⟨_, _, _, hno⟩
    · have hname := (((typeOf_steady r cond).of_gives hg).trans
        ((typeOfStmts_steady r .void thenBlock).of_gives ht)).function
      exact .elsePart hg hreq ht
        (faulty_located hname (typeOfStmts_faulty r .void elseBlock) hf)
    · exact absurd hno fails_pure
  | .loop init cond post body, k, k', cause, node, h =>
    loop_faulty (checkEach_faulty r init node) (typeOf_faulty r cond node)
      (typeOfStmts_faulty r .void body) (checkEach_faulty r post node) h

end

/-- The first parameter without a type for its values is the one that is named. -/
theorem fails_declareParams {decl : FunctionDecl} {ps : List Tree.Param} {d : Diagnostic}
    (h : Fails (declareParams decl ps) k d k') : ∃ before param after,
      ps = before ++ param :: after ∧ (∀ q ∈ before, q.ty ≠ .void) ∧ param.ty = .void ∧
      d = Locus.blame ⟨decl.name, decl.header⟩ (.voidBinding param.name) := by
  induction ps generalizing k with
  | nil => exact absurd h fails_pure
  | cons p ps ih =>
    rw [declareParams] at h
    rcases fails_bind.mp h with hf | ⟨_, _, hstore, h₁⟩
    · obtain ⟨hno, _⟩ := fails_liftExcept.mp hf
      by_cases hp : p.ty = .void
      · rw [requireStorable, if_pos hp] at hno
        cases hno
        exact ⟨[], p, ps, rfl, List.forall_mem_nil _, hp, rfl⟩
      · rw [requireStorable, if_neg hp] at hno
        cases hno
    · obtain ⟨hstorable, rfl⟩ := gives_liftExcept.mp hstore
      have hp : p.ty ≠ .void := by
        intro hp
        rw [requireStorable, if_pos hp] at hstorable
        cases hstorable
      rcases fails_bind.mp h₁ with hno | ⟨_, _, _, h₂⟩
      · exact absurd hno fails_modify
      obtain ⟨before, param, after, rfl, hbefore, hvoid, hd⟩ := ih h₂
      refine ⟨p :: before, param, after, rfl, fun q hq => ?_, hvoid, hd⟩
      rcases List.mem_cons.mp hq with rfl | hq
      · exact hp
      · exact hbefore q hq

/-- A function fails at its header or in its body. -/
theorem checkBody_faulty {decl : FunctionDecl} {d : Diagnostic}
    (h : Fails (checkBody r decl) (k.enter decl.name decl.returns) d k') :
    FaultyFunction r k decl d := by
  unfold checkBody at h
  rcases fails_bind.mp h with hf | ⟨_, k₁, hparams, h⟩
  · obtain ⟨before, param, after, hps, hbefore, hvoid, rfl⟩ := fails_declareParams hf
    exact .param hps hbefore hvoid
  rcases fails_bind.mp h with hf | ⟨found, k₂, hbody, hf⟩
  · have hfault := typeOfStmts_faulty r .void decl.body hf
    rw [((steady_declareParams decl decl.params).of_gives hparams).function] at hfault
    exact .body hparams hfault
  · obtain ⟨hreq, _⟩ := fails_liftExcept.mp hf
    unfold requireResult at hreq
    split at hreq
    · cases hreq
    · rename_i hno
      cases hreq
      simp only [not_or, Bool.not_eq_true] at hno
      exact .result hparams hbody hno.1 hno.2.1 hno.2.2

end Typing

end TreeLang
