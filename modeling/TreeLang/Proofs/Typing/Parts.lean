import TreeLang.Proofs.Typing.Rules
import TreeLang.Proofs.Typing.Steady

namespace TreeLang.Typing

open TreeLang.Tree (Ty Expr Stmt FunctionDecl)
open Check

variable {r : Registry} {k k' : Checker} {ty : Ty}

/-- What is done after a failure plays no part in a success. -/
theorem gives_onFailure {ε α : Type} {m : Check ε α} {after : StateM Checker Unit} {a : α} :
    Gives (m.onFailure after) k a k' ↔ Gives m k a k' := by
  unfold Check.onFailure
  refine gives_tryCatch fun e t h => ?_
  simp at h

theorem gives_pinned {α : Type} {s : Stmt} {m : Check Cause α} {a : α} :
    Gives (pinned s m) k a k' ↔ Gives m k a k' := by
  unfold pinned
  simp only [gives_bind, gives_get, gives_adapt]
  constructor
  · intro h
    obtain ⟨_, _, ⟨hk, hk'⟩, h⟩ := h
    subst hk hk'
    exact h
  · exact fun h => ⟨k, k, ⟨rfl, rfl⟩, h⟩

theorem gives_located {α : Type} {m : Check Diagnostic α} {a : α} :
    Gives (located m) k a k' ↔ Gives m k a k' := gives_adapt

/-- A name has the type of its nearest declaration. -/
theorem gives_nameType {name : String} :
    Gives (nameType name) k ty k' ↔ k.scopes.lookup name = some ty ∧ k' = k := by
  unfold nameType
  simp only [gives_bind, gives_get]
  constructor
  · intro h
    obtain ⟨_, _, ⟨hk, hk'⟩, h⟩ := h
    subst hk hk'
    split at h
    · rename_i ty' hty
      obtain ⟨rfl, rfl⟩ := gives_pure.mp h
      exact ⟨hty, rfl⟩
    · exact absurd h gives_throw
  · intro h
    obtain ⟨hty, hk⟩ := h
    subst hk
    refine ⟨k', k', ⟨rfl, rfl⟩, ?_⟩
    rw [hty]
    exact gives_pure.mpr ⟨rfl, rfl⟩

/-- A value is returned where it may stand for what the function returns. -/
theorem gives_requireReturn {found : Ty} {u : Unit} :
    Gives (requireReturn found) k u k' ↔ coercible found k.scopes.returns = true ∧ k' = k := by
  unfold requireReturn
  simp only [gives_bind, gives_get]
  constructor
  · intro h
    obtain ⟨_, _, ⟨hk, hk'⟩, h⟩ := h
    subst hk hk'
    split at h
    · exact ⟨by assumption, (gives_pure.mp h).2⟩
    · exact absurd h gives_throw
  · intro h
    obtain ⟨hco, hk⟩ := h
    subst hk
    refine ⟨k', k', ⟨rfl, rfl⟩, ?_⟩
    rw [if_pos hco]
    exact gives_pure.mpr ⟨rfl, rfl⟩

theorem requireCondition_eq_ok {role : String} {u : Unit} :
    requireCondition role ty = .ok u ↔ ty.isNumeric = true := by
  unfold requireCondition
  split <;> simp_all

theorem requireAssignable_eq_ok {name : String} {expected found : Ty} {u : Unit} :
    requireAssignable name expected found = .ok u ↔ coercible found expected = true := by
  unfold requireAssignable
  split <;> simp_all

theorem requireStorable_eq_ok {name : String} {u : Unit} :
    requireStorable name ty = .ok u ↔ ty ≠ .void := by
  unfold requireStorable
  split <;> simp_all

theorem check_int {n : Int32} : Gives (typeOf r (.int n)) k ty k' ↔ ty = .int ∧ k' = k := by
  simp [typeOf]

theorem check_double {x : Double} :
    Gives (typeOf r (.double x)) k ty k' ↔ ty = .double ∧ k' = k := by
  simp [typeOf]

theorem check_str {text : String} :
    Gives (typeOf r (.str text)) k ty k' ↔ ty = .string ∧ k' = k := by
  simp [typeOf]

theorem check_ident {name : String} :
    Gives (typeOf r (.ident name)) k ty k' ↔ k.scopes.lookup name = some ty ∧ k' = k := by
  rw [typeOf, gives_nameType]

theorem check_neg {e : Expr} :
    Gives (typeOf r (.neg e)) k ty k' ↔ Gives (typeOf r e) k ty k' ∧ ty.isNumeric = true := by
  rw [typeOf]
  simp only [gives_bind, gives_liftExcept, negType_eq_ok]
  constructor
  · intro h
    obtain ⟨_, _, he, ⟨hn, ht⟩, hk⟩ := h
    subst ht hk
    exact ⟨he, hn⟩
  · intro h
    obtain ⟨he, hn⟩ := h
    exact ⟨ty, k', he, ⟨hn, rfl⟩, rfl⟩

/-- Both operands are checked, and their types go together. -/
theorem check_binary {op : Tree.BinaryOp} {lhs rhs : Expr} :
    Gives (typeOf r (.binary op lhs rhs)) k ty k' ↔ ∃ left k₁ right, Gives (typeOf r lhs) k left k₁ ∧
      Gives (typeOf r rhs) k₁ right k' ∧ binaryType op left right = .ok ty := by
  rw [typeOf]
  simp only [gives_bind, gives_liftExcept]
  constructor
  · intro h
    obtain ⟨left, k₁, hl, right, k₂, hr, hty, hk⟩ := h
    subst hk
    exact ⟨left, k₁, right, hl, hr, hty⟩
  · intro h
    obtain ⟨left, k₁, right, hl, hr, hty⟩ := h
    exact ⟨left, k₁, hl, right, k', hr, hty, rfl⟩

theorem check_assign {target : String} {value : Expr} :
    Gives (typeOf r (.assign target value)) k ty k' ↔ ∃ expected found,
      k.scopes.lookup target = some expected ∧ Gives (typeOf r value) k found k' ∧
      coercible found expected = true ∧ ty = .void := by
  rw [typeOf]
  simp only [gives_bind, gives_nameType, gives_liftExcept, requireAssignable_eq_ok, gives_pure]
  constructor
  · intro h
    obtain ⟨expected, _, ⟨hlook, hk⟩, found, k₁, hv, _, k₂, ⟨hco, hk₂⟩, hty, hk'⟩ := h
    subst hk hk₂ hk'
    exact ⟨expected, found, hlook, hv, hco, hty⟩
  · intro h
    obtain ⟨expected, found, hlook, hv, hco, hty⟩ := h
    exact ⟨expected, k, ⟨hlook, rfl⟩, found, k', hv, (), k', ⟨hco, rfl⟩, hty, rfl⟩

/-- The callee is resolved and the arguments are counted before any of them is checked. -/
theorem check_call {name : String} {args : List Expr} :
    Gives (typeOf r (.call name args)) k ty k' ↔ ∃ callee,
      Callee.resolve r Ir.prototype? name = .ok callee ∧ callee.accepts args.length = true ∧
      Gives (checkArgs r callee 0 args) k () k' ∧ ty = callee.returns := by
  rw [typeOf]
  simp only [gives_bind, gives_liftExcept, checkArity_eq_ok, gives_pure]
  constructor
  · intro h
    obtain ⟨callee, _, ⟨hres, hk⟩, _, _, ⟨hacc, hk₁⟩, _, k₂, hargs, hty, hk'⟩ := h
    subst hk hk₁ hk'
    exact ⟨callee, hres, hacc, hargs, hty⟩
  · intro h
    obtain ⟨callee, hres, hacc, hargs, hty⟩ := h
    exact ⟨callee, k, ⟨hres, rfl⟩, (), k, ⟨hacc, rfl⟩, (), k', hargs, hty, rfl⟩

theorem check_block {stmts : List Stmt} :
    Gives (typeOf r (.block stmts)) k ty k' ↔ Gives (typeOfStmts r .void stmts) k ty k' := by
  rw [typeOf, gives_located]

theorem checkArgs_nil {callee : Callee} {index : Nat} {u : Unit} :
    Gives (checkArgs r callee index []) k u k' ↔ k' = k := by
  simp [checkArgs]

theorem checkArgs_cons {callee : Callee} {index : Nat} {e : Expr} {es : List Expr} {u : Unit} :
    Gives (checkArgs r callee index (e :: es)) k u k' ↔ ∃ found k₁, Gives (typeOf r e) k found k₁ ∧
      requireArgument callee index found = .ok () ∧
      Gives (checkArgs r callee (index + 1) es) k₁ u k' := by
  rw [checkArgs]
  simp only [gives_bind, gives_liftExcept]
  constructor
  · intro h
    obtain ⟨found, k₁, he, _, k₂, ⟨hreq, hk⟩, hes⟩ := h
    subst hk
    exact ⟨found, _, he, hreq, hes⟩
  · intro h
    obtain ⟨found, k₁, he, hreq, hes⟩ := h
    exact ⟨found, k₁, he, (), k₁, ⟨hreq, rfl⟩, hes⟩

theorem checkEach_nil {u : Unit} : Gives (checkEach r []) k u k' ↔ k' = k := by
  simp [checkEach]

theorem checkEach_cons {e : Expr} {es : List Expr} {u : Unit} :
    Gives (checkEach r (e :: es)) k u k' ↔
      ∃ found k₁, Gives (typeOf r e) k found k₁ ∧ Gives (checkEach r es) k₁ u k' := by
  rw [checkEach, gives_bind]

theorem typeOfStmts_nil {last : Ty} :
    Gives (typeOfStmts r last []) k ty k' ↔ ty = last ∧ k' = k := by
  simp [typeOfStmts]

theorem typeOfStmts_cons {last : Ty} {s : Stmt} {ss : List Stmt} :
    Gives (typeOfStmts r last (s :: ss)) k ty k' ↔
      ∃ found k₁, Gives (typeOfStmt r s) k found k₁ ∧ Gives (typeOfStmts r found ss) k₁ ty k' := by
  rw [typeOfStmts]
  simp only [gives_bind, gives_onFailure, gives_pinned]

theorem check_expr {e : Expr} :
    Gives (typeOfStmt r (.expr e)) k ty k' ↔ Gives (typeOf r e) k ty k' := by
  rw [typeOfStmt]

theorem check_var {name : String} {t : Ty} :
    Gives (typeOfStmt r (.var name t none)) k ty k' ↔
      t ≠ .void ∧ k' = k.declare name t ∧ ty = .void := by
  rw [typeOfStmt]
  simp only [gives_bind, gives_liftExcept, requireStorable_eq_ok, gives_modify, gives_pure]
  constructor
  · intro h
    obtain ⟨_, _, ⟨hv, hk⟩, _, _, hd, hty, hk'⟩ := h
    subst hk hd hk'
    exact ⟨hv, rfl, hty⟩
  · intro h
    obtain ⟨hv, hk, hty⟩ := h
    exact ⟨(), k, ⟨hv, rfl⟩, (), k', hk, hty, rfl⟩

/-- The initial value is checked before the variable is declared. -/
theorem check_var_init {name : String} {t : Ty} {init : Expr} :
    Gives (typeOfStmt r (.var name t (some init))) k ty k' ↔ t ≠ .void ∧ ∃ found k₁,
      Gives (typeOf r init) k found k₁ ∧ coercible found t = true ∧ k' = k₁.declare name t ∧
      ty = .void := by
  rw [typeOfStmt]
  simp only [gives_bind, gives_liftExcept, requireStorable_eq_ok, gives_onFailure, gives_modify,
    requireAssignable_eq_ok, gives_pure]
  constructor
  · intro h
    obtain ⟨_, _, ⟨hv, hk⟩, found, k₁, hi, _, _, hd, _, _, ⟨hco, hk₂⟩, hty, hk'⟩ := h
    subst hk hd hk₂ hk'
    exact ⟨hv, found, k₁, hi, hco, rfl, hty⟩
  · intro h
    obtain ⟨hv, found, k₁, hi, hco, hk, hty⟩ := h
    exact ⟨(), k, ⟨hv, rfl⟩, found, k₁, hi, (), k', hk, (), k', ⟨hco, rfl⟩, hty, rfl⟩

/-- A function that is declared has no part in the check around it but for its reports. -/
theorem check_function {decl : FunctionDecl} :
    Gives (typeOfStmt r (.function decl)) k ty k' ↔
      (checkFunction r decl).run k = ((), k') ∧ ty = .void := by
  rw [typeOfStmt]
  simp only [gives_bind, gives_lift, gives_pure]
  constructor
  · intro h
    obtain ⟨_, _, hf, hty, hk⟩ := h
    subst hk
    exact ⟨hf, hty⟩
  · intro h
    obtain ⟨hf, hty⟩ := h
    exact ⟨(), k', hf, hty, rfl⟩

/-- A `return` without a value stands for one of type `void`. -/
theorem check_ret {value : Option Expr} :
    Gives (typeOfStmt r (.ret value)) k ty k' ↔ ∃ found,
      (value = none ∧ found = .void ∧ k' = k ∨
        ∃ e, value = some e ∧ Gives (typeOf r e) k found k') ∧
      coercible found k'.scopes.returns = true ∧ ty = .void := by
  cases value with
  | none =>
    rw [typeOfStmt]
    simp only [gives_bind, gives_requireReturn, gives_pure]
    constructor
    · intro h
      obtain ⟨_, _, ⟨hco, hk⟩, hty, hk'⟩ := h
      subst hk hk'
      exact ⟨.void, .inl ⟨trivial, rfl, rfl⟩, hco, hty⟩
    · intro h
      obtain ⟨found, hcase, hco, hty⟩ := h
      rcases hcase with ⟨_, hfound, hk⟩ | ⟨e, he, _⟩
      · subst hfound hk
        exact ⟨(), k', ⟨hco, rfl⟩, hty, rfl⟩
      · cases he
  | some e =>
    rw [typeOfStmt]
    simp only [gives_bind, gives_requireReturn, gives_pure]
    constructor
    · intro h
      obtain ⟨found, k₁, he, _, _, ⟨hco, hk⟩, hty, hk'⟩ := h
      subst hk hk'
      exact ⟨found, .inr ⟨e, rfl, he⟩, hco, hty⟩
    · intro h
      obtain ⟨found, hcase, hco, hty⟩ := h
      rcases hcase with ⟨hnone, _⟩ | ⟨e', he', hfound⟩
      · cases hnone
      · cases he'
        exact ⟨found, k', hfound, (), k', ⟨hco, rfl⟩, hty, rfl⟩

/-- The branches of a conditional are checked one after the other; what the first one declares is there
for the second one. -/
theorem check_ite {cond : Expr} {thenBlock : List Stmt} {elseBlock : Option (List Stmt)} :
    Gives (typeOfStmt r (.ite cond thenBlock elseBlock)) k ty k' ↔ ∃ found k₁ t k₂,
      Gives (typeOf r cond) k found k₁ ∧ found.isNumeric = true ∧
      Gives (typeOfStmts r .void thenBlock) k₁ t k₂ ∧
      (elseBlock = none ∧ k' = k₂ ∨
        ∃ stmts t', elseBlock = some stmts ∧ Gives (typeOfStmts r .void stmts) k₂ t' k') ∧
      ty = .void := by
  cases elseBlock with
  | none =>
    rw [typeOfStmt]
    simp only [gives_bind, gives_onFailure, gives_liftExcept, requireCondition_eq_ok, gives_located,
      gives_pure]
    constructor
    · intro h
      obtain ⟨_, k₁, ⟨found, _, hc, hn, hk₁⟩, t, k₂, ht, hty, hk⟩ := h
      subst hk₁ hk
      exact ⟨found, _, t, _, hc, hn, ht, .inl ⟨trivial, rfl⟩, hty⟩
    · intro h
      obtain ⟨found, k₁, t, k₂, hc, hn, ht, hcase, hty⟩ := h
      rcases hcase with ⟨_, hk⟩ | ⟨_, _, h, _⟩
      · exact ⟨(), k₁, ⟨found, k₁, hc, hn, rfl⟩, t, k₂, ht, hty, hk⟩
      · cases h
  | some stmts =>
    rw [typeOfStmt]
    simp only [gives_bind, gives_onFailure, gives_liftExcept, requireCondition_eq_ok, gives_located,
      gives_pure]
    constructor
    · intro h
      obtain ⟨_, k₁, ⟨found, _, hc, hn, hk₁⟩, t, k₂, ht, t', k₃, he, hty, hk⟩ := h
      subst hk₁ hk
      exact ⟨found, _, t, k₂, hc, hn, ht, .inr ⟨stmts, t', rfl, he⟩, hty⟩
    · intro h
      obtain ⟨found, k₁, t, k₂, hc, hn, ht, hcase, hty⟩ := h
      rcases hcase with ⟨h, _⟩ | ⟨_, t', h, he⟩
      · cases h
      · cases h
        exact ⟨(), k₁, ⟨found, k₁, hc, hn, rfl⟩, t, k₂, ht, t', k', he, hty, rfl⟩

/-- A loop is checked in the order of the walk, the body before the last part of its header. -/
theorem check_loop {init : List Expr} {cond : Expr} {post : List Expr} {body : List Stmt} :
    Gives (typeOfStmt r (.loop init cond post body)) k ty k' ↔ ∃ k₁ found k₂ t k₃,
      Gives (checkEach r init) k () k₁ ∧ Gives (typeOf r cond) k₁ found k₂ ∧
      found.isNumeric = true ∧ Gives (typeOfStmts r .void body) k₂ t k₃ ∧
      Gives (checkEach r post) k₃ () k' ∧ ty = .void := by
  rw [typeOfStmt]
  simp only [gives_bind, gives_onFailure, gives_liftExcept, requireCondition_eq_ok, gives_located,
    gives_pure]
  constructor
  · intro h
    obtain ⟨_, k₂, ⟨_, k₁, hi, found, _, hc, hn, hk₂⟩, t, k₃, hb, _, k₄, hp, hty, hk⟩ := h
    subst hk₂ hk
    exact ⟨k₁, found, _, t, k₃, hi, hc, hn, hb, hp, hty⟩
  · intro h
    obtain ⟨k₁, found, k₂, t, k₃, hi, hc, hn, hb, hp, hty⟩ := h
    exact ⟨(), k₂, ⟨(), k₁, hi, found, k₂, hc, hn, rfl⟩, t, k₃, hb, (), k', hp, hty, rfl⟩

def checkBody (r : Registry) (decl : FunctionDecl) : Check Diagnostic Unit := do
  declareParams decl decl.params
  let found ← typeOfStmts r .void decl.body
  liftExcept (requireResult decl found)

theorem steady_checkBody (r : Registry) (decl : FunctionDecl) : Steady (checkBody r decl) :=
  steady_bind (steady_declareParams decl decl.params) fun _ =>
    steady_bind (typeOfStmts_steady r .void decl.body) fun _ => steady_liftExcept _

theorem checkFunction_eq (r : Registry) (decl : FunctionDecl) :
    checkFunction r decl = inFunction decl.name decl.returns (checkBody r decl) := by
  obtain ⟨name, params, returns, body⟩ := decl
  rw [checkFunction]
  rfl

/-- The parameters are declared, the body is checked, and its value has to do for a result. -/
theorem gives_checkBody {decl : FunctionDecl} {u : Unit} :
    Gives (checkBody r decl) k u k' ↔ ∃ k₁ found, Gives (declareParams decl decl.params) k () k₁ ∧
      Gives (typeOfStmts r .void decl.body) k₁ found k' ∧ requireResult decl found = .ok u := by
  unfold checkBody
  simp only [gives_bind, gives_liftExcept]
  constructor
  · intro h
    obtain ⟨_, k₁, hd, found, _, hb, hreq, hk⟩ := h
    subst hk
    exact ⟨k₁, found, hd, hb, hreq⟩
  · intro h
    obtain ⟨k₁, found, hd, hb, hreq⟩ := h
    exact ⟨(), k₁, hd, found, k', hb, hreq, rfl⟩

theorem declareParams_cons {decl : FunctionDecl} {p : Tree.Param} {ps : List Tree.Param} {u : Unit} :
    Gives (declareParams decl (p :: ps)) k u k' ↔
      p.ty ≠ .void ∧ Gives (declareParams decl ps) (k.declare p.name p.ty) u k' := by
  rw [declareParams]
  simp only [gives_bind, gives_liftExcept, gives_modify]
  constructor
  · intro h
    obtain ⟨_, _, ⟨hs, hk⟩, _, _, hd, h⟩ := h
    subst hk hd
    refine ⟨?_, h⟩
    cases hreq : requireStorable p.name p.ty with
    | error e => rw [hreq] at hs; cases hs
    | ok v => exact requireStorable_eq_ok.mp hreq
  · intro h
    obtain ⟨hv, h⟩ := h
    refine ⟨(), k, ⟨?_, rfl⟩, (), k.declare p.name p.ty, rfl, h⟩
    rw [requireStorable_eq_ok.mpr hv]
    rfl

/-- A function whose parameters have been declared has none of type `void`. -/
theorem declareParams_ne_void {decl : FunctionDecl} {ps : List Tree.Param} {u : Unit}
    (h : Gives (declareParams decl ps) k u k') : ∀ p ∈ ps, p.ty ≠ .void := by
  induction ps generalizing k with
  | nil => exact nofun
  | cons p ps ih =>
    obtain ⟨hv, h⟩ := declareParams_cons.mp h
    intro q hq
    rcases List.mem_cons.mp hq with rfl | hq
    · exact hv
    · exact ih h q hq

end TreeLang.Typing
