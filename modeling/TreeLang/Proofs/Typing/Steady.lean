import TreeLang.Proofs.Outcome
import TreeLang.Proofs.Typing.Rules
import TreeLang.Typing.Check

namespace TreeLang.Typing

open TreeLang.Tree (Ty Expr Stmt FunctionDecl)
open Check

def Table.Binds (t : Table) (name : String) : Prop := (t.get? name).isSome = true

/-- A name that is bound stays bound, though maybe to another type. -/
theorem Table.Binds.insert {t : Table} {name : String} (h : t.Binds name) (other : String) (ty : Ty) :
    (t.insert other ty).Binds name := by
  unfold Binds
  rw [Table.get?_insert]
  split
  · rfl
  · exact h

/-- What may have become of a checker in the midst of a function. -/
structure Kept (k k' : Checker) : Prop where
  outer : k'.scopes.outer = k.scopes.outer
  returns : k'.scopes.returns = k.scopes.returns
  binds : ∀ name, k.scopes.inner.Binds name → k'.scopes.inner.Binds name
  functions : k'.functions = k.functions
  diagnostics : k.diagnostics <+: k'.diagnostics

theorem Kept.refl (k : Checker) : Kept k k := ⟨rfl, rfl, fun _ h => h, rfl, List.prefix_rfl⟩

/-- Reports are only added. -/
theorem Kept.trans {k k' k'' : Checker} (h : Kept k k') (h' : Kept k' k'') : Kept k k'' :=
  ⟨h'.outer.trans h.outer, h'.returns.trans h.returns, fun name hn => h'.binds name (h.binds name hn),
    h'.functions.trans h.functions, h.diagnostics.trans h'.diagnostics⟩

theorem kept_declare (k : Checker) (name : String) (ty : Ty) : Kept k (k.declare name ty) :=
  ⟨rfl, Table.returns_insert _ _ _, fun _ h => h.insert name ty, rfl, List.prefix_rfl⟩

def Steady {ε α : Type} (m : Check ε α) : Prop := ∀ k, Kept k (outcome m k).2

def Steadily {α : Type} (m : StateM Checker α) : Prop := ∀ k, Kept k (m.run k).2

section

variable {ε ε' α β : Type}

theorem Steady.of_gives {m : Check ε α} (h : Steady m) {k k' : Checker} {a : α}
    (hg : Gives m k a k') : Kept k k' := by
  have hk := h k
  rw [hg] at hk
  exact hk

theorem steady_pure (a : α) : Steady (pure a : Check ε α) := fun k => .refl k

theorem steady_get : Steady (get : Check ε Checker) := fun k => .refl k

theorem steady_throw (e : ε) : Steady (throw e : Check ε α) := fun k => .refl k

/-- Two steady checks, one after the other, are steady. -/
theorem steady_bind {m : Check ε α} {f : α → Check ε β} (hm : Steady m) (hf : ∀ a, Steady (f a)) :
    Steady (m >>= f) := by
  intro k
  have hk := hm k
  rw [outcome_bind]
  cases ho : outcome m k with
  | mk res t =>
    rw [ho] at hk
    cases res with
    | error e => exact hk
    | ok a => exact hk.trans (hf a t)

theorem steady_liftExcept (x : Except ε α) : Steady (liftExcept x : Check ε α) := by
  cases x with
  | ok a => exact steady_pure a
  | error e => exact steady_throw e

theorem steady_lift {m : StateM Checker α} (hm : Steadily m) : Steady (liftM m : Check ε α) := hm

theorem steady_adapt {m : Check ε α} (f : ε → ε') (hm : Steady m) :
    Steady (m.adapt f : Check ε' α) := hm

theorem steady_modify {f : Checker → Checker} (hf : ∀ k, Kept k (f k)) :
    Steady (modify f : Check ε PUnit) := hf

/-- What is done after a failure has to be steady as well. -/
theorem steady_onFailure {m : Check ε α} {after : StateM Checker Unit} (hm : Steady m)
    (ha : Steadily after) : Steady (m.onFailure after) := by
  intro k
  have hk := hm k
  unfold Check.onFailure
  rw [outcome_tryCatch]
  cases ho : outcome m k with
  | mk res t =>
    rw [ho] at hk
    cases res with
    | ok a => exact hk
    | error e =>
      have hthrow : Steady (do (liftM after : Check ε Unit); throw e : Check ε α) :=
        steady_bind (steady_lift ha) fun _ => steady_throw e
      exact hk.trans (hthrow t)

theorem steady_pinned {m : Check Cause α} (s : Stmt) (hm : Steady m) : Steady (pinned s m) := by
  intro k
  exact steady_adapt (Diagnostic.pin k.function s.summary) hm k

theorem steady_located {m : Check Diagnostic α} (hm : Steady m) : Steady (located m) :=
  steady_adapt _ hm

theorem steadily_pure (a : α) : Steadily (pure a) := fun k => .refl k

theorem steadily_bind {m : StateM Checker α} {f : α → StateM Checker β} (hm : Steadily m)
    (hf : ∀ a, Steadily (f a)) : Steadily (m >>= f) :=
  fun k => (hm k).trans (hf (m.run k).1 (m.run k).2)

end

theorem inFunction_gives {function : String} {returns : Ty} {body : Check Diagnostic Unit}
    {k t : Checker} {u : Unit} (h : Gives body (k.enter function returns) u t) :
    (inFunction function returns body).run k = ((), t.leave) := by
  have hbody : body.run.run (k.enter function returns) = (.ok u, t) := h
  simp only [inFunction, StateT.run_bind, StateT.run_modify, pure_bind, hbody]
  rfl

/-- A failure of the body is recorded, and the tables around the function are back in force. -/
theorem inFunction_fails {function : String} {returns : Ty} {body : Check Diagnostic Unit}
    {k t : Checker} {d : Diagnostic} (h : Fails body (k.enter function returns) d t) :
    (inFunction function returns body).run k = ((), t.leave.report d) := by
  have hbody : body.run.run (k.enter function returns) = (.error d, t) := h
  simp only [inFunction, StateT.run_bind, StateT.run_modify, pure_bind, hbody]
  rfl

/-- Behind a function everything is as it was before, but for the failures that it adds. -/
theorem inFunction_run (function : String) (returns : Ty) {body : Check Diagnostic Unit}
    (h : Steady body) (k : Checker) :
    ∃ k', (inFunction function returns body).run k = ((), k') ∧ k'.scopes = k.scopes ∧
      k'.functions = k.functions ∧
      ((∃ t, Gives body (k.enter function returns) () t ∧ k'.diagnostics = t.diagnostics) ∨
        ∃ d t, Fails body (k.enter function returns) d t ∧
          k'.diagnostics = t.diagnostics ++ [d]) := by
  have hk := h (k.enter function returns)
  cases ho : outcome body (k.enter function returns) with
  | mk res t =>
    rw [ho] at hk
    have hscopes : t.leave.scopes = k.scopes := by
      have hout : t.scopes.outer = k.scopes.inner :: k.scopes.outer := hk.outer
      simp [Checker.leave, Scopes.leave, hout]
    have hfunctions : t.leave.functions = k.functions := by
      have hfun : t.functions = function :: k.functions := hk.functions
      simp [Checker.leave, hfun]
    cases res with
    | ok u => exact ⟨t.leave, inFunction_gives ho, hscopes, hfunctions, .inl ⟨t, ho, rfl⟩⟩
    | error d =>
      exact ⟨t.leave.report d, inFunction_fails ho, hscopes, hfunctions, .inr ⟨d, t, ho, rfl⟩⟩

/-- A function is checked in a table of its own, which is gone behind it. -/
theorem steadily_inFunction (function : String) (returns : Ty) {body : Check Diagnostic Unit}
    (h : Steady body) : Steadily (inFunction function returns body) := by
  intro k
  obtain ⟨k', hrun, hscopes, hfunctions, hend⟩ := inFunction_run function returns h k
  rw [hrun]
  have hdiag : k.diagnostics <+: k'.diagnostics := by
    have hk := h (k.enter function returns)
    rcases hend with ⟨t, hg, hd⟩ | ⟨d, t, hf, hd⟩
    · rw [hg] at hk
      rw [hd]
      exact hk.diagnostics
    · rw [hf] at hk
      rw [hd]
      exact hk.diagnostics.trans (List.prefix_append _ _)
  exact ⟨by rw [hscopes], by rw [hscopes], by rw [hscopes]; exact fun _ h => h, hfunctions, hdiag⟩

theorem steady_nameType (name : String) : Steady (nameType name) := by
  unfold nameType
  refine steady_bind steady_get fun k => ?_
  split
  · exact steady_pure _
  · exact steady_throw _

theorem steady_requireReturn (found : Ty) : Steady (requireReturn found) := by
  unfold requireReturn
  refine steady_bind steady_get fun k => ?_
  split
  · exact steady_pure _
  · exact steady_throw _

theorem steady_declareParams (decl : FunctionDecl) (ps : List Tree.Param) :
    Steady (declareParams decl ps) := by
  induction ps with
  | nil => exact steady_pure ()
  | cons p ps ih =>
    apply steady_bind
    · apply steady_liftExcept
    · intro _
      apply steady_bind
      · exact steady_modify fun k => kept_declare k p.name p.ty
      · exact fun _ => ih

theorem steady_condition (role : String) {m : Check Cause Ty} (hm : Steady m) :
    Steady (do liftExcept (requireCondition role (← m))) :=
  steady_bind hm fun _ => steady_liftExcept _

mutual

theorem typeOf_steady (r : Registry) : ∀ e : Expr, Steady (typeOf r e)
  | .int _ => by
    rw [typeOf]
    apply steady_pure
  | .double _ => by
    rw [typeOf]
    apply steady_pure
  | .str _ => by
    rw [typeOf]
    apply steady_pure
  | .ident name => by
    rw [typeOf]
    apply steady_nameType
  | .neg operand => by
    rw [typeOf]
    exact steady_bind (typeOf_steady r operand) fun _ => steady_liftExcept _
  | .binary op lhs rhs => by
    rw [typeOf]
    exact steady_bind (typeOf_steady r lhs) fun _ =>
      steady_bind (typeOf_steady r rhs) fun _ => steady_liftExcept _
  | .assign target value => by
    rw [typeOf]
    exact steady_bind (steady_nameType target) fun _ =>
      steady_bind (typeOf_steady r value) fun _ =>
        steady_bind (steady_liftExcept _) fun _ => steady_pure _
  | .call name args => by
    rw [typeOf]
    exact steady_bind (steady_liftExcept _) fun callee =>
      steady_bind (steady_liftExcept _) fun _ =>
        steady_bind (checkArgs_steady r callee 0 args) fun _ => steady_pure _
  | .block stmts => by
    rw [typeOf]
    exact steady_located (typeOfStmts_steady r .void stmts)

theorem checkArgs_steady (r : Registry) (callee : Callee) (index : Nat) :
    ∀ es : List Expr, Steady (checkArgs r callee index es)
  | [] => by
    rw [checkArgs]
    apply steady_pure
  | e :: es => by
    rw [checkArgs]
    exact steady_bind (typeOf_steady r e) fun _ =>
      steady_bind (steady_liftExcept _) fun _ => checkArgs_steady r callee (index + 1) es

theorem checkEach_steady (r : Registry) : ∀ es : List Expr, Steady (checkEach r es)
  | [] => by
    rw [checkEach]
    apply steady_pure
  | e :: es => by
    rw [checkEach]
    exact steady_bind (typeOf_steady r e) fun _ => checkEach_steady r es

theorem typeOfStmts_steady (r : Registry) (last : Ty) :
    ∀ ss : List Stmt, Steady (typeOfStmts r last ss)
  | [] => by
    rw [typeOfStmts]
    apply steady_pure
  | s :: ss => by
    rw [typeOfStmts]
    exact steady_bind
      (steady_onFailure (steady_pinned s (typeOfStmt_steady r s)) (checkFunctionsIn_steady r ss))
      fun ty => typeOfStmts_steady r ty ss

/-- Whether or not it succeeds, a statement changes no table but that of the function at hand. -/
theorem typeOfStmt_steady (r : Registry) : ∀ s : Stmt, Steady (typeOfStmt r s)
  | .expr e => by
    rw [typeOfStmt]
    exact typeOf_steady r e
  | .var name ty none => by
    rw [typeOfStmt]
    exact steady_bind (steady_liftExcept _) fun _ =>
      steady_bind (steady_modify fun k => kept_declare k name ty) fun _ => steady_pure _
  | .var name ty (some init) => by
    rw [typeOfStmt]
    have hdeclare : Steadily (modify (·.declare name ty)) := fun k => kept_declare k name ty
    exact steady_bind (steady_liftExcept _) fun _ =>
      steady_bind (steady_onFailure (typeOf_steady r init) hdeclare) fun _ =>
        steady_bind (steady_modify fun k => kept_declare k name ty) fun _ =>
          steady_bind (steady_liftExcept _) fun _ => steady_pure _
  | .function decl => by
    rw [typeOfStmt]
    exact steady_bind (steady_lift (checkFunction_steady r decl)) fun _ => steady_pure _
  | .ret none => by
    rw [typeOfStmt]
    exact steady_bind (steady_requireReturn _) fun _ => steady_pure _
  | .ret (some value) => by
    rw [typeOfStmt]
    exact steady_bind (typeOf_steady r value) fun _ =>
      steady_bind (steady_requireReturn _) fun _ => steady_pure _
  | .ite cond thenBlock none => by
    rw [typeOfStmt]
    exact steady_bind
      (steady_onFailure (steady_condition _ (typeOf_steady r cond))
        (checkFunctionsIn_steady r thenBlock))
      fun _ => steady_bind (steady_located (typeOfStmts_steady r .void thenBlock)) fun _ =>
        steady_pure _
  | .ite cond thenBlock (some elseBlock) => by
    rw [typeOfStmt]
    exact steady_bind
      (steady_onFailure (steady_condition _ (typeOf_steady r cond))
        (steadily_bind (checkFunctionsIn_steady r thenBlock) fun _ =>
          checkFunctionsIn_steady r elseBlock))
      fun _ => steady_bind
        (steady_onFailure (steady_located (typeOfStmts_steady r .void thenBlock))
          (checkFunctionsIn_steady r elseBlock))
        fun _ => steady_bind (steady_located (typeOfStmts_steady r .void elseBlock)) fun _ =>
          steady_pure _
  | .loop init cond post body => by
    rw [typeOfStmt]
    exact steady_bind
      (steady_onFailure
        (steady_bind (checkEach_steady r init) fun _ => steady_condition _ (typeOf_steady r cond))
        (checkFunctionsIn_steady r body))
      fun _ => steady_bind (steady_located (typeOfStmts_steady r .void body)) fun _ =>
        steady_bind (checkEach_steady r post) fun _ => steady_pure _

/-- A function leaves the tables around it as they were, whether or not its check succeeds. -/
theorem checkFunction_steady (r : Registry) : ∀ decl : FunctionDecl, Steadily (checkFunction r decl)
  | ⟨name, params, returns, body⟩ => by
    rw [checkFunction]
    exact steadily_inFunction name returns <|
      steady_bind (steady_declareParams _ params) fun _ =>
        steady_bind (typeOfStmts_steady r .void body) fun _ => steady_liftExcept _

theorem checkFunctionsIn_steady (r : Registry) :
    ∀ ss : List Stmt, Steadily (checkFunctionsIn r ss)
  | [] => by
    rw [checkFunctionsIn]
    apply steadily_pure
  | s :: ss => by
    rw [checkFunctionsIn]
    exact steadily_bind (checkFunctionsInStmt_steady r s) fun _ => checkFunctionsIn_steady r ss

theorem checkFunctionsInStmt_steady (r : Registry) :
    ∀ s : Stmt, Steadily (checkFunctionsInStmt r s)
  | .expr e => by
    rw [checkFunctionsInStmt]
    exact checkFunctionsInExpr_steady r e
  | .var _ _ none => by
    rw [checkFunctionsInStmt]
    apply steadily_pure
  | .var _ _ (some init) => by
    rw [checkFunctionsInStmt]
    exact checkFunctionsInExpr_steady r init
  | .function decl => by
    rw [checkFunctionsInStmt]
    exact checkFunction_steady r decl
  | .ret none => by
    rw [checkFunctionsInStmt]
    apply steadily_pure
  | .ret (some value) => by
    rw [checkFunctionsInStmt]
    exact checkFunctionsInExpr_steady r value
  | .ite cond thenBlock none => by
    rw [checkFunctionsInStmt]
    exact steadily_bind (checkFunctionsInExpr_steady r cond) fun _ =>
      checkFunctionsIn_steady r thenBlock
  | .ite cond thenBlock (some elseBlock) => by
    rw [checkFunctionsInStmt]
    exact steadily_bind (checkFunctionsInExpr_steady r cond) fun _ =>
      steadily_bind (checkFunctionsIn_steady r thenBlock) fun _ =>
        checkFunctionsIn_steady r elseBlock
  | .loop init cond post body => by
    rw [checkFunctionsInStmt]
    exact steadily_bind (checkFunctionsInExprs_steady r init) fun _ =>
      steadily_bind (checkFunctionsInExpr_steady r cond) fun _ =>
        steadily_bind (checkFunctionsInExprs_steady r post) fun _ =>
          checkFunctionsIn_steady r body

theorem checkFunctionsInExpr_steady (r : Registry) :
    ∀ e : Expr, Steadily (checkFunctionsInExpr r e)
  | .int _ => by
    rw [checkFunctionsInExpr]
    apply steadily_pure
  | .double _ => by
    rw [checkFunctionsInExpr]
    apply steadily_pure
  | .str _ => by
    rw [checkFunctionsInExpr]
    apply steadily_pure
  | .ident _ => by
    rw [checkFunctionsInExpr]
    apply steadily_pure
  | .neg operand => by
    rw [checkFunctionsInExpr]
    exact checkFunctionsInExpr_steady r operand
  | .binary _ lhs rhs => by
    rw [checkFunctionsInExpr]
    exact steadily_bind (checkFunctionsInExpr_steady r lhs) fun _ =>
      checkFunctionsInExpr_steady r rhs
  | .assign _ value => by
    rw [checkFunctionsInExpr]
    exact checkFunctionsInExpr_steady r value
  | .call _ args => by
    rw [checkFunctionsInExpr]
    exact checkFunctionsInExprs_steady r args
  | .block stmts => by
    rw [checkFunctionsInExpr]
    exact checkFunctionsIn_steady r stmts

theorem checkFunctionsInExprs_steady (r : Registry) :
    ∀ es : List Expr, Steadily (checkFunctionsInExprs r es)
  | [] => by
    rw [checkFunctionsInExprs]
    apply steadily_pure
  | e :: es => by
    rw [checkFunctionsInExprs]
    exact steadily_bind (checkFunctionsInExpr_steady r e) fun _ =>
      checkFunctionsInExprs_steady r es

end

end TreeLang.Typing
