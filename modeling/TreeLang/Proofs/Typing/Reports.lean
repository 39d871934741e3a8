import TreeLang.Proofs.Lowering.Programs
import TreeLang.Proofs.Typing.Acceptance
import TreeLang.Proofs.Typing.Visits

namespace TreeLang.Typing

open TreeLang.Tree (Ty Expr Stmt FunctionDecl nestedOfExprs nestedFunctions)
open Check

/-- The account of a run from `k`: the run records the failures of the account, and has passed over a
declaration only where something fails. -/
structure Explains {ε α : Type} (r : Registry) (m : Check ε α) (k : Checker) (a : Account) : Prop where
  recorded : (outcome m k).2.diagnostics = k.diagnostics ++ a.failures r
  complete : ∀ x k', Gives m k x k' → a.failures r = [] → a.missed = []

structure Accounts (r : Registry) (m : StateM Checker Unit) (k : Checker) (a : Account) : Prop where
  recorded : (m.run k).2.diagnostics = k.diagnostics ++ a.failures r
  complete : a.failures r = [] → a.missed = []

section

variable {ε ε' α β : Type} {r : Registry} {k : Checker} {a b : Account} {m : Check ε α}

/-- A run that records nothing and meets no declaration has an empty account. -/
theorem explains_none (h : (outcome m k).2.diagnostics = k.diagnostics) : Explains r m k .none :=
  ⟨by simp [h], fun _ _ _ _ => rfl⟩

theorem explains_pure (x : α) : Explains r (pure x : Check ε α) k .none := explains_none rfl

theorem explains_liftExcept (x : Except ε α) : Explains r (liftExcept x : Check ε α) k .none := by
  cases x with
  | ok x => exact explains_none rfl
  | error e => exact explains_none rfl

theorem explains_passOver {e : ε} {k' : Checker} {ds : List FunctionDecl} (hf : Fails m k e k')
    (hk : k'.diagnostics = k.diagnostics) : Explains r m k (.passOver ds) := by
  refine ⟨?_, fun _ _ hg => (gives_not_fails hg hf).elim⟩
  rw [hf]
  simp [hk]

theorem explains_adapt (f : ε → ε') (h : Explains r m k a) :
    Explains r (m.adapt f : Check ε' α) k a :=
  ⟨h.recorded, fun x k' hg => h.complete x k' (gives_adapt.mp hg)⟩

theorem explains_located {m : Check Diagnostic α} (h : Explains r m k a) :
    Explains r (located m) k a := explains_adapt _ h

theorem explains_pinned {m : Check Cause α} (s : Stmt) (h : Explains r m k a) :
    Explains r (pinned s m) k a :=
  ⟨h.recorded, fun x k' hg => h.complete x k' (gives_pinned.mp hg)⟩

theorem explains_lift {m : StateM Checker Unit} (h : Accounts r m k a) :
    Explains r (liftM m : Check ε Unit) k a :=
  ⟨h.recorded, fun _ _ _ => h.complete⟩

/-- A run that succeeds has recorded the failures of its account. -/
theorem Explains.of_gives {x : α} {t : Checker} (h : Explains r m k a) (hg : Gives m k x t) :
    t.diagnostics = k.diagnostics ++ a.failures r := by
  have hrec := h.recorded
  rwa [hg] at hrec

theorem Explains.of_fails {e : ε} {t : Checker} (h : Explains r m k a) (he : Fails m k e t) :
    t.diagnostics = k.diagnostics ++ a.failures r := by
  have hrec := h.recorded
  rwa [he] at hrec

/-- A run `n` that begins as `m` does, goes on as `f` where that succeeds and fails where it fails. -/
theorem explains_andThen {n : Check ε β} {f : α → Check ε β} {next failed : Checker → Account}
    (hm : Explains r m k a) (hf : ∀ x t, Explains r (f x) t (next t))
    (hok : ∀ x t, Gives m k x t → outcome n k = outcome (f x) t)
    (hfail : ∀ e t, Fails m k e t → ∃ t', Fails n k e t' ∧
      t'.diagnostics = t.diagnostics ++ (failed t).failures r) :
    Explains r n k (a.andThen (outcome m k) next failed) := by
  rcases gives_or_fails m k with ⟨x, t, hg⟩ | ⟨e, t, he⟩
  · have hn := hf x t
    have ho := hok x t hg
    have hrec := hm.of_gives hg
    rw [hg]
    constructor
    · rw [ho, hn.recorded, hrec]
      simp [Account.andThen]
    · intro y u hgy hnone
      obtain ⟨ha, hb⟩ : a.failures r = [] ∧ (next t).failures r = [] := by
        simpa [Account.andThen] using hnone
      have hgf : Gives (f x) t y u := ho.symm.trans hgy
      simp [Account.andThen, hm.complete x t hg ha, hn.complete y u hgf hb]
  · obtain ⟨t', hn, ht'⟩ := hfail e t he
    have hrec := hm.of_fails he
    rw [he]
    constructor
    · rw [hn]
      simp [Account.andThen, ht', hrec]
    · exact fun y u hgy => (gives_not_fails hgy hn).elim

/-- What stands behind a failing part is passed over, whatever it holds. -/
theorem explains_bind {f : α → Check ε β} {next : Checker → Account} {ds : List FunctionDecl}
    (hm : Explains r m k a) (hf : ∀ x t, Explains r (f x) t (next t)) :
    Explains r (m >>= f) k (a.andThen (outcome m k) next fun _ => .passOver ds) := by
  apply explains_andThen hm hf
  · intro x t hg
    rw [outcome_bind, hg]
  · intro e t he
    exact ⟨t, fails_bind.mpr (.inl he), by simp⟩

/-- What is recorded where a part fails is accounted for in its place. -/
theorem explains_onFailure {after : StateM Checker Unit} {f : α → Check ε β}
    {next failed : Checker → Account} (hm : Explains r m k a)
    (ha : ∀ t, (after.run t).2.diagnostics = t.diagnostics ++ (failed t).failures r)
    (hf : ∀ x t, Explains r (f x) t (next t)) :
    Explains r (m.onFailure after >>= f) k (a.andThen (outcome m k) next failed) := by
  apply explains_andThen hm hf
  · intro x t hg
    have hg' : outcome (m.onFailure after) k = (.ok x, t) := gives_onFailure.mpr hg
    rw [outcome_bind, hg']
  · intro e t he
    have he' : Fails (m.onFailure after) k e (after.run t).2 :=
      fails_tryCatch.mpr ⟨e, t, he, fails_bind.mpr (.inr ⟨(), _, rfl, fails_throw.mpr ⟨rfl, rfl⟩⟩)⟩
    exact ⟨_, fails_bind.mpr (.inl he'), ha t⟩

theorem explains_then {f : α → Check ε β} (hm : Explains r m k a)
    (hf : ∀ x t, Explains r (f x) t .none) : Explains r (m >>= f) k a := by
  constructor
  · rw [outcome_bind]
    rcases gives_or_fails m k with ⟨x, t, hg⟩ | ⟨e, t, he⟩
    · rw [hg]
      simp [(hf x t).recorded, hm.of_gives hg]
    · rw [he]
      exact hm.of_fails he
  · intro y u hgf
    obtain ⟨x, t, hg, _⟩ := gives_bind.mp hgf
    exact hm.complete x t hg

theorem explains_liftExcept_ok {x : Except ε α} {y : α} {f : α → Check ε β} (hx : x = .ok y)
    (hf : Explains r (f y) k a) : Explains r (do f (← liftExcept x)) k a := by
  subst hx
  exact hf

/-- What fails at once passes over the declarations in what would have come next. -/
theorem explains_liftExcept_error {x : Except ε α} {e : ε} {f : α → Check ε β}
    {ds : List FunctionDecl} (hx : x = .error e) :
    Explains r (do f (← liftExcept x)) k (.passOver ds) := by
  have hfails : Fails (do f (← liftExcept x)) k e k :=
    fails_bind.mpr (.inl (fails_liftExcept.mpr ⟨hx, rfl⟩))
  exact explains_passOver hfails rfl

theorem accounts_pure : Accounts r (pure ()) k .none :=
  ⟨(List.append_nil _).symm, fun _ => rfl⟩

/-- Two runs, one after the other, visit what the first one visits and then what the second one does. -/
theorem accounts_bind {m : StateM Checker Unit} {f : Unit → StateM Checker Unit}
    (hm : Accounts r m k a) (hf : Accounts r (f ()) (m.run k).2 b) :
    Accounts r (m >>= f) k (a ++ b) := by
  constructor
  · have hrun : (m >>= f).run k = (f ()).run (m.run k).2 := rfl
    rw [hrun, hf.recorded, hm.recorded]
    simp
  · intro h
    obtain ⟨ha, hb⟩ : a.failures r = [] ∧ b.failures r = [] := by simpa using h
    simp [hm.complete ha, hf.complete hb]

end

variable {r : Registry} {k : Checker}

theorem explains_declare (name : String) (ty : Ty) :
    Explains r (modify (·.declare name ty) : Check Cause Unit) k .none := explains_none rfl

theorem explains_nameType (name : String) : Explains r (nameType name) k .none := by
  apply explains_none
  unfold nameType
  rw [outcome_bind]
  have hget : outcome (get : Check Cause Checker) k = (.ok k, k) := rfl
  rw [hget]
  dsimp only
  split
  · rfl
  · rfl

theorem explains_requireReturn (found : Ty) : Explains r (requireReturn found) k .none := by
  apply explains_none
  unfold requireReturn
  rw [outcome_bind]
  change (outcome (if coercible found k.scopes.returns then _ else _) k).2.diagnostics = _
  split
  · rfl
  · rfl

theorem explains_declareParams (decl : FunctionDecl) (ps : List Tree.Param) (k : Checker) :
    Explains r (declareParams decl ps) k .none := by
  apply explains_none
  induction ps generalizing k with
  | nil => rfl
  | cons p ps ih =>
    rw [declareParams, outcome_bind]
    cases hs : requireStorable p.name p.ty with
    | error e => rfl
    | ok u => exact ih (k.declare p.name p.ty)

/-- A function accounts for its body, then for itself. -/
theorem accounts_checkFunction {decl : FunctionDecl} {a : Account}
    (h : Explains r (checkBody r decl) (k.enter decl.name decl.returns) a) :
    Accounts r (checkFunction r decl) k (a ++ .visit decl k) := by
  rw [checkFunction_eq]
  rcases gives_or_fails (checkBody r decl) (k.enter decl.name decl.returns)
    with ⟨u, t, hg⟩ | ⟨d, t, hf⟩
  · have hvisit : (Account.visit decl k).failures r = [] := by
      have hg' : outcome (checkBody r decl) (k.enter decl.name decl.returns) = (.ok u, t) := hg
      simp [Account.failures, Account.visit, Visit.failure?, failure?, hg']
    constructor
    · rw [inFunction_gives hg, Account.failures_append, hvisit, List.append_nil]
      have hrec : t.diagnostics = k.diagnostics ++ a.failures r := h.of_gives hg
      exact hrec
    · intro hnone
      rw [Account.failures_append, hvisit, List.append_nil] at hnone
      simp [h.complete u t hg hnone]
  · have hvisit : (Account.visit decl k).failures r = [d] := by
      have hf' : outcome (checkBody r decl) (k.enter decl.name decl.returns) = (.error d, t) := hf
      simp [Account.failures, Account.visit, Visit.failure?, failure?, hf']
    constructor
    · rw [inFunction_fails hf, Account.failures_append, hvisit, ← List.append_assoc]
      have hrec : t.diagnostics = k.diagnostics ++ a.failures r := h.of_fails hf
      exact congrArg (· ++ [d]) hrec
    · intro hnone
      simp [hvisit] at hnone

mutual

/-- The account of an expression passes over the parts behind a failure. -/
theorem typeOf_explained (r : Registry) :
    ∀ (e : Expr) (k : Checker), Explains r (typeOf r e) k (accountExpr r e k)
  | .int _, _ => by
    rw [typeOf, accountExpr]
    apply explains_pure
  | .double _, _ => by
    rw [typeOf, accountExpr]
    apply explains_pure
  | .str _, _ => by
    rw [typeOf, accountExpr]
    apply explains_pure
  | .ident name, k => by
    rw [typeOf, accountExpr]
    apply explains_nameType
  | .neg operand, k => by
    rw [typeOf, accountExpr]
    exact explains_then (typeOf_explained r operand k) fun _ _ => explains_liftExcept _
  | .binary op lhs rhs, k => by
    rw [typeOf, accountExpr]
    apply explains_bind (typeOf_explained r lhs k)
    intro left k₁
    exact explains_then (typeOf_explained r rhs k₁) fun _ _ => explains_liftExcept _
  | .assign target value, k => by
    rw [typeOf, accountExpr]
    apply explains_bind (explains_nameType target)
    intro expected k₁
    apply explains_then (typeOf_explained r value k₁)
    intro found k₂
    exact explains_then (explains_liftExcept _) fun _ _ => explains_pure _
  | .call name args, k => by
    rw [typeOf, accountExpr]
    cases hres : Callee.resolve r Ir.prototype? name with
    | error e => exact explains_liftExcept_error rfl
    | ok callee =>
      apply explains_liftExcept_ok rfl
      simp only
      split
      · rename_i hacc
        have harity : callee.checkArity args.length = .ok () := checkArity_eq_ok.mpr hacc
        apply explains_liftExcept_ok harity
        exact explains_then (checkArgs_explained r callee 0 args k) fun _ _ => explains_pure _
      · rename_i hacc
        exact explains_liftExcept_error (if_neg hacc)
  | .block stmts, k => by
    rw [typeOf, accountExpr]
    exact explains_located (typeOfStmts_explained r .void stmts k)

theorem checkArgs_explained (r : Registry) (callee : Callee) (index : Nat) :
    ∀ (es : List Expr) (k : Checker),
      Explains r (checkArgs r callee index es) k (accountArgs r callee index es k)
  | [], _ => by
    rw [checkArgs, accountArgs]
    apply explains_pure
  | e :: es, k => by
    rw [checkArgs, accountArgs, ← bind_assoc]
    apply explains_bind
    · exact explains_then (typeOf_explained r e k) fun _ _ => explains_liftExcept _
    · exact fun _ => checkArgs_explained r callee (index + 1) es

theorem checkEach_explained (r : Registry) :
    ∀ (es : List Expr) (k : Checker), Explains r (checkEach r es) k (accountEach r es k)
  | [], _ => by
    rw [checkEach, accountEach]
    apply explains_pure
  | e :: es, k => by
    rw [checkEach, accountEach]
    exact explains_bind (typeOf_explained r e k) fun _ => checkEach_explained r es

/-- The account of statements searches those behind a failure for functions. -/
theorem typeOfStmts_explained (r : Registry) (last : Ty) :
    ∀ (ss : List Stmt) (k : Checker), Explains r (typeOfStmts r last ss) k (accountStmts r ss k)
  | [], _ => by
    rw [typeOfStmts, accountStmts]
    apply explains_pure
  | s :: ss, k => by
    rw [typeOfStmts, accountStmts]
    dsimp only
    rw [← Account.andThen_pinned (s := s)]
    apply explains_onFailure (explains_pinned s (typeOfStmt_explained r s k))
    · exact fun k₁ => (checkFunctionsIn_explained r ss k₁).recorded
    · exact fun ty => typeOfStmts_explained r ty ss

theorem typeOfStmt_explained (r : Registry) :
    ∀ (s : Stmt) (k : Checker), Explains r (typeOfStmt r s) k (accountStmt r s k)
  | .expr e, k => by
    rw [typeOfStmt, accountStmt]
    exact typeOf_explained r e k
  | .var name ty none, k => by
    rw [typeOfStmt, accountStmt]
    apply explains_then (explains_liftExcept _)
    intro _ k₁
    exact explains_then (explains_declare name ty) fun _ _ => explains_pure _
  | .var name ty (some init), k => by
    rw [typeOfStmt, accountStmt]
    split
    · rename_i hv
      exact explains_liftExcept_error (if_pos hv)
    · rename_i hv
      have hstore : requireStorable name ty = .ok () := requireStorable_eq_ok.mpr hv
      apply explains_liftExcept_ok hstore
      rw [← Account.andThen_none (a := accountExpr r init k)]
      apply explains_onFailure (typeOf_explained r init k)
      · exact fun _ => (List.append_nil _).symm
      · intro found k₁
        apply explains_then (explains_declare name ty)
        intro _ k₂
        exact explains_then (explains_liftExcept _) fun _ _ => explains_pure _
  | .function decl, k => by
    rw [typeOfStmt, accountStmt]
    exact explains_then (explains_lift (checkFunction_explained r decl k)) fun _ _ => explains_pure _
  | .ret none, k => by
    rw [typeOfStmt, accountStmt]
    exact explains_then (explains_requireReturn _) fun _ _ => explains_pure _
  | .ret (some value), k => by
    rw [typeOfStmt, accountStmt]
    apply explains_then (typeOf_explained r value k)
    intro found k₁
    exact explains_then (explains_requireReturn _) fun _ _ => explains_pure _
  | .ite cond thenBlock none, k => by
    rw [typeOfStmt, accountStmt]
    apply explains_onFailure
    · exact explains_then (typeOf_explained r cond k) fun _ _ => explains_liftExcept _
    · exact fun k₁ => (checkFunctionsIn_explained r thenBlock k₁).recorded
    · intro _ k₁
      exact explains_then (explains_located (typeOfStmts_explained r .void thenBlock k₁)) fun _ _ =>
        explains_pure _
  | .ite cond thenBlock (some elseBlock), k => by
    rw [typeOfStmt, accountStmt]
    apply explains_onFailure
    · exact explains_then (typeOf_explained r cond k) fun _ _ => explains_liftExcept _
    · intro k₁
      exact (accounts_bind (checkFunctionsIn_explained r thenBlock k₁)
        (checkFunctionsIn_explained r elseBlock _)).recorded
    · intro _ k₁
      rw [← Account.andThen_located]
      apply explains_onFailure (explains_located (typeOfStmts_explained r .void thenBlock k₁))
      · exact fun k₂ => (checkFunctionsIn_explained r elseBlock k₂).recorded
      · intro _ k₂
        exact explains_then (explains_located (typeOfStmts_explained r .void elseBlock k₂)) fun _ _ =>
          explains_pure _
  | .loop init cond post body, k => by
    rw [typeOfStmt, accountStmt]
    apply explains_onFailure
    · apply explains_bind (checkEach_explained r init k)
      intro _ k₁
      exact explains_then (typeOf_explained r cond k₁) fun _ _ => explains_liftExcept _
    · intro k₁
      simpa using (checkFunctionsIn_explained r body k₁).recorded
    · intro _ k₁
      rw [← Account.andThen_located]
      apply explains_bind (explains_located (typeOfStmts_explained r .void body k₁))
      intro _ k₂
      exact explains_then (checkEach_explained r post k₂) fun _ _ => explains_pure _

/-- A function is visited, and those in its body are accounted for. -/
theorem checkFunction_explained (r : Registry) :
    ∀ (decl : FunctionDecl) (k : Checker),
      Accounts r (checkFunction r decl) k (accountFunction r decl k)
  | ⟨name, params, returns, body⟩, k => by
    rw [accountFunction]
    apply accounts_checkFunction
    apply explains_bind (explains_declareParams _ params _)
    intro _ k₁
    exact explains_then (typeOfStmts_explained r .void body k₁) fun _ _ => explains_liftExcept _

theorem checkFunctionsIn_explained (r : Registry) :
    ∀ (ss : List Stmt) (k : Checker),
      Accounts r (checkFunctionsIn r ss) k (accountFunctionsIn r ss k)
  | [], _ => by
    rw [checkFunctionsIn, accountFunctionsIn]
    exact accounts_pure
  | s :: ss, k => by
    rw [checkFunctionsIn, accountFunctionsIn]
    exact accounts_bind (checkFunctionsInStmt_explained r s k) (checkFunctionsIn_explained r ss _)

theorem checkFunctionsInStmt_explained (r : Registry) :
    ∀ (s : Stmt) (k : Checker),
      Accounts r (checkFunctionsInStmt r s) k (accountFunctionsInStmt r s k)
  | .expr e, k => by
    rw [checkFunctionsInStmt, accountFunctionsInStmt]
    exact checkFunctionsInExpr_explained r e k
  | .var _ _ none, k => by
    rw [checkFunctionsInStmt, accountFunctionsInStmt]
    exact accounts_pure
  | .var _ _ (some init), k => by
    rw [checkFunctionsInStmt, accountFunctionsInStmt]
    exact checkFunctionsInExpr_explained r init k
  | .function decl, k => by
    rw [checkFunctionsInStmt, accountFunctionsInStmt]
    exact checkFunction_explained r decl k
  | .ret none, k => by
    rw [checkFunctionsInStmt, accountFunctionsInStmt]
    exact accounts_pure
  | .ret (some value), k => by
    rw [checkFunctionsInStmt, accountFunctionsInStmt]
    exact checkFunctionsInExpr_explained r value k
  | .ite cond thenBlock none, k => by
    rw [checkFunctionsInStmt, accountFunctionsInStmt]
    exact accounts_bind (checkFunctionsInExpr_explained r cond k)
      (checkFunctionsIn_explained r thenBlock _)
  | .ite cond thenBlock (some elseBlock), k => by
    rw [checkFunctionsInStmt, accountFunctionsInStmt]
    exact accounts_bind (checkFunctionsInExpr_explained r cond k)
      (accounts_bind (checkFunctionsIn_explained r thenBlock _)
        (checkFunctionsIn_explained r elseBlock _))
  | .loop init cond post body, k => by
    rw [checkFunctionsInStmt, accountFunctionsInStmt]
    exact accounts_bind (checkFunctionsInExprs_explained r init k)
      (accounts_bind (checkFunctionsInExpr_explained r cond _)
        (accounts_bind (checkFunctionsInExprs_explained r post _)
          (checkFunctionsIn_explained r body _)))

theorem checkFunctionsInExpr_explained (r : Registry) :
    ∀ (e : Expr) (k : Checker),
      Accounts r (checkFunctionsInExpr r e) k (accountFunctionsInExpr r e k)
  | .int _, _ => by
    rw [checkFunctionsInExpr, accountFunctionsInExpr]
    exact accounts_pure
  | .double _, _ => by
    rw [checkFunctionsInExpr, accountFunctionsInExpr]
    exact accounts_pure
  | .str _, _ => by
    rw [checkFunctionsInExpr, accountFunctionsInExpr]
    exact accounts_pure
  | .ident _, _ => by
    rw [checkFunctionsInExpr, accountFunctionsInExpr]
    exact accounts_pure
  | .neg operand, k => by
    rw [checkFunctionsInExpr, accountFunctionsInExpr]
    exact checkFunctionsInExpr_explained r operand k
  | .binary _ lhs rhs, k => by
    rw [checkFunctionsInExpr, accountFunctionsInExpr]
    exact accounts_bind (checkFunctionsInExpr_explained r lhs k)
      (checkFunctionsInExpr_explained r rhs _)
  | .assign _ value, k => by
    rw [checkFunctionsInExpr, accountFunctionsInExpr]
    exact checkFunctionsInExpr_explained r value k
  | .call _ args, k => by
    rw [checkFunctionsInExpr, accountFunctionsInExpr]
    exact checkFunctionsInExprs_explained r args k
  | .block stmts, k => by
    rw [checkFunctionsInExpr, accountFunctionsInExpr]
    exact checkFunctionsIn_explained r stmts k

theorem checkFunctionsInExprs_explained (r : Registry) :
    ∀ (es : List Expr) (k : Checker),
      Accounts r (checkFunctionsInExprs r es) k (accountFunctionsInExprs r es k)
  | [], _ => by
    rw [checkFunctionsInExprs, accountFunctionsInExprs]
    exact accounts_pure
  | e :: es, k => by
    rw [checkFunctionsInExprs, accountFunctionsInExprs]
    exact accounts_bind (checkFunctionsInExpr_explained r e k)
      (checkFunctionsInExprs_explained r es _)

end

mutual

/-- No expression holds a declaration, and every parameter of a function can hold a value. -/
def PlainStmt : Stmt → Prop
  | .expr e => e.nestedFunctions = []
  | .var _ _ none => True
  | .var _ _ (some init) => init.nestedFunctions = []
  | .function decl => PlainFunction decl
  | .ret none => True
  | .ret (some value) => value.nestedFunctions = []
  | .ite cond thenBlock none => cond.nestedFunctions = [] ∧ PlainBlock thenBlock
  | .ite cond thenBlock (some elseBlock) =>
    cond.nestedFunctions = [] ∧ PlainBlock thenBlock ∧ PlainBlock elseBlock
  | .loop init cond post body => nestedOfExprs init = [] ∧ cond.nestedFunctions = [] ∧
    nestedOfExprs post = [] ∧ PlainBlock body

def PlainFunction : FunctionDecl → Prop
  | ⟨_, params, _, body⟩ => (∀ p ∈ params, p.ty ≠ .void) ∧ PlainBlock body

def PlainBlock : List Stmt → Prop
  | [] => True
  | s :: ss => PlainStmt s ∧ PlainBlock ss

end

/-- Parameters that can hold values are declared. -/
theorem gives_declareParams (decl : FunctionDecl) {ps : List Tree.Param} (k : Checker)
    (h : ∀ p ∈ ps, p.ty ≠ .void) : ∃ k', Gives (declareParams decl ps) k () k' := by
  induction ps generalizing k with
  | nil => exact ⟨k, gives_pure.mpr ⟨rfl, rfl⟩⟩
  | cons p ps ih =>
    obtain ⟨k', hg⟩ := ih (k.declare p.name p.ty) fun q hq => h q (List.mem_cons_of_mem _ hq)
    exact ⟨k', declareParams_cons.mpr ⟨h p List.mem_cons_self, hg⟩⟩

variable {r : Registry}

theorem accountExpr_plain {e : Expr} (h : e.nestedFunctions = []) (k : Checker) :
    (accountExpr r e k).missed = [] :=
  Account.missed_of_declared (h ▸ accountExpr_declared r e k)

theorem accountEach_plain {es : List Expr} (h : nestedOfExprs es = []) (k : Checker) :
    (accountEach r es k).missed = [] :=
  Account.missed_of_declared (h ▸ accountEach_declared r es k)

theorem accountFunctionsInExpr_plain {e : Expr} (h : e.nestedFunctions = []) (k : Checker) :
    (accountFunctionsInExpr r e k).missed = [] :=
  Account.missed_of_declared (h ▸ accountFunctionsInExpr_declared r e k)

theorem accountFunctionsInExprs_plain {es : List Expr} (h : nestedOfExprs es = []) (k : Checker) :
    (accountFunctionsInExprs r es k).missed = [] :=
  Account.missed_of_declared (h ▸ accountFunctionsInExprs_declared r es k)

mutual

/-- A block without declarations in its expressions passes over none. -/
theorem accountStmts_plain (r : Registry) : ∀ (ss : List Stmt) (k : Checker), PlainBlock ss →
    (accountStmts r ss k).missed = []
  | [], _, _ => rfl
  | s :: ss, k, ⟨hs, hss⟩ =>
    Account.missed_andThen (accountStmt_plain r s k hs) (fun k₁ => accountStmts_plain r ss k₁ hss)
      fun k₁ => accountFunctionsIn_plain r ss k₁ hss

theorem accountStmt_plain (r : Registry) : ∀ (s : Stmt) (k : Checker), PlainStmt s →
    (accountStmt r s k).missed = []
  | .expr _, k, h => accountExpr_plain h k
  | .var _ _ none, _, _ => rfl
  | .var _ ty (some init), k, h => by
    rw [accountStmt]
    split
    · exact h
    · exact accountExpr_plain h k
  | .function decl, k, h => accountFunction_plain r decl k h
  | .ret none, _, _ => rfl
  | .ret (some _), k, h => accountExpr_plain h k
  | .ite _ thenBlock none, k, ⟨hc, ht⟩ =>
    Account.missed_andThen (accountExpr_plain hc k) (fun k₁ => accountStmts_plain r thenBlock k₁ ht)
      fun k₁ => accountFunctionsIn_plain r thenBlock k₁ ht
  | .ite cond thenBlock (some elseBlock), k, ⟨hc, ht, he⟩ => by
    rw [accountStmt]
    apply Account.missed_andThen (accountExpr_plain hc k)
    · intro k₁
      exact Account.missed_andThen (accountStmts_plain r thenBlock k₁ ht)
        (fun k₂ => accountStmts_plain r elseBlock k₂ he)
        fun k₂ => accountFunctionsIn_plain r elseBlock k₂ he
    · intro k₁
      simp [accountFunctionsIn_plain r thenBlock k₁ ht, accountFunctionsIn_plain r elseBlock _ he]
  | .loop init cond post body, k, ⟨hi, hc, hp, hb⟩ => by
    rw [accountStmt]
    apply Account.missed_andThen
    · exact Account.missed_andThen (accountEach_plain hi k) (accountExpr_plain hc) fun _ => hc
    · intro k₁
      exact Account.missed_andThen (accountStmts_plain r body k₁ hb) (accountEach_plain hp) fun _ => hp
    · intro k₁
      rw [Account.missed_append, accountFunctionsIn_plain r body k₁ hb]
      exact hp

theorem accountFunction_plain (r : Registry) :
    ∀ (decl : FunctionDecl) (k : Checker), PlainFunction decl → (accountFunction r decl k).missed = []
  | ⟨name, params, returns, body⟩, k, ⟨hp, hb⟩ => by
    obtain ⟨k₁, hd⟩ := gives_declareParams ⟨name, params, returns, body⟩ (k.enter name returns) hp
    rw [accountFunction]
    dsimp only
    rw [hd]
    simp [Account.andThen, accountStmts_plain r body k₁ hb]

theorem accountFunctionsIn_plain (r : Registry) :
    ∀ (ss : List Stmt) (k : Checker), PlainBlock ss → (accountFunctionsIn r ss k).missed = []
  | [], _, _ => rfl
  | s :: ss, k, ⟨hs, hss⟩ => by
    rw [accountFunctionsIn]
    simp [accountFunctionsInStmt_plain r s k hs, accountFunctionsIn_plain r ss _ hss]

theorem accountFunctionsInStmt_plain (r : Registry) :
    ∀ (s : Stmt) (k : Checker), PlainStmt s → (accountFunctionsInStmt r s k).missed = []
  | .expr _, k, h => accountFunctionsInExpr_plain h k
  | .var _ _ none, _, _ => rfl
  | .var _ _ (some _), k, h => accountFunctionsInExpr_plain h k
  | .function decl, k, h => accountFunction_plain r decl k h
  | .ret none, _, _ => rfl
  | .ret (some _), k, h => accountFunctionsInExpr_plain h k
  | .ite cond thenBlock none, k, ⟨hc, ht⟩ => by
    rw [accountFunctionsInStmt]
    simp [accountFunctionsInExpr_plain hc k, accountFunctionsIn_plain r thenBlock _ ht]
  | .ite cond thenBlock (some elseBlock), k, ⟨hc, ht, he⟩ => by
    rw [accountFunctionsInStmt]
    simp [accountFunctionsInExpr_plain hc k, accountFunctionsIn_plain r thenBlock _ ht,
      accountFunctionsIn_plain r elseBlock _ he]
  | .loop init cond post body, k, ⟨hi, hc, hp, hb⟩ => by
    rw [accountFunctionsInStmt]
    simp [accountFunctionsInExprs_plain hi, accountFunctionsInExpr_plain hc,
      accountFunctionsInExprs_plain hp, accountFunctionsIn_plain r body _ hb]

end

/-- What the visited functions fail with is reported, then the failure of the statements. -/
theorem checkProgram_failures (r : Registry) (program : Tree.Block) (k : Checker) :
    ((checkProgram r program).run k).2.diagnostics = k.diagnostics ++
      (accountStmts r program k).failures r ++
      (failure? (outcome (typeOfStmts r .void program) k)).toList := by
  have hrec := (typeOfStmts_explained r .void program k).recorded
  rw [checkProgram_report, ← hrec]
  rcases outcome (typeOfStmts r .void program) k with ⟨d | ty, k'⟩
  · rfl
  · exact (List.append_nil _).symm

/-- One check of a program visits each of its functions once, unless it passes over it, which happens
only where something fails behind which a declaration stands in an expression, or in the body of a
function with a `void` parameter. It reports what the visited functions fail with, then the failure
of the statements of the program. -/
theorem check_visits {program : Tree.Block} (h : Registry.collect program = .ok r) :
    let start := Checker.start (.ofReturns .int)
    let account := accountStmts r program start
    (account.visited ++ account.missed).Perm (nestedFunctions program) ∧
      ((account.visited ++ account.missed).map (·.name)).Nodup ∧
      ((checkProgram r program).run start).2.diagnostics = account.failures r ++
        (failure? (outcome (typeOfStmts r .void program) start)).toList ∧
      (check program = .ok r → account.missed = []) ∧
      (PlainBlock program → account.missed = []) := by
  intro start account
  have hperm : (account.visited ++ account.missed).Perm (nestedFunctions program) :=
    accountStmts_declared r program start
  have hexplains := typeOfStmts_explained r .void program start
  refine ⟨hperm, ?_, ?_, ?_, accountStmts_plain r program start⟩
  · have hnodup : ((nestedFunctions program).map (·.name)).Nodup := by
      unfold Registry.collect at h
      simp only at h
      split at h
      · rename_i hdup
        exact (Lowering.duplicates_eq_nil.mp hdup).2
      · cases h
    exact (hperm.map (·.name)).nodup_iff.mpr hnodup
  · rw [checkProgram_failures]
    rfl
  · intro hcheck
    obtain ⟨_, ty, k, hg, hk⟩ := check_eq_ok.mp hcheck
    apply hexplains.complete ty k hg
    have hrec : k.diagnostics = account.failures r := hexplains.of_gives hg
    rw [← hrec, hk]

/-- The right operand of an addition is not looked at where the left one fails, and a function that it
declares goes unchecked. -/
theorem check_visits_operand :
    let g : FunctionDecl := ⟨"g", [], .int, [.ret (some (.ident "z"))]⟩
    let program : Tree.Block := [.expr (.binary .add (.ident "y")
      (.block [.function g, .expr (.int 1)]))]
    let start := Checker.start (.ofReturns .int)
    let account := accountStmts ⟨[g]⟩ program start
    (account.visited ++ account.missed).Perm [g] ∧ account.visited = [] ∧ account.missed = [g] ∧
      ((checkProgram ⟨[g]⟩ program).run start).2.diagnostics.map (·.function) = ["main"] := by
  intro g program start account
  have hcollect : Registry.collect program = .ok ⟨[g]⟩ := rfl
  have h := check_visits hcollect
  refine ⟨h.1, rfl, rfl, ?_⟩
  rw [h.2.2.1]
  rfl

end TreeLang.Typing
