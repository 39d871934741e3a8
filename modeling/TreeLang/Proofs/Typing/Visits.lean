import TreeLang.Proofs.Typing.Parts

namespace TreeLang.Typing

open TreeLang.Tree (Ty Expr Stmt FunctionDecl nestedOfExprs nestedFunctions)
open Check

def failure? {ε α σ : Type} : Except ε α × σ → Option ε
  | (.ok _, _) => none
  | (.error e, _) => some e

/-- One check of a function: the declaration, and the checker that came to it. -/
structure Visit where
  decl : FunctionDecl
  entry : Checker

def Visit.failure? (r : Registry) (v : Visit) : Option Diagnostic :=
  Typing.failure? (outcome (checkBody r v.decl) (v.entry.enter v.decl.name v.decl.returns))

/-- What a check did with the declarations it met. The visits stand in the order in which they end. -/
structure Account where
  visits : List Visit
  missed : List FunctionDecl

namespace Account

def none : Account := ⟨[], []⟩

def passOver (ds : List FunctionDecl) : Account := ⟨[], ds⟩

def visit (decl : FunctionDecl) (entry : Checker) : Account := ⟨[⟨decl, entry⟩], []⟩

instance : Append Account := ⟨fun a b => ⟨a.visits ++ b.visits, a.missed ++ b.missed⟩⟩

/-- The account of a part that ends as told, and of what its success or its failure leads to. -/
def andThen {ε α : Type} (a : Account) (ended : Except ε α × Checker)
    (next failed : Checker → Account) : Account :=
  match ended with
  | (.ok _, k) => a ++ next k
  | (.error _, k) => a ++ failed k

def visited (a : Account) : List FunctionDecl := a.visits.map (·.decl)

def declared (a : Account) : List FunctionDecl := a.visited ++ a.missed

def failures (r : Registry) (a : Account) : List Diagnostic :=
  a.visits.filterMap (·.failure? r)

variable {r : Registry} {a b : Account} {ds : List FunctionDecl}

@[simp] theorem missed_none : none.missed = [] := rfl

@[simp] theorem visited_append : (a ++ b).visited = a.visited ++ b.visited := List.map_append

@[simp] theorem missed_append : (a ++ b).missed = a.missed ++ b.missed := rfl

@[simp] theorem missed_visit {decl : FunctionDecl} {k : Checker} : (visit decl k).missed = [] := rfl

@[simp] theorem failures_none : none.failures r = [] := rfl

@[simp] theorem failures_passOver : (passOver ds).failures r = [] := rfl

@[simp] theorem failures_append : (a ++ b).failures r = a.failures r ++ b.failures r :=
  List.filterMap_append

@[simp] theorem declared_none : none.declared = [] := rfl

@[simp] theorem declared_visit {decl : FunctionDecl} {k : Checker} :
    (visit decl k).declared = [decl] := rfl

@[simp] theorem declared_passOver : (passOver ds).declared = ds := rfl

theorem append_none : a ++ none = a := by
  change (⟨a.visits ++ [], a.missed ++ []⟩ : Account) = a
  simp

/-- An account of two parts speaks of the declarations of both. -/
theorem declared_append : (a ++ b).declared.Perm (a.declared ++ b.declared) := by
  have hmid : (b.visited ++ (a.missed ++ b.missed)).Perm (a.missed ++ (b.visited ++ b.missed)) := by
    rw [← List.append_assoc, ← List.append_assoc]
    exact List.perm_append_comm.append_right _
  simpa [declared, List.append_assoc] using hmid.append_left a.visited

theorem perm_append {xs ys : List FunctionDecl} (ha : a.declared.Perm xs) (hb : b.declared.Perm ys) :
    (a ++ b).declared.Perm (xs ++ ys) :=
  declared_append.trans (ha.append hb)

/-- Whatever follows, the declarations behind a part are accounted for. -/
theorem perm_andThen {ε α : Type} {ended : Except ε α × Checker} {next failed : Checker → Account}
    {xs ys : List FunctionDecl} (ha : a.declared.Perm xs) (hn : ∀ k, (next k).declared.Perm ys)
    (hf : ∀ k, (failed k).declared.Perm ys) : (a.andThen ended next failed).declared.Perm (xs ++ ys) := by
  obtain ⟨_ | _, k⟩ := ended
  · exact perm_append ha (hf k)
  · exact perm_append ha (hn k)

theorem andThen_none {ε α : Type} {ended : Except ε α × Checker} :
    a.andThen ended (fun _ => none) (fun _ => none) = a := by
  obtain ⟨_ | _, k⟩ := ended
  · exact append_none
  · exact append_none

theorem andThen_adapt {ε ε' α : Type} {m : Check ε α} {f : ε → ε'} {k : Checker}
    {next failed : Checker → Account} : a.andThen (outcome (m.adapt f : Check ε' α) k) next failed =
      a.andThen (outcome m k) next failed := by
  rw [outcome_adapt]
  rcases outcome m k with ⟨_ | _, _⟩
  · rfl
  · rfl

theorem andThen_pinned {α : Type} {m : Check Cause α} {s : Stmt} {k : Checker}
    {next failed : Checker → Account} : a.andThen (outcome (pinned s m) k) next failed =
      a.andThen (outcome m k) next failed := andThen_adapt

/-- Placing a failure does not change the account. -/
theorem andThen_located {α : Type} {m : Check Diagnostic α} {k : Checker}
    {next failed : Checker → Account} : a.andThen (outcome (located m) k) next failed =
      a.andThen (outcome m k) next failed := andThen_adapt

theorem perm_none_andThen {ε α : Type} {ended : Except ε α × Checker}
    {next failed : Checker → Account} {ys : List FunctionDecl}
    (hn : ∀ k, (next k).declared.Perm ys) (hf : ∀ k, (failed k).declared.Perm ys) :
    (none.andThen ended next failed).declared.Perm ys := by
  have hnone : none.declared.Perm [] := .nil
  exact perm_andThen hnone hn hf

theorem missed_andThen {ε α : Type} {ended : Except ε α × Checker} {next failed : Checker → Account}
    (ha : a.missed = []) (hn : ∀ k, (next k).missed = []) (hf : ∀ k, (failed k).missed = []) :
    (a.andThen ended next failed).missed = [] := by
  obtain ⟨_ | _, k⟩ := ended
  · simp [andThen, ha, hf k]
  · simp [andThen, ha, hn k]

/-- An account that speaks of no declaration passes over none. -/
theorem missed_of_declared (h : a.declared.Perm []) : a.missed = [] :=
  (List.append_eq_nil_iff.mp (List.perm_nil.mp h)).2

end Account

mutual

def accountExpr (r : Registry) : Expr → Checker → Account
  | .int _ | .double _ | .str _ | .ident _ => fun _ => .none
  | .neg operand => accountExpr r operand
  | .binary _ lhs rhs => fun k =>
    (accountExpr r lhs k).andThen (outcome (typeOf r lhs) k) (accountExpr r rhs)
      fun _ => .passOver rhs.nestedFunctions
  | .assign target value => fun k =>
    Account.none.andThen (outcome (nameType target) k) (accountExpr r value)
      fun _ => .passOver value.nestedFunctions
  | .call name args => fun k =>
    match Callee.resolve r Ir.prototype? name with
    | .ok callee =>
      if callee.accepts args.length then accountArgs r callee 0 args k
      else .passOver (nestedOfExprs args)
    | .error _ => .passOver (nestedOfExprs args)
  | .block stmts => accountStmts r stmts

def accountArgs (r : Registry) (callee : Callee) (index : Nat) : List Expr → Checker → Account
  | [] => fun _ => .none
  | e :: es => fun k =>
    (accountExpr r e k).andThen (outcome (do liftExcept (requireArgument callee index (← typeOf r e))) k)
      (accountArgs r callee (index + 1) es) fun _ => .passOver (nestedOfExprs es)

def accountEach (r : Registry) : List Expr → Checker → Account
  | [] => fun _ => .none
  | e :: es => fun k =>
    (accountExpr r e k).andThen (outcome (typeOf r e) k) (accountEach r es)
      fun _ => .passOver (nestedOfExprs es)

/-- Behind a failing statement the functions are still checked. -/
def accountStmts (r : Registry) : List Stmt → Checker → Account
  | [] => fun _ => .none
  | s :: ss => fun k =>
    (accountStmt r s k).andThen (outcome (typeOfStmt r s) k) (accountStmts r ss)
      (accountFunctionsIn r ss)

def accountStmt (r : Registry) : Stmt → Checker → Account
  | .expr e => accountExpr r e
  | .var _ _ none => fun _ => .none
  | .var _ ty (some init) =>
    if ty = .void then fun _ => .passOver init.nestedFunctions else accountExpr r init
  | .function decl => accountFunction r decl
  | .ret none => fun _ => .none
  | .ret (some value) => accountExpr r value
  | .ite cond thenBlock none => fun k =>
    (accountExpr r cond k).andThen
      (outcome (do liftExcept (requireCondition "if condition" (← typeOf r cond))) k)
      (accountStmts r thenBlock) (accountFunctionsIn r thenBlock)
  | .ite cond thenBlock (some elseBlock) => fun k =>
    (accountExpr r cond k).andThen
      (outcome (do liftExcept (requireCondition "if condition" (← typeOf r cond))) k)
      (fun k₁ => (accountStmts r thenBlock k₁).andThen (outcome (typeOfStmts r .void thenBlock) k₁)
        (accountStmts r elseBlock) (accountFunctionsIn r elseBlock))
      fun k₁ => accountFunctionsIn r thenBlock k₁ ++
        accountFunctionsIn r elseBlock ((checkFunctionsIn r thenBlock).run k₁).2
  | .loop init cond post body => fun k =>
    ((accountEach r init k).andThen (outcome (checkEach r init) k) (accountExpr r cond)
        fun _ => .passOver cond.nestedFunctions).andThen
      (outcome (do
        checkEach r init
        liftExcept (requireCondition "for condition" (← typeOf r cond))) k)
      (fun k₁ => (accountStmts r body k₁).andThen (outcome (typeOfStmts r .void body) k₁)
        (accountEach r post) fun _ => .passOver (nestedOfExprs post))
      fun k₁ => accountFunctionsIn r body k₁ ++ .passOver (nestedOfExprs post)

def accountFunction (r : Registry) : FunctionDecl → Checker → Account
  | ⟨name, params, returns, body⟩ => fun k =>
    Account.none.andThen
        (outcome (declareParams ⟨name, params, returns, body⟩ params) (k.enter name returns))
        (accountStmts r body) (fun _ => .passOver (nestedFunctions body)) ++
      .visit ⟨name, params, returns, body⟩ k

def accountFunctionsIn (r : Registry) : List Stmt → Checker → Account
  | [] => fun _ => .none
  | s :: ss => fun k => accountFunctionsInStmt r s k ++
    accountFunctionsIn r ss ((checkFunctionsInStmt r s).run k).2

def accountFunctionsInStmt (r : Registry) : Stmt → Checker → Account
  | .expr e => accountFunctionsInExpr r e
  | .var _ _ none => fun _ => .none
  | .var _ _ (some init) => accountFunctionsInExpr r init
  | .function decl => accountFunction r decl
  | .ret none => fun _ => .none
  | .ret (some value) => accountFunctionsInExpr r value
  | .ite cond thenBlock none => fun k => accountFunctionsInExpr r cond k ++
    accountFunctionsIn r thenBlock ((checkFunctionsInExpr r cond).run k).2
  | .ite cond thenBlock (some elseBlock) => fun k =>
    let k₁ := ((checkFunctionsInExpr r cond).run k).2
    accountFunctionsInExpr r cond k ++ (accountFunctionsIn r thenBlock k₁ ++
      accountFunctionsIn r elseBlock ((checkFunctionsIn r thenBlock).run k₁).2)
  | .loop init cond post body => fun k =>
    let k₁ := ((checkFunctionsInExprs r init).run k).2
    let k₂ := ((checkFunctionsInExpr r cond).run k₁).2
    accountFunctionsInExprs r init k ++ (accountFunctionsInExpr r cond k₁ ++
      (accountFunctionsInExprs r post k₂ ++
        accountFunctionsIn r body ((checkFunctionsInExprs r post).run k₂).2))

def accountFunctionsInExpr (r : Registry) : Expr → Checker → Account
  | .int _ | .double _ | .str _ | .ident _ => fun _ => .none
  | .neg operand => accountFunctionsInExpr r operand
  | .binary _ lhs rhs => fun k => accountFunctionsInExpr r lhs k ++
    accountFunctionsInExpr r rhs ((checkFunctionsInExpr r lhs).run k).2
  | .assign _ value => accountFunctionsInExpr r value
  | .call _ args => accountFunctionsInExprs r args
  | .block stmts => accountFunctionsIn r stmts

def accountFunctionsInExprs (r : Registry) : List Expr → Checker → Account
  | [] => fun _ => .none
  | e :: es => fun k => accountFunctionsInExpr r e k ++
    accountFunctionsInExprs r es ((checkFunctionsInExpr r e).run k).2

end

/-- The body of a loop is walked before the last part of its header. -/
theorem perm_loop {init cond post body : List FunctionDecl} :
    (init ++ cond ++ (body ++ post)).Perm (init ++ cond ++ post ++ body) := by
  rw [List.append_assoc (init ++ cond)]
  exact List.perm_append_comm.append_left _

mutual

theorem accountExpr_declared (r : Registry) :
    ∀ (e : Expr) (k : Checker), (accountExpr r e k).declared.Perm e.nestedFunctions
  | .int _, _ => .nil
  | .double _, _ => .nil
  | .str _, _ => .nil
  | .ident _, _ => .nil
  | .neg operand, k => accountExpr_declared r operand k
  | .binary _ lhs rhs, k =>
    Account.perm_andThen (accountExpr_declared r lhs k) (accountExpr_declared r rhs) fun _ => .rfl
  | .assign _ value, k =>
    Account.perm_none_andThen (accountExpr_declared r value) fun _ => .rfl
  | .call name args, k => by
    rw [accountExpr, Expr.nestedFunctions]
    split
    · split
      · exact accountArgs_declared r _ 0 args k
      · exact .rfl
    · exact .rfl
  | .block stmts, k => accountStmts_declared r stmts k

theorem accountArgs_declared (r : Registry) (callee : Callee) (index : Nat) :
    ∀ (es : List Expr) (k : Checker),
      (accountArgs r callee index es k).declared.Perm (nestedOfExprs es)
  | [], _ => .nil
  | e :: es, k =>
    Account.perm_andThen (accountExpr_declared r e k)
      (accountArgs_declared r callee (index + 1) es) fun _ => .rfl

theorem accountEach_declared (r : Registry) :
    ∀ (es : List Expr) (k : Checker), (accountEach r es k).declared.Perm (nestedOfExprs es)
  | [], _ => .nil
  | e :: es, k =>
    Account.perm_andThen (accountExpr_declared r e k) (accountEach_declared r es) fun _ => .rfl

/-- The account of some statements speaks of every function declared in them. -/
theorem accountStmts_declared (r : Registry) :
    ∀ (ss : List Stmt) (k : Checker), (accountStmts r ss k).declared.Perm (nestedFunctions ss)
  | [], _ => .nil
  | s :: ss, k =>
    Account.perm_andThen (accountStmt_declared r s k) (accountStmts_declared r ss)
      (accountFunctionsIn_declared r ss)

theorem accountStmt_declared (r : Registry) :
    ∀ (s : Stmt) (k : Checker), (accountStmt r s k).declared.Perm s.nestedFunctions
  | .expr e, k => accountExpr_declared r e k
  | .var _ _ none, _ => .nil
  | .var _ ty (some init), k => by
    rw [accountStmt, Stmt.nestedFunctions]
    split
    · exact .rfl
    · exact accountExpr_declared r init k
  | .function decl, k => accountFunction_declared r decl k
  | .ret none, _ => .nil
  | .ret (some value), k => accountExpr_declared r value k
  | .ite cond thenBlock none, k =>
    Account.perm_andThen (accountExpr_declared r cond k) (accountStmts_declared r thenBlock)
      (accountFunctionsIn_declared r thenBlock)
  | .ite cond thenBlock (some elseBlock), k => by
    rw [accountStmt, Stmt.nestedFunctions, List.append_assoc]
    apply Account.perm_andThen (accountExpr_declared r cond k)
    · intro k₁
      exact Account.perm_andThen (accountStmts_declared r thenBlock k₁)
        (accountStmts_declared r elseBlock) (accountFunctionsIn_declared r elseBlock)
    · intro k₁
      exact Account.perm_append (accountFunctionsIn_declared r thenBlock k₁)
        (accountFunctionsIn_declared r elseBlock _)
  | .loop init cond post body, k => by
    rw [accountStmt, Stmt.nestedFunctions]
    refine .trans ?_ perm_loop
    apply Account.perm_andThen
    · exact Account.perm_andThen (accountEach_declared r init k) (accountExpr_declared r cond)
        fun _ => .rfl
    · intro k₁
      exact Account.perm_andThen (accountStmts_declared r body k₁) (accountEach_declared r post)
        fun _ => .rfl
    · intro k₁
      exact Account.perm_append (accountFunctionsIn_declared r body k₁) .rfl

/-- A function that is visited is accounted for with all those inside it. -/
theorem accountFunction_declared (r : Registry) :
    ∀ (decl : FunctionDecl) (k : Checker), (accountFunction r decl k).declared.Perm decl.withNested
  | ⟨name, params, returns, body⟩, k => by
    rw [accountFunction, FunctionDecl.withNested]
    refine .trans (Account.perm_append ?_ .rfl) List.perm_append_comm
    exact Account.perm_none_andThen (accountStmts_declared r body) fun _ => .rfl

theorem accountFunctionsIn_declared (r : Registry) :
    ∀ (ss : List Stmt) (k : Checker),
      (accountFunctionsIn r ss k).declared.Perm (nestedFunctions ss)
  | [], _ => .nil
  | s :: ss, k =>
    Account.perm_append (accountFunctionsInStmt_declared r s k) (accountFunctionsIn_declared r ss _)

theorem accountFunctionsInStmt_declared (r : Registry) :
    ∀ (s : Stmt) (k : Checker), (accountFunctionsInStmt r s k).declared.Perm s.nestedFunctions
  | .expr e, k => accountFunctionsInExpr_declared r e k
  | .var _ _ none, _ => .nil
  | .var _ _ (some init), k => accountFunctionsInExpr_declared r init k
  | .function decl, k => accountFunction_declared r decl k
  | .ret none, _ => .nil
  | .ret (some value), k => accountFunctionsInExpr_declared r value k
  | .ite cond thenBlock none, k =>
    Account.perm_append (accountFunctionsInExpr_declared r cond k)
      (accountFunctionsIn_declared r thenBlock _)
  | .ite cond thenBlock (some elseBlock), k => by
    rw [accountFunctionsInStmt, Stmt.nestedFunctions, List.append_assoc]
    exact Account.perm_append (accountFunctionsInExpr_declared r cond k)
      (Account.perm_append (accountFunctionsIn_declared r thenBlock _)
        (accountFunctionsIn_declared r elseBlock _))
  | .loop init cond post body, k => by
    rw [accountFunctionsInStmt, Stmt.nestedFunctions, List.append_assoc, List.append_assoc]
    exact Account.perm_append (accountFunctionsInExprs_declared r init k)
      (Account.perm_append (accountFunctionsInExpr_declared r cond _)
        (Account.perm_append (accountFunctionsInExprs_declared r post _)
          (accountFunctionsIn_declared r body _)))

theorem accountFunctionsInExpr_declared (r : Registry) :
    ∀ (e : Expr) (k : Checker), (accountFunctionsInExpr r e k).declared.Perm e.nestedFunctions
  | .int _, _ => .nil
  | .double _, _ => .nil
  | .str _, _ => .nil
  | .ident _, _ => .nil
  | .neg operand, k => accountFunctionsInExpr_declared r operand k
  | .binary _ lhs rhs, k =>
    Account.perm_append (accountFunctionsInExpr_declared r lhs k)
      (accountFunctionsInExpr_declared r rhs _)
  | .assign _ value, k => accountFunctionsInExpr_declared r value k
  | .call _ args, k => accountFunctionsInExprs_declared r args k
  | .block stmts, k => accountFunctionsIn_declared r stmts k

theorem accountFunctionsInExprs_declared (r : Registry) :
    ∀ (es : List Expr) (k : Checker),
      (accountFunctionsInExprs r es k).declared.Perm (nestedOfExprs es)
  | [], _ => .nil
  | e :: es, k =>
    Account.perm_append (accountFunctionsInExpr_declared r e k)
      (accountFunctionsInExprs_declared r es _)

end

end TreeLang.Typing
