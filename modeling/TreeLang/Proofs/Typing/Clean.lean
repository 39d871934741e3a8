import TreeLang.Proofs.Typing.Parts

namespace TreeLang.Typing

open TreeLang.Tree (Ty Expr Stmt FunctionDecl nestedOfExprs nestedFunctions)
open Check

variable {r : Registry} {k k' : Checker} {ty : Ty}

/-- A check that ends without a report began without one. -/
theorem Kept.clean (h : Kept k k') (hk : k'.diagnostics = []) : k.diagnostics = [] :=
  List.prefix_nil.mp (hk ▸ h.diagnostics)

/-- The body of the function has been checked with success. -/
def Checked (r : Registry) (decl : FunctionDecl) : Prop :=
  ∃ k k', Gives (checkBody r decl) k () k' ∧ k'.diagnostics = []

/-- A function that is checked without a report is checked with success. -/
theorem clean_checkFunction {decl : FunctionDecl} (h : (checkFunction r decl).run k = ((), k'))
    (hk : k'.diagnostics = []) : ∃ t, Gives (checkBody r decl) (k.enter decl.name decl.returns) () t ∧
      t.diagnostics = [] := by
  rw [checkFunction_eq] at h
  obtain ⟨k'', hrun, _, _, hend⟩ := inFunction_run decl.name decl.returns (steady_checkBody r decl) k
  cases hrun.symm.trans h
  rcases hend with ⟨t, hg, hd⟩ | ⟨d, t, _, hd⟩
  · exact ⟨t, hg, hd ▸ hk⟩
  · rw [hk] at hd
    simp at hd

/-- The parameters of a function that has been checked can hold a value. -/
theorem Checked.params {decl : FunctionDecl} (h : Checked r decl) :
    ∀ p ∈ decl.params, p.ty ≠ .void := by
  obtain ⟨k, k', hg, _⟩ := h
  obtain ⟨k₁, _, hd, _⟩ := gives_checkBody.mp hg
  exact declareParams_ne_void hd

mutual

theorem typeOf_checked (r : Registry) : ∀ (e : Expr) {k k' : Checker} {ty : Ty},
    Gives (typeOf r e) k ty k' → k'.diagnostics = [] → ∀ d ∈ e.nestedFunctions, Checked r d
  | .int _, _, _, _, _, _ => nofun
  | .double _, _, _, _, _, _ => nofun
  | .str _, _, _, _, _, _ => nofun
  | .ident _, _, _, _, _, _ => nofun
  | .neg operand, k, k', ty, h, hk => by
    exact typeOf_checked r operand (check_neg.mp h).1 hk
  | .binary op lhs rhs, k, k', ty, h, hk => by
    obtain ⟨left, k₁, right, hl, hr, _⟩ := check_binary.mp h
    intro d hd
    rcases List.mem_append.mp hd with hd | hd
    · exact typeOf_checked r lhs hl (((typeOf_steady r rhs).of_gives hr).clean hk) d hd
    · exact typeOf_checked r rhs hr hk d hd
  | .assign target value, k, k', ty, h, hk => by
    obtain ⟨_, _, _, hv, _⟩ := check_assign.mp h
    exact typeOf_checked r value hv hk
  | .call name args, k, k', ty, h, hk => by
    obtain ⟨callee, _, _, ha, _⟩ := check_call.mp h
    exact checkArgs_checked r callee 0 args ha hk
  | .block stmts, k, k', ty, h, hk => typeOfStmts_checked r .void stmts (check_block.mp h) hk

theorem checkArgs_checked (r : Registry) (callee : Callee) (index : Nat) :
    ∀ (es : List Expr) {k k' : Checker} {u : Unit}, Gives (checkArgs r callee index es) k u k' →
    k'.diagnostics = [] → ∀ d ∈ nestedOfExprs es, Checked r d
  | [], _, _, _, _, _ => nofun
  | e :: es, k, k', u, h, hk => by
    obtain ⟨found, k₁, he, _, hes⟩ := checkArgs_cons.mp h
    have hk₁ := ((checkArgs_steady r callee (index + 1) es).of_gives hes).clean hk
    intro d hd
    rcases List.mem_append.mp hd with hd | hd
    · exact typeOf_checked r e he hk₁ d hd
    · exact checkArgs_checked r callee (index + 1) es hes hk d hd

theorem checkEach_checked (r : Registry) : ∀ (es : List Expr) {k k' : Checker} {u : Unit},
    Gives (checkEach r es) k u k' → k'.diagnostics = [] → ∀ d ∈ nestedOfExprs es, Checked r d
  | [], _, _, _, _, _ => nofun
  | e :: es, k, k', u, h, hk => by
    obtain ⟨found, k₁, he, hes⟩ := checkEach_cons.mp h
    have hk₁ := ((checkEach_steady r es).of_gives hes).clean hk
    intro d hd
    rcases List.mem_append.mp hd with hd | hd
    · exact typeOf_checked r e he hk₁ d hd
    · exact checkEach_checked r es hes hk d hd

theorem typeOfStmts_checked (r : Registry) (last : Ty) : ∀ (ss : List Stmt) {k k' : Checker} {ty : Ty},
    Gives (typeOfStmts r last ss) k ty k' → k'.diagnostics = [] →
    ∀ d ∈ nestedFunctions ss, Checked r d
  | [], _, _, _, _, _ => nofun
  | s :: ss, k, k', ty, h, hk => by
    obtain ⟨found, k₁, hs, hss⟩ := typeOfStmts_cons.mp h
    have hk₁ := ((typeOfStmts_steady r found ss).of_gives hss).clean hk
    intro d hd
    rcases List.mem_append.mp hd with hd | hd
    · exact typeOfStmt_checked r s hs hk₁ d hd
    · exact typeOfStmts_checked r found ss hss hk d hd

/-- Every function in a statement that is checked without a report has been checked with success. -/
theorem typeOfStmt_checked (r : Registry) : ∀ (s : Stmt) {k k' : Checker} {ty : Ty},
    Gives (typeOfStmt r s) k ty k' → k'.diagnostics = [] → ∀ d ∈ s.nestedFunctions, Checked r d
  | .expr e, k, k', ty, h, hk => typeOf_checked r e (check_expr.mp h) hk
  | .var _ _ none, _, _, _, _, _ => nofun
  | .var name t (some init), k, k', ty, h, hk => by
    obtain ⟨_, found, k₁, hi, _, rfl, _⟩ := check_var_init.mp h
    exact typeOf_checked r init hi hk
  | .function ⟨name, params, returns, body⟩, k, k', ty, h, hk => by
    obtain ⟨t, hbody, ht⟩ := clean_checkFunction (check_function.mp h).1 hk
    obtain ⟨k₁, found, _, hstmts, _⟩ := gives_checkBody.mp hbody
    intro d hd
    rcases List.mem_cons.mp hd with rfl | hd
    · exact ⟨_, t, hbody, ht⟩
    · exact typeOfStmts_checked r .void body hstmts ht d hd
  | .ret none, _, _, _, _, _ => nofun
  | .ret (some value), k, k', ty, h, hk => by
    obtain ⟨found, ⟨hsome, _⟩ | ⟨_, ⟨rfl⟩, hv⟩, _⟩ := check_ret.mp h
    · cases hsome
    · exact typeOf_checked r value hv hk
  | .ite cond thenBlock none, k, k', ty, h, hk => by
    obtain ⟨found, k₁, t₁, k₂, hc, _, ht, ⟨_, rfl⟩ | ⟨_, _, hnone, _⟩, _⟩ := check_ite.mp h
    · have hk₁ := ((typeOfStmts_steady r .void thenBlock).of_gives ht).clean hk
      intro d hd
      rcases List.mem_append.mp hd with hd | hd
      · exact typeOf_checked r cond hc hk₁ d hd
      · exact typeOfStmts_checked r .void thenBlock ht hk d hd
    · cases hnone
  | .ite cond thenBlock (some elseBlock), k, k', ty, h, hk => by
    obtain ⟨found, k₁, t₁, k₂, hc, _, ht, ⟨hnone, _⟩ | ⟨_, t₂, ⟨rfl⟩, he⟩, _⟩ := check_ite.mp h
    · cases hnone
    · have hk₂ := ((typeOfStmts_steady r .void elseBlock).of_gives he).clean hk
      have hk₁ := ((typeOfStmts_steady r .void thenBlock).of_gives ht).clean hk₂
      intro d hd
      rcases List.mem_append.mp hd with hd | hd
      · rcases List.mem_append.mp hd with hd | hd
        · exact typeOf_checked r cond hc hk₁ d hd
        · exact typeOfStmts_checked r .void thenBlock ht hk₂ d hd
      · exact typeOfStmts_checked r .void elseBlock he hk d hd
  | .loop init cond post body, k, k', ty, h, hk => by
    obtain ⟨k₁, found, k₂, t, k₃, hi, hc, _, hb, hp, _⟩ := check_loop.mp h
    have hk₃ := ((checkEach_steady r post).of_gives hp).clean hk
    have hk₂ := ((typeOfStmts_steady r .void body).of_gives hb).clean hk₃
    have hk₁ := ((typeOf_steady r cond).of_gives hc).clean hk₂
    intro d hd
    rcases List.mem_append.mp hd with hd | hd
    · rcases List.mem_append.mp hd with hd | hd
      · rcases List.mem_append.mp hd with hd | hd
        · exact checkEach_checked r init hi hk₁ d hd
        · exact typeOf_checked r cond hc hk₂ d hd
      · exact checkEach_checked r post hp hk d hd
    · exact typeOfStmts_checked r .void body hb hk₃ d hd

end

end TreeLang.Typing
