import TreeLang.Proofs.Typing.Steady

namespace TreeLang.Typing

open TreeLang.Tree (Expr Stmt FunctionDecl)

structure Scopes.Extends (s s' : Scopes) : Prop where
  depth : s'.depth = s.depth
  outer : s'.outer = s.outer
  returns : s'.returns = s.returns
  binds : ∀ name, s.inner.Binds name → s'.inner.Binds name

/-- What is kept by a check extends the tables in force. -/
theorem Kept.extends {k k' : Checker} (h : Kept k k') : k.scopes.Extends k'.scopes where
  depth := by
    unfold Scopes.depth
    rw [h.outer]
  outer := h.outer
  returns := h.returns
  binds := h.binds

/-- A program is checked as the block of its statements. -/
theorem steadily_checkProgram (r : Registry) (program : Tree.Block) :
    Steadily (checkProgram r program) := by
  intro k
  have hk := typeOfStmts_steady r .void program k
  rw [checkProgram, run_outcome]
  split
  · exact hk
  · exact hk.trans ⟨rfl, rfl, fun _ h => h, rfl, List.prefix_append _ _⟩

theorem steadily_passes (r : Registry) (s : Stmt) : Steadily (passes r s) := by
  intro k
  have hk := steady_pinned s (typeOfStmt_steady r s) k
  rw [passes, run_outcome]
  split
  · exact hk
  · exact hk.trans ⟨rfl, rfl, fun _ h => h, rfl, List.prefix_append _ _⟩

/-- A function leaves behind the tables, and the names of the functions around it, that it found. -/
theorem checkFunction_restores (r : Registry) (decl : FunctionDecl) (k : Checker) :
    ((checkFunction r decl).run k).2.scopes = k.scopes ∧
      ((checkFunction r decl).run k).2.functions = k.functions := by
  obtain ⟨name, params, returns, body⟩ := decl
  have hbody : Steady (do
      declareParams ⟨name, params, returns, body⟩ params
      let found ← typeOfStmts r .void body
      liftExcept (requireResult ⟨name, params, returns, body⟩ found) : Check Diagnostic Unit) :=
    steady_bind (steady_declareParams _ params) fun _ =>
      steady_bind (typeOfStmts_steady r .void body) fun _ => steady_liftExcept _
  obtain ⟨k', hrun, hscopes, hfunctions, _⟩ := inFunction_run name returns hbody k
  rw [checkFunction, hrun]
  exact ⟨hscopes, hfunctions⟩

/-- Whatever is checked with whatever tables in force, and however the check ends, the tables around
the function at hand stay as they were, and its own table loses neither its return type nor a name.
A function that is declared leaves all of them as they were. -/
theorem check_extends_scopes (r : Registry) (k : Checker) :
    (∀ e, k.scopes.Extends (outcome (typeOf r e) k).2.scopes) ∧
    (∀ s, k.scopes.Extends (outcome (checkStmt r s) k).2.scopes) ∧
    (∀ block, k.scopes.Extends (outcome (typeOfBlock r block) k).2.scopes) ∧
    (∀ s, k.scopes.Extends ((passes r s).run k).2.scopes) ∧
    (∀ program, k.scopes.Extends ((checkProgram r program).run k).2.scopes) ∧
    ∀ decl, ((checkFunction r decl).run k).2.scopes = k.scopes ∧
      ((checkFunction r decl).run k).2.functions = k.functions := by
  refine ⟨fun e => ?_, fun s => ?_, fun block => ?_, fun s => ?_, fun program => ?_, fun decl => ?_⟩
  · exact (typeOf_steady r e k).extends
  · exact (steady_pinned s (typeOfStmt_steady r s) k).extends
  · exact (typeOfStmts_steady r .void block k).extends
  · exact (steadily_passes r s k).extends
  · exact (steadily_checkProgram r program k).extends
  · exact checkFunction_restores r decl k

end TreeLang.Typing
