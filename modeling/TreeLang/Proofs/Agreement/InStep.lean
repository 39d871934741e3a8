import TreeLang.Proofs.Lowering.Rules
import TreeLang.Proofs.Typing.Parts

namespace TreeLang.Lowering

open TreeLang.Tree (Ty Expr Stmt FunctionDecl)
open Typing (Registry Callee Scopes Checker typeOf checkArgs checkEach typeOfStmts typeOfStmt
  checkFunction)
open Lower

/-- Checking a function gives back the names that were in force, whatever it finds. -/
theorem scopes_checkFunction {r : Registry} {decl : FunctionDecl} {k k' : Checker}
    (h : (checkFunction r decl).run k = ((), k')) : k'.scopes = k.scopes := by
  rw [Typing.checkFunction_eq] at h
  obtain ⟨k'', hrun, hscopes, _⟩ :=
    Typing.inFunction_run decl.name decl.returns (Typing.steady_checkBody r decl) k
  rw [hrun] at h
  cases h
  exact hscopes

/-- A relation between the names of a check and the state of a lowering that they keep in step. -/
structure InStep (P : Scopes → Context → Prop) : Prop where
  unmoved : ∀ s, Unmoved (P s)
  addString : ∀ s c text, P s c →
    P s { c with module := { c.module with strings := c.module.strings ++ [text] } }
  declareVar : ∀ s name ty, ty ≠ .void → Carries (P s) (P (s.declare name ty)) (declareVar name ty)
  apart : ∀ s c c', Apart c c' → P s c → P s c'

variable {P : Scopes → Context → Prop}

mutual

/-- What relates the names in force in the check to the state of the lowering, and is kept where both
declare a name, is kept by any part of a tree that both accept. -/
theorem lowerExpr_inStep (hP : InStep P) (r : Registry) : ∀ (e : Expr) {k k' : Checker} {ty : Ty},
    Gives (typeOf r e) k ty k' → Carries (P k.scopes) (P k'.scopes) (lowerExpr r e)
  | .int _, k, k', ty, hk => by
    obtain ⟨_, rfl⟩ := Typing.check_int.mp hk
    exact carries_int
  | .double _, k, k', ty, hk => by
    obtain ⟨_, rfl⟩ := Typing.check_double.mp hk
    exact carries_double
  | .str text, k, k', ty, hk => by
    obtain ⟨_, rfl⟩ := Typing.check_str.mp hk
    exact carries_str fun c => hP.addString _ c text
  | .ident _, k, k', ty, hk => by
    obtain ⟨_, rfl⟩ := Typing.check_ident.mp hk
    exact carries_ident (hP.unmoved _) fun _ _ _ hp => hp
  | .neg e, k, k', ty, hk => by
    obtain ⟨hke, _⟩ := Typing.check_neg.mp hk
    exact carries_neg (hP.unmoved _) (lowerExpr_inStep hP r e hke)
  | .binary _ lhs rhs, k, k', ty, hk => by
    obtain ⟨_, k₁, _, hkl, hkr, _⟩ := Typing.check_binary.mp hk
    exact carries_binary (hP.unmoved _) (lowerExpr_inStep hP r lhs hkl)
      (lowerExpr_inStep hP r rhs hkr)
  | .assign _ value, k, k', ty, hk => by
    obtain ⟨_, _, _, hkv, _, _⟩ := Typing.check_assign.mp hk
    exact carries_assign (hP.unmoved _) (fun _ _ _ hp => hp) (lowerExpr_inStep hP r value hkv)
  | .call _ args, k, k', ty, hk => by
    obtain ⟨_, _, _, hka, _⟩ := Typing.check_call.mp hk
    exact carries_call (hP.unmoved _) fun callee => lowerArgs_inStep hP r callee 0 args hka
  | .block stmts, k, k', ty, hk =>
    carries_expr_block (lowerStmts_inStep hP r none stmts (Typing.check_block.mp hk))

/-- Whatever functions the two sides take the arguments to be for. -/
theorem lowerArgs_inStep (hP : InStep P) (r : Registry) (callee : Callee) (index : Nat) :
    ∀ (es : List Expr) {k k' : Checker} {u : Unit} {callee' : Callee} {index' : Nat},
    Gives (checkArgs r callee' index' es) k u k' →
    Carries (P k.scopes) (P k'.scopes) (lowerArgs r callee index es)
  | [], k, k', u, callee', index', hk => by
    obtain rfl := Typing.checkArgs_nil.mp hk
    exact carries_args_nil
  | e :: es, k, k', u, callee', index', hk => by
    obtain ⟨_, k₁, hke, _, hkes⟩ := Typing.checkArgs_cons.mp hk
    exact carries_args_cons (hP.unmoved _) (lowerExpr_inStep hP r e hke)
      (lowerArgs_inStep hP r callee (index + 1) es hkes)

theorem lowerEach_inStep (hP : InStep P) (r : Registry) : ∀ (es : List Expr) {k k' : Checker}
    {u : Unit}, Gives (checkEach r es) k u k' →
    Carries (P k.scopes) (P k'.scopes) (lowerEach r es)
  | [], k, k', u, hk => by
    obtain rfl := Typing.checkEach_nil.mp hk
    exact carries_each_nil
  | e :: es, k, k', u, hk => by
    obtain ⟨_, k₁, hke, hkes⟩ := Typing.checkEach_cons.mp hk
    exact carries_each_cons (lowerExpr_inStep hP r e hke) (lowerEach_inStep hP r es hkes)

/-- A declaration is in force for the statements behind it, on both sides. -/
theorem lowerStmts_inStep (hP : InStep P) (r : Registry) (last : Option Typed) :
    ∀ (ss : List Stmt) {k k' : Checker} {lastTy ty : Ty}, Gives (typeOfStmts r lastTy ss) k ty k' →
    Carries (P k.scopes) (P k'.scopes) (lowerStmts r last ss)
  | [], k, k', lastTy, ty, hk => by
    obtain ⟨_, rfl⟩ := Typing.typeOfStmts_nil.mp hk
    exact carries_stmts_nil
  | s :: ss, k, k', lastTy, ty, hk => by
    obtain ⟨_, k₁, hks, hkss⟩ := Typing.typeOfStmts_cons.mp hk
    exact carries_stmts_cons (lowerStmtValue_inStep hP r s hks) fun w =>
      lowerStmts_inStep hP r w ss hkss

theorem lowerStmtValue_inStep (hP : InStep P) (r : Registry) : ∀ (s : Stmt) {k k' : Checker}
    {ty : Ty}, Gives (typeOfStmt r s) k ty k' →
    Carries (P k.scopes) (P k'.scopes) (lowerStmtValue r s)
  | .expr e, k, k', ty, hk => carries_stmt_expr (lowerExpr_inStep hP r e (Typing.check_expr.mp hk))
  | .var name t none, k, k', ty, hk => by
    obtain ⟨_, rfl, _⟩ := Typing.check_var.mp hk
    exact carries_var (hP.declareVar _ name t)
  | .var name t (some init), k, k', ty, hk => by
    obtain ⟨_, _, k₁, hki, _, rfl, _⟩ := Typing.check_var_init.mp hk
    exact carries_var_init (hP.unmoved _) (lowerExpr_inStep hP r init hki) (hP.declareVar _ name t)
  | .function _, k, k', ty, hk => by
    obtain ⟨hrun, _⟩ := Typing.check_function.mp hk
    rw [scopes_checkFunction hrun]
    exact carries_function (hP.apart _)
  | .ret none, k, k', ty, hk => by
    obtain ⟨_, ⟨_, _, rfl⟩ | ⟨_, hnone, _⟩, _⟩ := Typing.check_ret.mp hk
    · exact carries_ret_none (hP.unmoved _)
    · cases hnone
  | .ret (some e), k, k', ty, hk => by
    obtain ⟨_, ⟨hsome, _⟩ | ⟨_, ⟨rfl⟩, hke⟩, _⟩ := Typing.check_ret.mp hk
    · cases hsome
    · exact carries_ret (hP.unmoved _) (lowerExpr_inStep hP r e hke)
  | .ite cond thenBlock none, k, k', ty, hk => by
    obtain ⟨_, k₁, _, k₂, hkc, _, hkt, ⟨_, rfl⟩ | ⟨_, _, hnone, _⟩, _⟩ := Typing.check_ite.mp hk
    · exact carries_ite (hP.unmoved _) (hP.unmoved _) (lowerExpr_inStep hP r cond hkc)
        (lowerStmts_inStep hP r none thenBlock hkt)
    · cases hnone
  | .ite cond thenBlock (some elseBlock), k, k', ty, hk => by
    obtain ⟨_, k₁, _, k₂, hkc, _, hkt, ⟨hnone, _⟩ | ⟨_, _, ⟨rfl⟩, hke⟩, _⟩ := Typing.check_ite.mp hk
    · cases hnone
    · exact carries_ite_else (hP.unmoved _) (hP.unmoved _) (hP.unmoved _)
        (lowerExpr_inStep hP r cond hkc) (lowerStmts_inStep hP r none thenBlock hkt)
        (lowerStmts_inStep hP r none elseBlock hke)
  | .loop init cond post body, k, k', ty, hk => by
    obtain ⟨k₁, _, k₂, _, k₃, hki, hkc, _, hkb, hkp, _⟩ := Typing.check_loop.mp hk
    exact carries_loop (hP.unmoved _) (hP.unmoved _) (hP.unmoved _) (lowerEach_inStep hP r init hki)
      (lowerExpr_inStep hP r cond hkc) (lowerStmts_inStep hP r none body hkb)
      (lowerEach_inStep hP r post hkp)

end

end TreeLang.Lowering
