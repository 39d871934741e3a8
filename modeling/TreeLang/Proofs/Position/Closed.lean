import TreeLang.Proofs.Contents

namespace TreeLang.Tree

def Declared (own : List Param) (name : String) : Prop := name ∈ own.map (·.name)

mutual

/-- No name is used before the function at hand declares it. -/
def Expr.Closed (own : List Param) : Expr → Prop
  | .int _ | .double _ | .str _ => True
  | .ident name => Declared own name
  | .neg operand => operand.Closed own
  | .binary _ lhs rhs => lhs.Closed own ∧ rhs.Closed (own ++ lhs.locals)
  | .assign target value => Declared own target ∧ value.Closed own
  | .call _ args => ClosedExprs own args
  | .block stmts => Closed own stmts

def ClosedExprs (own : List Param) : List Expr → Prop
  | [] => True
  | e :: es => e.Closed own ∧ ClosedExprs (own ++ e.locals) es

/-- A function that is declared here has names of its own. -/
def Stmt.Closed (own : List Param) : Stmt → Prop
  | .expr e => e.Closed own
  | .var _ _ none => True
  | .var _ _ (some init) => init.Closed own
  | .function decl => decl.Closed
  | .ret none => True
  | .ret (some value) => value.Closed own
  | .ite cond thenBlock none => cond.Closed own ∧ Closed (own ++ cond.locals) thenBlock
  | .ite cond thenBlock (some elseBlock) =>
    cond.Closed own ∧ Closed (own ++ cond.locals) thenBlock ∧
      Closed (own ++ (cond.locals ++ locals thenBlock)) elseBlock
  | .loop init cond post body =>
    ClosedExprs own init ∧ cond.Closed (own ++ localsOfExprs init) ∧
      Closed (own ++ (localsOfExprs init ++ cond.locals)) body ∧
      ClosedExprs (own ++ (localsOfExprs init ++ cond.locals ++ locals body)) post

def FunctionDecl.Closed : FunctionDecl → Prop
  | ⟨_, params, _, body⟩ => Tree.Closed params body

def Closed (own : List Param) : List Stmt → Prop
  | [] => True
  | s :: ss => s.Closed own ∧ Closed (own ++ s.locals) ss

end

end TreeLang.Tree

namespace TreeLang.Lowering

open TreeLang.Tree (Ty Expr Stmt FunctionDecl Param Declared Closed ClosedExprs locals localsOfExprs)
open Typing (Registry Callee)
open Ir (Knowledge)
open Lower

variable {r : Registry} {g : Knowledge} {c c' : Context} {own : List Param} {p : Prop}

/-- The function at hand has slots for no other names, and the property holds. -/
structure Owns (own : List Param) (p : Prop) (c : Context) : Prop where
  declared : ∀ name, c.top.storage? name ≠ none → Declared own name
  holds : p

namespace Owns

/-- Work on the code leaves the slots of the names alone. -/
theorem withBuilder (h : Owns own p c) (hc : c.frames ≠ []) (b : Ir.Builder) :
    Owns own p (c.withBuilder b) := by
  refine ⟨?_, h.holds⟩
  rw [Context.top_withBuilder hc]
  exact h.declared

theorem unmoved (own : List Param) (p : Prop) : Unmoved (Owns own p) := by
  intro c c' hr h
  refine ⟨?_, h.holds⟩
  rw [hr.storage?]
  exact h.declared

theorem and (h : Owns own p c) {q : Prop} (hq : q) : Owns own (p ∧ q) c :=
  ⟨h.declared, h.holds, hq⟩

theorem mono (h : Owns own p c) {q : Prop} (hq : p → q) : Owns own q c :=
  ⟨h.declared, hq h.holds⟩

theorem none (h : Owns own p c) : Owns (own ++ []) p c := by
  rwa [List.append_nil]

theorem join {more more' : List Param} (h : Owns (own ++ more ++ more') p c) :
    Owns (own ++ (more ++ more')) p c := by
  rwa [← List.append_assoc]

theorem both {more more' : List Param} {q q' : Prop}
    (h : Owns (own ++ more ++ more') ((p ∧ q) ∧ q') c) : Owns (own ++ (more ++ more')) (p ∧ q ∧ q') c :=
  h.join.mono and_assoc.mp

theorem storage (h : Owns own p c) {name : String} {s : Storage}
    (hs : c.top.storage? name = some s) : Declared own name :=
  h.declared name (by simp [hs])

theorem declare (h : Owns own p c) {name : String} {ty : Ty}
    (hs : ∀ other, other ≠ name → c'.top.storage? other = c.top.storage? other) :
    Owns (own ++ [⟨name, ty⟩]) p c' := by
  refine ⟨fun other hother => ?_, h.holds⟩
  unfold Declared
  rw [List.map_append, List.mem_append]
  by_cases he : other = name
  · exact .inr (List.mem_singleton.mpr he)
  · rw [hs other he] at hother
    exact .inl (h.declared other hother)

/-- A declared variable is the function's own from there on. -/
theorem declareVar (h : Owns own p c) {name : String} {ty : Ty} {s : Storage}
    (hg : Gives (declareVar name ty) c s c') : Owns (own ++ [⟨name, ty⟩]) p c' := by
  obtain ⟨slot, d, f, rest, ha, hd, rfl, rfl⟩ := gives_declareVar.mp hg
  obtain ⟨f', rest', hf', _, rfl, rfl⟩ := gives_alloca.mp ha
  have hc : c.frames ≠ [] := by simp [hf']
  obtain rfl := Context.top_eq hf'
  obtain rfl := Context.top_eq hd
  refine h.declare fun other he => ?_
  rw [Context.top_withBuilder hc]
  change ((((name, (_ : Storage)) :: c.top.locals).lookup other).or (c.top.params.lookup other)) = _
  rw [List.lookup_cons, beq_eq_false_iff_ne.mpr he]
  rfl

theorem bindParam (h : Owns own p c) {q : Param} {slot : Nat} :
    Owns (own ++ [q]) p (c.bindParam q slot) := by
  refine h.declare fun other he => ?_
  change (c.top.locals.lookup other).or
    (((q.name, (⟨slot, q.ty⟩ : Storage)) :: c.top.params).lookup other) = _
  rw [List.lookup_cons, beq_eq_false_iff_ne.mpr he]
  rfl

end Owns

theorem storeParams_owns {ps : List Param} {index : Nat} (hc : c.frames ≠ []) (h : Owns own p c)
    (hg : Gives (storeParams index ps) c () c') : Owns (own ++ ps) p c' := by
  induction ps generalizing index c own with
  | nil =>
    obtain ⟨_, rfl⟩ := gives_pure.mp hg
    exact h.none
  | cons q ps ih =>
    obtain ⟨_, slot, d, d', ha, hst, hg⟩ := storeParams_cons hg
    obtain ⟨f, rest, hf, _, _, rfl⟩ := gives_alloca.mp ha
    obtain rfl := Context.top_eq hf
    have hd' := Owns.unmoved own p _ d' (tame_append _ _ () d' hst) (h.withBuilder hc _)
    exact (ih (List.cons_ne_nil _ _) hd'.bindParam hg).join

/-- Where its body begins, a function has slots for its parameters only. -/
theorem owns_enterFunction {name : String} {params : List Param} {returns : Ty}
    (h : Gives (enterFunction name params returns) c () c') : Owns params True c' := by
  have hnone : Owns [] True (c.enter (.start name params returns)) :=
    ⟨fun _ hs => absurd rfl hs, trivial⟩
  exact storeParams_owns (List.cons_ne_nil _ _) hnone (gives_enterFunction.mp h)

mutual

/-- Lowering an expression uses no name that the function has not declared before. -/
theorem lowerExpr_closed (r : Registry) : ∀ (e : Expr) {own : List Param} {p : Prop},
    Carries (Owns own p) (Owns (own ++ e.locals) (p ∧ e.Closed own)) (lowerExpr r e)
  | .int _, _, _ => carries_int.mono fun _ ho => (ho.and trivial).none
  | .double _, _, _ => carries_double.mono fun _ ho => (ho.and trivial).none
  | .str _, _, _ => carries_str fun _ ho =>
    have ho' := (ho.and trivial).none
    ⟨ho'.declared, ho'.holds⟩
  | .ident _, _, _ => carries_ident (Owns.unmoved _ _) fun _ _ hslot ho =>
    (ho.and (ho.storage hslot)).none
  | .neg e, _, _ => carries_neg (Owns.unmoved _ _) (lowerExpr_closed r e)
  | .binary _ lhs rhs, _, _ =>
    (carries_binary (Owns.unmoved _ _) (lowerExpr_closed r lhs) (lowerExpr_closed r rhs)).mono
      fun _ => Owns.both
  | .assign target value, own, p => by
    have htarget : ∀ c s, c.top.storage? target = some s → Owns own p c →
        Owns own (p ∧ Declared own target) c :=
      fun _ _ hslot ho => ho.and (ho.storage hslot)
    exact (carries_assign (Owns.unmoved _ _) htarget (lowerExpr_closed r value)).mono
      fun _ ho => ho.mono and_assoc.mp
  | .call _ args, _, _ =>
    carries_call (Owns.unmoved _ _) fun callee => lowerArgs_closed r callee 0 args
  | .block stmts, _, _ => carries_expr_block (lowerStmts_closed r none stmts)

theorem lowerArgs_closed (r : Registry) (callee : Callee) (index : Nat) : ∀ (es : List Expr)
    {own : List Param} {p : Prop}, Carries (Owns own p)
      (Owns (own ++ localsOfExprs es) (p ∧ ClosedExprs own es)) (lowerArgs r callee index es)
  | [], _, _ => carries_args_nil.mono fun _ ho => (ho.and trivial).none
  | e :: es, _, _ =>
    (carries_args_cons (Owns.unmoved _ _) (lowerExpr_closed r e)
      (lowerArgs_closed r callee (index + 1) es)).mono fun _ => Owns.both

theorem lowerEach_closed (r : Registry) : ∀ (es : List Expr) {own : List Param} {p : Prop},
    Carries (Owns own p) (Owns (own ++ localsOfExprs es) (p ∧ ClosedExprs own es)) (lowerEach r es)
  | [], _, _ => carries_each_nil.mono fun _ ho => (ho.and trivial).none
  | e :: es, _, _ =>
    (carries_each_cons (lowerExpr_closed r e) (lowerEach_closed r es)).mono fun _ => Owns.both

theorem lowerStmts_closed (r : Registry) (last : Option Typed) : ∀ (ss : List Stmt)
    {own : List Param} {p : Prop},
    Carries (Owns own p) (Owns (own ++ locals ss) (p ∧ Closed own ss)) (lowerStmts r last ss)
  | [], _, _ => carries_stmts_nil.mono fun _ ho => (ho.and trivial).none
  | s :: ss, _, _ =>
    (carries_stmts_cons (lowerStmtValue_closed r s) fun w => lowerStmts_closed r w ss).mono
      fun _ => Owns.both

/-- A function declared in a statement has names of its own; none of those around it is used there. -/
theorem lowerStmtValue_closed (r : Registry) : ∀ (s : Stmt) {own : List Param} {p : Prop},
    Carries (Owns own p) (Owns (own ++ s.locals) (p ∧ s.Closed own)) (lowerStmtValue r s)
  | .expr e, _, _ => carries_stmt_expr (lowerExpr_closed r e)
  | .var _ _ none, _, _ => carries_var fun _ _ _ _ hd ho => (ho.declareVar hd).and trivial
  | .var _ _ (some init), _, _ =>
    carries_var_init (Owns.unmoved _ _) (lowerExpr_closed r init) fun _ _ _ _ hd ho =>
      (ho.declareVar hd).join
  | .function ⟨name, params, returns, body⟩, own, p => by
    intro c v c' h ho
    obtain ⟨hf, rfl⟩ := lower_function.mp h
    have htop := (Apart.of_gives hf).top
    obtain ⟨v, d, d', _, _, _, _, henter, hlower, _⟩ := gives_lowerFunction.mp hf
    -- the body owns what its own frame declares
    have hbody := lowerStmts_closed r none body d v d' hlower (owns_enterFunction henter)
    have ho' := (ho.and hbody.holds.2).none
    exact ⟨htop ▸ ho'.declared, ho'.holds⟩
  | .ret none, _, _ => (carries_ret_none (Owns.unmoved _ _)).mono fun _ ho => (ho.and trivial).none
  | .ret (some e), _, _ => carries_ret (Owns.unmoved _ _) (lowerExpr_closed r e)
  | .ite cond thenBlock none, _, _ =>
    (carries_ite (Owns.unmoved _ _) (Owns.unmoved _ _) (lowerExpr_closed r cond)
      (lowerStmts_closed r none thenBlock)).mono fun _ => Owns.both
  | .ite cond thenBlock (some elseBlock), own, _ =>
    (carries_ite_else (Owns.unmoved _ _) (Owns.unmoved _ _) (Owns.unmoved _ _)
      (lowerExpr_closed r cond) (lowerStmts_closed r none thenBlock)
      (lowerStmts_closed r none elseBlock)).mono fun _ ho => by
        simp only [List.append_assoc own] at ho
        exact ho.mono fun ⟨⟨⟨hp, hc⟩, ht⟩, he⟩ => ⟨hp, hc, ht, he⟩
  | .loop init cond post body, own, _ =>
    (carries_loop (Owns.unmoved _ _) (Owns.unmoved _ _) (Owns.unmoved _ _) (lowerEach_closed r init)
      (lowerExpr_closed r cond) (lowerStmts_closed r none body) (lowerEach_closed r post)).mono
      fun _ ho => by
        simp only [List.append_assoc own] at ho
        exact ho.mono fun ⟨⟨⟨⟨hp, hi⟩, hc⟩, hb⟩, hpost⟩ => ⟨hp, hi, hc, hb, hpost⟩

end

end TreeLang.Lowering
