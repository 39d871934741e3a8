import TreeLang.Proofs.Lowering.Code
import TreeLang.Proofs.Lowering.Steady

namespace TreeLang.Lowering

open TreeLang.Tree (Ty Expr Stmt FunctionDecl)
open Typing (Registry Callee)
open Lower

variable {r : Registry} {c c' : Context} {P Q R S T : Context → Prop}

def Unmoved (P : Context → Prop) : Prop := ∀ c c', Rebuilt c c' → P c → P c'

def Carries {ε α : Type} (P Q : Context → Prop) (m : Lower ε α) : Prop :=
  ∀ c a c', Gives m c a c' → P c → Q c'

/-- A robust property need only be kept where there is a function at hand. -/
theorem Unmoved.robust (h : Unmoved P) : Robust P := fun c c' _ => h c c'

section

variable {ε α : Type} {m : Lower ε α}

theorem Carries.takes (h : Carries P Q m) : Takes r P Q m := fun _ c a c' _ => h c a c'

theorem Carries.mono (h : Carries P Q m) (hQ : ∀ c, Q c → R c) : Carries P R m :=
  fun c a c' hm hp => hQ c' (h c a c' hm hp)

end

theorem Rebuilt.scopes (h : Rebuilt c c') : c'.scopes = c.scopes := by
  rcases h with rfl | ⟨b, _, rfl⟩ <;> rfl

/-- The frame at hand is the same but for its code. -/
theorem Rebuilt.top (h : Rebuilt c c') : ∃ b, c'.top = { c.top with builder := b } := by
  rcases h with rfl | ⟨b, _, rfl⟩
  · exact ⟨c'.top.builder, rfl⟩
  · cases hf : c.frames with
    | nil => exact ⟨c.top.builder, by simp [Context.top, Context.withBuilder, hf]⟩
    | cons f rest => exact ⟨b, Context.top_withBuilder (by simp [hf]) b⟩

theorem Rebuilt.storage? (h : Rebuilt c c') : c'.top.storage? = c.top.storage? := by
  obtain ⟨b, hb⟩ := h.top
  rw [hb]
  rfl

theorem Rebuilt.returns (h : Rebuilt c c') : c'.top.returns = c.top.returns := by
  obtain ⟨b, hb⟩ := h.top
  rw [hb]

theorem Apart.top (h : Apart c c') : c'.top = c.top := by
  rw [Context.top, h.frames, Context.top]

/-- A function that was lowered left the frames and the scopes as they were. -/
theorem Apart.of_gives {decl : FunctionDecl} (h : Gives (lowerFunction r decl) c () c') :
    Apart c c' := by
  have hapart := lowerFunction_apart r decl c
  rw [h] at hapart
  exact hapart

section

variable {ss body : List Stmt} {cond : Expr} {post : List Expr} {condition : Ir.Operand}
  {test : Lower Cause Ir.Operand} {thenPart elsePart part : Lower Cause Unit}

theorem carries_nothing (P : Context → Prop) (r : Registry) : Carries P P (lowerBranch r none) := by
  intro c u c' h hp
  rw [lowerBranch_none.mp h]
  exact hp

/-- A branch takes to what its statements take to. -/
theorem carries_block (h : Carries P Q (lowerStmts r none ss)) :
    Carries P Q (lowerBranch r (some ss)) := by
  intro c u c' hb hp
  obtain ⟨v, hb⟩ := lowerBranch_some.mp hb
  exact h c v c' hb hp

/-- Testing a condition is work on the code alone. -/
theorem carries_test (hQ : Unmoved Q) (h : Carries P Q (lowerExpr r cond)) :
    Carries P Q (lowerTest r cond) := by
  intro c o c' ht hp
  obtain ⟨t, d, he, ht⟩ := gives_lowerTest.mp ht
  exact hQ d c' (tame_test _ t d o c' ht) (h c (some t) d he hp)

theorem carries_round (hbody : Carries P Q (lowerStmts r none body))
    (hpost : Carries Q R (lowerEach r post)) : Carries P R (lowerRound r body post) := by
  intro c u c' h hp
  obtain ⟨v, d, hb, he⟩ := gives_lowerRound.mp h
  exact hpost d () c' he (hbody c v d hb hp)

/-- Of the two parts of a conditional, the second starts from what the first one takes to. -/
theorem carries_conditional (hP : Unmoved P) (hQ : Unmoved Q) (hR : Unmoved R)
    (hthen : Carries P Q thenPart) (helse : Carries Q R elsePart) :
    Carries P R (conditional condition thenPart elsePart) := by
  intro c u c' h hp
  obtain ⟨thenId, elseId, mergeId, c₁, c₂, c₃, c₄, c₅, c₆, c₇, c₈, c₉, c₁₀, h₁, h₂, h₃, h₄, h₅, h₆,
    h₇, h₈, h₉, h₁₀, h₁₁⟩ := gives_conditional h
  have before : Rebuilt c c₅ :=
    ((((tame_createBlock _ _ _ _ h₁).trans (tame_createBlock _ _ _ _ h₂)).trans
      (tame_createBlock _ _ _ _ h₃)).trans (tame_terminate _ _ _ _ h₄)).trans
      (tame_switchTo _ _ _ _ h₅)
  have between : Rebuilt c₆ c₈ := (tame_fallThrough _ _ _ _ h₇).trans (tame_switchTo _ _ _ _ h₈)
  have behind : Rebuilt c₉ c' := (tame_fallThrough _ _ _ _ h₁₀).trans (tame_switchTo _ _ _ _ h₁₁)
  have hq := hthen c₅ () c₆ h₆ (hP c c₅ before hp)
  exact hR c₉ c' behind (helse c₈ () c₉ h₉ (hQ c₆ c₈ between hq))

/-- The rounds of a loop start from what its condition takes to; in the text of the code they follow it
once. -/
theorem carries_repeated (hP : Unmoved P) (hQ : Unmoved Q) (hR : Unmoved R)
    (hcond : Carries P Q test) (hbody : Carries Q R part) : Carries P R (repeated test part) := by
  intro c u c' h hp
  obtain ⟨condId, bodyId, exitId, o, c₁, c₂, c₃, c₄, c₅, c₆, c₇, c₈, c₉, c₁₀, h₁, h₂, h₃, h₄, h₅, h₆,
    h₇, h₈, h₉, h₁₀, h₁₁⟩ := gives_repeated h
  have before : Rebuilt c c₅ :=
    ((((tame_createBlock _ _ _ _ h₁).trans (tame_createBlock _ _ _ _ h₂)).trans
      (tame_createBlock _ _ _ _ h₃)).trans (tame_terminate _ _ _ _ h₄)).trans
      (tame_switchTo _ _ _ _ h₅)
  have between : Rebuilt c₆ c₈ := (tame_terminate _ _ _ _ h₇).trans (tame_switchTo _ _ _ _ h₈)
  have behind : Rebuilt c₉ c' := (tame_fallThrough _ _ _ _ h₁₀).trans (tame_switchTo _ _ _ _ h₁₁)
  have hq := hcond c₅ o c₆ h₆ (hP c c₅ before hp)
  exact hR c₉ c' behind (hbody c₈ () c₉ h₉ (hQ c₆ c₈ between hq))

end

section

variable {e lhs rhs value : Expr} {es args : List Expr} {stmts : List Stmt} {name : String}
  {callee : Callee} {index : Nat}

theorem carries_int {n : Int32} : Carries P P (lowerExpr r (.int n)) := by
  intro c v c' h hp
  obtain ⟨_, rfl⟩ := lower_int.mp h
  exact hp

theorem carries_double {x : Double} : Carries P P (lowerExpr r (.double x)) := by
  intro c v c' h hp
  obtain ⟨_, rfl⟩ := lower_double.mp h
  exact hp

theorem carries_str {text : String}
    (hadd : ∀ c, P c →
      Q { c with module := { c.module with strings := c.module.strings ++ [text] } }) :
    Carries P Q (lowerExpr r (.str text)) := by
  intro c v c' h hp
  obtain ⟨_, rfl⟩ := lower_str.mp h
  exact hadd c hp

theorem carries_ident (hQ : Unmoved Q) (hslot : ∀ c s, c.top.storage? name = some s → P c → Q c) :
    Carries P Q (lowerExpr r (.ident name)) := by
  intro c v c' h hp
  obtain ⟨t, ht, rfl⟩ := lower_ident.mp h
  obtain ⟨f, rest, s, _, hc, hs, _, _⟩ := gives_readName.mp ht
  obtain rfl := Context.top_eq hc
  exact hQ c c' (tame_readName name c t c' ht) (hslot c s hs hp)

theorem carries_neg (hQ : Unmoved Q) (he : Carries P Q (lowerExpr r e)) :
    Carries P Q (lowerExpr r (.neg e)) := by
  intro c v c' h hp
  obtain ⟨t, d, u, hg, hn, rfl⟩ := lower_neg.mp h
  exact hQ d c' (tame_negate t d u c' hn) (he c (some t) d hg hp)

/-- An operation takes to what its right operand takes to. -/
theorem carries_binary {op : Tree.BinaryOp} (hR : Unmoved R) (hl : Carries P Q (lowerExpr r lhs))
    (hr : Carries Q R (lowerExpr r rhs)) : Carries P R (lowerExpr r (.binary op lhs rhs)) := by
  intro c v c' h hp
  obtain ⟨t, d, t', d', u, hgl, hgr, hc, rfl⟩ := lower_binary.mp h
  have hq := hl c (some t) d hgl hp
  exact hR d' c' (tame_combine op t t' d' u c' hc) (hr d (some t') d' hgr hq)

/-- The target is looked up before the value is lowered. -/
theorem carries_assign {target : String} (hR : Unmoved R)
    (hslot : ∀ c s, c.top.storage? target = some s → P c → Q c)
    (he : Carries Q R (lowerExpr r value)) : Carries P R (lowerExpr r (.assign target value)) := by
  intro c v c' h hp
  obtain ⟨f, rest, s, t, d, hc, hs, hg, hstore, rfl⟩ := lower_assign.mp h
  obtain rfl := Context.top_eq hc
  have hr := he c (some t) d hg (hslot c s hs hp)
  exact hR d c' (tame_storeInto target s t d () c' hstore) hr

/-- Whatever the callee, a call takes to what its arguments take to. -/
theorem carries_call (hQ : Unmoved Q) (hargs : ∀ callee, Carries P Q (lowerArgs r callee 0 args)) :
    Carries P Q (lowerExpr r (.call name args)) := by
  intro c v c' h hp
  obtain ⟨callee, values, d, _, _, hg, hcall⟩ := lower_call.mp h
  exact hQ d c' (tame_call callee values d v c' hcall) (hargs callee c values d hg hp)

theorem carries_expr_block (h : Carries P Q (lowerStmts r none stmts)) :
    Carries P Q (lowerExpr r (.block stmts)) :=
  fun c v c' hb => h c v c' (lower_block.mp hb)

theorem carries_args_nil : Carries P P (lowerArgs r callee index []) := by
  intro c values c' h hp
  obtain ⟨_, rfl⟩ := lowerArgs_nil.mp h
  exact hp

theorem carries_args_cons (hQ : Unmoved Q) (he : Carries P Q (lowerExpr r e))
    (hes : Carries Q R (lowerArgs r callee (index + 1) es)) :
    Carries P R (lowerArgs r callee index (e :: es)) := by
  intro c values c' h hp
  obtain ⟨t, d, value, d', rest, hg, harg, hges, rfl⟩ := lowerArgs_cons.mp h
  have hq := hQ d d' (tame_argument callee index t d value d' harg) (he c (some t) d hg hp)
  exact hes d' rest c' hges hq

theorem carries_each_nil : Carries P P (lowerEach r []) := by
  intro c u c' h hp
  obtain rfl := lowerEach_nil.mp h
  exact hp

theorem carries_each_cons (he : Carries P Q (lowerExpr r e)) (hes : Carries Q R (lowerEach r es)) :
    Carries P R (lowerEach r (e :: es)) := by
  intro c u c' h hp
  obtain ⟨v, d, hg, hges⟩ := lowerEach_cons.mp h
  exact hes d u c' hges (he c v d hg hp)

end

section

variable {s : Stmt} {ss thenBlock elseBlock body : List Stmt} {cond e : Expr} {init post : List Expr}
  {name : String} {ty : Ty} {last : Option Typed} {decl : FunctionDecl}

theorem carries_stmts_nil : Carries P P (lowerStmts r last []) := by
  intro c v c' h hp
  obtain ⟨_, rfl⟩ := lowerStmts_nil.mp h
  exact hp

/-- The rest of the statements goes on from what the first one takes to. -/
theorem carries_stmts_cons (hhead : Carries P Q (lowerStmtValue r s))
    (htail : ∀ w, Carries Q R (lowerStmts r w ss)) : Carries P R (lowerStmts r last (s :: ss)) := by
  intro c v c' h hp
  obtain ⟨w, d, hg, hgs⟩ := lowerStmts_cons.mp h
  exact htail w d v c' hgs (hhead c w d hg hp)

theorem carries_stmt_expr (h : Carries P Q (lowerExpr r e)) :
    Carries P Q (lowerStmtValue r (.expr e)) :=
  fun c v c' he => h c v c' (lower_expr.mp he)

theorem carries_var (hdeclare : ty ≠ .void → Carries P Q (declareVar name ty)) :
    Carries P Q (lowerStmtValue r (.var name ty none)) := by
  intro c v c' h hp
  obtain ⟨hty, ⟨s, hd⟩, rfl⟩ := lower_var.mp h
  exact hdeclare hty c s c' hd hp

theorem carries_var_init (hR : Unmoved R) (he : Carries P Q (lowerExpr r e))
    (hdeclare : ty ≠ .void → Carries Q R (declareVar name ty)) :
    Carries P R (lowerStmtValue r (.var name ty (some e))) := by
  intro c v c' h hp
  obtain ⟨hty, t, d, s, d', hg, hd, hstore, rfl⟩ := lower_var_init.mp h
  have hr := hdeclare hty d s d' hd (he c (some t) d hg hp)
  exact hR d' c' (tame_storeInto name s t d' () c' hstore) hr

/-- A declaration leaves the function at hand and the names in force as they are. -/
theorem carries_function (hapart : ∀ c c', Apart c c' → P c → Q c') :
    Carries P Q (lowerStmtValue r (.function decl)) := by
  intro c v c' h hp
  obtain ⟨hf, rfl⟩ := lower_function.mp h
  exact hapart c c' (.of_gives hf) hp

theorem carries_ret_none (hP : Unmoved P) : Carries P P (lowerStmtValue r (.ret none)) := by
  intro c v c' h hp
  obtain ⟨t, d, ⟨_, _, rfl⟩ | ⟨_, _, hnone, _⟩, hret, rfl⟩ := lower_ret.mp h
  · exact hP d c' (tame_returnFrom t d () c' hret) hp
  · cases hnone

theorem carries_ret (hQ : Unmoved Q) (he : Carries P Q (lowerExpr r e)) :
    Carries P Q (lowerStmtValue r (.ret (some e))) := by
  intro c v c' h hp
  obtain ⟨t, d, ⟨hsome, _⟩ | ⟨_, u, ⟨rfl⟩, _, _, hg⟩, hret, rfl⟩ := lower_ret.mp h
  · cases hsome
  · exact hQ d c' (tame_returnFrom t d () c' hret) (he c (some u) d hg hp)

theorem carries_ite_of_branch {other : Option (List Stmt)} (hQ : Unmoved Q) (hR : Unmoved R)
    (hS : Unmoved S) (hcond : Carries P Q (lowerExpr r cond))
    (hthen : Carries Q R (lowerStmts r none thenBlock)) (helse : Carries R S (lowerBranch r other)) :
    Carries P S (lowerStmtValue r (.ite cond thenBlock other)) := by
  intro c v c' h hp
  obtain ⟨t, d, o, d', hg, ht, hbranches, rfl⟩ := lower_ite.mp h
  have hq := hQ d d' (tame_test _ t d o d' ht) (hcond c (some t) d hg hp)
  exact carries_conditional hQ hR hS (carries_block hthen) helse d' () c' hbranches hq

theorem carries_ite (hQ : Unmoved Q) (hR : Unmoved R) (hcond : Carries P Q (lowerExpr r cond))
    (hthen : Carries Q R (lowerStmts r none thenBlock)) :
    Carries P R (lowerStmtValue r (.ite cond thenBlock none)) :=
  carries_ite_of_branch hQ hR hR hcond hthen (carries_nothing R r)

/-- Both branches of a conditional are lowered, one after the other. -/
theorem carries_ite_else (hQ : Unmoved Q) (hR : Unmoved R) (hS : Unmoved S)
    (hcond : Carries P Q (lowerExpr r cond)) (hthen : Carries Q R (lowerStmts r none thenBlock))
    (helse : Carries R S (lowerStmts r none elseBlock)) :
    Carries P S (lowerStmtValue r (.ite cond thenBlock (some elseBlock))) :=
  carries_ite_of_branch hQ hR hS hcond hthen (carries_block helse)

/-- The last part of the header is lowered behind the body. -/
theorem carries_loop (hQ : Unmoved Q) (hR : Unmoved R) (hT : Unmoved T)
    (hinit : Carries P Q (lowerEach r init)) (hcond : Carries Q R (lowerExpr r cond))
    (hbody : Carries R S (lowerStmts r none body)) (hpost : Carries S T (lowerEach r post)) :
    Carries P T (lowerStmtValue r (.loop init cond post body)) := by
  intro c v c' h hp
  obtain ⟨d, hg, hloop, rfl⟩ := lower_loop.mp h
  have hq := hinit c () d hg hp
  exact carries_repeated hQ hR hT (carries_test hR hcond) (carries_round hbody hpost) d () c' hloop hq

end

end TreeLang.Lowering
