import TreeLang.Proofs.Position.Closed
import TreeLang.Proofs.Position.Mirrors

namespace TreeLang.Typing

open TreeLang.Tree (Ty Expr Stmt FunctionDecl Param Declared Closed ClosedExprs MovedExpr MovedExprs
  MovedStmt MovedDecl Moved locals)
open Lowering (Alike)

variable {r r' : Registry} {own : List Param} {around around' : List (List Param)} {returns ty : Ty}

theorem typeIn_ne_none {name : String} (h : Declared own name) : typeIn own name ≠ none := by
  unfold typeIn
  rw [ne_eq, Option.map_eq_none_iff, List.find?_eq_none]
  obtain ⟨p, hp, rfl⟩ := List.mem_map.mp h
  intro hall
  exact hall p (List.mem_reverse.mpr hp) (by simp)

/-- The functions around do not decide what a name of the function at hand is. -/
theorem type?_declared {name : String} (h : Declared own name) :
    (⟨own, around', returns⟩ : Env).type? name = (⟨own, around, returns⟩ : Env).type? name := by
  obtain ⟨found, hfound⟩ := Option.ne_none_iff_exists'.mp (typeIn_ne_none h)
  simp [Env.type?, hfound]

theorem named_alike (halike : Alike r r') {name : String} {s : Signature} (h : Named r name s) :
    Named r' name s := by
  have hsame := halike name
  cases h with
  | @declared decl h =>
    rw [h] at hsame
    obtain ⟨d, hd, hbare⟩ := Option.map_eq_some_iff.mp hsame
    obtain ⟨name', params', returns', body'⟩ := d
    obtain ⟨rfl, rfl, rfl, _⟩ := FunctionDecl.mk.inj hbare
    have hnamed : Named r' name _ := .declared hd
    exact hnamed
  | prototype hno h => exact .prototype (halike.get?_eq_none.mpr hno) h

/-- A block with statements behind the first one. -/
theorem blockType_cons {Γ : Env} {s : Stmt} {ss : List Stmt} (hne : ss ≠ []) :
    BlockType r Γ (s :: ss) ty ↔ ∃ t, StmtType r Γ s t ∧ BlockType r (Γ.after s.locals) ss ty := by
  cases ss with
  | nil => exact absurd rfl hne
  | cons s' ss =>
    constructor
    · intro h
      cases h with
      | cons hs hss => exact ⟨_, hs, hss⟩
    · intro h
      obtain ⟨t, hs, hss⟩ := h
      exact .cons hs hss

mutual

/-- A tree that names no variable of the functions around it has the same type wherever it stands. -/
theorem hasType_moved (halike : Alike r r') : ∀ (e : Expr) {e' : Expr} {own : List Param}
    {around around' : List (List Param)} {returns ty : Ty}, MovedExpr e e' → e.Closed own →
    HasType r ⟨own, around, returns⟩ e ty → HasType r' ⟨own, around', returns⟩ e' ty
  | .int n, _, own, around, around', returns, ty, .int _, _, h => by
    cases h
    exact .int n
  | .double x, _, own, around, around', returns, ty, .double _, _, h => by
    cases h
    exact .double x
  | .str text, _, own, around, around', returns, ty, .str _, _, h => by
    cases h
    exact .str text
  | .ident name, _, own, around, around', returns, ty, .ident _, hclosed, h => by
    cases h with
    | ident hty => exact .ident ((type?_declared hclosed).trans hty)
  | .neg e, _, own, around, around', returns, ty, .neg he, hclosed, h => by
    cases h with
    | neg hty hn => exact .neg (hasType_moved halike e he hclosed hty) hn
  | .binary op lhs rhs, _, own, around, around', returns, ty, .binary _ hl hr, hclosed, h => by
    cases h with
    | binary hleft hright hp =>
      refine .binary (hasType_moved halike lhs hl hclosed.1 hleft) ?_ hp
      rw [Tree.locals_movedExpr lhs hl]
      exact hasType_moved halike rhs hr hclosed.2 hright
  | .assign target e, _, own, around, around', returns, ty, .assign _ he, hclosed, h => by
    cases h with
    | assign ht hv ha =>
      exact .assign ((type?_declared hclosed.1).trans ht) (hasType_moved halike e he hclosed.2 hv) ha
  | .call name es, _, own, around, around', returns, ty, .call _ hes, hclosed, h => by
    cases h with
    | call hs ha => exact .call (named_alike halike hs) (suits_moved halike es hes hclosed ha)
  | .block ss, _, own, around, around', returns, ty, .block hss, hclosed, h => by
    cases h with
    | block hb => exact .block (blockType_moved halike ss hss hclosed hb)

theorem suits_moved (halike : Alike r r') : ∀ (es : List Expr) {es' : List Expr} {own : List Param}
    {around around' : List (List Param)} {returns : Ty} {variadic : Bool} {params : List Ty},
    MovedExprs es es' → ClosedExprs own es → Suits r ⟨own, around, returns⟩ variadic params es →
    Suits r' ⟨own, around', returns⟩ variadic params es'
  | [], _, own, around, around', returns, variadic, params, .nil, _, h => by
    cases h
    exact .nil
  | e :: es, _, own, around, around', returns, variadic, params, .cons he hes, hclosed, h => by
    cases h with
    | cons hty ha hrest =>
      refine .cons (hasType_moved halike e he hclosed.1 hty) ha ?_
      rw [Tree.locals_movedExpr e he]
      exact suits_moved halike es hes hclosed.2 hrest
    | more hty hv hrest =>
      refine .more (hasType_moved halike e he hclosed.1 hty) hv ?_
      rw [Tree.locals_movedExpr e he]
      exact suits_moved halike es hes hclosed.2 hrest

theorem each_moved (halike : Alike r r') : ∀ (es : List Expr) {es' : List Expr} {own : List Param}
    {around around' : List (List Param)} {returns : Ty}, MovedExprs es es' → ClosedExprs own es →
    Each r ⟨own, around, returns⟩ es → Each r' ⟨own, around', returns⟩ es'
  | [], _, own, around, around', returns, .nil, _, _ => .nil
  | e :: es, _, own, around, around', returns, .cons he hes, hclosed, h => by
    cases h with
    | cons hty hrest =>
      refine .cons (hasType_moved halike e he hclosed.1 hty) ?_
      rw [Tree.locals_movedExpr e he]
      exact each_moved halike es hes hclosed.2 hrest

theorem stmtType_moved (halike : Alike r r') : ∀ (s : Stmt) {s' : Stmt} {own : List Param}
    {around around' : List (List Param)} {returns ty : Ty}, MovedStmt s s' → s.Closed own →
    StmtType r ⟨own, around, returns⟩ s ty → StmtType r' ⟨own, around', returns⟩ s' ty
  | .expr e, _, own, around, around', returns, ty, .expr he, hclosed, h => by
    cases h with
    | expr hty => exact .expr (hasType_moved halike e he hclosed hty)
  | .var name t none, _, own, around, around', returns, ty, .var _ _, _, h => by
    cases h with
    | var hv => exact .var hv
  | .var name t (some e), _, own, around, around', returns, ty, .init _ _ he, hclosed, h => by
    cases h with
    | init hv hi ha => exact .init hv (hasType_moved halike e he hclosed hi) ha
  | .function d, _, own, around, around', returns, ty, .function hd, hclosed, h => by
    exact functionType_moved halike d hd hclosed h
  | .ret none, _, own, around, around', returns, ty, .ret, _, h => by
    cases h with
    | ret ha => exact .ret ha
  | .ret (some e), _, own, around, around', returns, ty, .retValue he, hclosed, h => by
    cases h with
    | retValue hv ha => exact .retValue (hasType_moved halike e he hclosed hv) ha
  | .ite cond block none, _, own, around, around', returns, ty, .ite hc ht, hclosed, h => by
    cases h with
    | ite hcond hn hthen =>
      apply StmtType.ite (hasType_moved halike cond hc hclosed.1 hcond) hn
      rw [Tree.locals_movedExpr cond hc]
      exact blockType_moved halike block ht hclosed.2 hthen
  | .ite cond block (some other), _, own, around, around', returns, ty, .iteElse hc ht he,
      hclosed, h => by
    obtain ⟨hcc, hct, hce⟩ := hclosed
    cases h with
    | iteElse hcond hn hthen helse =>
      apply StmtType.iteElse (hasType_moved halike cond hc hcc hcond) hn
      · rw [Tree.locals_movedExpr cond hc]
        exact blockType_moved halike block ht hct hthen
      · rw [Tree.locals_movedExpr cond hc, Tree.locals_moved block ht]
        exact blockType_moved halike other he hce helse
  | .loop init cond post body, _, own, around, around', returns, ty, .loop hi hc hp hb,
      hclosed, h => by
    obtain ⟨hci, hcc, hcb, hcp⟩ := hclosed
    cases h with
    | loop hinit hcond hn hbody hpost =>
      have hcond' : HasType r' ⟨own ++ Tree.localsOfExprs init, around', returns⟩ _ _ :=
        hasType_moved halike cond hc hcc hcond
      rw [← Tree.locals_movedExprs init hi] at hcond'
      apply StmtType.loop (each_moved halike init hi hci hinit) hcond' hn
      · rw [Tree.locals_movedExprs init hi, Tree.locals_movedExpr cond hc]
        exact blockType_moved halike body hb hcb hbody
      · rw [Tree.locals_movedExprs init hi, Tree.locals_movedExpr cond hc, Tree.locals_moved body hb]
        exact each_moved halike post hp hcp hpost

theorem functionType_moved (halike : Alike r r') : ∀ (d : FunctionDecl) {d' : FunctionDecl}
    {Γ Γ' : Env} {ty : Ty}, MovedDecl d d' → d.Closed → StmtType r Γ (.function d) ty →
    StmtType r' Γ' (.function d') ty
  | ⟨name, params, returns, body⟩, _, Γ, Γ', ty, .intro _ _ _ hb, hclosed, h => by
    cases h with
    | function hp hbody hend =>
      refine .function hp (blockType_moved halike body hb hclosed hbody) ?_
      rwa [Tree.returnsAtEnd_moved body hb]

/-- The type of a block is that of its last statement, which stays where it is. -/
theorem blockType_moved (halike : Alike r r') : ∀ (ss : List Stmt) {ss' : List Stmt}
    {own : List Param} {around around' : List (List Param)} {returns ty : Ty}, Moved ss ss' →
    Closed own ss → BlockType r ⟨own, around, returns⟩ ss ty →
    BlockType r' ⟨own, around', returns⟩ ss' ty
  | [], _, own, around, around', returns, ty, .nil, _, h => by
    cases h
    exact .nil
  | [s], _, own, around, around', returns, ty, .cons hs .nil, hclosed, h => by
    cases h with
    | last hty => exact .last (stmtType_moved halike s hs hclosed.1 hty)
  | s :: t :: ss, _, own, around, around', returns, ty, .cons hs hss, hclosed, h => by
    obtain ⟨u, hty, hrest⟩ := (blockType_cons (by simp)).mp h
    refine (blockType_cons (hss.ne_nil (by simp))).mpr
      ⟨u, stmtType_moved halike s hs hclosed.1 hty, ?_⟩
    rw [Tree.locals_movedStmt s hs]
    exact blockType_moved halike (t :: ss) hss hclosed.2 hrest
  | s :: .function d :: ss, _, own, around, around', returns, ty, .swap hs hd hne hss,
      hclosed, h => by
    obtain ⟨hcs, hcd, hcss⟩ := hclosed
    obtain ⟨u, hty, hrest⟩ := (blockType_cons (by simp)).mp h
    obtain ⟨u', hdecl, hrest⟩ := (blockType_cons hne).mp hrest
    have hnone : ∀ d : FunctionDecl, (Stmt.function d).locals = [] := fun _ => rfl
    rw [hnone, Env.after_nil] at hrest
    rw [hnone, List.append_nil] at hcss
    refine (blockType_cons (by simp)).mpr ⟨u', functionType_moved halike d hd hcd hdecl, ?_⟩
    rw [hnone, Env.after_nil]
    refine (blockType_cons (hss.ne_nil hne)).mpr ⟨u, stmtType_moved halike s hs hcs hty, ?_⟩
    rw [Tree.locals_movedStmt s hs]
    exact blockType_moved halike ss hss hcss hrest

end

end TreeLang.Typing
