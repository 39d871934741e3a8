import TreeLang.Proofs.Contents

namespace TreeLang.Tree

def FunctionDecl.bare (d : FunctionDecl) : FunctionDecl := { d with body := [] }

mutual

inductive MovedExpr : Expr → Expr → Prop
  | int (n : Int32) : MovedExpr (.int n) (.int n)
  | double (x : Double) : MovedExpr (.double x) (.double x)
  | str (text : String) : MovedExpr (.str text) (.str text)
  | ident (name : String) : MovedExpr (.ident name) (.ident name)
  | neg {e e' : Expr} (he : MovedExpr e e') : MovedExpr (.neg e) (.neg e')
  | binary (op : BinaryOp) {lhs lhs' rhs rhs' : Expr} (hl : MovedExpr lhs lhs')
    (hr : MovedExpr rhs rhs') : MovedExpr (.binary op lhs rhs) (.binary op lhs' rhs')
  | assign (target : String) {e e' : Expr} (he : MovedExpr e e') :
    MovedExpr (.assign target e) (.assign target e')
  | call (name : String) {es es' : List Expr} (hes : MovedExprs es es') :
    MovedExpr (.call name es) (.call name es')
  | block {ss ss' : List Stmt} (hss : Moved ss ss') : MovedExpr (.block ss) (.block ss')

inductive MovedExprs : List Expr → List Expr → Prop
  | nil : MovedExprs [] []
  | cons {e e' : Expr} {es es' : List Expr} (he : MovedExpr e e') (hes : MovedExprs es es') :
    MovedExprs (e :: es) (e' :: es')

inductive MovedStmt : Stmt → Stmt → Prop
  | expr {e e' : Expr} (he : MovedExpr e e') : MovedStmt (.expr e) (.expr e')
  | var (name : String) (ty : Ty) : MovedStmt (.var name ty none) (.var name ty none)
  | init (name : String) (ty : Ty) {e e' : Expr} (he : MovedExpr e e') :
    MovedStmt (.var name ty (some e)) (.var name ty (some e'))
  | function {d d' : FunctionDecl} (hd : MovedDecl d d') : MovedStmt (.function d) (.function d')
  | ret : MovedStmt (.ret none) (.ret none)
  | retValue {e e' : Expr} (he : MovedExpr e e') : MovedStmt (.ret (some e)) (.ret (some e'))
  | ite {cond cond' : Expr} {block block' : List Stmt} (hc : MovedExpr cond cond')
    (ht : Moved block block') : MovedStmt (.ite cond block none) (.ite cond' block' none)
  | iteElse {cond cond' : Expr} {block block' other other' : List Stmt} (hc : MovedExpr cond cond')
    (ht : Moved block block') (he : Moved other other') :
    MovedStmt (.ite cond block (some other)) (.ite cond' block' (some other'))
  | loop {init init' post post' : List Expr} {cond cond' : Expr} {body body' : List Stmt}
    (hi : MovedExprs init init') (hc : MovedExpr cond cond') (hp : MovedExprs post post')
    (hb : Moved body body') : MovedStmt (.loop init cond post body) (.loop init' cond' post' body')

inductive MovedDecl : FunctionDecl → FunctionDecl → Prop
  | intro (name : String) (params : List Param) (returns : Ty) {body body' : List Stmt}
    (hb : Moved body body') : MovedDecl ⟨name, params, returns, body⟩ ⟨name, params, returns, body'⟩

/-- A function declaration and the statement before it may have changed places, in any of the blocks
and any number of times, if neither is the last statement of its block. -/
inductive Moved : List Stmt → List Stmt → Prop
  | nil : Moved [] []
  | cons {s s' : Stmt} {ss ss' : List Stmt} (hs : MovedStmt s s') (hss : Moved ss ss') :
    Moved (s :: ss) (s' :: ss')
  | swap {s s' : Stmt} {d d' : FunctionDecl} {ss ss' : List Stmt} (hs : MovedStmt s s')
    (hd : MovedDecl d d') (hne : ss ≠ []) (hss : Moved ss ss') :
    Moved (s :: .function d :: ss) (.function d' :: s' :: ss')

end

mutual

theorem movedExpr_refl : ∀ e : Expr, MovedExpr e e
  | .int n => .int n
  | .double x => .double x
  | .str text => .str text
  | .ident name => .ident name
  | .neg operand => .neg (movedExpr_refl operand)
  | .binary op lhs rhs => .binary op (movedExpr_refl lhs) (movedExpr_refl rhs)
  | .assign target value => .assign target (movedExpr_refl value)
  | .call name args => .call name (movedExprs_refl args)
  | .block stmts => .block (moved_refl stmts)

theorem movedExprs_refl : ∀ es : List Expr, MovedExprs es es
  | [] => .nil
  | e :: es => .cons (movedExpr_refl e) (movedExprs_refl es)

theorem movedStmt_refl : ∀ s : Stmt, MovedStmt s s
  | .expr e => .expr (movedExpr_refl e)
  | .var name ty none => .var name ty
  | .var name ty (some init) => .init name ty (movedExpr_refl init)
  | .function decl => .function (movedDecl_refl decl)
  | .ret none => .ret
  | .ret (some value) => .retValue (movedExpr_refl value)
  | .ite cond thenBlock none => .ite (movedExpr_refl cond) (moved_refl thenBlock)
  | .ite cond thenBlock (some elseBlock) =>
    .iteElse (movedExpr_refl cond) (moved_refl thenBlock) (moved_refl elseBlock)
  | .loop init cond post body =>
    .loop (movedExprs_refl init) (movedExpr_refl cond) (movedExprs_refl post) (moved_refl body)

theorem movedDecl_refl : ∀ d : FunctionDecl, MovedDecl d d
  | ⟨name, params, returns, body⟩ => .intro name params returns (moved_refl body)

theorem moved_refl : ∀ ss : List Stmt, Moved ss ss
  | [] => .nil
  | s :: ss => .cons (movedStmt_refl s) (moved_refl ss)

end

/-- A declaration moves in front of the statement before it, somewhere in a block. -/
theorem moved_swap (before : List Stmt) (s : Stmt) (d : FunctionDecl) {ss : List Stmt}
    (hne : ss ≠ []) :
    Moved (before ++ s :: .function d :: ss) (before ++ .function d :: s :: ss) := by
  induction before with
  | nil => exact .swap (movedStmt_refl s) (movedDecl_refl d) hne (moved_refl ss)
  | cons t before ih => exact .cons (movedStmt_refl t) ih

theorem Moved.ne_nil {ss ss' : List Stmt} (h : Moved ss ss') (hne : ss ≠ []) : ss' ≠ [] := by
  cases h with
  | nil => exact hne
  | cons | swap => simp

theorem length_movedExprs : ∀ (es : List Expr) {es' : List Expr}, MovedExprs es es' →
    es'.length = es.length
  | [], _, .nil => rfl
  | _ :: es, _, .cons _ hes => congrArg Nat.succ (length_movedExprs es hes)

mutual

theorem locals_movedExpr : ∀ (e : Expr) {e' : Expr}, MovedExpr e e' → e'.locals = e.locals
  | .int _, _, .int _ => rfl
  | .double _, _, .double _ => rfl
  | .str _, _, .str _ => rfl
  | .ident _, _, .ident _ => rfl
  | .neg e, _, .neg he => (locals_movedExpr e he :)
  | .binary _ lhs rhs, _, .binary _ hl hr => by
    rw [Expr.locals, Expr.locals, locals_movedExpr lhs hl, locals_movedExpr rhs hr]
  | .assign _ e, _, .assign _ he => (locals_movedExpr e he :)
  | .call _ es, _, .call _ hes => locals_movedExprs es hes
  | .block ss, _, .block hss => locals_moved ss hss

theorem locals_movedExprs : ∀ (es : List Expr) {es' : List Expr}, MovedExprs es es' →
    localsOfExprs es' = localsOfExprs es
  | [], _, .nil => rfl
  | e :: es, _, .cons he hes => by
    rw [localsOfExprs, localsOfExprs, locals_movedExpr e he, locals_movedExprs es hes]

theorem locals_movedStmt : ∀ (s : Stmt) {s' : Stmt}, MovedStmt s s' → s'.locals = s.locals
  | .expr e, _, .expr he => locals_movedExpr e he
  | .var _ _ none, _, .var _ _ => rfl
  | .var _ _ (some e), _, .init _ _ he => by
    rw [Stmt.locals, Stmt.locals, locals_movedExpr e he]
  | .function _, _, .function _ => rfl
  | .ret none, _, .ret => rfl
  | .ret (some e), _, .retValue he => locals_movedExpr e he
  | .ite cond block none, _, .ite hc ht => by
    rw [Stmt.locals, Stmt.locals, locals_movedExpr cond hc, locals_moved block ht]
  | .ite cond block (some other), _, .iteElse hc ht he => by
    rw [Stmt.locals, Stmt.locals, locals_movedExpr cond hc, locals_moved block ht,
      locals_moved other he]
  | .loop init cond post body, _, .loop hi hc hp hb => by
    rw [Stmt.locals, Stmt.locals, locals_movedExprs init hi, locals_movedExpr cond hc,
      locals_moved body hb, locals_movedExprs post hp]

/-- The variables of a block are the same, in the same order. -/
theorem locals_moved : ∀ (ss : List Stmt) {ss' : List Stmt}, Moved ss ss' → locals ss' = locals ss
  | [], _, .nil => rfl
  | s :: ss, _, .cons hs hss => by
    rw [locals, locals, locals_movedStmt s hs, locals_moved ss hss]
  | s :: .function d :: ss, _, .swap hs _ _ hss => by
    simp only [locals, Stmt.locals, locals_movedStmt s hs, locals_moved ss hss, List.nil_append]

end

theorem returnsAtEnd_cons (s : Stmt) {ss : List Stmt} (hne : ss ≠ []) :
    returnsAtEnd (s :: ss) = returnsAtEnd ss := by
  cases ss with
  | nil => exact absurd rfl hne
  | cons t ss => rfl

mutual

theorem definitelyReturns_movedStmt : ∀ (s : Stmt) {s' : Stmt}, MovedStmt s s' →
    s'.definitelyReturns = s.definitelyReturns
  | .expr _, _, .expr _ => rfl
  | .var _ _ none, _, .var _ _ => rfl
  | .var _ _ (some _), _, .init _ _ _ => rfl
  | .function _, _, .function _ => rfl
  | .ret none, _, .ret => rfl
  | .ret (some _), _, .retValue _ => rfl
  | .ite _ _ none, _, .ite _ _ => rfl
  | .ite _ block (some other), _, .iteElse _ ht he => by
    rw [Stmt.definitelyReturns, Stmt.definitelyReturns, returnsAtEnd_moved block ht,
      returnsAtEnd_moved other he]
  | .loop _ _ _ _, _, .loop _ _ _ _ => rfl

/-- The last statement of a block stays where it is, so the block returns at its end as before. -/
theorem returnsAtEnd_moved : ∀ (ss : List Stmt) {ss' : List Stmt}, Moved ss ss' →
    returnsAtEnd ss' = returnsAtEnd ss
  | [], _, .nil => rfl
  | [s], _, .cons hs .nil => definitelyReturns_movedStmt s hs
  | s :: t :: ss, _, .cons _ hss => by
    rw [returnsAtEnd_cons _ (hss.ne_nil (by simp)), returnsAtEnd_moved (t :: ss) hss]
    rfl
  | s :: .function d :: ss, _, .swap _ _ hne hss => by
    rw [returnsAtEnd_cons _ (by simp), returnsAtEnd_cons _ (hss.ne_nil hne),
      returnsAtEnd_cons _ (by simp), returnsAtEnd_cons _ hne, returnsAtEnd_moved ss hss]

end

mutual

theorem nested_movedExpr : ∀ (e : Expr) {e' : Expr}, MovedExpr e e' →
    (e'.nestedFunctions.map (·.bare)).Perm (e.nestedFunctions.map (·.bare))
  | .int _, _, .int _ => .nil
  | .double _, _, .double _ => .nil
  | .str _, _, .str _ => .nil
  | .ident _, _, .ident _ => .nil
  | .neg e, _, .neg he => (nested_movedExpr e he :)
  | .binary _ lhs rhs, _, .binary _ hl hr => by
    simp only [Expr.nestedFunctions, List.map_append]
    exact (nested_movedExpr lhs hl).append (nested_movedExpr rhs hr)
  | .assign _ e, _, .assign _ he => (nested_movedExpr e he :)
  | .call _ es, _, .call _ hes => nested_movedExprs es hes
  | .block ss, _, .block hss => nested_moved ss hss

theorem nested_movedExprs : ∀ (es : List Expr) {es' : List Expr}, MovedExprs es es' →
    ((nestedOfExprs es').map (·.bare)).Perm ((nestedOfExprs es).map (·.bare))
  | [], _, .nil => .nil
  | e :: es, _, .cons he hes => by
    simp only [nestedOfExprs, List.map_append]
    exact (nested_movedExpr e he).append (nested_movedExprs es hes)

theorem nested_movedStmt : ∀ (s : Stmt) {s' : Stmt}, MovedStmt s s' →
    (s'.nestedFunctions.map (·.bare)).Perm (s.nestedFunctions.map (·.bare))
  | .expr e, _, .expr he => nested_movedExpr e he
  | .var _ _ none, _, .var _ _ => .nil
  | .var _ _ (some e), _, .init _ _ he => nested_movedExpr e he
  | .function d, _, .function hd => nested_movedDecl d hd
  | .ret none, _, .ret => .nil
  | .ret (some e), _, .retValue he => nested_movedExpr e he
  | .ite cond block none, _, .ite hc ht => by
    simp only [Stmt.nestedFunctions, List.map_append]
    exact (nested_movedExpr cond hc).append (nested_moved block ht)
  | .ite cond block (some other), _, .iteElse hc ht he => by
    simp only [Stmt.nestedFunctions, List.map_append]
    exact ((nested_movedExpr cond hc).append (nested_moved block ht)).append (nested_moved other he)
  | .loop init cond post body, _, .loop hi hc hp hb => by
    simp only [Stmt.nestedFunctions, List.map_append]
    exact (((nested_movedExprs init hi).append (nested_movedExpr cond hc)).append
      (nested_movedExprs post hp)).append (nested_moved body hb)

theorem nested_movedDecl : ∀ (d : FunctionDecl) {d' : FunctionDecl}, MovedDecl d d' →
    (d'.withNested.map (·.bare)).Perm (d.withNested.map (·.bare))
  | ⟨_, _, _, body⟩, _, .intro _ _ _ hb => by
    simp only [FunctionDecl.withNested, List.map_cons]
    exact (nested_moved body hb).cons _

/-- The declared functions are the same but for their order and their bodies. -/
theorem nested_moved : ∀ (ss : List Stmt) {ss' : List Stmt}, Moved ss ss' →
    ((nestedFunctions ss').map (·.bare)).Perm ((nestedFunctions ss).map (·.bare))
  | [], _, .nil => .nil
  | s :: ss, _, .cons hs hss => by
    simp only [nestedFunctions, List.map_append]
    exact (nested_movedStmt s hs).append (nested_moved ss hss)
  | s :: .function d :: ss, _, .swap hs hd _ hss => by
    simp only [nestedFunctions, Stmt.nestedFunctions, List.map_append]
    have hrest := (nested_movedStmt s hs).append (nested_moved ss hss)
    exact ((nested_movedDecl d hd).append hrest).trans (List.perm_append_comm_assoc _ _ _)

end

/-- A literal, with the numbers of its string before and after declarations have moved. -/
structure Site where
  text : String
  before : Nat
  after : Nat

/-- The sites are those of literals that are numbered from `n` on before and from `n'` on after. -/
structure Sited (n n' : Nat) (texts texts' : List String) (sites : List Site) : Prop where
  before : (sites.map fun s => (s.text, s.before)).Perm (texts.zipIdx n)
  after : (sites.map fun s => (s.text, s.after)).Perm (texts'.zipIdx n')

namespace Sited

variable {n n' : Nat} {texts texts' more more' : List String} {sites sites' : List Site}

theorem nil : Sited n n' [] [] [] := ⟨.nil, .nil⟩

theorem single (n n' : Nat) (text : String) : Sited n n' [text] [text] [⟨text, n, n'⟩] :=
  ⟨.refl _, .refl _⟩

/-- The sites of two parts, one behind the other. -/
theorem append (h : Sited n n' texts texts' sites)
    (h' : Sited (n + texts.length) (n' + texts'.length) more more' sites') :
    Sited n n' (texts ++ more) (texts' ++ more') (sites ++ sites') := by
  refine ⟨?_, ?_⟩
  · rw [List.map_append, List.zipIdx_append]
    exact h.before.append h'.before
  · rw [List.map_append, List.zipIdx_append]
    exact h.after.append h'.after

theorem swap (h : Sited n (n' + more'.length) texts texts' sites)
    (h' : Sited (n + texts.length) n' more more' sites') :
    Sited n n' (texts ++ more) (more' ++ texts') (sites ++ sites') := by
  refine ⟨?_, ?_⟩
  · rw [List.map_append, List.zipIdx_append]
    exact h.before.append h'.before
  · rw [List.map_append, List.zipIdx_append]
    exact List.perm_append_comm.trans (h'.after.append h.after)

theorem map_before (h : Sited n n' texts texts' sites) :
    (sites.map (·.before)).Perm (List.range' n texts.length) := by
  have hmap := h.before.map (·.2)
  rwa [List.map_map, List.zipIdx_map_snd] at hmap

theorem map_after (h : Sited n n' texts texts' sites) :
    (sites.map (·.after)).Perm (List.range' n' texts'.length) := by
  have hmap := h.after.map (·.2)
  rwa [List.map_map, List.zipIdx_map_snd] at hmap

theorem nodup_before (h : Sited n n' texts texts' sites) : (sites.map (·.before)).Nodup :=
  h.map_before.nodup_iff.mpr List.nodup_range'

end Sited

/-- The numbers of the strings after declarations have moved. -/
def renumbering (sites : List Site) (i : Nat) : Nat :=
  ((sites.find? (·.before == i)).map (·.after)).getD i

/-- A renumbering takes the number before to the number after, as no two sites have one number. -/
theorem renumbering_before {sites : List Site} (h : (sites.map (·.before)).Nodup) {s : Site}
    (hs : s ∈ sites) : renumbering sites s.before = s.after := by
  unfold renumbering
  induction sites with
  | nil => cases hs
  | cons x sites ih =>
    obtain ⟨hx, hsites⟩ := List.nodup_cons.mp h
    rcases List.mem_cons.mp hs with rfl | hm
    · simp
    · have hne : x.before ≠ s.before := fun he => hx (List.mem_map.mpr ⟨s, hm, he.symm⟩)
      rw [List.find?_cons_of_neg (by simpa using hne)]
      exact ih hsites hm

namespace Sited

variable {texts texts' : List String} {sites : List Site} {ρ : Nat → Nat}

/-- Numbers that fit the sites are a permutation. -/
theorem perm (h : Sited 0 0 texts texts' sites) (hρ : ∀ s ∈ sites, ρ s.before = s.after) :
    ((List.range texts.length).map ρ).Perm (List.range texts'.length) := by
  have hbefore := h.map_before.map ρ
  rw [List.map_map, List.map_congr_left (g := (·.after)) hρ, ← List.range_eq_range'] at hbefore
  have hafter := h.map_after
  rw [← List.range_eq_range'] at hafter
  exact hbefore.symm.trans hafter

/-- Under numbers that fit the sites the texts are the same. -/
theorem text (h : Sited 0 0 texts texts' sites) (hρ : ∀ s ∈ sites, ρ s.before = s.after) {i : Nat}
    (hi : i < texts.length) : texts'[ρ i]? = texts[i]? := by
  have hmem : (texts[i], i) ∈ texts.zipIdx := List.mk_mem_zipIdx_iff_getElem?.mpr (by simp [hi])
  rw [← h.before.mem_iff] at hmem
  obtain ⟨s, hs, he⟩ := List.mem_map.mp hmem
  obtain ⟨htext, rfl⟩ := Prod.mk.inj he
  have hafter : (s.text, s.after) ∈ texts'.zipIdx := h.after.mem_iff.mp (List.mem_map_of_mem hs)
  rw [hρ s hs, List.mk_mem_zipIdx_iff_getElem?.mp hafter, htext]
  simp [hi]

end Sited

end TreeLang.Tree
