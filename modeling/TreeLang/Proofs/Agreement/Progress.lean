import TreeLang.Proofs.Agreement.Bodies
import TreeLang.Proofs.Agreement.Types
import TreeLang.Proofs.Lowering.Ends
import TreeLang.Proofs.Typing.Clean

namespace TreeLang

namespace Tree

mutual

/-- Whether a `return` with a value stands in the expression, outside of the functions in it. -/
def Expr.returnsValue : Expr → Bool
  | .int _ | .double _ | .str _ | .ident _ => false
  | .neg operand => operand.returnsValue
  | .binary _ lhs rhs => lhs.returnsValue || rhs.returnsValue
  | .assign _ value => value.returnsValue
  | .call _ args => exprsReturnValue args
  | .block stmts => blockReturnsValue stmts

def exprsReturnValue : List Expr → Bool
  | [] => false
  | e :: es => e.returnsValue || exprsReturnValue es

def Stmt.returnsValue : Stmt → Bool
  | .expr e => e.returnsValue
  | .var _ _ none => false
  | .var _ _ (some init) => init.returnsValue
  | .function _ => false
  | .ret none => false
  | .ret (some _) => true
  | .ite cond thenBlock none => cond.returnsValue || blockReturnsValue thenBlock
  | .ite cond thenBlock (some elseBlock) =>
    cond.returnsValue || blockReturnsValue thenBlock || blockReturnsValue elseBlock
  | .loop init cond post body =>
    exprsReturnValue init || cond.returnsValue || exprsReturnValue post || blockReturnsValue body

def blockReturnsValue : List Stmt → Bool
  | [] => false
  | s :: ss => s.returnsValue || blockReturnsValue ss

end

/-- Where a whole returns no value, neither of its parts does. -/
theorem neither_returns {p : Prop} {a b : Bool} (h : p → (a || b) = false) :
    (p → a = false) ∧ (p → b = false) :=
  ⟨fun hp => (Bool.or_eq_false_iff.mp (h hp)).1, fun hp => (Bool.or_eq_false_iff.mp (h hp)).2⟩

/-- A function without a result does not return a value. -/
def FunctionDecl.Plain (d : FunctionDecl) : Prop :=
  d.returns = .void → blockReturnsValue d.body = false

end Tree

namespace Lowering

open TreeLang.Tree (Ty Expr Stmt FunctionDecl nestedOfExprs nestedFunctions blockReturnsValue
  exprsReturnValue neither_returns)
open Typing (Registry Callee Scopes Checker coercible typeOf checkArgs checkEach typeOfStmts typeOfStmt
  checkFunction declareParams)
open Ir (Knowledge)
open Lower

variable {r : Registry} {returns : Ty} {ds ds' : List FunctionDecl} {g g' : Knowledge}
  {k k' : Checker} {c c' : Context}

/-- The declarations have names of their own, which the module does not have yet. -/
structure Fresh (ds : List FunctionDecl) (m : Ir.Module) : Prop where
  nodup : (ds.map (·.name)).Nodup
  absent : ∀ d ∈ ds, ∀ F ∈ m.functions, F.name ≠ d.name

namespace Fresh

variable {m : Ir.Module}

/-- The functions of a part are functions of the whole. -/
theorem left (h : Fresh (ds ++ ds') m) : Fresh ds m := by
  have hn := h.nodup
  rw [List.map_append] at hn
  exact ⟨(List.nodup_append.mp hn).1, fun d hd => h.absent d (List.mem_append_left _ hd)⟩

theorem perm (h : Fresh ds m) (hp : ds.Perm ds') : Fresh ds' m :=
  ⟨(hp.map _).nodup_iff.mp h.nodup, fun d hd => h.absent d (hp.mem_iff.mpr hd)⟩

/-- Parts of a loop are lowered in another order than they are walked, so the functions are compared up
to their order. -/
theorem comm (h : Fresh (ds ++ ds') m) : Fresh (ds' ++ ds) m :=
  h.perm List.perm_append_comm

/-- What has been lowered took names of its own only. -/
theorem right (h : Fresh (ds ++ ds') c.module) (hl : Lowered r ds g c g' c') :
    Fresh ds' c'.module := by
  refine ⟨h.comm.left.nodup, fun d hd F hF => ?_⟩
  rcases hl.made F hF with hF | ⟨d', hd', hname, _⟩
  · exact h.comm.left.absent d hd F hF
  · rw [hname]
    have hn := h.nodup
    rw [List.map_append, List.nodup_append] at hn
    exact hn.2.2 d'.name (List.mem_map_of_mem hd') d.name (List.mem_map_of_mem hd)

/-- A declaration leaves what it declares to its body, and its name to itself. -/
theorem body {name : String} {params : List Tree.Param} {body : List Stmt}
    (h : Fresh (Stmt.function ⟨name, params, returns, body⟩).nestedFunctions m) :
    Fresh (nestedFunctions body) m ∧ (∀ F ∈ m.functions, F.name ≠ name) ∧
      ∀ d ∈ nestedFunctions body, d.name ≠ name := by
  have hn := h.nodup
  rw [Stmt.nestedFunctions, FunctionDecl.withNested, List.map_cons, List.nodup_cons] at hn
  refine ⟨⟨hn.2, fun d hd => h.absent d (List.mem_cons_of_mem _ hd)⟩,
    h.absent _ List.mem_cons_self, fun d hd he => ?_⟩
  exact hn.1 (List.mem_map.mpr ⟨d, hd, he⟩)

end Fresh

/-- The parameters of every function can hold a value. -/
def Storable (r : Registry) : Prop :=
  ∀ d ∈ r.functions, ∀ p ∈ d.params, p.ty ≠ .void

/-- No function of the library takes a value of the type of nothing. -/
theorem prototype_params : ∀ x ∈ Ir.prototypes, ∀ ty ∈ x.params, Ty.ofIr ty ≠ .void := by
  decide

/-- Whatever a call may name takes no argument of the type of nothing. -/
theorem Storable.callee (h : Storable r) {name : String} {callee : Callee}
    (hc : Callee.resolve r Ir.prototype? name = .ok callee) : ∀ ty ∈ callee.params, ty ≠ .void := by
  unfold Callee.resolve at hc
  intro ty hty
  split at hc
  · rename_i decl hd
    cases hc
    obtain ⟨p, hp, rfl⟩ := List.mem_map.mp hty
    exact h decl (List.mem_of_find?_eq_some hd) p hp
  · split at hc
    · rename_i x hx
      cases hc
      obtain ⟨t, ht, rfl⟩ := List.mem_map.mp hty
      exact prototype_params x (List.mem_of_find?_eq_some hx) t ht
    · cases hc

/-- Both sides stand at the same place of a function, before a part of it that declares `ds`. -/
structure Ready (r : Registry) (returns : Ty) (ds : List FunctionDecl) (g : Knowledge) (k : Checker)
    (c : Context) : Prop where
  sound : Sound r g c
  agrees : Agrees k.scopes c
  returns : c.top.returns = returns
  registered : Registered r ds
  fresh : Fresh ds c.module
  plain : ∀ d ∈ ds, d.Plain
  storable : Storable r

namespace Ready

theorem left (h : Ready r returns (ds ++ ds') g k c) : Ready r returns ds g k c :=
  { h with
    registered := h.registered.left
    fresh := h.fresh.left
    plain := fun d hd => h.plain d (List.mem_append_left _ hd) }

theorem perm (h : Ready r returns ds g k c) (hp : ds.Perm ds') : Ready r returns ds' g k c :=
  { h with
    registered := fun d hd => h.registered d (hp.mem_iff.mpr hd)
    fresh := h.fresh.perm hp
    plain := fun d hd => h.plain d (hp.mem_iff.mpr hd) }

theorem comm (h : Ready r returns (ds ++ ds') g k c) : Ready r returns (ds' ++ ds) g k c :=
  h.perm List.perm_append_comm

/-- Behind a first part the functions of the second are still missing in the module, and what the check
has in force agrees with the lowering. -/
theorem next (h : Ready r returns (ds ++ ds') g k c) (hl : Lowered r ds g c g' c')
    (ha : Agrees k'.scopes c') : Ready r returns ds' g' k' c' where
  sound := hl.sound h.sound
  agrees := ha
  returns := hl.returns.trans h.returns
  registered := h.registered.right
  fresh := h.fresh.right hl
  plain d hd := h.plain d (List.mem_append_right _ hd)
  storable := h.storable

theorem rebuilt (h : Ready r returns ds g k c) (hr : Rebuilt c c') (hs : Sound r g' c') :
    Ready r returns ds g' k c' :=
  { h with
    sound := hs
    agrees := Agrees.unmoved _ _ _ hr h.agrees
    returns := hr.returns.trans h.returns
    fresh := hr.module ▸ h.fresh }

/-- Behind one part of a conditional or a loop, where the other one begins. -/
theorem preceded {α : Type} {m : Lower Cause α} (h : Ready r returns (ds ++ ds') g k c)
    (hp : Preceded r ds m c c' g')
    (ha : ∀ g₁ c₁ a c₂, Sound r g₁ c₁ → Gives m c₁ a c₂ → Agrees k.scopes c₁ → Agrees k'.scopes c₂) :
    Ready r returns ds' g' k' c' := by
  obtain ⟨⟨g₁, c₁, a, c₂, hr₁, hs₁, hm, hl, hr₂⟩, hs⟩ := hp
  have h₁ := h.rebuilt hr₁ hs₁
  exact (h₁.next hl (ha g₁ c₁ a c₂ hs₁ hm h₁.agrees)).rebuilt hr₂ hs

end Ready

section

variable {e : Expr} {ty : Ty} {role : String} {cause : Cause}

/-- An expression of another type than `void` has a value. -/
theorem fails_value (h : Ready r returns e.nestedFunctions g k c) (hk : Gives (typeOf r e) k ty k')
    (hty : ty ≠ .void) (hf : Fails (needed role e (lowerExpr r e)) c cause c') :
    Fails (lowerExpr r e) c cause c' := by
  rcases fails_needed hf with hf | hnone
  · exact hf
  · exact absurd (lowerExpr_yields h.sound h.agrees hk hnone) hty

/-- What is known of a value where it has been lowered. -/
theorem gives_value (h : Ready r returns e.nestedFunctions g k c) (hk : Gives (typeOf r e) k ty k')
    {t : Typed} (hg : Gives (lowerExpr r e) c (some t) c') :
    ∃ g', Lowered r e.nestedFunctions g c g' c' ∧ Agrees k'.scopes c' ∧ t.ty = ty ∧
      t.Fits r g' c' := by
  have ha := lowerExpr_inStep .agrees r e hk c (some t) c' hg h.agrees
  have hy := lowerExpr_yields h.sound h.agrees hk hg
  obtain ⟨g', hl, hfit⟩ := lowerExpr_sound r e h.registered h.sound hg
  exact ⟨g', hl, ha, hy, hfit t rfl⟩

end

theorem isNumeric_ne_void {ty : Ty} (h : ty.isNumeric = true) : ty ≠ .void := by
  intro he
  rw [he] at h
  cases h

/-- An argument that the check accepts has a value, which fits its parameter. -/
theorem argument_type {callee : Callee} {index : Nat} {found : Ty}
    (hparams : ∀ ty ∈ callee.params, ty ≠ .void)
    (h : Typing.requireArgument callee index found = .ok ()) : found ≠ .void ∧
      ∀ expected, callee.params[index]? = some expected → coercible found expected = true := by
  unfold Typing.requireArgument at h
  split at h
  · rename_i expected hp
    split at h
    · rename_i hco
      refine ⟨fun hv => ?_, fun expected' hp' => ?_⟩
      · exact hparams expected (List.mem_of_getElem? hp) ((Typing.coercible_void hco).mp hv)
      · cases hp.symm.trans hp'
        exact hco
    · cases h
  · rename_i hp
    split at h
    · cases h
    · rename_i hne
      refine ⟨hne, fun expected hp' => ?_⟩
      cases hp.symm.trans hp'

/-- A branch that passes the check goes wrong for want of a slot only. -/
theorem moves_branch {block : List Stmt} {ty : Ty} (hreg : Registered r (nestedFunctions block))
    (hk : Gives (typeOfStmts r .void block) k ty k') :
    Moves r (nestedFunctions block) (Agrees k.scopes) (Agrees k'.scopes)
      (lowerBranch r (some block)) :=
  moves_block hreg (lowerStmts_inStep .agrees r none block hk).takes

/-- The round of a loop is its body and then the expressions behind it. -/
theorem moves_round {body : List Stmt} {post : List Expr} {ty : Ty} {k₁ : Checker}
    (hbody : Registered r (nestedFunctions body)) (hpost : Registered r (nestedOfExprs post))
    (hk : Gives (typeOfStmts r .void body) k ty k₁) (hk₁ : Gives (checkEach r post) k₁ () k') :
    Moves r (nestedFunctions body ++ nestedOfExprs post) (Agrees k.scopes) (Agrees k'.scopes)
      (lowerRound r body post) :=
  moves_lowerRound hbody hpost (lowerStmts_inStep .agrees r none body hk).takes
    (lowerEach_inStep .agrees r post hk₁).takes

theorem moves_test {cond : Expr} {ty : Ty} (hreg : Registered r cond.nestedFunctions)
    (hk : Gives (typeOf r cond) k ty k') :
    MovesTest r cond.nestedFunctions (Agrees k.scopes) (Agrees k'.scopes) (lowerTest r cond) :=
  moves_lowerTest (Agrees.unmoved _).robust hreg (lowerExpr_inStep .agrees r cond hk).takes

/-- The second branch begins with the names that the first has put in force, on both sides. Either of
them fails for want of a slot only. -/
theorem conditional_progress {condition : Ir.Operand} {thenPart elsePart : Lower Cause Unit}
    {k₁ : Checker} {cause : Cause} (hr : Ready r returns (ds ++ ds') g k c)
    (hcond : Holds r g c condition .bool)
    (hthen : Moves r ds (Agrees k.scopes) (Agrees k₁.scopes) thenPart)
    (helse : Moves r ds' (Agrees k₁.scopes) (Agrees k'.scopes) elsePart)
    (pthen : ∀ {g c c' cause}, Ready r returns ds g k c → Fails thenPart c cause c' → cause.Unstored)
    (pelse : ∀ {g c c' cause}, Ready r returns ds' g k₁ c → Fails elsePart c cause c' →
      cause.Unstored)
    (h : Fails (conditional condition thenPart elsePart) c cause c') : cause.Unstored := by
  rcases fails_conditional hr.sound hcond (fun g c c' hs h => (hthen g c c' hs h).1)
    (fun g c c' hs h => (helse g c c' hs h).1) h with ⟨g₁, c₁, hb, hs₁, d, hf⟩ | ⟨g₂, c₂, hp, d, hf⟩
  · exact pthen (hr.left.rebuilt hb hs₁) hf
  · exact pelse (hr.preceded hp fun g c _ c' hs hg ha => (hthen g c c' hs hg).2 ha) hf

theorem repeated_progress {condition : Lower Cause Ir.Operand} {body : Lower Cause Unit}
    {k₁ : Checker} {cause : Cause} (hr : Ready r returns (ds ++ ds') g k c)
    (hcond : MovesTest r ds (Agrees k.scopes) (Agrees k₁.scopes) condition)
    (hbody : Moves r ds' (Agrees k₁.scopes) (Agrees k'.scopes) body)
    (pcond : ∀ {g c c' cause}, Ready r returns ds g k c → Fails condition c cause c' → cause.Unstored)
    (pbody : ∀ {g c c' cause}, Ready r returns ds' g k₁ c → Fails body c cause c' → cause.Unstored)
    (h : Fails (repeated condition body) c cause c') : cause.Unstored := by
  rcases fails_repeated hr.sound (fun g c o c' hs h => (hcond g c o c' hs h).1)
    (fun g c c' hs h => (hbody g c c' hs h).1) h with ⟨g₁, c₁, hb, hs₁, d, hf⟩ | ⟨g₂, c₂, hp, d, hf⟩
  · exact pcond (hr.left.rebuilt hb hs₁) hf
  · exact pbody (hr.preceded hp fun g c o c' hs hg ha => (hcond g c o c' hs hg).2 ha) hf

/-- What the check asks of the end of a function. -/
theorem closed_value {decl : FunctionDecl} {found : Ty} {v : Option Typed}
    (hreq : Typing.requireResult decl found = .ok ()) (hret : c.top.returns = decl.returns)
    (hne : decl.returns ≠ .void) (hy : Yields v found) (hopen : Unclosed c (.value v)) :
    Tree.returnsAtEnd decl.body = true := by
  unfold Typing.requireResult at hreq
  split at hreq
  · rename_i hcase
    rcases hcase with hvoid | hend | hco
    · exact absurd hvoid hne
    · exact hend
    · cases v with
      | none =>
        have hfound : found = .void := hy
        exact absurd ((Typing.coercible_void hco).mp hfound) hne
      | some t =>
        have hty : t.ty = found := hy
        have hno : coercible t.ty c.top.returns = false := hopen
        rw [hty, hret, hco] at hno
        cases hno
  · cases hreq

/-- A function is lowered if its body is, and if its end has a value of its type or is not reached. -/
theorem define_progress {name node : String} {params : List Tree.Param} {body : List Stmt}
    (ending : Option Typed → Ending) {decl : FunctionDecl} {k₁ : Checker} {found : Ty} {d : Diagnostic}
    (ho : Orderly r c.module) (ha : Agrees k.scopes (c.enter (.start name params returns)))
    (hk : Gives (declareParams decl params) k () k₁)
    (hreg : Registered r (nestedFunctions body)) (hfresh : Fresh (nestedFunctions body) c.module)
    (hplain : ∀ d ∈ nestedFunctions body, d.Plain) (hstorable : Storable r)
    (hnew : ∀ F ∈ c.module.functions, F.name ≠ name)
    (hname : ∀ d ∈ nestedFunctions body, d.name ≠ name)
    (hbody : Gives (typeOfStmts r .void body) k₁ found k')
    (hfits : ∀ g c v, (∀ t ∈ v, t.Fits r g c) → (ending v).Fits r g c)
    (hend : ∀ c v, c.top.returns = returns → returns ≠ .void → Yields v found →
      Unclosed c (ending v) → Tree.returnsAtEnd body = true)
    (ih : ∀ {g c c' d}, Ready r returns (nestedFunctions body) g k₁ c →
      Fails (lowerStmts r none body) c d c' → d.Unstored)
    (h : Fails (define name node params returns (do return ending (← lowerStmts r none body))) c d c') :
    d.Unstored := by
  have hs₀ := sound_enter (r := r) ho name params returns
  have henters : Succeeds (enterFunction name params returns) c := by
    obtain ⟨u, c₁, h₁⟩ :=
      succeeds_storeParams 0 hs₀.frames hs₀.isOpen (Typing.declareParams_ne_void hk)
    exact ⟨u, c₁, gives_enterFunction.mpr h₁⟩
  rcases fails_define h with ⟨e, c₁, hf, _⟩ | ⟨c₁, henter, hrest⟩
  · exact (henters.not_fails hf).elim
  have l₁ := sound_enterFunction ho henter
  have hs₁ := l₁.sound hs₀
  have ha₁ := agrees_storeParams hs₀.frames rfl ha hk (gives_enterFunction.mp henter)
  have hfresh₀ : Fresh ([] ++ nestedFunctions body) (c.enter (.start name params returns)).module :=
    hfresh
  have hready : Ready r returns (nestedFunctions body) .nothing k₁ c₁ :=
    ⟨hs₁, ha₁, l₁.returns, hreg, hfresh₀.right l₁, hplain, hstorable⟩
  rcases hrest with ⟨c₂, hf⟩ | ⟨e, c₂, hgives, hrest⟩
  · rcases fails_bind.mp hf with hf | ⟨_, _, _, hf⟩
    · exact ih hready hf
    · exact absurd hf fails_pure
  obtain ⟨v, _, hlower, hpure⟩ := gives_bind.mp hgives
  obtain ⟨rfl, rfl⟩ := gives_pure.mp hpure
  obtain ⟨g₂, l₂, hfit⟩ := lowerStmts_sound r none body hreg hs₁ (by simp) hlower
  have hy := lowerBody_yields hs₁ ha₁ hbody hlower
  have hs₂ := l₂.sound hs₁
  rcases hrest with ⟨e, c₃, hf, _⟩ | ⟨c₃, hclose, hrest⟩
  · obtain ⟨hne, hopen, id, hid, hreach⟩ := fails_close hs₂ (hfits g₂ c₂ v hfit) hf
    have hret : c₂.top.returns = returns := l₂.returns.trans l₁.returns
    have hatEnd := hend c₂ v hret (hret ▸ hne) hy hopen
    have hstranded := lowerStmts_stranded r body hs₁.ready hatEnd hlower
    rw [hstranded.not_reachable hs₁.shaped.toNumbered hs₂.shaped.toNumbered hid] at hreach
    cases hreach
  · have w₃ := sound_close hs₀ (l₁.trans l₂).toWorking l₂.isOpen (ending v) (hfits g₂ c₂ v hfit) hclose
    rcases hrest with hnil | hno
    · exact absurd hnil w₃.frames
    · obtain ⟨m, hm⟩ := define_closed w₃ l₂.isOpen hclose hnew hname
      exact absurd hm (hno m)

section Forms

variable {cond : Expr} {init post : List Expr} {thenBlock body : List Stmt}
  {elseBlock : Option (List Stmt)} {found ty : Ty} {k₁ k₂ k₃ : Checker} {cause : Cause}

/-- A conditional fails in its condition or in one of its blocks. -/
theorem ite_progress
    (hr : Ready r returns (cond.nestedFunctions ++ (nestedFunctions thenBlock ++ ds)) g k c)
    (hcond : Gives (typeOf r cond) k found k₁) (hnum : found.isNumeric = true)
    (hthen : Gives (typeOfStmts r .void thenBlock) k₁ ty k₂)
    (helse : Moves r ds (Agrees k₂.scopes) (Agrees k'.scopes) (lowerBranch r elseBlock))
    (pcond : ∀ {c' cause}, Fails (lowerExpr r cond) c cause c' → cause.Unstored)
    (pthen : ∀ {g c c' d}, Ready r returns (nestedFunctions thenBlock) g k₁ c →
      Fails (lowerStmts r none thenBlock) c d c' → d.Unstored)
    (pelse : ∀ {g c c' cause}, Ready r returns ds g k₂ c →
      Fails (lowerBranch r elseBlock) c cause c' → cause.Unstored)
    (h : Fails (lowerStmtValue r (.ite cond thenBlock elseBlock)) c cause c') : cause.Unstored := by
  rcases fails_ite.mp h with hf | ⟨t, d, ht, h⟩
  · exact pcond (fails_value hr.left hcond (isNumeric_ne_void hnum) hf)
  obtain ⟨g₁, l₁, ha₁, rfl, hfit⟩ := gives_value hr.left hcond ht
  have hr₁ := hr.next l₁ ha₁
  rcases h with hf | ⟨o, d', ho, h⟩
  · exact ((succeeds_test hr₁.sound _ hnum).not_fails hf).elim
  obtain ⟨l₂, hholds⟩ := sound_test hr₁.sound hfit ho
  have hr₂ := hr₁.rebuilt (tame_test _ t d o d' ho) (l₂.sound hr₁.sound)
  refine conditional_progress hr₂ hholds (moves_branch hr₁.left.registered hthen) helse
    (fun hr hf => ?_) pelse h
  obtain ⟨d, hstmts, rfl⟩ := fails_lowerBranch.mp hf
  exact pthen hr hstmts

theorem loop_progress
    (hr : Ready r returns (nestedOfExprs init ++ (cond.nestedFunctions ++
      (nestedFunctions body ++ nestedOfExprs post))) g k c)
    (hinit : Gives (checkEach r init) k () k₁) (hcond : Gives (typeOf r cond) k₁ found k₂)
    (hnum : found.isNumeric = true) (hbody : Gives (typeOfStmts r .void body) k₂ ty k₃)
    (hpost : Gives (checkEach r post) k₃ () k')
    (pinit : ∀ {c' cause}, Fails (lowerEach r init) c cause c' → cause.Unstored)
    (pcond : ∀ {g c c' cause}, Ready r returns cond.nestedFunctions g k₁ c →
      Fails (lowerExpr r cond) c cause c' → cause.Unstored)
    (pbody : ∀ {g c c' d}, Ready r returns (nestedFunctions body) g k₂ c →
      Fails (lowerStmts r none body) c d c' → d.Unstored)
    (ppost : ∀ {g c c' cause}, Ready r returns (nestedOfExprs post) g k₃ c →
      Fails (lowerEach r post) c cause c' → cause.Unstored)
    (h : Fails (lowerStmtValue r (.loop init cond post body)) c cause c') : cause.Unstored := by
  rcases fails_loop.mp h with hf | ⟨d, hd, h⟩
  · exact pinit hf
  have ha₁ := lowerEach_inStep .agrees r init hinit c () d hd hr.agrees
  obtain ⟨g₁, l₁⟩ := lowerEach_sound r init hr.left.registered hr.sound hd
  have hr₁ := hr.next l₁ ha₁
  have hround := hr₁.comm.left
  refine repeated_progress hr₁ (moves_test hr₁.left.registered hcond)
    (moves_round hround.left.registered hround.comm.left.registered hbody hpost)
    (fun hr hf => ?_) (fun hr hf => ?_) h
  · rcases fails_lowerTest.mp hf with hf | ⟨t, d, ht, hf⟩
    · exact pcond hr (fails_value hr hcond (isNumeric_ne_void hnum) hf)
    · obtain ⟨g₂, l₂, _, rfl, _⟩ := gives_value hr hcond ht
      exact ((succeeds_test (l₂.sound hr.sound) _ hnum).not_fails hf).elim
  · rcases fails_lowerRound.mp hf with hf | ⟨v, d, hb, hf⟩
    · obtain ⟨d, hstmts, rfl⟩ := fails_lowerBranch.mp hf
      exact pbody hr.left hstmts
    · obtain ⟨⟨g₂, l₂⟩, ha₂⟩ := moves_branch hr.left.registered hbody _ _ d hr.sound
        (lowerBranch_some.mpr ⟨v, hb⟩)
      exact ppost (hr.next l₂ (ha₂ hr.agrees)) hf

/-- A returned value has the type of the function, and is itself lowered if it can be. -/
theorem ret_progress {value : Expr} (hr : Ready r returns value.nestedFunctions g k c)
    (hne : returns ≠ .void) (hvalue : Gives (typeOf r value) k found k')
    (hco : coercible found returns = true)
    (pvalue : ∀ {c' cause}, Fails (lowerExpr r value) c cause c' → cause.Unstored)
    (h : Fails (lowerStmtValue r (.ret (some value))) c cause c') : cause.Unstored := by
  have hfound : found ≠ .void := fun hv => hne ((Typing.coercible_void hco).mp hv)
  rcases fails_ret.mp h with hf | ⟨_, hf | ⟨t, d, ht, hf⟩⟩
  · exact ((succeeds_frame hr.sound.frames).not_fails hf).elim
  · exact pvalue (fails_value hr hvalue hfound hf)
  · obtain ⟨g₁, l₁, _, rfl, hfit⟩ := gives_value hr hvalue ht
    have hreturns : d.top.returns = returns := l₁.returns.trans hr.returns
    exact ((succeeds_returnFrom (l₁.sound hr.sound) (by simpa using hfit)
      (by simpa [hreturns] using ⟨hne, hco⟩) (by simp)).not_fails hf).elim

end Forms

mutual

/-- Progress: where the check of an expression succeeds without a report, its lowering fails for want of
a slot or not at all. Left out are functions without a result that return a value, which the check lets
pass. -/
theorem lowerExpr_progress (r : Registry) : ∀ (e : Expr) {returns : Ty} {g : Knowledge}
    {k k' : Checker} {c c' : Context} {ty : Ty} {cause : Cause},
    Ready r returns e.nestedFunctions g k c → (returns = .void → e.returnsValue = false) →
    Gives (typeOf r e) k ty k' → k'.diagnostics = [] → Fails (lowerExpr r e) c cause c' →
    cause.Unstored
  | .int _, _, _, _, _, _, _, _, _, _, _, _, _, h => by simp [lowerExpr] at h
  | .double _, _, _, _, _, _, _, _, _, _, _, _, _, h => by simp [lowerExpr] at h
  | .str _, _, _, _, _, _, _, _, _, _, _, _, _, h => by simp [lowerExpr] at h
  | .ident name, returns, g, k, k', c, c', ty, cause, hr, _, hk, _, h =>
    fails_readName hr.sound hr.agrees (Typing.check_ident.mp hk).1 (fails_ident.mp h)
  | .neg e, returns, g, k, k', c, c', ty, cause, hr, hown, hk, hclean, h => by
    obtain ⟨hke, hnum⟩ := Typing.check_neg.mp hk
    rcases fails_neg.mp h with hf | ⟨t, d, ht, hf⟩
    · exact lowerExpr_progress r e hr hown hke hclean (fails_value hr hke (isNumeric_ne_void hnum) hf)
    · obtain ⟨g₁, l₁, _, rfl, hfit⟩ := gives_value (e := e) hr hke ht
      exact ((succeeds_negate (l₁.sound hr.sound) hfit hnum).not_fails hf).elim
  | .binary op lhs rhs, returns, g, k, k', c, c', ty, cause, hr, hown, hk, hclean, h => by
    obtain ⟨left, k₁, right, hkl, hkr, hty⟩ := Typing.check_binary.mp hk
    obtain ⟨hnl, hnr, _⟩ := Typing.binaryType_eq_ok.mp hty
    have hclean₁ := ((Typing.typeOf_steady r rhs).of_gives hkr).clean hclean
    obtain ⟨hownl, hownr⟩ := neither_returns hown
    rcases fails_binary.mp h with hf | ⟨t, d, ht, h⟩
    · exact lowerExpr_progress r lhs hr.left hownl hkl hclean₁
        (fails_value hr.left hkl (isNumeric_ne_void hnl) hf)
    obtain ⟨g₁, l₁, ha₁, rfl, hfit⟩ := gives_value hr.left hkl ht
    have hr₁ := hr.next l₁ ha₁
    rcases h with hf | ⟨t', d', ht', hf⟩
    · exact lowerExpr_progress r rhs hr₁ hownr hkr hclean
        (fails_value hr₁ hkr (isNumeric_ne_void hnr) hf)
    obtain ⟨g₂, l₂, _, rfl, hfit'⟩ := gives_value hr₁ hkr ht'
    exact ((succeeds_combine (l₂.sound hr₁.sound) (hfit.mono l₂.toWorking) hfit' hty).not_fails hf).elim
  | .assign target value, returns, g, k, k', c, c', ty, cause, hr, hown, hk, hclean, h => by
    obtain ⟨expected, found, hname, hkv, hco, _⟩ := Typing.check_assign.mp hk
    rcases fails_assign.mp h with hf | ⟨s, hg, h⟩
    · exact fails_storage hr.sound.frames hr.agrees hname hf
    obtain ⟨⟨f, rest, hc, hst⟩, _⟩ := gives_storage.mp hg
    obtain rfl := Context.top_eq hc
    -- a name that has a slot is not `void`
    have he : expected = s.ty := by
      have hslot := hr.agrees.lookup_stored hst
      exact Option.some.inj (hname.symm.trans hslot)
    subst he
    have hne : found ≠ .void := fun hv =>
      (hr.sound.stored target s hst).1 ((Typing.coercible_void hco).mp hv)
    rcases h with hf | ⟨t, d, ht, hf⟩
    · exact lowerExpr_progress r value hr hown hkv hclean (fails_value hr hkv hne hf)
    · obtain ⟨g₁, l₁, _, rfl, hfit⟩ := gives_value (e := value) hr hkv ht
      exact ((succeeds_storeInto (l₁.sound hr.sound) target hfit hco).not_fails hf).elim
  | .call name args, returns, g, k, k', c, c', ty, cause, hr, hown, hk, hclean, h => by
    obtain ⟨callee, hres, hacc, hka, _⟩ := Typing.check_call.mp hk
    have hknown : Callee.resolve r c.module.external? name = .ok callee := by
      rw [resolve_externals hr.sound.orderly, hres]
    have harity : callee.checkArity args.length = .ok () := Typing.checkArity_eq_ok.mpr hacc
    rcases fails_call.mp h with ⟨hno, _⟩ | ⟨callee', hok, h⟩
    · cases hknown.symm.trans hno
    cases hknown.symm.trans hok
    rcases h with ⟨hno, _⟩ | ⟨_, hf | ⟨values, d, hargs, hf⟩⟩
    · cases harity.symm.trans hno
    · exact lowerArgs_progress r callee 0 args (hr.storable.callee hres) hr hown hka hclean hf
    · obtain ⟨g₁, l₁, _⟩ := lowerArgs_sound r callee 0 args hr.registered hr.sound hargs
      exact ((succeeds_call (l₁.sound hr.sound) callee values).not_fails hf).elim
  | .block stmts, returns, g, k, k', c, c', ty, cause, hr, hown, hk, hclean, h => by
    obtain ⟨d, hf, rfl⟩ := fails_block.mp h
    exact lowerStmts_progress r stmts hr hown (Typing.check_block.mp hk) hclean hf

theorem lowerArgs_progress (r : Registry) (callee : Callee) (index : Nat) : ∀ (es : List Expr)
    {returns : Ty} {g : Knowledge} {k k' : Checker} {c c' : Context} {u : Unit} {cause : Cause},
    (∀ ty ∈ callee.params, ty ≠ .void) → Ready r returns (nestedOfExprs es) g k c →
    (returns = .void → exprsReturnValue es = false) → Gives (checkArgs r callee index es) k u k' →
    k'.diagnostics = [] → Fails (lowerArgs r callee index es) c cause c' → cause.Unstored
  | [], _, _, _, _, _, _, _, _, _, _, _, _, _, h => by simp [lowerArgs] at h
  | e :: es, returns, g, k, k', c, c', u, cause, hparams, hr, hown, hk, hclean, h => by
    obtain ⟨found, k₁, hke, hreq, hkes⟩ := Typing.checkArgs_cons.mp hk
    have hclean₁ := ((Typing.checkArgs_steady r callee (index + 1) es).of_gives hkes).clean hclean
    obtain ⟨hne, hco⟩ := argument_type hparams hreq
    obtain ⟨howne, hownes⟩ := neither_returns hown
    rcases fails_lowerArgs.mp h with hf | ⟨t, d, ht, h⟩
    · exact lowerExpr_progress r e hr.left howne hke hclean₁ (fails_value hr.left hke hne hf)
    obtain ⟨g₁, l₁, ha₁, rfl, hfit⟩ := gives_value hr.left hke ht
    have hr₁ := hr.next l₁ ha₁
    rcases h with hf | ⟨value, d', harg, hf⟩
    · exact ((succeeds_argument hr₁.sound hfit hco).not_fails hf).elim
    obtain ⟨l₂, _⟩ := sound_argument hr₁.sound hfit harg
    have hr₂ := hr₁.rebuilt (tame_argument callee index t d value d' harg) (l₂.sound hr₁.sound)
    exact lowerArgs_progress r callee (index + 1) es hparams hr₂ hownes hkes hclean hf

theorem lowerEach_progress (r : Registry) : ∀ (es : List Expr) {returns : Ty} {g : Knowledge}
    {k k' : Checker} {c c' : Context} {u : Unit} {cause : Cause},
    Ready r returns (nestedOfExprs es) g k c → (returns = .void → exprsReturnValue es = false) →
    Gives (checkEach r es) k u k' → k'.diagnostics = [] → Fails (lowerEach r es) c cause c' →
    cause.Unstored
  | [], _, _, _, _, _, _, _, _, _, _, _, _, h => by simp [lowerEach] at h
  | e :: es, returns, g, k, k', c, c', u, cause, hr, hown, hk, hclean, h => by
    obtain ⟨found, k₁, hke, hkes⟩ := Typing.checkEach_cons.mp hk
    have hclean₁ := ((Typing.checkEach_steady r es).of_gives hkes).clean hclean
    obtain ⟨howne, hownes⟩ := neither_returns hown
    rcases fails_lowerEach.mp h with hf | ⟨v, d, he, hf⟩
    · exact lowerExpr_progress r e hr.left howne hke hclean₁ hf
    have ha₁ := lowerExpr_inStep .agrees r e hke c v d he hr.agrees
    obtain ⟨g₁, l₁, _⟩ := lowerExpr_sound r e hr.left.registered hr.sound he
    exact lowerEach_progress r es (hr.next l₁ ha₁) hownes hkes hclean hf

/-- What a statement declares is in force on both sides before the next statement. -/
theorem lowerStmts_progress (r : Registry) : ∀ (ss : List Stmt) {returns : Ty} {g : Knowledge}
    {k k' : Checker} {c c' : Context} {last : Option Typed} {lastTy ty : Ty} {d : Diagnostic},
    Ready r returns (nestedFunctions ss) g k c → (returns = .void → blockReturnsValue ss = false) →
    Gives (typeOfStmts r lastTy ss) k ty k' → k'.diagnostics = [] →
    Fails (lowerStmts r last ss) c d c' → d.Unstored
  | [], _, _, _, _, _, _, _, _, _, _, _, _, _, _, h => by simp [lowerStmts] at h
  | s :: ss, returns, g, k, k', c, c', last, lastTy, ty, d, hr, hown, hk, hclean, h => by
    obtain ⟨found, k₁, hks, hkss⟩ := Typing.typeOfStmts_cons.mp hk
    have hclean₁ := ((Typing.typeOfStmts_steady r found ss).of_gives hkss).clean hclean
    obtain ⟨howns, hownss⟩ := neither_returns hown
    rcases fails_lowerStmts.mp h with ⟨cause, hf, rfl⟩ | ⟨v, c₁, hv, hf⟩
    · exact Diagnostic.unstored_pin
        (lowerStmtValue_progress r s hr.left howns hks hclean₁ hf) _ _
    have ha₁ := lowerStmtValue_inStep .agrees r s hks c v c₁ hv hr.agrees
    obtain ⟨g₁, l₁, _⟩ := lowerStmtValue_sound r s hr.left.registered hr.sound hv
    exact lowerStmts_progress r ss (hr.next l₁ ha₁) hownss hkss hclean hf

theorem lowerStmtValue_progress (r : Registry) : ∀ (s : Stmt) {returns : Ty} {g : Knowledge}
    {k k' : Checker} {c c' : Context} {ty : Ty} {cause : Cause},
    Ready r returns s.nestedFunctions g k c → (returns = .void → s.returnsValue = false) →
    Gives (typeOfStmt r s) k ty k' → k'.diagnostics = [] → Fails (lowerStmtValue r s) c cause c' →
    cause.Unstored
  | .expr e, returns, g, k, k', c, c', ty, cause, hr, hown, hk, hclean, h =>
    lowerExpr_progress r e hr hown (Typing.check_expr.mp hk) hclean (fails_expr.mp h)
  | .var name t none, returns, g, k, k', c, c', ty, cause, hr, _, hk, _, h => by
    obtain ⟨hne, _⟩ := Typing.check_var.mp hk
    rcases fails_var.mp h with ⟨hv, _⟩ | ⟨_, hf⟩
    · exact absurd hv hne
    · exact ((succeeds_declareVar hr.sound.frames name hne).not_fails hf).elim
  | .var name t (some init), returns, g, k, k', c, c', ty, cause, hr, hown, hk, hclean, h => by
    obtain ⟨hne, found, k₁, hki, hco, rfl, _⟩ := Typing.check_var_init.mp hk
    have hfound : found ≠ .void := fun hv => hne ((Typing.coercible_void hco).mp hv)
    rcases fails_var_init.mp h with ⟨hv, _⟩ | ⟨_, hf | ⟨u, d, hu, h⟩⟩
    · exact absurd hv hne
    · exact lowerExpr_progress r init hr hown hki hclean (fails_value hr hki hfound hf)
    obtain ⟨g₁, l₁, _, rfl, hfit⟩ := gives_value (e := init) hr hki hu
    rcases h with hf | ⟨s, d', hd, hf⟩
    · exact ((succeeds_declareVar l₁.frames name hne).not_fails hf).elim
    obtain ⟨l₂, hs, _⟩ := sound_declareVar (l₁.sound hr.sound) hne hd
    exact ((succeeds_storeInto (l₂.sound (l₁.sound hr.sound)) name (hfit.mono l₂.toWorking)
      (hs ▸ hco)).not_fails hf).elim
  | .function ⟨name, params, result, body⟩, returns, g, k, k', c, c', ty, cause, hr, _, hk, hclean,
      h => by
    obtain ⟨k₂, hbody, hclean₂⟩ := Typing.clean_checkFunction (Typing.check_function.mp hk).1 hclean
    obtain ⟨k₁, found, hdeclare, hstmts, hreq⟩ := Typing.gives_checkBody.mp hbody
    obtain ⟨d, hf, rfl⟩ := fails_function.mp h
    obtain ⟨hfresh, hnew, hname⟩ := hr.fresh.body
    rw [lowerFunction] at hf
    refine define_progress .value hr.sound.orderly (hr.agrees.enter name params result) hdeclare
      hr.registered.tail hfresh
      (fun d hd => hr.plain d (List.mem_cons_of_mem _ hd)) hr.storable hnew hname hstmts
      (fun _ _ _ hv => hv) ?_ ?_ hf
    · exact fun c v hret hne hy hopen => closed_value hreq hret hne hy hopen
    · exact fun hr' hf' => lowerStmts_progress r body hr' (hr.plain _ List.mem_cons_self)
        hstmts hclean₂ hf'
  | .ret none, returns, g, k, k', c, c', ty, cause, hr, _, hk, _, h => by
    obtain ⟨found, ⟨_, rfl, rfl⟩ | ⟨_, hsome, _⟩, hco, _⟩ := Typing.check_ret.mp hk
    · have hvoid : c.top.returns = .void :=
        hr.agrees.returns.trans ((Typing.coercible_void hco).mp rfl)
      exact ((succeeds_returnFrom hr.sound (by simp) (by simp) fun _ => hvoid).not_fails
        (fails_ret_none.mp h)).elim
    · cases hsome
  | .ret (some value), returns, g, k, k', c, c', ty, cause, hr, hown, hk, hclean, h => by
    have hne : returns ≠ .void := fun hv => by cases hown hv
    obtain ⟨found, ⟨hsome, _⟩ | ⟨_, ⟨rfl⟩, hkv⟩, hco, _⟩ := Typing.check_ret.mp hk
    · cases hsome
    rw [((Typing.typeOf_steady r value).of_gives hkv).returns, ← hr.agrees.returns, hr.returns] at hco
    exact ret_progress hr hne hkv hco
      (lowerExpr_progress r value hr (fun hv => absurd hv hne) hkv hclean) h
  | .ite cond thenBlock none, returns, g, k, k', c, c', ty, cause, hr, hown, hk, hclean, h => by
    obtain ⟨found, k₁, t₁, k₂, hkc, hnum, hkt, ⟨_, rfl⟩ | ⟨_, _, hnone, _⟩, _⟩ :=
      Typing.check_ite.mp hk
    · have hclean₁ := ((Typing.typeOfStmts_steady r .void thenBlock).of_gives hkt).clean hclean
      obtain ⟨hownc, hownt⟩ := neither_returns hown
      have hr : Ready r returns (cond.nestedFunctions ++ (nestedFunctions thenBlock ++ [])) g k c := by
        rw [List.append_nil]
        exact hr
      exact ite_progress hr hkc hnum hkt (moves_nothing _)
        (lowerExpr_progress r cond hr.left hownc hkc hclean₁)
        (fun hr hf => lowerStmts_progress r thenBlock hr hownt hkt hclean hf)
        (fun _ hf => absurd hf fails_pure) h
    · cases hnone
  | .ite cond thenBlock (some elseBlock), returns, g, k, k', c, c', ty, cause, hr, hown, hk, hclean,
      h => by
    obtain ⟨found, k₁, t₁, k₂, hkc, hnum, hkt, ⟨hnone, _⟩ | ⟨_, t₂, ⟨rfl⟩, hke⟩, _⟩ :=
      Typing.check_ite.mp hk
    · cases hnone
    have hclean₂ := ((Typing.typeOfStmts_steady r .void elseBlock).of_gives hke).clean hclean
    have hclean₁ := ((Typing.typeOfStmts_steady r .void thenBlock).of_gives hkt).clean hclean₂
    obtain ⟨hown', howne⟩ := neither_returns hown
    obtain ⟨hownc, hownt⟩ := neither_returns hown'
    have hr : Ready r returns (cond.nestedFunctions ++
        (nestedFunctions thenBlock ++ nestedFunctions elseBlock)) g k c := by
      rw [← List.append_assoc]
      exact hr
    refine ite_progress hr hkc hnum hkt (moves_branch hr.comm.left.comm.left.registered hke)
      (lowerExpr_progress r cond hr.left hownc hkc hclean₁)
      (fun hr hf => lowerStmts_progress r thenBlock hr hownt hkt hclean₂ hf)
      (fun hr hf => ?_) h
    obtain ⟨d, hstmts, rfl⟩ := fails_lowerBranch.mp hf
    exact lowerStmts_progress r elseBlock hr howne hke hclean hstmts
  | .loop init cond post body, returns, g, k, k', c, c', ty, cause, hr, hown, hk, hclean, h => by
    obtain ⟨k₁, found, k₂, t₁, k₃, hki, hkc, hnum, hkb, hkp, _⟩ := Typing.check_loop.mp hk
    have hclean₃ := ((Typing.checkEach_steady r post).of_gives hkp).clean hclean
    have hclean₂ := ((Typing.typeOfStmts_steady r .void body).of_gives hkb).clean hclean₃
    have hclean₁ := ((Typing.typeOf_steady r cond).of_gives hkc).clean hclean₂
    obtain ⟨hown', hownb⟩ := neither_returns hown
    obtain ⟨hown', hownp⟩ := neither_returns hown'
    obtain ⟨howni, hownc⟩ := neither_returns hown'
    have hr := hr.perm (nestedFunctions_loop init cond post body)
    exact loop_progress hr hki hkc hnum hkb hkp (lowerEach_progress r init hr.left howni hki hclean₁)
      (fun hr hf => lowerExpr_progress r cond hr hownc hkc hclean₂ hf)
      (fun hr hf => lowerStmts_progress r body hr hownb hkb hclean₃ hf)
      (fun hr hf => lowerEach_progress r post hr hownp hkp hclean hf) h

end

end Lowering

end TreeLang
