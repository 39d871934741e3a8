import TreeLang.Proofs.Attribution.Check
import TreeLang.Proofs.Blame
import TreeLang.Proofs.Lowering.Steady

namespace TreeLang.Lowering

open TreeLang.Tree (Ty Expr Stmt FunctionDecl)
open Typing (Registry Callee coercible)
open Lower

mutual

inductive FaultyExpr (r : Registry) : Locus → Context → Expr → Diagnostic → Prop
  | ident {p : Locus} {c c' : Context} {name : String} {cause : Cause}
    (refused : Fails (readName name) c cause c') : FaultyExpr r p c (.ident name) (p.blame cause)
  | operand {p : Locus} {c : Context} {e : Expr} {d : Diagnostic}
    (fault : FaultyValue r p "operand" c e d) : FaultyExpr r p c (.neg e) d
  | neg {p : Locus} {c c₁ c₂ : Context} {e : Expr} {t : Typed} {cause : Cause}
    (passed : Gives (lowerExpr r e) c (some t) c₁) (refused : Fails (negate t) c₁ cause c₂) :
    FaultyExpr r p c (.neg e) (p.blame cause)
  | left {p : Locus} {c : Context} {op : Tree.BinaryOp} {lhs rhs : Expr} {d : Diagnostic}
    (fault : FaultyValue r p "operand" c lhs d) : FaultyExpr r p c (.binary op lhs rhs) d
  | right {p : Locus} {c c₁ : Context} {op : Tree.BinaryOp} {lhs rhs : Expr} {t : Typed}
    {d : Diagnostic} (passed : Gives (lowerExpr r lhs) c (some t) c₁)
    (fault : FaultyValue r p "operand" c₁ rhs d) : FaultyExpr r p c (.binary op lhs rhs) d
  | binary {p : Locus} {c c₁ c₂ c₃ : Context} {op : Tree.BinaryOp} {lhs rhs : Expr} {t t' : Typed}
    {cause : Cause} (lhs_passed : Gives (lowerExpr r lhs) c (some t) c₁)
    (rhs_passed : Gives (lowerExpr r rhs) c₁ (some t') c₂)
    (refused : Fails (combine op t t') c₂ cause c₃) :
    FaultyExpr r p c (.binary op lhs rhs) (p.blame cause)
  | target {p : Locus} {c c' : Context} {target : String} {value : Expr} {cause : Cause}
    (refused : Fails (storage target) c cause c') :
    FaultyExpr r p c (.assign target value) (p.blame cause)
  | value {p : Locus} {c : Context} {target : String} {value : Expr} {s : Storage} {d : Diagnostic}
    (stored : Gives (storage target) c s c) (fault : FaultyValue r p "right-hand side" c value d) :
    FaultyExpr r p c (.assign target value) d
  | assign {p : Locus} {c c₁ c₂ : Context} {target : String} {value : Expr} {s : Storage} {t : Typed}
    {cause : Cause} (stored : Gives (storage target) c s c)
    (passed : Gives (lowerExpr r value) c (some t) c₁)
    (refused : Fails (storeInto target s t) c₁ cause c₂) :
    FaultyExpr r p c (.assign target value) (p.blame cause)
  | callee {p : Locus} {c : Context} {name : String} {args : List Expr} {cause : Cause}
    (refused : Callee.resolve r c.module.external? name = .error cause) :
    FaultyExpr r p c (.call name args) (p.blame cause)
  | arity {p : Locus} {c : Context} {name : String} {args : List Expr} {callee : Callee} {cause : Cause}
    (known : Callee.resolve r c.module.external? name = .ok callee)
    (refused : callee.checkArity args.length = .error cause) :
    FaultyExpr r p c (.call name args) (p.blame cause)
  | args {p : Locus} {c : Context} {name : String} {args : List Expr} {callee : Callee}
    {d : Diagnostic} (known : Callee.resolve r c.module.external? name = .ok callee)
    (arity : callee.checkArity args.length = .ok ()) (fault : FaultyArgs r p callee 0 c args d) :
    FaultyExpr r p c (.call name args) d
  /-- The statements of a block expression are places of their own. -/
  | block {p : Locus} {c : Context} {stmts : List Stmt} {d : Diagnostic}
    (fault : FaultyStmts r p.function c stmts d) : FaultyExpr r p c (.block stmts) d

/-- An expression whose value is needed fails or has none. -/
inductive FaultyValue (r : Registry) : Locus → String → Context → Expr → Diagnostic → Prop
  | fault {p : Locus} {role : String} {c : Context} {e : Expr} {d : Diagnostic}
    (fault : FaultyExpr r p c e d) : FaultyValue r p role c e d
  | noValue {p : Locus} {role : String} {c c' : Context} {e : Expr}
    (passed : Gives (lowerExpr r e) c none c') :
    FaultyValue r p role c e (p.blame (.emission (.noValue role e.source)))

inductive FaultyArgs (r : Registry) : Locus → Callee → Nat → Context → List Expr → Diagnostic → Prop
  | head {p : Locus} {callee : Callee} {index : Nat} {c : Context} {e : Expr} {es : List Expr}
    {d : Diagnostic} (fault : FaultyValue r p "argument" c e d) :
    FaultyArgs r p callee index c (e :: es) d
  | unfit {p : Locus} {callee : Callee} {index : Nat} {c c₁ c₂ : Context} {e : Expr} {es : List Expr}
    {t : Typed} {cause : Cause} (passed : Gives (lowerExpr r e) c (some t) c₁)
    (refused : Fails (argument callee index t) c₁ cause c₂) :
    FaultyArgs r p callee index c (e :: es) (p.blame cause)
  | tail {p : Locus} {callee : Callee} {index : Nat} {c c₁ c₂ : Context} {e : Expr} {es : List Expr}
    {t : Typed} {v : Ir.Operand} {d : Diagnostic} (passed : Gives (lowerExpr r e) c (some t) c₁)
    (fits : Gives (argument callee index t) c₁ v c₂)
    (fault : FaultyArgs r p callee (index + 1) c₂ es d) : FaultyArgs r p callee index c (e :: es) d

inductive FaultyEach (r : Registry) : Locus → Context → List Expr → Diagnostic → Prop
  | head {p : Locus} {c : Context} {e : Expr} {es : List Expr} {d : Diagnostic}
    (fault : FaultyExpr r p c e d) : FaultyEach r p c (e :: es) d
  | tail {p : Locus} {c c' : Context} {e : Expr} {es : List Expr} {v : Option Typed} {d : Diagnostic}
    (passed : Gives (lowerExpr r e) c v c') (fault : FaultyEach r p c' es d) :
    FaultyEach r p c (e :: es) d

inductive FaultyStmts (r : Registry) : String → Context → List Stmt → Diagnostic → Prop
  | head {function : String} {c : Context} {s : Stmt} {ss : List Stmt} {d : Diagnostic}
    (fault : FaultyStmt r ⟨function, s.summary⟩ c s d) : FaultyStmts r function c (s :: ss) d
  | tail {function : String} {c c' : Context} {s : Stmt} {ss : List Stmt} {v : Option Typed}
    {d : Diagnostic} (passed : Gives (lowerStmtValue r s) c v c')
    (fault : FaultyStmts r function c' ss d) : FaultyStmts r function c (s :: ss) d

inductive FaultyStmt (r : Registry) : Locus → Context → Stmt → Diagnostic → Prop
  | expr {p : Locus} {c : Context} {e : Expr} {d : Diagnostic} (fault : FaultyExpr r p c e d) :
    FaultyStmt r p c (.expr e) d
  | binding {p : Locus} {c : Context} {name : String} {ty : Ty} {init : Option Expr}
    (void : ty = .void) : FaultyStmt r p c (.var name ty init) (p.blame (.voidBinding name))
  | init {p : Locus} {c : Context} {name : String} {ty : Ty} {init : Expr} {d : Diagnostic}
    (storable : ty ≠ .void) (fault : FaultyValue r p "initializer" c init d) :
    FaultyStmt r p c (.var name ty (some init)) d
  | unfit {p : Locus} {c c₁ c₂ c₃ : Context} {name : String} {ty : Ty} {init : Expr} {t : Typed}
    {s : Storage} {cause : Cause} (storable : ty ≠ .void)
    (passed : Gives (lowerExpr r init) c (some t) c₁) (declared : Gives (declareVar name ty) c₁ s c₂)
    (refused : Fails (storeInto name s t) c₂ cause c₃) :
    FaultyStmt r p c (.var name ty (some init)) (p.blame cause)
  | function {p : Locus} {c : Context} {decl : FunctionDecl} {d : Diagnostic}
    (fault : FaultyFunction r c decl d) : FaultyStmt r p c (.function decl) d
  | retNone {p : Locus} {c c' : Context} {cause : Cause} (refused : Fails (returnFrom none) c cause c') :
    FaultyStmt r p c (.ret none) (p.blame cause)
  | retValue {p : Locus} {c : Context} {e : Expr} {d : Diagnostic}
    (fault : FaultyValue r p "return value" c e d) : FaultyStmt r p c (.ret (some e)) d
  | ret {p : Locus} {c c₁ c₂ : Context} {e : Expr} {t : Typed} {cause : Cause}
    (passed : Gives (lowerExpr r e) c (some t) c₁) (refused : Fails (returnFrom (some t)) c₁ cause c₂) :
    FaultyStmt r p c (.ret (some e)) (p.blame cause)
  | condition {p : Locus} {c : Context} {cond : Expr} {thenBlock : List Stmt}
    {elseBlock : Option (List Stmt)} {d : Diagnostic}
    (fault : FaultyValue r p "if condition" c cond d) :
    FaultyStmt r p c (.ite cond thenBlock elseBlock) d
  | test {p : Locus} {c c₁ c₂ : Context} {cond : Expr} {thenBlock : List Stmt}
    {elseBlock : Option (List Stmt)} {t : Typed} {cause : Cause}
    (passed : Gives (lowerExpr r cond) c (some t) c₁)
    (refused : Fails (test "if condition" t) c₁ cause c₂) :
    FaultyStmt r p c (.ite cond thenBlock elseBlock) (p.blame cause)
  | thenPart {p : Locus} {c c₁ c₂ c₃ : Context} {cond : Expr} {thenBlock : List Stmt}
    {elseBlock : Option (List Stmt)} {t : Typed} {o : Ir.Operand} {d : Diagnostic}
    (passed : Gives (lowerExpr r cond) c (some t) c₁) (tested : Gives (test "if condition" t) c₁ o c₂)
    (before : Rebuilt c₂ c₃) (fault : FaultyStmts r p.function c₃ thenBlock d) :
    FaultyStmt r p c (.ite cond thenBlock elseBlock) d
  | elsePart {p : Locus} {c c₁ c₂ c₃ c₄ c₅ : Context} {cond : Expr} {thenBlock elseBlock : List Stmt}
    {t : Typed} {o : Ir.Operand} {v : Option Typed} {d : Diagnostic}
    (passed : Gives (lowerExpr r cond) c (some t) c₁) (tested : Gives (test "if condition" t) c₁ o c₂)
    (before : Rebuilt c₂ c₃) (then_passed : Gives (lowerStmts r none thenBlock) c₃ v c₄)
    (between : Rebuilt c₄ c₅) (fault : FaultyStmts r p.function c₅ elseBlock d) :
    FaultyStmt r p c (.ite cond thenBlock (some elseBlock)) d
  | loopInit {p : Locus} {c : Context} {init : List Expr} {cond : Expr} {post : List Expr}
    {body : List Stmt} {d : Diagnostic} (fault : FaultyEach r p c init d) :
    FaultyStmt r p c (.loop init cond post body) d
  | loopCondition {p : Locus} {c c₁ c₂ : Context} {init : List Expr} {cond : Expr} {post : List Expr}
    {body : List Stmt} {d : Diagnostic} (init_passed : Gives (lowerEach r init) c () c₁)
    (before : Rebuilt c₁ c₂) (fault : FaultyValue r p "for condition" c₂ cond d) :
    FaultyStmt r p c (.loop init cond post body) d
  | loopTest {p : Locus} {c c₁ c₂ c₃ c₄ : Context} {init : List Expr} {cond : Expr} {post : List Expr}
    {body : List Stmt} {t : Typed} {cause : Cause} (init_passed : Gives (lowerEach r init) c () c₁)
    (before : Rebuilt c₁ c₂) (passed : Gives (lowerExpr r cond) c₂ (some t) c₃)
    (refused : Fails (test "for condition" t) c₃ cause c₄) :
    FaultyStmt r p c (.loop init cond post body) (p.blame cause)
  | loopBody {p : Locus} {c c₁ c₂ c₃ c₄ : Context} {init : List Expr} {cond : Expr} {post : List Expr}
    {body : List Stmt} {o : Ir.Operand} {d : Diagnostic} (init_passed : Gives (lowerEach r init) c () c₁)
    (before : Rebuilt c₁ c₂) (tested : Gives (lowerTest r cond) c₂ o c₃) (between : Rebuilt c₃ c₄)
    (fault : FaultyStmts r p.function c₄ body d) : FaultyStmt r p c (.loop init cond post body) d
  | loopPost {p : Locus} {c c₁ c₂ c₃ c₄ c₅ : Context} {init : List Expr} {cond : Expr}
    {post : List Expr} {body : List Stmt} {o : Ir.Operand} {v : Option Typed} {d : Diagnostic}
    (init_passed : Gives (lowerEach r init) c () c₁) (before : Rebuilt c₁ c₂)
    (tested : Gives (lowerTest r cond) c₂ o c₃) (between : Rebuilt c₃ c₄)
    (body_passed : Gives (lowerStmts r none body) c₄ v c₅) (fault : FaultyEach r p c₅ post d) :
    FaultyStmt r p c (.loop init cond post body) d

inductive FaultyFunction (r : Registry) : Context → FunctionDecl → Diagnostic → Prop
  | param {c : Context} {decl : FunctionDecl} {before after : List Tree.Param} {param : Tree.Param}
    (params : decl.params = before ++ param :: after) (storable : ∀ q ∈ before, q.ty ≠ .void)
    (void : param.ty = .void) :
    FaultyFunction r c decl (Locus.blame ⟨decl.name, decl.header⟩ (.voidBinding param.name))
  | body {c c₁ : Context} {decl : FunctionDecl} {d : Diagnostic}
    (entered : Gives (enterFunction decl.name decl.params decl.returns) c () c₁)
    (fault : FaultyStmts r decl.name c₁ decl.body d) : FaultyFunction r c decl d
  | ending {c c₁ c₂ c₃ : Context} {decl : FunctionDecl} {v : Option Typed} {cause : Cause}
    (entered : Gives (enterFunction decl.name decl.params decl.returns) c () c₁)
    (passed : Gives (lowerStmts r none decl.body) c₁ v c₂)
    (refused : Fails (close (.value v)) c₂ cause c₃) :
    FaultyFunction r c decl (Locus.blame ⟨decl.name, decl.header⟩ cause)

end

section

variable {α β : Type} {m : Lower Cause α}

/-- Work whose failures have not been pinned to a place yet. -/
def Unpinned (m : Lower Cause α) : Prop := ∀ c e c', Fails m c e c' → e.isLocated = false

/-- Work on values and names fails without naming a place, so its failures can be pinned by the
statement around it. -/
theorem unpinned_pure (a : α) : Unpinned (pure a) := fun _ _ _ h => absurd h fails_pure

theorem unpinned_throw {e : Cause} (h : e.isLocated = false) : Unpinned (throw e : Lower Cause α) := by
  intro c e' c' hf
  rw [(fails_throw.mp hf).1]
  exact h

theorem unpinned_liftExcept {x : Except Cause α} (h : ∀ e, x = .error e → e.isLocated = false) :
    Unpinned (liftExcept x) := fun _ e _ hf => h e (fails_liftExcept.mp hf).1

theorem unpinned_bind {f : α → Lower Cause β} (hm : Unpinned m) (hf : ∀ a, Unpinned (f a)) :
    Unpinned (m >>= f) := by
  intro c e c' h
  rcases fails_bind.mp h with h | ⟨a, d, _, h⟩
  · exact hm c e c' h
  · exact hf a d e c' h

theorem unpinned_frame : Unpinned frame := by
  refine unpinned_bind (fun _ _ _ h => absurd h fails_get) fun c => ?_
  split
  · exact unpinned_throw rfl
  · exact unpinned_pure _

theorem unpinned_build (step : Ir.Builder → Except Ir.Error (α × Ir.Builder)) :
    Unpinned (build step) := by
  refine unpinned_bind unpinned_frame fun f => ?_
  split
  · exact unpinned_bind (fun _ _ _ h => absurd h fails_modify) fun _ => unpinned_pure _
  · exact unpinned_throw rfl

theorem unpinned_emit (step : Ir.Builder → Except Ir.Error Ir.Builder) : Unpinned (emit step) :=
  unpinned_build _

theorem unpinned_materialize (t : Typed) : Unpinned (materialize t) := by
  unfold materialize
  split
  · apply unpinned_build
  · apply unpinned_pure

theorem unpinned_coerce (t : Typed) (target : Ty) : Unpinned (coerce t target) := by
  unfold coerce
  refine unpinned_bind (unpinned_materialize t) fun v => ?_
  split
  · apply unpinned_pure
  · split
    · apply unpinned_build
    · exact unpinned_throw rfl

theorem unpinned_negate (t : Typed) : Unpinned (negate t) := by
  unfold negate
  exact unpinned_bind (unpinned_liftExcept fun _ => Typing.located_negType) fun _ =>
    unpinned_bind (unpinned_materialize t) fun _ =>
      unpinned_bind (unpinned_build _) fun _ => unpinned_pure _

theorem unpinned_combine (op : Tree.BinaryOp) (left right : Typed) :
    Unpinned (combine op left right) := by
  unfold combine
  exact unpinned_bind (unpinned_liftExcept fun _ => Typing.located_binaryType) fun ty =>
    unpinned_bind (unpinned_coerce left ty) fun _ => unpinned_bind (unpinned_coerce right ty) fun _ =>
      unpinned_bind (unpinned_build _) fun _ => unpinned_pure _

theorem unpinned_storage (name : String) : Unpinned (storage name) := by
  unfold storage
  refine unpinned_bind unpinned_frame fun f => ?_
  split
  · apply unpinned_pure
  · refine unpinned_bind (fun _ _ _ h => absurd h fails_get) fun c => ?_
    split
    · exact unpinned_throw rfl
    · exact unpinned_throw rfl

theorem unpinned_readName (name : String) : Unpinned (readName name) := by
  unfold readName
  exact unpinned_bind (unpinned_storage name) fun _ =>
    unpinned_bind (unpinned_build _) fun _ => unpinned_pure _

theorem unpinned_storeInto (name : String) (s : Storage) (t : Typed) :
    Unpinned (storeInto name s t) := by
  unfold storeInto
  split
  · exact unpinned_bind (unpinned_coerce t s.ty) fun _ => unpinned_emit _
  · exact unpinned_throw rfl

theorem unpinned_argument (callee : Callee) (index : Nat) (t : Typed) :
    Unpinned (argument callee index t) := by
  unfold argument
  split
  · split
    · apply unpinned_coerce
    · exact unpinned_throw rfl
  · apply unpinned_materialize

theorem unpinned_test (role : String) (t : Typed) : Unpinned (test role t) := by
  unfold test
  split
  · apply unpinned_pure
  · split
    · apply unpinned_build
    · apply unpinned_build
    · exact unpinned_throw rfl

theorem unpinned_returnFrom (t : Option Typed) : Unpinned (returnFrom t) := by
  unfold returnFrom
  refine unpinned_bind unpinned_frame fun f =>
    unpinned_bind (fun _ _ _ h => absurd h fails_get) fun c => ?_
  have hnext : Unpinned (do switchTo (← createBlock "after.return")) :=
    unpinned_bind (unpinned_build _) fun _ => unpinned_emit _
  cases t with
  | some t =>
    dsimp only
    split
    · exact unpinned_bind (unpinned_coerce t _) fun _ => unpinned_bind (unpinned_emit _) fun _ => hnext
    · exact unpinned_bind (unpinned_throw rfl) fun _ => hnext
  | none =>
    dsimp only
    split
    · exact unpinned_bind (unpinned_emit _) fun _ => hnext
    · exact unpinned_bind (unpinned_throw rfl) fun _ => hnext

theorem unpinned_close (ending : Ending) : Unpinned (close ending) := by
  unfold close
  refine unpinned_bind unpinned_frame fun f => ?_
  have hret : ∀ value : Ir.Operand, Unpinned (emit (·.returnValue (some value))) :=
    fun _ => unpinned_emit _
  split
  · apply unpinned_pure
  · split
    · apply unpinned_pure
    · split
      · apply unpinned_emit
      · dsimp only
        split
        · exact unpinned_bind (unpinned_coerce _ _) hret
        · exact unpinned_bind (unpinned_throw rfl) hret
        · split
          · exact unpinned_bind (unpinned_pure _) hret
          · exact unpinned_bind (unpinned_throw rfl) hret

/-- Work that only the lowering itself is to blame for where it fails. -/
def Internal (m : Lower Cause α) : Prop := ∀ c e c', Fails m c e c' → e.internal = true

/-- What does not look at the program cannot fail through its fault. -/
theorem internal_pure (a : α) : Internal (pure a) := fun _ _ _ h => absurd h fails_pure

theorem internal_throw {e : Cause} (h : e.internal = true) : Internal (throw e : Lower Cause α) := by
  intro c e' c' hf
  rw [(fails_throw.mp hf).1]
  exact h

theorem internal_get : Internal get := fun _ _ _ h => absurd h fails_get

theorem internal_modify (f : Context → Context) : Internal (modify f) :=
  fun _ _ _ h => absurd h fails_modify

theorem internal_bind {f : α → Lower Cause β} (hm : Internal m) (hf : ∀ a, Internal (f a)) :
    Internal (m >>= f) := by
  intro c e c' h
  rcases fails_bind.mp h with h | ⟨a, d, _, h⟩
  · exact hm c e c' h
  · exact hf a d e c' h

theorem internal_frame : Internal frame := by
  refine internal_bind internal_get fun c => ?_
  split
  · exact internal_throw rfl
  · exact internal_pure _

theorem internal_build (step : Ir.Builder → Except Ir.Error (α × Ir.Builder)) :
    Internal (build step) := by
  refine internal_bind internal_frame fun f => ?_
  split
  · exact internal_bind (internal_modify _) fun _ => internal_pure _
  · exact internal_throw rfl

theorem internal_emit (step : Ir.Builder → Except Ir.Error Ir.Builder) : Internal (emit step) :=
  internal_build _

theorem internal_fallThrough (target : Nat) : Internal (fallThrough target) := by
  refine internal_bind internal_frame fun f => ?_
  split
  · exact internal_pure _
  · exact internal_emit _

theorem internal_declareVar (name : String) (ty : Ty) : Internal (declareVar name ty) :=
  internal_bind (internal_build _) fun _ => internal_bind internal_frame fun _ =>
    internal_bind (internal_modify _) fun _ =>
      internal_bind (internal_modify _) fun _ => internal_pure _

theorem internal_call (callee : Callee) (args : List Ir.Operand) : Internal (call callee args) :=
  internal_bind (internal_build _) fun _ => internal_pure _

theorem internal_install : Internal (do install (← finishFunction)) := by
  refine internal_bind (internal_bind internal_get fun c => ?_) fun f =>
    internal_bind internal_get fun c => ?_
  · split
    · exact internal_throw rfl
    · exact internal_bind (internal_modify _) fun _ => internal_pure _
  · split
    · exact fun _ _ _ h => absurd h fails_set
    · exact internal_throw rfl

/-- An end that gives zero asks nothing of the program. -/
theorem internal_close_zero : Internal (close .zero) := by
  unfold close
  refine internal_bind internal_frame fun f => ?_
  have hret : ∀ value : Ir.Operand, Internal (emit (·.returnValue (some value))) :=
    fun _ => internal_emit _
  split
  · apply internal_pure
  · split
    · apply internal_pure
    · split
      · apply internal_emit
      · dsimp only
        split
        · exact internal_bind (internal_pure _) hret
        · exact internal_bind (internal_throw rfl) hret

/-- What such work is followed by fails on its own. -/
theorem Internal.after (hm : Internal m) {f : α → Lower Cause β} {c c' : Context} {e : Cause}
    (h : Fails (m >>= f) c e c') (he : e.internal = false) :
    ∃ a d, Gives m c a d ∧ Fails (f a) d e c' := by
  rcases fails_bind.mp h with hf | hrest
  · exact absurd (hm c e c' hf) (by simp [he])
  · exact hrest

end

/-- Only code has been laid out in the function at hand. -/
structure Resumed (c c' : Context) : Prop where
  rebuilt : Rebuilt c c'
  kept : Kept c c'

theorem Resumed.trans {c c' c'' : Context} (h : Resumed c c') (h' : Resumed c' c'') : Resumed c c'' :=
  ⟨h.rebuilt.trans h'.rebuilt, h.kept.trans h'.kept⟩

section

variable {c c' : Context} {e : Cause}

/-- Between the parts of a conditional or a loop only code is laid out, and the names stay in force. -/
theorem resumed_createBlock {label : String} {id : Nat} (h : Gives (createBlock label) c id c') :
    Resumed c c' :=
  ⟨tame_createBlock _ _ _ _ h, (steady_createBlock _).of_gives h⟩

theorem resumed_terminate {t : Ir.Terminator} {u : Unit} (h : Gives (emit (·.terminate t)) c u c') :
    Resumed c c' :=
  ⟨tame_terminate _ _ _ _ h, (steady_terminate _).of_gives h⟩

theorem resumed_switchTo {id : Nat} {u : Unit} (h : Gives (switchTo id) c u c') : Resumed c c' :=
  ⟨tame_switchTo _ _ _ _ h, (steady_switchTo _).of_gives h⟩

theorem resumed_fallThrough {target : Nat} {u : Unit} (h : Gives (fallThrough target) c u c') :
    Resumed c c' :=
  ⟨tame_fallThrough _ _ _ _ h, (steady_fallThrough _).of_gives h⟩

/-- A conditional fails in one of its parts. -/
theorem parts_conditional {condition : Ir.Operand} {thenPart elsePart : Lower Cause Unit}
    (h : Fails (conditional condition thenPart elsePart) c e c') (he : e.internal = false) :
    (∃ c₁ d, Resumed c c₁ ∧ Fails thenPart c₁ e d) ∨
      ∃ c₁ c₂ c₃ d, Resumed c c₁ ∧ Gives thenPart c₁ () c₂ ∧ Resumed c₂ c₃ ∧ Fails elsePart c₃ e d := by
  unfold conditional at h
  obtain ⟨_, c₁, h₁, f₁⟩ := (internal_build _).after h he
  obtain ⟨_, c₂, h₂, f₂⟩ := (internal_build _).after f₁ he
  obtain ⟨_, c₃, h₃, f₃⟩ := (internal_build _).after f₂ he
  obtain ⟨_, c₄, h₄, f₄⟩ := (internal_emit _).after f₃ he
  obtain ⟨_, c₅, h₅, f₅⟩ := (internal_emit _).after f₄ he
  have before : Resumed c c₅ :=
    (((resumed_createBlock h₁).trans (resumed_createBlock h₂)).trans (resumed_createBlock h₃)).trans
      ((resumed_terminate h₄).trans (resumed_switchTo h₅))
  rcases fails_bind.mp f₅ with hthen | ⟨_, c₆, h₆, f₆⟩
  · exact .inl ⟨c₅, c', before, hthen⟩
  obtain ⟨_, c₇, h₇, f₇⟩ := (internal_fallThrough _).after f₆ he
  obtain ⟨_, c₈, h₈, f₈⟩ := (internal_emit _).after f₇ he
  rcases fails_bind.mp f₈ with helse | ⟨_, c₉, _, f₉⟩
  · exact .inr ⟨c₅, c₆, c₈, c', before, h₆, (resumed_fallThrough h₇).trans (resumed_switchTo h₈), helse⟩
  obtain ⟨_, c₁₀, _, f₁₀⟩ := (internal_fallThrough _).after f₉ he
  exact absurd (internal_emit _ _ _ _ f₁₀) (by simp [he])

/-- A loop fails in its condition or in its body. -/
theorem parts_repeated {condition : Lower Cause Ir.Operand} {body : Lower Cause Unit}
    (h : Fails (repeated condition body) c e c') (he : e.internal = false) :
    (∃ c₁ d, Resumed c c₁ ∧ Fails condition c₁ e d) ∨
      ∃ c₁ o c₂ c₃ d, Resumed c c₁ ∧ Gives condition c₁ o c₂ ∧ Resumed c₂ c₃ ∧ Fails body c₃ e d := by
  unfold repeated at h
  obtain ⟨_, c₁, h₁, f₁⟩ := (internal_build _).after h he
  obtain ⟨_, c₂, h₂, f₂⟩ := (internal_build _).after f₁ he
  obtain ⟨_, c₃, h₃, f₃⟩ := (internal_build _).after f₂ he
  obtain ⟨_, c₄, h₄, f₄⟩ := (internal_emit _).after f₃ he
  obtain ⟨_, c₅, h₅, f₅⟩ := (internal_emit _).after f₄ he
  have before : Resumed c c₅ :=
    (((resumed_createBlock h₁).trans (resumed_createBlock h₂)).trans (resumed_createBlock h₃)).trans
      ((resumed_terminate h₄).trans (resumed_switchTo h₅))
  rcases fails_bind.mp f₅ with hcond | ⟨o, c₆, h₆, f₆⟩
  · exact .inl ⟨c₅, c', before, hcond⟩
  obtain ⟨_, c₇, h₇, f₇⟩ := (internal_emit _).after f₆ he
  obtain ⟨_, c₈, h₈, f₈⟩ := (internal_emit _).after f₇ he
  rcases fails_bind.mp f₈ with hbody | ⟨_, c₉, _, f₉⟩
  · exact .inr ⟨c₅, o, c₆, c₈, c', before, h₆, (resumed_terminate h₇).trans (resumed_switchTo h₈), hbody⟩
  obtain ⟨_, c₁₀, _, f₁₀⟩ := (internal_fallThrough _).after f₉ he
  exact absurd (internal_emit _ _ _ _ f₁₀) (by simp [he])

end

mutual

/-- A diagnostic of a fault in the tree never lies in another one. -/
theorem FaultyExpr.unpinned {r : Registry} : ∀ {p : Locus} {c : Context} {e : Expr} {d : Diagnostic},
    FaultyExpr r p c e d → d.cause.isLocated = false
  | _, _, _, _, .ident h => unpinned_readName _ _ _ _ h
  | _, _, _, _, .operand h => h.unpinned
  | _, _, _, _, .neg _ h => unpinned_negate _ _ _ _ h
  | _, _, _, _, .left h => h.unpinned
  | _, _, _, _, .right _ h => h.unpinned
  | _, _, _, _, .binary _ _ h => unpinned_combine _ _ _ _ _ _ h
  | _, _, _, _, .target h => unpinned_storage _ _ _ _ h
  | _, _, _, _, .value _ h => h.unpinned
  | _, _, _, _, .assign _ _ h => unpinned_storeInto _ _ _ _ _ _ h
  | _, _, _, _, .callee h => Typing.located_resolve h
  | _, _, _, _, .arity _ h => Typing.located_checkArity h
  | _, _, _, _, .args _ _ h => h.unpinned
  | _, _, _, _, .block h => h.unpinned

theorem FaultyValue.unpinned {r : Registry} : ∀ {p : Locus} {role : String} {c : Context} {e : Expr}
    {d : Diagnostic}, FaultyValue r p role c e d → d.cause.isLocated = false
  | _, _, _, _, _, .fault h => h.unpinned
  | _, _, _, _, _, .noValue _ => rfl

theorem FaultyArgs.unpinned {r : Registry} : ∀ {p : Locus} {callee : Callee} {index : Nat}
    {c : Context} {es : List Expr} {d : Diagnostic}, FaultyArgs r p callee index c es d →
    d.cause.isLocated = false
  | _, _, _, _, _, _, .head h => h.unpinned
  | _, _, _, _, _, _, .unfit _ h => unpinned_argument _ _ _ _ _ _ h
  | _, _, _, _, _, _, .tail _ _ h => h.unpinned

theorem FaultyEach.unpinned {r : Registry} : ∀ {p : Locus} {c : Context} {es : List Expr}
    {d : Diagnostic}, FaultyEach r p c es d → d.cause.isLocated = false
  | _, _, _, _, .head h => h.unpinned
  | _, _, _, _, .tail _ h => h.unpinned

theorem FaultyStmts.unpinned {r : Registry} : ∀ {function : String} {c : Context} {ss : List Stmt}
    {d : Diagnostic}, FaultyStmts r function c ss d → d.cause.isLocated = false
  | _, _, _, _, .head h => h.unpinned
  | _, _, _, _, .tail _ h => h.unpinned

theorem FaultyStmt.unpinned {r : Registry} : ∀ {p : Locus} {c : Context} {s : Stmt} {d : Diagnostic},
    FaultyStmt r p c s d → d.cause.isLocated = false
  | _, _, _, _, .expr h => h.unpinned
  | _, _, _, _, .binding _ => rfl
  | _, _, _, _, .init _ h => h.unpinned
  | _, _, _, _, .unfit _ _ _ h => unpinned_storeInto _ _ _ _ _ _ h
  | _, _, _, _, .function h => h.unpinned
  | _, _, _, _, .retNone h => unpinned_returnFrom _ _ _ _ h
  | _, _, _, _, .retValue h => h.unpinned
  | _, _, _, _, .ret _ h => unpinned_returnFrom _ _ _ _ h
  | _, _, _, _, .condition h => h.unpinned
  | _, _, _, _, .test _ h => unpinned_test _ _ _ _ _ h
  | _, _, _, _, .thenPart _ _ _ h => h.unpinned
  | _, _, _, _, .elsePart _ _ _ _ _ h => h.unpinned
  | _, _, _, _, .loopInit h => h.unpinned
  | _, _, _, _, .loopCondition _ _ h => h.unpinned
  | _, _, _, _, .loopTest _ _ _ h => unpinned_test _ _ _ _ _ h
  | _, _, _, _, .loopBody _ _ _ _ h => h.unpinned
  | _, _, _, _, .loopPost _ _ _ _ _ h => h.unpinned

theorem FaultyFunction.unpinned {r : Registry} : ∀ {c : Context} {decl : FunctionDecl}
    {d : Diagnostic}, FaultyFunction r c decl d → d.cause.isLocated = false
  | _, _, _, .param _ _ _ => rfl
  | _, _, _, .body _ h => h.unpinned
  | _, _, _, .ending _ _ h => unpinned_close _ _ _ _ h

end

variable {r : Registry} {c c' : Context} {cause : Cause}

/-- A failure in a block inside of an expression is as internal as the one it holds. -/
theorem internal_located (d : Diagnostic) : (Cause.located d).internal = d.internal := by
  rw [Cause.internal]

/-- A parameter without a slot is the first that cannot hold a value. -/
theorem blamed_storeParams {ps : List Tree.Param} {index : Nat}
    (h : Fails (storeParams index ps) c cause c') (he : cause.internal = false) :
    ∃ before param after, ps = before ++ param :: after ∧ (∀ q ∈ before, q.ty ≠ .void) ∧
      param.ty = .void ∧ cause = .voidBinding param.name := by
  induction ps generalizing index c with
  | nil => exact absurd h fails_pure
  | cons p ps ih =>
    rw [storeParams] at h
    by_cases hv : p.ty = .void
    · rw [if_pos hv] at h
      rcases fails_bind.mp h with hf | ⟨_, _, hno, _⟩
      · exact ⟨[], p, ps, rfl, List.forall_mem_nil _, hv, (fails_throw.mp hf).1⟩
      · exact absurd hno gives_throw
    rw [if_neg hv] at h
    obtain ⟨_, _, _, h₁⟩ := (internal_build _).after h he
    obtain ⟨_, _, _, h₂⟩ := (internal_emit _).after h₁ he
    obtain ⟨_, _, _, h₃⟩ := internal_frame.after h₂ he
    rcases fails_bind.mp h₃ with hno | ⟨_, _, _, h₄⟩
    · exact absurd hno fails_modify
    rcases fails_bind.mp h₄ with hno | ⟨_, _, _, h₅⟩
    · exact absurd hno fails_modify
    obtain ⟨before, param, after, rfl, hbefore, hvoid, hcause⟩ := ih h₅
    refine ⟨p :: before, param, after, rfl, fun q hq => ?_, hvoid, hcause⟩
    rcases List.mem_cons.mp hq with rfl | hq
    · exact hv
    · exact hbefore q hq

theorem fails_onFailure {ε α : Type} {m : Lower ε α} {after : StateM Context Unit} {e : ε}
    (h : Fails (m.onFailure after) c e c') : ∃ d, Fails m c e d := by
  obtain ⟨e', d, hm, hthrow⟩ := fails_tryCatch.mp h
  rcases fails_bind.mp hthrow with hno | ⟨_, _, _, hthrow⟩
  · exact absurd hno fails_lift
  · obtain ⟨rfl, _⟩ := fails_throw.mp hthrow
    exact ⟨d, hm⟩

/-- A function is refused for a parameter, fails in its body, or cannot be closed. -/
theorem blamed_define {name node : String} {params : List Tree.Param} {returns : Ty}
    {body : Lower Diagnostic Ending} {d : Diagnostic}
    (h : Fails (define name node params returns body) c d c') (hd : d.internal = false) :
    (∃ before param after, params = before ++ param :: after ∧ (∀ q ∈ before, q.ty ≠ .void) ∧
      param.ty = .void ∧ d = Locus.blame ⟨name, node⟩ (.voidBinding param.name)) ∨
    ∃ c₁, Gives (enterFunction name params returns) c () c₁ ∧ ((∃ c₂, Fails body c₁ d c₂) ∨
      ∃ ending c₂ cause c₃, Gives body c₁ ending c₂ ∧ Fails (close ending) c₂ cause c₃ ∧
        d = Locus.blame ⟨name, node⟩ cause) := by
  unfold define pinned at h
  rcases fails_bind.mp h with hf | ⟨_, c₁, henter, h₁⟩
  · obtain ⟨e, he, rfl⟩ := fails_adapt.mp hf
    rw [Diagnostic.internal_pin] at hd
    unfold enterFunction at he
    rcases fails_bind.mp he with hno | ⟨_, _, _, hstore⟩
    · exact absurd hno fails_modify
    obtain ⟨_, hf'⟩ := fails_onFailure hstore
    obtain ⟨before, param, after, hps, hbefore, hvoid, rfl⟩ := blamed_storeParams hf' hd
    exact .inl ⟨before, param, after, hps, hbefore, hvoid, rfl⟩
  refine .inr ⟨c₁, gives_adapt.mp henter, ?_⟩
  rcases fails_bind.mp h₁ with hf | ⟨_, c₃, _, h₂⟩
  · obtain ⟨c₂, hf'⟩ := fails_onFailure hf
    rcases fails_bind.mp hf' with hbody | ⟨ending, c₂, hbody, hclose⟩
    · exact .inl ⟨_, hbody⟩
    · obtain ⟨e, he, rfl⟩ := fails_adapt.mp hclose
      rw [Diagnostic.pin_eq_blame (unpinned_close _ _ _ _ he)]
      exact .inr ⟨ending, c₂, e, _, hbody, he, rfl⟩
  · obtain ⟨e, he, rfl⟩ := fails_adapt.mp h₂
    rw [Diagnostic.internal_pin] at hd
    exact absurd (internal_install _ _ _ he) (by simp [hd])

/-- Inside of a function that has been begun, its name is that of the function at hand. -/
theorem function_enterFunction {name : String} {params : List Tree.Param} {returns : Ty} {u : Unit}
    (h : Gives (enterFunction name params returns) c u c') : c'.function = name :=
  ((steady_storeParams 0 params).of_gives (gives_enterFunction.mp h)).function

section Forms

variable {node : String} {cond : Expr} {init post : List Expr} {thenBlock body : List Stmt}
  {elseBlock : Option (List Stmt)}

/-- An expression whose value is needed is at fault where it fails, and where it has none. -/
theorem faulty_needed {role : String} {e : Expr}
    (fault : ∀ {c' : Context} {cause : Cause}, Fails (lowerExpr r e) c cause c' →
      cause.internal = false →
      FaultyExpr r ⟨c.function, node⟩ c e (Diagnostic.pin c.function node cause))
    (h : Fails (needed role e (lowerExpr r e)) c cause c') (hi : cause.internal = false) :
    FaultyValue r ⟨c.function, node⟩ role c e (Diagnostic.pin c.function node cause) := by
  unfold needed at h
  rcases fails_bind.mp h with hf | ⟨v, c₁, hv, hf⟩
  · exact .fault (fault hf hi)
  · cases v with
    | none =>
      obtain ⟨rfl, _⟩ := fails_throw.mp hf
      exact .noValue hv
    | some t => exact absurd hf fails_pure

/-- What goes wrong in a block stands in the function around it. -/
theorem faulty_lowerBranch {name : String} (hname : c.function = name)
    (fault : ∀ {d c'}, Fails (lowerStmts r none body) c d c' → d.internal = false →
      FaultyStmts r c.function c body d)
    (h : Fails (lowerBranch r (some body)) c cause c') (hi : cause.internal = false) :
    FaultyStmts r name c body (Diagnostic.pin name node cause) := by
  obtain ⟨d, hd, rfl⟩ := fails_lowerBranch.mp h
  exact hname ▸ fault hd (internal_located d ▸ hi)

/-- A conditional fails in its condition or in a statement of one of its branches. -/
theorem ite_faulty
    (fcond : ∀ {c' cause}, Fails (lowerExpr r cond) c cause c' → cause.internal = false →
      FaultyExpr r ⟨c.function, node⟩ c cond (Diagnostic.pin c.function node cause))
    (fthen : ∀ {c c' d}, Fails (lowerStmts r none thenBlock) c d c' → d.internal = false →
      FaultyStmts r c.function c thenBlock d)
    (felse : ∀ block, elseBlock = some block → ∀ {c c' d}, Fails (lowerStmts r none block) c d c' →
      d.internal = false → FaultyStmts r c.function c block d)
    (h : Fails (lowerStmtValue r (.ite cond thenBlock elseBlock)) c cause c')
    (hi : cause.internal = false) : FaultyStmt r ⟨c.function, node⟩ c (.ite cond thenBlock elseBlock)
      (Diagnostic.pin c.function node cause) := by
  rcases fails_ite.mp h with hf | ⟨t, c₁, hc, hf | ⟨o, c₂, ho, hf⟩⟩
  · exact .condition (faulty_needed fcond hf hi)
  · rw [Diagnostic.pin_eq_blame (unpinned_test _ _ _ _ _ hf)]
    exact .test hc hf
  have hfun := (((lowerExpr_steady r cond).of_gives hc).trans ((steady_test _ t).of_gives ho)).function
  rcases parts_conditional hf hi with ⟨c₃, _, hr, hthen⟩ | ⟨c₃, c₄, c₅, _, hr, hthen, hr', helse⟩
  · exact .thenPart hc ho hr.rebuilt
      (faulty_lowerBranch (hr.kept.function.trans hfun) fthen hthen hi)
  · cases elseBlock with
    | none => exact absurd helse fails_pure
    | some block =>
      obtain ⟨v, hv⟩ := lowerBranch_some.mp hthen
      have hname : c₅.function = c.function := by
        rw [hr'.kept.function, ((lowerStmts_steady r none thenBlock).of_gives hv).function,
          hr.kept.function, hfun]
      exact .elsePart hc ho hr.rebuilt hv hr'.rebuilt
        (faulty_lowerBranch hname (felse block rfl) helse hi)

/-- A loop fails in its header or in a statement of its body. -/
theorem loop_faulty
    (finit : ∀ {c' cause}, Fails (lowerEach r init) c cause c' → cause.internal = false →
      FaultyEach r ⟨c.function, node⟩ c init (Diagnostic.pin c.function node cause))
    (fcond : ∀ {c c' cause}, Fails (lowerExpr r cond) c cause c' → cause.internal = false →
      FaultyExpr r ⟨c.function, node⟩ c cond (Diagnostic.pin c.function node cause))
    (fbody : ∀ {c c' d}, Fails (lowerStmts r none body) c d c' → d.internal = false →
      FaultyStmts r c.function c body d)
    (fpost : ∀ {c c' cause}, Fails (lowerEach r post) c cause c' → cause.internal = false →
      FaultyEach r ⟨c.function, node⟩ c post (Diagnostic.pin c.function node cause))
    (h : Fails (lowerStmtValue r (.loop init cond post body)) c cause c')
    (hi : cause.internal = false) : FaultyStmt r ⟨c.function, node⟩ c (.loop init cond post body)
      (Diagnostic.pin c.function node cause) := by
  rcases fails_loop.mp h with hf | ⟨c₁, hinit, hf⟩
  · exact .loopInit (finit hf hi)
  have hfun := ((lowerEach_steady r init).of_gives hinit).function
  rcases parts_repeated hf hi with ⟨c₂, _, hr, hcond⟩ | ⟨c₂, o, c₃, c₄, _, hr, hcond, hr', hround⟩
  · have hname : c₂.function = c.function := hr.kept.function.trans hfun
    rcases fails_lowerTest.mp hcond with hf' | ⟨t, c₃, ht, hf'⟩
    · exact .loopCondition hinit hr.rebuilt (hname ▸ faulty_needed fcond hf' hi)
    · rw [Diagnostic.pin_eq_blame (unpinned_test _ _ _ _ _ hf')]
      exact .loopTest hinit hr.rebuilt ht hf'
  · obtain ⟨t, c₅, ht, ho⟩ := gives_lowerTest.mp hcond
    have hname : c₄.function = c.function := by
      rw [hr'.kept.function, ((steady_test _ t).of_gives ho).function,
        ((lowerExpr_steady r cond).of_gives ht).function, hr.kept.function, hfun]
    rcases fails_lowerRound.mp hround with hf' | ⟨v, c₆, hv, hf'⟩
    · exact .loopBody hinit hr.rebuilt hcond hr'.rebuilt (faulty_lowerBranch hname fbody hf' hi)
    · have hname' : c₆.function = c.function :=
        ((lowerStmts_steady r none body).of_gives hv).function.trans hname
      exact .loopPost hinit hr.rebuilt hcond hr'.rebuilt hv (hname' ▸ fpost hf' hi)

end Forms

mutual

/-- The place of a failure is passed inwards as in the check. Failures of the lowering itself are left
out, since no part of the tree is at fault then. -/
theorem lowerExpr_faulty (r : Registry) : ∀ (e : Expr) {c c' : Context} {cause : Cause}
    (node : String), Fails (lowerExpr r e) c cause c' → cause.internal = false →
    FaultyExpr r ⟨c.function, node⟩ c e (Diagnostic.pin c.function node cause)
  | .int _, c, c', cause, node, h, _ => by simp [lowerExpr] at h
  | .double _, c, c', cause, node, h, _ => by simp [lowerExpr] at h
  | .str _, c, c', cause, node, h, _ => by simp [lowerExpr] at h
  | .ident name, c, c', cause, node, h, _ => by
    have hf := fails_ident.mp h
    rw [Diagnostic.pin_eq_blame (unpinned_readName _ _ _ _ hf)]
    exact .ident hf
  | .neg operand, c, c', cause, node, h, hi => by
    rcases fails_neg.mp h with hf | ⟨t, c₁, ht, hf⟩
    · exact .operand (faulty_needed (lowerExpr_faulty r operand node) hf hi)
    · rw [Diagnostic.pin_eq_blame (unpinned_negate _ _ _ _ hf)]
      exact .neg ht hf
  | .binary op lhs rhs, c, c', cause, node, h, hi => by
    rcases fails_binary.mp h with hf | ⟨t, c₁, hl, hf | ⟨t', c₂, hr, hf⟩⟩
    · exact .left (faulty_needed (lowerExpr_faulty r lhs node) hf hi)
    · have hrhs := faulty_needed (lowerExpr_faulty r rhs node) hf hi
      rw [((lowerExpr_steady r lhs).of_gives hl).function] at hrhs
      exact .right hl hrhs
    · rw [Diagnostic.pin_eq_blame (unpinned_combine _ _ _ _ _ _ hf)]
      exact .binary hl hr hf
  | .assign target value, c, c', cause, node, h, hi => by
    rcases fails_assign.mp h with hf | ⟨s, hs, hf | ⟨t, c₁, ht, hf⟩⟩
    · rw [Diagnostic.pin_eq_blame (unpinned_storage _ _ _ _ hf)]
      exact .target hf
    · exact .value hs (faulty_needed (lowerExpr_faulty r value node) hf hi)
    · rw [Diagnostic.pin_eq_blame (unpinned_storeInto _ _ _ _ _ _ hf)]
      exact .assign hs ht hf
  | .call name args, c, c', cause, node, h, hi => by
    rcases fails_call.mp h with ⟨hno, _⟩ | ⟨callee, hres, ⟨hno, _⟩ | ⟨harity, hf | ⟨_, _, _, hf⟩⟩⟩
    · rw [Diagnostic.pin_eq_blame (Typing.located_resolve hno)]
      exact .callee hno
    · rw [Diagnostic.pin_eq_blame (Typing.located_checkArity hno)]
      exact .arity hres hno
    · exact .args hres harity (lowerArgs_faulty r callee 0 args node hf hi)
    · exact absurd (internal_call _ _ _ _ _ hf) (by simp [hi])
  | .block stmts, c, c', cause, node, h, hi => by
    obtain ⟨d, hd, rfl⟩ := fails_block.mp h
    exact .block (lowerStmts_faulty r none stmts hd (internal_located d ▸ hi))

theorem lowerArgs_faulty (r : Registry) (callee : Callee) (index : Nat) : ∀ (es : List Expr)
    {c c' : Context} {cause : Cause} (node : String), Fails (lowerArgs r callee index es) c cause c' →
    cause.internal = false →
    FaultyArgs r ⟨c.function, node⟩ callee index c es (Diagnostic.pin c.function node cause)
  | [], c, c', cause, node, h, _ => by simp [lowerArgs] at h
  | e :: es, c, c', cause, node, h, hi => by
    rcases fails_lowerArgs.mp h with hf | ⟨t, c₁, he, hf | ⟨v, c₂, hv, hf⟩⟩
    · exact .head (faulty_needed (lowerExpr_faulty r e node) hf hi)
    · rw [Diagnostic.pin_eq_blame (unpinned_argument _ _ _ _ _ _ hf)]
      exact .unfit he hf
    · have hrest := lowerArgs_faulty r callee (index + 1) es node hf hi
      rw [((steady_argument callee index t).of_gives hv).function,
        ((lowerExpr_steady r e).of_gives he).function] at hrest
      exact .tail he hv hrest

theorem lowerEach_faulty (r : Registry) : ∀ (es : List Expr) {c c' : Context} {cause : Cause}
    (node : String), Fails (lowerEach r es) c cause c' → cause.internal = false →
    FaultyEach r ⟨c.function, node⟩ c es (Diagnostic.pin c.function node cause)
  | [], c, c', cause, node, h, _ => by simp [lowerEach] at h
  | e :: es, c, c', cause, node, h, hi => by
    rcases fails_lowerEach.mp h with hf | ⟨v, c₁, hv, hf⟩
    · exact .head (lowerExpr_faulty r e node hf hi)
    · have hrest := lowerEach_faulty r es node hf hi
      rw [((lowerExpr_steady r e).of_gives hv).function] at hrest
      exact .tail hv hrest

/-- The statements before the one at fault have been lowered, and have left their names in force. -/
theorem lowerStmts_faulty (r : Registry) (last : Option Typed) : ∀ (ss : List Stmt)
    {c c' : Context} {d : Diagnostic}, Fails (lowerStmts r last ss) c d c' → d.internal = false →
    FaultyStmts r c.function c ss d
  | [], c, c', d, h, _ => by simp [lowerStmts] at h
  | s :: ss, c, c', d, h, hi => by
    rcases fails_lowerStmts.mp h with ⟨cause, hf, rfl⟩ | ⟨v, c₁, hs, hf⟩
    · rw [Diagnostic.internal_pin] at hi
      exact .head (lowerStmtValue_faulty r s s.summary hf hi)
    · have hrest := lowerStmts_faulty r v ss hf hi
      rw [((lowerStmtValue_steady r s).of_gives hs).function] at hrest
      exact .tail hs hrest

/-- A function that is declared fails where its declaration stands, at a place of its own, and not at
the place of the statement. -/
theorem lowerStmtValue_faulty (r : Registry) : ∀ (s : Stmt) {c c' : Context} {cause : Cause}
    (node : String), Fails (lowerStmtValue r s) c cause c' → cause.internal = false →
    FaultyStmt r ⟨c.function, node⟩ c s (Diagnostic.pin c.function node cause)
  | .expr e, c, c', cause, node, h, hi => .expr (lowerExpr_faulty r e node (fails_expr.mp h) hi)
  | .var name ty none, c, c', cause, node, h, hi => by
    rcases fails_var.mp h with ⟨hv, rfl, _⟩ | ⟨_, hf⟩
    · exact .binding hv
    · exact absurd (internal_declareVar _ _ _ _ _ hf) (by simp [hi])
  | .var name ty (some init), c, c', cause, node, h, hi => by
    rcases fails_var_init.mp h with ⟨hv, rfl, _⟩ | ⟨hv, hf | ⟨t, c₁, ht, hf | ⟨s, c₂, hs, hf⟩⟩⟩
    · exact .binding hv
    · exact .init hv (faulty_needed (lowerExpr_faulty r init node) hf hi)
    · exact absurd (internal_declareVar _ _ _ _ _ hf) (by simp [hi])
    · rw [Diagnostic.pin_eq_blame (unpinned_storeInto _ _ _ _ _ _ hf)]
      exact .unfit hv ht hs hf
  | .function decl, c, c', cause, node, h, hi => by
    obtain ⟨d, hd, rfl⟩ := fails_function.mp h
    exact .function (lowerFunction_faulty r decl hd (internal_located d ▸ hi))
  | .ret none, c, c', cause, node, h, _ => by
    have hf := fails_ret_none.mp h
    rw [Diagnostic.pin_eq_blame (unpinned_returnFrom _ _ _ _ hf)]
    exact .retNone hf
  | .ret (some value), c, c', cause, node, h, hi => by
    rcases fails_ret.mp h with hf | ⟨_, hf | ⟨t, c₁, ht, hf⟩⟩
    · exact absurd (internal_frame _ _ _ hf) (by simp [hi])
    · exact .retValue (faulty_needed (lowerExpr_faulty r value node) hf hi)
    · rw [Diagnostic.pin_eq_blame (unpinned_returnFrom _ _ _ _ hf)]
      exact .ret ht hf
  | .ite cond thenBlock none, c, c', cause, node, h, hi =>
    ite_faulty (lowerExpr_faulty r cond node) (lowerStmts_faulty r none thenBlock) nofun h hi
  | .ite cond thenBlock (some elseBlock), c, c', cause, node, h, hi => by
    refine ite_faulty (lowerExpr_faulty r cond node) (lowerStmts_faulty r none thenBlock) ?_ h hi
    rintro _ ⟨rfl⟩ _ _ _ hf
    exact lowerStmts_faulty r none elseBlock hf
  | .loop init cond post body, c, c', cause, node, h, hi =>
    loop_faulty (lowerEach_faulty r init node) (lowerExpr_faulty r cond node)
      (lowerStmts_faulty r none body) (lowerEach_faulty r post node) h hi

theorem lowerFunction_faulty (r : Registry) : ∀ (decl : FunctionDecl) {c c' : Context}
    {d : Diagnostic}, Fails (lowerFunction r decl) c d c' → d.internal = false →
    FaultyFunction r c decl d
  | ⟨name, params, returns, body⟩, c, c', d, h, hi => by
    rw [lowerFunction] at h
    rcases blamed_define h hi with ⟨before, param, after, hps, hbefore, hvoid, rfl⟩ |
      ⟨c₁, henter, ⟨c₂, hf⟩ | ⟨ending, c₂, cause, c₃, hg, hf, rfl⟩⟩
    · exact .param hps hbefore hvoid
    · rcases fails_bind.mp hf with hbody | ⟨_, _, _, hno⟩
      · have hblock := lowerStmts_faulty r none body hbody hi
        rw [function_enterFunction henter] at hblock
        exact .body henter hblock
      · exact absurd hno fails_pure
    · obtain ⟨v, _, hbody, hpure⟩ := gives_bind.mp hg
      obtain ⟨rfl, rfl⟩ := gives_pure.mp hpure
      exact .ending henter hbody hf

end

end TreeLang.Lowering
