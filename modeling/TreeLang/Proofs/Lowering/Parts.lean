import TreeLang.Proofs.Lowering.Operations

namespace TreeLang.Lowering

open TreeLang.Tree (Ty Expr Stmt FunctionDecl)
open Typing (Registry Callee coercible)
open Lower

variable {r : Registry} {c c' : Context} {v : Option Typed}

attribute [local simp] lowerExpr lowerArgs lowerEach lowerStmts lowerStmtValue

theorem lower_int {n : Int32} :
    Gives (lowerExpr r (.int n)) c v c' ↔ v = some (.plain (.int n) .int) ∧ c' = c := by
  simp

theorem lower_double {x : Double} :
    Gives (lowerExpr r (.double x)) c v c' ↔ v = some (.plain (.float x) .double) ∧ c' = c := by
  simp

/-- A string takes the next number of the module. -/
theorem lower_str {text : String} :
    Gives (lowerExpr r (.str text)) c v c' ↔
      v = some (.plain (.str c.module.strings.length) .string) ∧
        c' = { c with module := { c.module with strings := c.module.strings ++ [text] } } := by
  simp [Ir.Module.addString, and_comm]

theorem lower_ident {name : String} :
    Gives (lowerExpr r (.ident name)) c v c' ↔ ∃ t, Gives (readName name) c t c' ∧ v = some t := by
  simp

theorem lower_neg {e : Expr} :
    Gives (lowerExpr r (.neg e)) c v c' ↔
      ∃ t d u, Gives (lowerExpr r e) c (some t) d ∧ Gives (negate t) d u c' ∧ v = some u := by
  simp [gives_needed]

theorem lower_binary {op : Tree.BinaryOp} {lhs rhs : Expr} :
    Gives (lowerExpr r (.binary op lhs rhs)) c v c' ↔
      ∃ t d t' d' u, Gives (lowerExpr r lhs) c (some t) d ∧ Gives (lowerExpr r rhs) d (some t') d' ∧
        Gives (combine op t t') d' u c' ∧ v = some u := by
  simp [gives_needed]

/-- The target is looked up before the value is lowered. -/
theorem lower_assign {target : String} {value : Expr} :
    Gives (lowerExpr r (.assign target value)) c v c' ↔
      ∃ f rest s t d, c.frames = f :: rest ∧ f.storage? target = some s ∧
        Gives (lowerExpr r value) c (some t) d ∧ Gives (storeInto target s t) d () c' ∧
        v = none := by
  simp only [lowerExpr, gives_bind, gives_storage, gives_needed, gives_pure]
  constructor
  · rintro ⟨s, _, ⟨⟨f, rest, hc, hs⟩, rfl⟩, t, d, ht, _, _, hst, rfl, rfl⟩
    exact ⟨f, rest, s, t, d, hc, hs, ht, hst, rfl⟩
  · rintro ⟨f, rest, s, t, d, hc, hs, ht, hst, rfl⟩
    exact ⟨s, c, ⟨⟨f, rest, hc, hs⟩, rfl⟩, t, d, ht, (), _, hst, rfl, rfl⟩

/-- The callee is resolved and the arguments are counted before any of them is lowered. -/
theorem lower_call {name : String} {args : List Expr} :
    Gives (lowerExpr r (.call name args)) c v c' ↔
      ∃ callee values d, Callee.resolve r c.module.external? name = .ok callee ∧
        callee.accepts args.length = true ∧ Gives (lowerArgs r callee 0 args) c values d ∧
        Gives (call callee values) d v c' := by
  simp only [lowerExpr, gives_bind, gives_get, gives_liftExcept, Typing.checkArity_eq_ok]
  constructor
  · rintro ⟨_, _, ⟨rfl, rfl⟩, callee, _, ⟨hr, rfl⟩, _, _, ⟨ha, rfl⟩, values, d, hv, h⟩
    exact ⟨callee, values, d, hr, ha, hv, h⟩
  · rintro ⟨callee, values, d, hr, ha, hv, h⟩
    exact ⟨c, c, ⟨rfl, rfl⟩, callee, c, ⟨hr, rfl⟩, (), c, ⟨ha, rfl⟩, values, d, hv, h⟩

theorem lower_block {stmts : List Stmt} :
    Gives (lowerExpr r (.block stmts)) c v c' ↔ Gives (lowerStmts r none stmts) c v c' := by
  simp [located]

theorem lowerArgs_nil {callee : Callee} {index : Nat} {values : List Ir.Operand} :
    Gives (lowerArgs r callee index []) c values c' ↔ values = [] ∧ c' = c := by
  simp

/-- Each argument is lowered and converted before the next one. -/
theorem lowerArgs_cons {callee : Callee} {index : Nat} {values : List Ir.Operand} {e : Expr}
    {es : List Expr} :
    Gives (lowerArgs r callee index (e :: es)) c values c' ↔
      ∃ t d value d' rest, Gives (lowerExpr r e) c (some t) d ∧
        Gives (argument callee index t) d value d' ∧
        Gives (lowerArgs r callee (index + 1) es) d' rest c' ∧ values = value :: rest := by
  simp [gives_needed]

theorem lowerEach_nil {u : Unit} : Gives (lowerEach r []) c u c' ↔ c' = c := by
  simp

theorem lowerEach_cons {e : Expr} {es : List Expr} {u : Unit} :
    Gives (lowerEach r (e :: es)) c u c' ↔
      ∃ v d, Gives (lowerExpr r e) c v d ∧ Gives (lowerEach r es) d u c' := by
  simp

theorem lowerStmts_nil {last : Option Typed} :
    Gives (lowerStmts r last []) c v c' ↔ v = last ∧ c' = c := by
  simp

/-- A list of statements has the value of the last one. -/
theorem lowerStmts_cons {last : Option Typed} {s : Stmt} {ss : List Stmt} :
    Gives (lowerStmts r last (s :: ss)) c v c' ↔
      ∃ w d, Gives (lowerStmtValue r s) c w d ∧ Gives (lowerStmts r w ss) d v c' := by
  simp only [lowerStmts, pinned, gives_bind, gives_get, gives_adapt]
  constructor
  · rintro ⟨_, _, ⟨rfl, rfl⟩, w, d, hw, h⟩
    exact ⟨w, d, hw, h⟩
  · rintro ⟨w, d, hw, h⟩
    exact ⟨c, c, ⟨rfl, rfl⟩, w, d, hw, h⟩

theorem lower_expr {e : Expr} :
    Gives (lowerStmtValue r (.expr e)) c v c' ↔ Gives (lowerExpr r e) c v c' := by
  simp

theorem lower_var {name : String} {ty : Ty} :
    Gives (lowerStmtValue r (.var name ty none)) c v c' ↔
      ty ≠ .void ∧ (∃ s, Gives (declareVar name ty) c s c') ∧ v = none := by
  by_cases h : ty = .void <;> simp [h]

/-- The variable comes into being behind its initial value, which does not see it. -/
theorem lower_var_init {name : String} {ty : Ty} {init : Expr} :
    Gives (lowerStmtValue r (.var name ty (some init))) c v c' ↔
      ty ≠ .void ∧ ∃ t d s d', Gives (lowerExpr r init) c (some t) d ∧
        Gives (declareVar name ty) d s d' ∧ Gives (storeInto name s t) d' () c' ∧ v = none := by
  by_cases h : ty = .void
  · simp [h]
  · simp only [lowerStmtValue, h, if_false, ne_eq, not_false_eq_true, true_and, gives_bind,
      gives_needed, gives_pure]
    constructor
    · rintro ⟨t, d, ht, s, d', hs, _, _, hst, rfl, rfl⟩
      exact ⟨t, d, s, d', ht, hs, hst, rfl⟩
    · rintro ⟨t, d, s, d', ht, hs, hst, rfl⟩
      exact ⟨t, d, ht, s, d', hs, (), _, hst, rfl, rfl⟩

theorem lower_function {decl : FunctionDecl} :
    Gives (lowerStmtValue r (.function decl)) c v c' ↔
      Gives (lowerFunction r decl) c () c' ∧ v = none := by
  simp [located]

/-- A `return` lowers its value, if it has one, and then ends the block at hand. -/
theorem lower_ret {value : Option Expr} :
    Gives (lowerStmtValue r (.ret value)) c v c' ↔
      ∃ t d, (value = none ∧ t = none ∧ d = c ∨
          ∃ e u, value = some e ∧ t = some u ∧ c.frames ≠ [] ∧ Gives (lowerExpr r e) c (some u) d) ∧
        Gives (returnFrom t) d () c' ∧ v = none := by
  cases value with
  | none =>
    simp only [lowerStmtValue, gives_bind, gives_pure]
    constructor
    · rintro ⟨_, _, hr, rfl, rfl⟩
      exact ⟨none, c, .inl ⟨trivial, rfl, rfl⟩, hr, rfl⟩
    · rintro ⟨_, _, ⟨_, rfl, rfl⟩ | ⟨_, _, h, _⟩, hr, rfl⟩
      · exact ⟨(), _, hr, rfl, rfl⟩
      · cases h
  | some e =>
    simp only [lowerStmtValue, gives_bind, gives_frame, gives_needed, gives_pure]
    constructor
    · rintro ⟨f, _, ⟨⟨rest, hc⟩, rfl⟩, u, d, hu, _, _, hr, rfl, rfl⟩
      exact ⟨some u, d, .inr ⟨e, u, rfl, rfl, by simp [hc], hu⟩, hr, rfl⟩
    · rintro ⟨_, d, ⟨h, _⟩ | ⟨_, u, ⟨rfl⟩, rfl, hc, hu⟩, hr, rfl⟩
      · cases h
      · obtain ⟨f, rest, hf⟩ := List.exists_cons_of_ne_nil hc
        exact ⟨f, c, ⟨⟨rest, hf⟩, rfl⟩, u, d, hu, (), _, hr, rfl, rfl⟩

def lowerBranch (r : Registry) (block : Option (List Stmt)) : Lower Cause Unit :=
  match block with
  | none => pure ()
  | some stmts => located (discard (lowerStmts r none stmts))

theorem lowerBranch_none {u : Unit} : Gives (lowerBranch r none) c u c' ↔ c' = c := by
  simp [lowerBranch]

theorem lowerBranch_some {stmts : List Stmt} {u : Unit} :
    Gives (lowerBranch r (some stmts)) c u c' ↔ ∃ v, Gives (lowerStmts r none stmts) c v c' := by
  simp [lowerBranch, located]

/-- A conditional lowers its condition in the block at hand, and then lays out its two branches. -/
theorem lower_ite {cond : Expr} {thenBlock : List Stmt} {elseBlock : Option (List Stmt)} :
    Gives (lowerStmtValue r (.ite cond thenBlock elseBlock)) c v c' ↔
      ∃ t d o d', Gives (lowerExpr r cond) c (some t) d ∧ Gives (test "if condition" t) d o d' ∧
        Gives (conditional o (lowerBranch r (some thenBlock)) (lowerBranch r elseBlock)) d' () c' ∧
        v = none := by
  cases elseBlock with
  | none => simp [gives_needed, lowerBranch]
  | some elseBlock => simp [gives_needed, lowerBranch]

def lowerTest (r : Registry) (cond : Expr) : Lower Cause Ir.Operand := do
  let t ← needed "for condition" cond (lowerExpr r cond)
  test "for condition" t

def lowerRound (r : Registry) (body : List Stmt) (post : List Expr) : Lower Cause Unit := do
  lowerBranch r (some body)
  lowerEach r post

theorem gives_lowerTest {cond : Expr} {o : Ir.Operand} :
    Gives (lowerTest r cond) c o c' ↔
      ∃ t d, Gives (lowerExpr r cond) c (some t) d ∧ Gives (test "for condition" t) d o c' := by
  simp [lowerTest, gives_needed]

theorem gives_lowerRound {body : List Stmt} {post : List Expr} {u : Unit} :
    Gives (lowerRound r body post) c u c' ↔
      ∃ v d, Gives (lowerStmts r none body) c v d ∧ Gives (lowerEach r post) d () c' := by
  simp only [lowerRound, gives_bind, lowerBranch_some]
  constructor
  · rintro ⟨_, d, ⟨v, hv⟩, h⟩
    exact ⟨v, d, hv, h⟩
  · rintro ⟨v, d, hv, h⟩
    exact ⟨(), d, ⟨v, hv⟩, h⟩

/-- A loop does what stands in front of it once, and lays out its rounds behind that. -/
theorem lower_loop {init : List Expr} {cond : Expr} {post : List Expr} {body : List Stmt} :
    Gives (lowerStmtValue r (.loop init cond post body)) c v c' ↔
      ∃ d, Gives (lowerEach r init) c () d ∧
        Gives (repeated (lowerTest r cond) (lowerRound r body post)) d () c' ∧ v = none := by
  simp [lowerTest, lowerRound, lowerBranch]

/-- A function is lowered in a frame of its own, which is closed and left before the function is
defined. -/
theorem gives_lowerFunction {decl : FunctionDecl} {u : Unit} :
    Gives (lowerFunction r decl) c u c' ↔ ∃ v d d' d'' f rest m,
      Gives (enterFunction decl.name decl.params decl.returns) c () d ∧
      Gives (lowerStmts r none decl.body) d v d' ∧ Gives (close (.value v)) d' () d'' ∧
      d''.frames = f :: rest ∧ (f.builder.prune.build >>= d''.module.define) = .ok m ∧
      c' = { d'' with module := m, scopes := d''.scopes.leave, frames := rest } := by
  obtain ⟨name, params, returns, body⟩ := decl
  simp only [lowerFunction, gives_define_function, gives_bind, gives_pure]
  constructor
  · rintro ⟨_, d, d', d'', f, rest, m, he, ⟨v, _, hv, rfl, rfl⟩, hcl, hf, hm, rfl⟩
    exact ⟨v, d, _, d'', f, rest, m, he, hv, hcl, hf, hm, rfl⟩
  · rintro ⟨v, d, d', d'', f, rest, m, he, hv, hcl, hf, hm, rfl⟩
    exact ⟨_, d, d', d'', f, rest, m, he, ⟨v, _, hv, rfl, rfl⟩, hcl, hf, hm, rfl⟩

section

variable {cause : Cause}

theorem fails_ident {name : String} :
    Fails (lowerExpr r (.ident name)) c cause c' ↔ Fails (readName name) c cause c' := by
  simp

theorem fails_neg {e : Expr} :
    Fails (lowerExpr r (.neg e)) c cause c' ↔ Fails (needed "operand" e (lowerExpr r e)) c cause c' ∨
      ∃ t d, Gives (lowerExpr r e) c (some t) d ∧ Fails (negate t) d cause c' := by
  simp [gives_needed]

/-- The left operand fails, or it succeeds and the right one does, or their types do not go together. -/
theorem fails_binary {op : Tree.BinaryOp} {lhs rhs : Expr} :
    Fails (lowerExpr r (.binary op lhs rhs)) c cause c' ↔
      Fails (needed "operand" lhs (lowerExpr r lhs)) c cause c' ∨
      ∃ t d, Gives (lowerExpr r lhs) c (some t) d ∧
        (Fails (needed "operand" rhs (lowerExpr r rhs)) d cause c' ∨
          ∃ t' d', Gives (lowerExpr r rhs) d (some t') d' ∧ Fails (combine op t t') d' cause c') := by
  simp [gives_needed]

theorem fails_assign {target : String} {value : Expr} :
    Fails (lowerExpr r (.assign target value)) c cause c' ↔ Fails (storage target) c cause c' ∨
      ∃ s, Gives (storage target) c s c ∧
        (Fails (needed "right-hand side" value (lowerExpr r value)) c cause c' ∨
          ∃ t d, Gives (lowerExpr r value) c (some t) d ∧ Fails (storeInto target s t) d cause c') := by
  simp only [lowerExpr, fails_bind, gives_storage, gives_needed, fails_pure, and_false, exists_false,
    or_false]
  constructor
  · rintro (h | ⟨s, _, ⟨hs, rfl⟩, h⟩)
    · exact .inl h
    · exact .inr ⟨s, ⟨hs, trivial⟩, h⟩
  · rintro (h | ⟨s, ⟨hs, _⟩, h⟩)
    · exact .inl h
    · exact .inr ⟨s, c, ⟨hs, rfl⟩, h⟩

/-- The callee cannot be called, or one of its arguments fails. -/
theorem fails_call {name : String} {args : List Expr} :
    Fails (lowerExpr r (.call name args)) c cause c' ↔
      Callee.resolve r c.module.external? name = .error cause ∧ c' = c ∨
      ∃ callee, Callee.resolve r c.module.external? name = .ok callee ∧
        (callee.checkArity args.length = .error cause ∧ c' = c ∨
          callee.checkArity args.length = .ok () ∧ (Fails (lowerArgs r callee 0 args) c cause c' ∨
            ∃ values d, Gives (lowerArgs r callee 0 args) c values d ∧
              Fails (call callee values) d cause c')) := by
  simp only [lowerExpr, fails_bind, gives_get, fails_get, gives_liftExcept, fails_liftExcept, false_or]
  constructor
  · rintro ⟨_, _, ⟨rfl, rfl⟩, h | ⟨callee, _, ⟨hr, rfl⟩, h | ⟨_, _, ⟨ha, rfl⟩, h⟩⟩⟩
    · exact .inl h
    · exact .inr ⟨callee, hr, .inl h⟩
    · exact .inr ⟨callee, hr, .inr ⟨ha, h⟩⟩
  · rintro (h | ⟨callee, hr, h | ⟨ha, h⟩⟩)
    · exact ⟨c, c, ⟨rfl, rfl⟩, .inl h⟩
    · exact ⟨c, c, ⟨rfl, rfl⟩, .inr ⟨callee, c, ⟨hr, rfl⟩, .inl h⟩⟩
    · exact ⟨c, c, ⟨rfl, rfl⟩, .inr ⟨callee, c, ⟨hr, rfl⟩, .inr ⟨(), c, ⟨ha, rfl⟩, h⟩⟩⟩

/-- What fails in a nested block is located already. -/
theorem fails_block {stmts : List Stmt} :
    Fails (lowerExpr r (.block stmts)) c cause c' ↔
      ∃ d, Fails (lowerStmts r none stmts) c d c' ∧ cause = .located d := by
  simp [located]

theorem fails_lowerArgs {callee : Callee} {index : Nat} {e : Expr} {es : List Expr} :
    Fails (lowerArgs r callee index (e :: es)) c cause c' ↔
      Fails (needed "argument" e (lowerExpr r e)) c cause c' ∨
      ∃ t d, Gives (lowerExpr r e) c (some t) d ∧ (Fails (argument callee index t) d cause c' ∨
        ∃ value d', Gives (argument callee index t) d value d' ∧
          Fails (lowerArgs r callee (index + 1) es) d' cause c') := by
  simp [gives_needed]

theorem fails_lowerEach {e : Expr} {es : List Expr} :
    Fails (lowerEach r (e :: es)) c cause c' ↔ Fails (lowerExpr r e) c cause c' ∨
      ∃ v d, Gives (lowerExpr r e) c v d ∧ Fails (lowerEach r es) d cause c' := by
  simp

theorem fails_lowerStmts {last : Option Typed} {s : Stmt} {ss : List Stmt} {diagnostic : Diagnostic} :
    Fails (lowerStmts r last (s :: ss)) c diagnostic c' ↔
      (∃ cause, Fails (lowerStmtValue r s) c cause c' ∧
        diagnostic = Diagnostic.pin c.function s.summary cause) ∨
      ∃ v d, Gives (lowerStmtValue r s) c v d ∧ Fails (lowerStmts r v ss) d diagnostic c' := by
  simp only [lowerStmts, pinned, fails_bind, gives_get, fails_get, gives_adapt, fails_adapt, false_or]
  constructor
  · rintro ⟨_, _, ⟨rfl, rfl⟩, h⟩
    exact h
  · exact fun h => ⟨c, c, ⟨rfl, rfl⟩, h⟩

theorem fails_expr {e : Expr} :
    Fails (lowerStmtValue r (.expr e)) c cause c' ↔ Fails (lowerExpr r e) c cause c' := by
  simp

/-- A variable of type `void` fails before anything is lowered. -/
theorem fails_var {name : String} {ty : Ty} :
    Fails (lowerStmtValue r (.var name ty none)) c cause c' ↔
      ty = .void ∧ cause = .voidBinding name ∧ c' = c ∨
      ty ≠ .void ∧ Fails (declareVar name ty) c cause c' := by
  by_cases h : ty = .void <;> simp [h]

theorem fails_var_init {name : String} {ty : Ty} {init : Expr} :
    Fails (lowerStmtValue r (.var name ty (some init))) c cause c' ↔
      ty = .void ∧ cause = .voidBinding name ∧ c' = c ∨
      ty ≠ .void ∧ (Fails (needed "initializer" init (lowerExpr r init)) c cause c' ∨
        ∃ t d, Gives (lowerExpr r init) c (some t) d ∧ (Fails (declareVar name ty) d cause c' ∨
          ∃ s d', Gives (declareVar name ty) d s d' ∧ Fails (storeInto name s t) d' cause c')) := by
  by_cases h : ty = .void <;> simp [h, gives_needed]

theorem fails_function {decl : FunctionDecl} :
    Fails (lowerStmtValue r (.function decl)) c cause c' ↔
      ∃ d, Fails (lowerFunction r decl) c d c' ∧ cause = .located d := by
  simp [located]

theorem fails_ret_none :
    Fails (lowerStmtValue r (.ret none)) c cause c' ↔ Fails (returnFrom none) c cause c' := by
  simp

theorem fails_ret {value : Expr} :
    Fails (lowerStmtValue r (.ret (some value))) c cause c' ↔ Fails frame c cause c' ∨
      c.frames ≠ [] ∧ (Fails (needed "return value" value (lowerExpr r value)) c cause c' ∨
        ∃ t d, Gives (lowerExpr r value) c (some t) d ∧ Fails (returnFrom (some t)) d cause c') := by
  simp only [lowerStmtValue, fails_bind, gives_frame, gives_needed, fails_pure, and_false,
    exists_false, or_false]
  constructor
  · rintro (h | ⟨_, _, ⟨⟨rest, hc⟩, rfl⟩, h⟩)
    · exact .inl h
    · exact .inr ⟨by simp [hc], h⟩
  · rintro (h | ⟨hc, h⟩)
    · exact .inl h
    · obtain ⟨f, rest, hf⟩ := List.exists_cons_of_ne_nil hc
      exact .inr ⟨f, c, ⟨⟨rest, hf⟩, rfl⟩, h⟩

theorem fails_lowerBranch {stmts : List Stmt} :
    Fails (lowerBranch r (some stmts)) c cause c' ↔
      ∃ d, Fails (lowerStmts r none stmts) c d c' ∧ cause = .located d := by
  simp [lowerBranch, located]

theorem fails_ite {cond : Expr} {thenBlock : List Stmt} {elseBlock : Option (List Stmt)} :
    Fails (lowerStmtValue r (.ite cond thenBlock elseBlock)) c cause c' ↔
      Fails (needed "if condition" cond (lowerExpr r cond)) c cause c' ∨
      ∃ t d, Gives (lowerExpr r cond) c (some t) d ∧ (Fails (test "if condition" t) d cause c' ∨
        ∃ o d', Gives (test "if condition" t) d o d' ∧ Fails
          (conditional o (lowerBranch r (some thenBlock)) (lowerBranch r elseBlock)) d' cause c') := by
  cases elseBlock <;> simp [gives_needed, lowerBranch]

theorem fails_lowerTest {cond : Expr} :
    Fails (lowerTest r cond) c cause c' ↔
      Fails (needed "for condition" cond (lowerExpr r cond)) c cause c' ∨
      ∃ t d, Gives (lowerExpr r cond) c (some t) d ∧ Fails (test "for condition" t) d cause c' := by
  simp [lowerTest, gives_needed]

theorem fails_lowerRound {body : List Stmt} {post : List Expr} :
    Fails (lowerRound r body post) c cause c' ↔ Fails (lowerBranch r (some body)) c cause c' ∨
      ∃ v d, Gives (lowerStmts r none body) c v d ∧ Fails (lowerEach r post) d cause c' := by
  simp only [lowerRound, fails_bind, lowerBranch_some]
  refine or_congr_right ⟨?_, ?_⟩
  · rintro ⟨_, d, ⟨v, hv⟩, h⟩
    exact ⟨v, d, hv, h⟩
  · rintro ⟨v, d, hv, h⟩
    exact ⟨(), d, ⟨v, hv⟩, h⟩

theorem fails_loop {init : List Expr} {cond : Expr} {post : List Expr} {body : List Stmt} :
    Fails (lowerStmtValue r (.loop init cond post body)) c cause c' ↔
      Fails (lowerEach r init) c cause c' ∨ ∃ d, Gives (lowerEach r init) c () d ∧
        Fails (repeated (lowerTest r cond) (lowerRound r body post)) d cause c' := by
  simp [lowerTest, lowerRound, lowerBranch]

end

end TreeLang.Lowering
