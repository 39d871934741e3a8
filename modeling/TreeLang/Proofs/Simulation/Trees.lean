import TreeLang.Proofs.Simulation.Bodies
import TreeLang.Proofs.Simulation.Calls
import TreeLang.Proofs.Simulation.Flow

namespace TreeLang.Simulation

open TreeLang.Tree (Ty Expr Stmt FunctionDecl nestedOfExprs nestedFunctions)
open Typing (Registry Callee)
open Ir (Knowledge)
open Machine (Caller State)
open Lowering
open Lower
open Meaning

/-- The finished function is part of a module that serves its calls. -/
structure Stage (m : Ir.Module) (F : Ir.Function) (env : Env) : Prop where
  finished : F.Finished
  returns : F.returns = env.returns.toIr
  serves : Serves m env

/-- The names in force are those of the function at hand, which returns what evaluation takes it to
return. -/
structure Entered (env : Env) (names : Names) (c : Context) : Prop extends Matches names c where
  returns : c.top.returns = env.returns

section

variable {m : Ir.Module} {F : Ir.Function} {cs : List Caller} {env : Env} {names : Names}
  {g : Knowledge} {c c' : Context} {v : Option Typed} {w : World} {s : State}

theorem Entered.unmoved (env : Env) (names : Names) : Unmoved (Entered env names) :=
  fun c c' hr h => ⟨Matches.unmoved names c c' hr h.toMatches, hr.returns.trans h.returns⟩

/-- A part that is lowered leaves the names of the function as the walk leaves them. -/
theorem Entered.next {ds : List FunctionDecl} {g' : Knowledge} {names' : Names}
    (h : Entered env names c) (hl : Lowered env.registry ds g c g' c') (hm : Matches names' c') :
    Entered env names' c' :=
  ⟨hm, hl.returns.trans h.returns⟩

theorem Stage.returns_top (st : Stage m F env) (h : Entered env names c) :
    F.returns = c.top.returns.toIr := by
  rw [st.returns, h.returns]

theorem keeps_expr (e : Expr) (hreg : Registered env.registry e.nestedFunctions)
    (hs : Sound env.registry g c) (hi : Entered env names c)
    (h : Gives (lowerExpr env.registry e) c v c') :
    ∃ g', Lowered env.registry e.nestedFunctions g c g' c' ∧
      (∀ t ∈ v, t.Fits env.registry g' c') ∧ Entered env (names.afterExpr e) c' := by
  obtain ⟨g', hl, hfit⟩ := lowerExpr_sound env.registry e hreg hs h
  have hn := lowerExpr_numbered env.registry _ e hreg c v c' h (.begin hs.orderly hi.toMatches)
  exact ⟨g', hl, hfit, hi.next hl hn.toMatches⟩

theorem keeps_each (es : List Expr) (hreg : Registered env.registry (nestedOfExprs es))
    (hs : Sound env.registry g c) (hi : Entered env names c)
    (h : Gives (lowerEach env.registry es) c () c') :
    ∃ g', Lowered env.registry (nestedOfExprs es) g c g' c' ∧
      Entered env (names.afterExprs es) c' := by
  obtain ⟨g', hl⟩ := lowerEach_sound env.registry es hreg hs h
  have hn := lowerEach_numbered env.registry _ es hreg c () c' h (.begin hs.orderly hi.toMatches)
  exact ⟨g', hl, hi.next hl hn.toMatches⟩

theorem keeps_stmt (st : Stmt) (hreg : Registered env.registry st.nestedFunctions)
    (hs : Sound env.registry g c) (hi : Entered env names c)
    (h : Gives (lowerStmtValue env.registry st) c v c') :
    ∃ g', Lowered env.registry st.nestedFunctions g c g' c' ∧
      (∀ t ∈ v, t.Fits env.registry g' c') ∧ Entered env (names.afterStmt st) c' := by
  obtain ⟨g', hl, hfit⟩ := lowerStmtValue_sound env.registry st hreg hs h
  have hn := lowerStmtValue_numbered env.registry _ st hreg c v c' h (.begin hs.orderly hi.toMatches)
  exact ⟨g', hl, hfit, hi.next hl hn.toMatches⟩

theorem keeps_stmts (ss : List Stmt) (hreg : Registered env.registry (nestedFunctions ss))
    (hs : Sound env.registry g c) (hi : Entered env names c)
    (h : Gives (lowerStmts env.registry none ss) c v c') :
    ∃ g', Lowered env.registry (nestedFunctions ss) g c g' c' ∧
      (∀ t ∈ v, t.Fits env.registry g' c') ∧ Entered env (names.afterStmts ss) c' := by
  obtain ⟨g', hl, hfit⟩ := lowerStmts_sound env.registry none ss hreg hs (by simp) h
  have hn := lowerStmts_numbered env.registry _ none ss hreg c v c' h (.begin hs.orderly hi.toMatches)
  exact ⟨g', hl, hfit, hi.next hl hn.toMatches⟩

theorem takes_expr (e : Expr) (hreg : Registered env.registry e.nestedFunctions) :
    Takes env.registry (Entered env names) (Entered env (names.afterExpr e))
      (lowerExpr env.registry e) := by
  intro g c v c' hs h hi
  obtain ⟨_, _, _, hi'⟩ := keeps_expr e hreg hs hi h
  exact hi'

theorem takes_each (es : List Expr) (hreg : Registered env.registry (nestedOfExprs es)) :
    Takes env.registry (Entered env names) (Entered env (names.afterExprs es))
      (lowerEach env.registry es) := by
  intro g c u c' hs h hi
  obtain ⟨_, _, hi'⟩ := keeps_each es hreg hs hi h
  exact hi'

theorem takes_stmts (ss : List Stmt) (hreg : Registered env.registry (nestedFunctions ss)) :
    Takes env.registry (Entered env names) (Entered env (names.afterStmts ss))
      (lowerStmts env.registry none ss) := by
  intro g c v c' hs h hi
  obtain ⟨_, _, _, hi'⟩ := keeps_stmts ss hreg hs hi h
  exact hi'

end

section

variable {m : Ir.Module} {F : Ir.Function} {cs : List Caller} {bound : Nat} {env : Env}
  {names : Names} {g : Knowledge} {c c' : Context} {w : World} {s : State}

/-- On what the lowering of a part lays out, the machine does what `x` says, and `R` holds between the
results. -/
def Executes {ε α β : Type} (m : Ir.Module) (F : Ir.Function) (cs : List Caller) (env : Env)
    (names : Names) (part : Lower ε α) (x : Eval β) (R : Nat → State → α → β → Prop) : Prop :=
  ∀ ⦃g c c' a w s⦄, Sound env.registry g c → Entered env names c → Gives part c a c' → Stays m F c' →
    Point F cs c.top.builder w s →
    Reaches m F cs (env.rounds + 1) c c' s w x fun b s' => R (temps c') s' a b

def evalBranch (env : Env) (names : Names) : Option (List Stmt) → Eval Unit
  | none => pure ()
  | some ss => discard (evalStmts env names none ss)

theorem evalStmt_ite (cond : Expr) (thenBlock : List Stmt) (elseBlock : Option (List Stmt)) :
    evalStmt env names (.ite cond thenBlock elseBlock) = (do
      let v ← Eval.needed (evalExpr env names cond)
      let b ← Eval.attempt v.isTrue
      (if b then evalBranch env (names.afterExpr cond) (some thenBlock)
        else evalBranch env ((names.afterExpr cond).afterStmts thenBlock) elseBlock)
      return none) := by
  cases elseBlock with
  | none =>
    rw [evalStmt]
    refine bind_congr fun v => bind_congr fun b => ?_
    cases b <;> simp [evalBranch]
  | some elseBlock =>
    rw [evalStmt]
    refine bind_congr fun v => bind_congr fun b => ?_
    cases b <;> simp [evalBranch]

/-- A block that stands for what it does is run like its statements. -/
theorem runs_block {ss : List Stmt} (hreg : Registered env.registry (nestedFunctions ss))
    (h : Executes m F cs env names (lowerStmts env.registry none ss) (evalStmts env names none ss)
      (Yields m)) :
    Runs env.registry m F cs (env.rounds + 1) (nestedFunctions ss) (Entered env names)
      (Entered env (names.afterStmts ss)) (lowerBranch env.registry (some ss))
      (evalBranch env names (some ss)) where
  moves := moves_block hreg (takes_stmts ss hreg)
  reaches g c c' w s hs hi hg hF hp := by
    obtain ⟨v, hg⟩ := lowerBranch_some.mp hg
    exact (h hs hi hg hF hp).discard

theorem runs_nothing :
    Runs env.registry m F cs bound [] (Entered env names) (Entered env names)
      (lowerBranch env.registry none) (evalBranch env names none) where
  moves := moves_nothing _
  reaches g c c' w s hs hi hg hF hp := by
    obtain rfl := lowerBranch_none.mp hg
    exact reaches_pure hp trivial

theorem reaches_store {name : String} {st : Storage} {t : Typed} {v : Value}
    (hs : Sound env.registry g c) (hfit : t.Fits env.registry g c)
    (hslot : (c.top.builder.function.slots.map (·.ty))[st.slot]? = some st.ty.toIr)
    (hcell : names.cell? name = some ⟨st.slot, st.ty⟩)
    (h : Gives (storeInto name st t) c () c') (hF : Stays m F c')
    (hp : Point F cs c.top.builder w s) (hv : Denotes m (temps c) s t v) :
    Reaches m F cs bound c c' s w (do
      Eval.assign names name v
      return none) fun u s' => Yields m (temps c') s' none u := by
  obtain ⟨w', hassign, hadv⟩ := advance_storeInto hs hfit hslot hcell h hF hp hv
  exact (reaches_of_gives (Q := fun _ _ => True) hassign hadv).andPure fun _ _ _ => trivial

theorem reaches_test {t : Typed} {o : Ir.Operand} {role : String} {v : Value}
    (hs : Sound env.registry g c) (hfit : t.Fits env.registry g c)
    (h : Gives (test role t) c o c') (hF : Stays m F c') (hp : Point F cs c.top.builder w s)
    (hv : Denotes m (temps c) s t v) :
    Reaches m F cs bound c c' s w (Eval.attempt v.isTrue) fun b s' =>
      s'.current.value m o = .ok (.ofBool b) := by
  obtain ⟨b, hb, hadv⟩ := advance_test hs hfit h hF hp hv
  rw [hb]
  apply reaches_of_gives (gives_pure.mpr ⟨rfl, rfl⟩)
  apply hadv.mono
  intro s' hs'
  obtain ⟨_, x, hx, rfl⟩ := hs'
  exact hx

/-- A condition of a loop, given what the machine does on the expression. -/
theorem tests_condition {cond : Expr} (hreg : Registered env.registry cond.nestedFunctions)
    (h : Executes m F cs env names (lowerExpr env.registry cond) (evalExpr env names cond)
      (Yields m)) :
    Tests env.registry m F cs (env.rounds + 1) cond.nestedFunctions (Entered env names)
      (Entered env (names.afterExpr cond)) (lowerTest env.registry cond) (do
        let v ← Eval.needed (evalExpr env names cond)
        Eval.attempt v.isTrue) where
  moves := moves_lowerTest (Entered.unmoved _ _).robust hreg (takes_expr cond hreg)
  reaches g c o c' w s hs hi hg hF hp := by
    obtain ⟨t, d, he, ht⟩ := gives_lowerTest.mp hg
    obtain ⟨g', hl, hfit⟩ := lowerExpr_sound env.registry cond hreg hs he
    have hs' := hl.sound hs
    obtain ⟨hl', _⟩ := sound_test hs' (hfit t rfl) ht
    apply (h hs hi he (stays_of_lowered hF hs' hl') hp).needed.bind
      (temps_le hl.toWorking)
    intro v w' s' ha hv
    exact reaches_test hs' (hfit t rfl) ht hF ha.point hv

/-- A round of a loop, given what the machine does on its body and on what follows it. -/
theorem runs_round {body : List Stmt} {post : List Expr}
    (hbodyReg : Registered env.registry (nestedFunctions body))
    (hpostReg : Registered env.registry (nestedOfExprs post))
    (hbody : Executes m F cs env names (lowerStmts env.registry none body)
      (evalStmts env names none body) (Yields m))
    (hpost : Executes m F cs env (names.afterStmts body) (lowerEach env.registry post)
      (evalEach env (names.afterStmts body) post) fun _ _ _ _ => True) :
    Runs env.registry m F cs (env.rounds + 1) (nestedFunctions body ++ nestedOfExprs post)
      (Entered env names) (Entered env ((names.afterStmts body).afterExprs post))
      (lowerRound env.registry body post) (do
        discard (evalStmts env names none body)
        evalEach env (names.afterStmts body) post) where
  moves := moves_lowerRound hbodyReg hpostReg (takes_stmts body hbodyReg) (takes_each post hpostReg)
  reaches g c c' w s hs hi hg hF hp := by
    obtain ⟨v, d, hb, hpo⟩ := gives_lowerRound.mp hg
    obtain ⟨g₁, l₁, _, i₁⟩ := keeps_stmts body hbodyReg hs hi hb
    have s₁ := l₁.sound hs
    obtain ⟨g₂, l₂, _⟩ := keeps_each post hpostReg s₁ i₁ hpo
    apply (hbody hs hi hb (stays_of_lowered hF s₁ l₂) hp).discard.bind
      (temps_le l₁.toWorking)
    intro _ w' s' ha _
    exact hpost s₁ i₁ hpo hF ha.point

/-- The machine follows a conditional through the branch that its condition selects. -/
theorem reaches_ite (st : Stage m F env) {ds ds' : List FunctionDecl} {names' : Names} {cond : Expr}
    {thenBlock : List Stmt} {elseBlock : Option (List Stmt)} {t : Typed} {o : Ir.Operand}
    {d d' : Context} (hs : Sound env.registry g d) (hi : Entered env (names.afterExpr cond) d)
    (hfit : t.Fits env.registry g d) (hle : temps c ≤ temps d)
    (ht : Gives (test "if condition" t) d o d')
    (h : Gives (conditional o (lowerBranch env.registry (some thenBlock))
      (lowerBranch env.registry elseBlock)) d' () c')
    (hcond : Stays m F d → Reaches m F cs (env.rounds + 1) c d s w (evalExpr env names cond)
      fun u s' => Yields m (temps d) s' (some t) u)
    (hthen : Runs env.registry m F cs (env.rounds + 1) ds (Entered env (names.afterExpr cond))
      (Entered env ((names.afterExpr cond).afterStmts thenBlock))
      (lowerBranch env.registry (some thenBlock))
      (evalBranch env (names.afterExpr cond) (some thenBlock)))
    (helse : Runs env.registry m F cs (env.rounds + 1) ds'
      (Entered env ((names.afterExpr cond).afterStmts thenBlock)) (Entered env names')
      (lowerBranch env.registry elseBlock)
      (evalBranch env ((names.afterExpr cond).afterStmts thenBlock) elseBlock))
    (hF : Stays m F c') :
    Reaches m F cs (env.rounds + 1) c c' s w (evalStmt env names (.ite cond thenBlock elseBlock))
      fun u s' => Yields m (temps c') s' none u := by
  obtain ⟨l₁, ho⟩ := sound_test hs hfit ht
  have s₁ := l₁.sound hs
  have i₁ := Entered.unmoved _ _ d d' (tame_test _ t d o d' ht) hi
  obtain ⟨g₂, l₂⟩ := sound_conditional s₁ ho (fun g c c' hs h => (hthen.moves g c c' hs h).1)
    (fun g c c' hs h => (helse.moves g c c' hs h).1) h
  have hF₁ := stays_of_lowered hF s₁ l₂
  rw [evalStmt_ite]
  apply (hcond (stays_of_lowered hF₁ hs l₁)).needed.bind hle
  intro v w₁ s₁' ha₁ hv
  apply (reaches_test hs hfit ht hF₁ ha₁.point hv).bind (temps_le l₁.toWorking)
  intro b w₂ s₂' ha₂ hb
  apply Reaches.andPure (reaches_conditional st.finished (Entered.unmoved _ _).robust
    (Entered.unmoved _ _).robust s₁ i₁ ho hthen helse h hF ha₂.point hb)
  exact fun _ _ _ => trivial

/-- The machine follows a loop through the part in front of it and through its rounds. -/
theorem reaches_loop (st : Stage m F env) {ds ds' : List FunctionDecl} {names' names'' : Names}
    {init post : List Expr} {cond : Expr} {body : List Stmt} {d : Context}
    (hs : Sound env.registry g d) (hi : Entered env (names.afterExprs init) d)
    (hle : temps c ≤ temps d)
    (h : Gives (repeated (lowerTest env.registry cond) (lowerRound env.registry body post)) d () c')
    (hinit : Stays m F d → Reaches m F cs (env.rounds + 1) c d s w (evalEach env names init)
      fun _ _ => True)
    (htest : Tests env.registry m F cs (env.rounds + 1) ds (Entered env (names.afterExprs init))
      (Entered env names') (lowerTest env.registry cond) (do
        let v ← Eval.needed (evalExpr env (names.afterExprs init) cond)
        Eval.attempt v.isTrue))
    (hround : Runs env.registry m F cs (env.rounds + 1) ds' (Entered env names')
      (Entered env names'') (lowerRound env.registry body post) (do
        discard (evalStmts env ((names.afterExprs init).afterExpr cond) none body)
        evalEach env (((names.afterExprs init).afterExpr cond).afterStmts body) post))
    (hF : Stays m F c') :
    Reaches m F cs (env.rounds + 1) c c' s w (evalStmt env names (.loop init cond post body))
      fun u s' => Yields m (temps c') s' none u := by
  obtain ⟨g₁, l₁⟩ := sound_repeated hs (fun g c o c' hs h => (htest.moves g c o c' hs h).1)
    (fun g c c' hs h => (hround.moves g c c' hs h).1) h
  rw [evalStmt]
  apply (hinit (stays_of_lowered hF hs l₁)).bind hle
  intro _ w₁ s₁' ha₁ _
  apply Reaches.andPure (reaches_repeated st.finished (Entered.unmoved _ _).robust
    (Entered.unmoved _ _).robust hs hi htest hround h hF ha₁.point)
  exact fun _ _ _ => trivial

end

mutual

/-- The machine follows every expression. -/
theorem reaches_expr {m : Ir.Module} {F : Ir.Function} {cs : List Caller} {env : Env}
    (st : Stage m F env) : ∀ (e : Expr) {names : Names}, Registered env.registry e.nestedFunctions →
    Executes m F cs env names (lowerExpr env.registry e) (evalExpr env names e) (Yields m)
  | .int n, names, _ => by
    intro g c c' v w s hs hi h hF hp
    obtain ⟨rfl, rfl⟩ := lower_int.mp h
    rw [evalExpr]
    exact reaches_pure hp (denotes_plain ⟨trivial, .i32 n, rfl, rfl⟩ rfl)
  | .double x, names, _ => by
    intro g c c' v w s hs hi h hF hp
    obtain ⟨rfl, rfl⟩ := lower_double.mp h
    rw [evalExpr]
    exact reaches_pure hp (denotes_plain ⟨trivial, .f64 x, rfl, rfl⟩ rfl)
  | .str text, names, _ => by
    intro g c c' v w s hs hi h hF hp
    obtain ⟨rfl, rfl⟩ := lower_str.mp h
    have hstr : m.strings[c.module.strings.length]? = some text :=
      Ir.getElem?_of_extended hF.strings (by simp)
    rw [evalExpr]
    apply reaches_of_gives (gives_pure.mpr ⟨rfl, rfl⟩)
    have hvalue : s.current.value m (.str c.module.strings.length) =
        .ok (.ofText names.literals text) := by
      simp [Machine.Activation.value, hstr, hi.literals]
    exact ⟨0, s, .refl m s, ⟨hp, .refl m _ s⟩, denotes_plain ⟨trivial, _, hvalue, rfl⟩ rfl⟩
  | .ident name, names, _ => by
    intro g c c' v w s hs hi h hF hp
    obtain ⟨t, ht, rfl⟩ := lower_ident.mp h
    obtain ⟨u, hu, hadv⟩ := advance_readName hs hi.toMatches ht hF hp
    rw [evalExpr]
    exact reaches_of_gives (gives_map.mpr ⟨u, hu, rfl⟩) hadv
  | .neg e, names, hreg => by
    intro g c c' v w s hs hi h hF hp
    obtain ⟨t, d, u, he, hn, rfl⟩ := lower_neg.mp h
    obtain ⟨g₁, l₁, hfit, i₁⟩ := keeps_expr e hreg hs hi he
    have s₁ := l₁.sound hs
    obtain ⟨l₂, _⟩ := sound_negate s₁ (hfit t rfl) hn
    rw [evalExpr]
    apply (reaches_expr st e hreg hs hi he (stays_of_lowered hF s₁ l₂) hp).needed.bind
      (temps_le l₁.toWorking)
    intro x w' s' ha hx
    obtain ⟨y, hy, hadv⟩ := advance_negate s₁ (hfit t rfl) hn hF ha.point hx
    rw [hy]
    exact reaches_of_gives (gives_map.mpr ⟨y, gives_pure.mpr ⟨rfl, rfl⟩, rfl⟩) hadv
  | .binary op lhs rhs, names, hreg => by
    intro g c c' v w s hs hi h hF hp
    obtain ⟨t, d, t', d', u, hl, hr, hc, rfl⟩ := lower_binary.mp h
    obtain ⟨g₁, l₁, hfit₁, i₁⟩ := keeps_expr lhs hreg.left hs hi hl
    have s₁ := l₁.sound hs
    obtain ⟨g₂, l₂, hfit₂, i₂⟩ := keeps_expr rhs hreg.right s₁ i₁ hr
    have s₂ := l₂.sound s₁
    have hfit := (hfit₁ t rfl).mono l₂.toWorking
    obtain ⟨l₃, _⟩ := sound_combine s₂ hfit (hfit₂ t' rfl) hc
    have hF₂ := stays_of_lowered hF s₂ l₃
    rw [evalExpr]
    apply (reaches_expr st lhs hreg.left hs hi hl (stays_of_lowered hF₂ s₁ l₂) hp).needed.bind
      (temps_le l₁.toWorking)
    intro x w₁ s₁' ha₁ hx
    apply (reaches_expr st rhs hreg.right s₁ i₁ hr hF₂ ha₁.point).needed.bind
      (temps_le l₂.toWorking)
    intro y w₂ s₂' ha₂ hy
    have hx₂ := Carries.kept hx ha₂.kept (temps_le l₂.toWorking)
    rw [map_eq_pure_bind]
    exact (reaches_combine s₂ hfit (hfit₂ t' rfl) hc hF ha₂.point hx₂ hy).andPure fun _ _ hu => hu
  | .assign target value, names, hreg => by
    intro g c c' v w s hs hi h hF hp
    obtain ⟨f, rest, sl, t, d, hc, hst, he, hstore, rfl⟩ := lower_assign.mp h
    obtain rfl := Context.top_eq hc
    obtain ⟨g₁, l₁, hfit, i₁⟩ := keeps_expr value hreg hs hi he
    have s₁ := l₁.sound hs
    have hslot := Ir.getElem?_of_extended (l₁.laid.slots.map _) (hs.stored target sl hst).2
    have l₂ := sound_storeInto s₁ hslot (hfit t rfl) hstore
    rw [evalExpr]
    apply (reaches_expr st value hreg hs hi he (stays_of_lowered hF s₁ l₂) hp).needed.bind
      (temps_le l₁.toWorking)
    intro x w' s' ha hx
    exact reaches_store s₁ (hfit t rfl) hslot (hi.cell? hst) hstore hF ha.point hx
  | .call name args, names, hreg => by
    intro g c c' v w s hs hi h hF hp
    obtain ⟨callee, values, d, hres, hacc, hargs, hcall⟩ := lower_call.mp h
    rw [resolve_externals hs.orderly] at hres
    obtain ⟨g₁, l₁, hlen, hvals⟩ := lowerArgs_sound env.registry callee 0 args hreg hs hargs
    have s₁ := l₁.sound hs
    simp only [Nat.zero_add] at hvals
    obtain ⟨l₂, _⟩ := sound_call s₁ hres (hlen ▸ hacc) hvals hcall
    have hfirst := reaches_args st callee 0 args hreg hs hi hargs (stays_of_lowered hF s₁ l₂) hp
    have hresolve : Eval.resolve env name = pure callee := by
      simp [Eval.resolve, hres]
    rw [evalExpr, hresolve, pure_bind]
    apply hfirst.bind (temps_le l₁.toWorking)
    intro vs w' s' ha hvs
    exact follows_call st.serves s₁ rfl hres (hlen ▸ hacc) hcall hF ha.point hvs.1 hvs.2
  | .block stmts, names, hreg => by
    intro g c c' v w s hs hi h hF hp
    rw [evalExpr]
    exact reaches_stmts st stmts hreg hs (by simp) hi (lower_block.mp h) hF hp trivial

/-- The arguments of a call are evaluated from left to right, each converted before the next one. -/
theorem reaches_args {m : Ir.Module} {F : Ir.Function} {cs : List Caller} {env : Env}
    (st : Stage m F env) (callee : Callee) (index : Nat) : ∀ (es : List Expr) {names : Names},
    Registered env.registry (nestedOfExprs es) →
    Executes m F cs env names (lowerArgs env.registry callee index es)
      (evalArgs env names (callee.params.drop index) es) fun n s os vs =>
        BearsAll m n s os vs ∧ Suited (callee.params.drop index) vs
  | [], names, _ => by
    intro g c c' values w s hs hi h hF hp
    obtain ⟨rfl, rfl⟩ := lowerArgs_nil.mp h
    rw [evalArgs]
    refine reaches_pure hp ⟨.nil, ?_⟩
    cases callee.params.drop index <;> trivial
  | e :: es, names, hreg => by
    intro g c c' values w s hs hi h hF hp
    obtain ⟨t, d, value, d', rest, he, harg, hes, rfl⟩ := lowerArgs_cons.mp h
    obtain ⟨g₁, l₁, hfit, i₁⟩ := keeps_expr e hreg.left hs hi he
    have s₁ := l₁.sound hs
    obtain ⟨l₂, _⟩ := sound_argument s₁ (hfit t rfl) harg
    have s₂ := l₂.sound s₁
    have i₂ := Entered.unmoved _ _ d d' (tame_argument callee index t d value d' harg) i₁
    obtain ⟨g₃, l₃, _⟩ := lowerArgs_sound env.registry callee (index + 1) es hreg.right s₂ hes
    have hF₂ := stays_of_lowered hF s₂ l₃
    rw [evalArgs, List.head?_drop, List.tail_drop]
    apply (reaches_expr st e hreg.left hs hi he (stays_of_lowered hF₂ s₁ l₂) hp).needed.bind
      (temps_le l₁.toWorking)
    intro x w₁ s₁' ha₁ hx
    obtain ⟨y, hy, hty, hadv⟩ := advance_argument s₁ (hfit t rfl) harg hF₂ ha₁.point hx
    apply (reaches_of_gives (Q := fun z s' => z = y ∧ Bears m (temps d') s' value y) hy
      (hadv.mono fun _ hb => ⟨rfl, hb⟩)).bind (temps_le l₂.toWorking)
    intro z w₂ s₂' ha₂ hz
    obtain ⟨rfl, hb⟩ := hz
    apply (reaches_args st callee (index + 1) es hreg.right s₂ i₂ hes hF ha₂.point).bind
      (temps_le l₃.toWorking)
    intro vs w₃ s₃' ha₃ hvs
    have hb₃ := Carries.kept hb ha₃.kept (temps_le l₃.toWorking)
    exact reaches_pure ha₃.point ⟨.cons hb₃ hvs.1, suited_cons hty hvs.2⟩

theorem reaches_each {m : Ir.Module} {F : Ir.Function} {cs : List Caller} {env : Env}
    (st : Stage m F env) : ∀ (es : List Expr) {names : Names},
    Registered env.registry (nestedOfExprs es) →
    Executes m F cs env names (lowerEach env.registry es) (evalEach env names es)
      fun _ _ _ _ => True
  | [], names, _ => by
    intro g c c' u w s hs hi h hF hp
    obtain rfl := lowerEach_nil.mp h
    rw [evalEach]
    exact reaches_pure hp trivial
  | e :: es, names, hreg => by
    intro g c c' u w s hs hi h hF hp
    obtain ⟨v, d, he, hes⟩ := lowerEach_cons.mp h
    obtain ⟨g₁, l₁, _, i₁⟩ := keeps_expr e hreg.left hs hi he
    have s₁ := l₁.sound hs
    obtain ⟨g₂, l₂⟩ := lowerEach_sound env.registry es hreg.right s₁ hes
    rw [evalEach]
    apply (reaches_expr st e hreg.left hs hi he (stays_of_lowered hF s₁ l₂) hp).bind
      (temps_le l₁.toWorking)
    intro _ w' s' ha _
    exact reaches_each st es hreg.right s₁ i₁ hes hF ha.point

theorem reaches_stmts {m : Ir.Module} {F : Ir.Function} {cs : List Caller} {env : Env}
    (st : Stage m F env) : ∀ (ss : List Stmt) {g : Knowledge} {c c' : Context}
    {last v : Option Typed} {names : Names} {w : World} {s : State} {u : Option Value},
    Registered env.registry (nestedFunctions ss) → Sound env.registry g c →
    (∀ t ∈ last, t.Fits env.registry g c) → Entered env names c →
    Gives (lowerStmts env.registry last ss) c v c' → Stays m F c' → Point F cs c.top.builder w s →
    Yields m (temps c) s last u →
    Reaches m F cs (env.rounds + 1) c c' s w (evalStmts env names u ss) fun u s' =>
      Yields m (temps c') s' v u
  | [], g, c, c', last, v, names, w, s, u, _, hs, _, hi, h, hF, hp, hu => by
    obtain ⟨rfl, rfl⟩ := lowerStmts_nil.mp h
    rw [evalStmts]
    exact reaches_pure hp hu
  | x :: ss, g, c, c', last, v, names, w, s, u, hreg, hs, _, hi, h, hF, hp, _ => by
    obtain ⟨t, d, hx, hss⟩ := lowerStmts_cons.mp h
    obtain ⟨g₁, l₁, hfit, i₁⟩ := keeps_stmt x hreg.left hs hi hx
    have s₁ := l₁.sound hs
    obtain ⟨g₂, l₂, _⟩ := lowerStmts_sound env.registry t ss hreg.right s₁ hfit hss
    rw [evalStmts]
    apply (reaches_stmt st x hreg.left hs hi hx (stays_of_lowered hF s₁ l₂) hp).bind
      (temps_le l₁.toWorking)
    intro u' w' s' ha hu'
    exact reaches_stmts st ss hreg.right s₁ hfit i₁ hss hF ha.point hu'

/-- The machine follows every statement. A function declared in it does nothing where it stands. -/
theorem reaches_stmt {m : Ir.Module} {F : Ir.Function} {cs : List Caller} {env : Env}
    (st : Stage m F env) : ∀ (x : Stmt) {names : Names},
    Registered env.registry x.nestedFunctions →
    Executes m F cs env names (lowerStmtValue env.registry x) (evalStmt env names x) (Yields m)
  | .expr e, names, hreg => by
    intro g c c' v w s hs hi h hF hp
    rw [evalStmt]
    exact reaches_expr st e hreg hs hi (lower_expr.mp h) hF hp
  | .var name ty none, names, _ => by
    intro g c c' v w s hs hi h hF hp
    obtain ⟨_, ⟨sl, hd⟩, rfl⟩ := lower_var.mp h
    obtain ⟨_, ha⟩ := advance_declareVar (m := m) hs hd hp
    rw [evalStmt]
    exact reaches_of_gives (gives_pure.mpr ⟨rfl, rfl⟩) ⟨0, s, .refl m s, ha, trivial⟩
  | .var name ty (some init), names, hreg => by
    intro g c c' v w s hs hi h hF hp
    obtain ⟨hty, t, d, sl, d', he, hd, hstore, rfl⟩ := lower_var_init.mp h
    obtain ⟨g₁, l₁, hfit, i₁⟩ := keeps_expr init hreg hs hi he
    have s₁ := l₁.sound hs
    obtain ⟨l₂, _, hslot⟩ := sound_declareVar s₁ hty hd
    have s₂ := l₂.sound s₁
    have hfit₂ := (hfit t rfl).mono l₂.toWorking
    have l₃ := sound_storeInto s₂ hslot hfit₂ hstore
    have hF₂ := stays_of_lowered hF s₂ l₃
    rw [evalStmt]
    apply (reaches_expr st init hreg hs hi he (stays_of_lowered hF₂ s₁ l₂) hp).needed.bind
      (temps_le l₁.toWorking)
    intro x w' s' ha hx
    obtain ⟨htemps, ha₂⟩ := advance_declareVar (m := m) s₁ hd ha.point
    obtain ⟨_, rfl⟩ := i₁.declareVar hd
    have hcell : ((names.afterExpr init).declare name ty).cell? name =
        some ⟨(names.afterExpr init).cells.length, ty⟩ := by
      simp [Names.cell?, Names.declare]
    apply Reaches.of_later (Nat.le_of_eq htemps.symm)
    exact reaches_store s₂ hfit₂ hslot hcell hstore hF ha₂.point (htemps ▸ hx)
  | .function ⟨name, params, returns, body⟩, names, hreg => by
    intro g c c' v w s hs hi h hF hp
    obtain ⟨hf, rfl⟩ := lower_function.mp h
    have htop := (Apart.of_gives hf).top
    rw [evalStmt]
    apply reaches_of_gives (gives_pure.mpr ⟨rfl, rfl⟩)
    exact ⟨0, s, .refl m s, ⟨htop ▸ hp, .refl m _ s⟩, trivial⟩
  | .ret none, names, _ => by
    intro g c c' v w s hs hi h hF hp
    obtain ⟨t, d, ⟨_, rfl, rfl⟩ | ⟨_, _, hnone, _⟩, hret, rfl⟩ := lower_ret.mp h
    · rw [evalStmt]
      exact follows_of_fails (fails_throw.mpr ⟨rfl, rfl⟩)
        (stops_return st.finished (st.returns_top hi) hret hF hp)
    · cases hnone
  | .ret (some value), names, hreg => by
    intro g c c' v w s hs hi h hF hp
    obtain ⟨t, d, ⟨hsome, _⟩ | ⟨_, t, ⟨rfl⟩, rfl, _, he⟩, hret, rfl⟩ := lower_ret.mp h
    · cases hsome
    · obtain ⟨g₁, l₁, hfit, i₁⟩ := keeps_expr value hreg hs hi he
      have s₁ := l₁.sound hs
      obtain ⟨g₂, l₂⟩ := sound_returnFrom s₁ hfit hret
      rw [evalStmt]
      apply (reaches_expr st value hreg hs hi he (stays_of_lowered hF s₁ l₂) hp).needed.bind
        (temps_le l₁.toWorking)
      intro x w' s' ha hx
      obtain ⟨u, hu, hstops⟩ := stops_return_value st.finished (st.returns_top i₁) s₁ (hfit t rfl)
        hret hF ha.point hx
      rw [← i₁.returns, hu]
      exact follows_of_fails (fails_bind.mpr (.inr ⟨u, w', gives_pure.mpr ⟨rfl, rfl⟩,
        fails_throw.mpr ⟨rfl, rfl⟩⟩)) hstops
  | .ite cond thenBlock none, names, hreg => by
    intro g c c' v w s hs hi h hF hp
    obtain ⟨t, d, o, d', he, ht, hcond, rfl⟩ := lower_ite.mp h
    obtain ⟨g₁, l₁, hfit, i₁⟩ := keeps_expr cond hreg.left hs hi he
    refine reaches_ite st (l₁.sound hs) i₁ (hfit t rfl) (temps_le l₁.toWorking) ht hcond
      (fun hF => reaches_expr st cond hreg.left hs hi he hF hp) (runs_block hreg.right ?_)
      runs_nothing hF
    intro g c c' v w s hs hi h hF hp
    exact reaches_stmts st thenBlock hreg.right hs (by simp) hi h hF hp trivial
  | .ite cond thenBlock (some elseBlock), names, hreg => by
    intro g c c' v w s hs hi h hF hp
    obtain ⟨t, d, o, d', he, ht, hcond, rfl⟩ := lower_ite.mp h
    obtain ⟨g₁, l₁, hfit, i₁⟩ := keeps_expr cond hreg.left.left hs hi he
    refine reaches_ite st (l₁.sound hs) i₁ (hfit t rfl) (temps_le l₁.toWorking) ht hcond
      (fun hF => reaches_expr st cond hreg.left.left hs hi he hF hp)
      (runs_block hreg.left.right ?_) (runs_block hreg.right ?_) hF
    · intro g c c' v w s hs hi h hF hp
      exact reaches_stmts st thenBlock hreg.left.right hs (by simp) hi h hF hp trivial
    · intro g c c' v w s hs hi h hF hp
      exact reaches_stmts st elseBlock hreg.right hs (by simp) hi h hF hp trivial
  | .loop init cond post body, names, hreg => by
    intro g c c' v w s hs hi h hF hp
    obtain ⟨d, hinit, hloop, rfl⟩ := lower_loop.mp h
    obtain ⟨g₁, l₁, i₁⟩ := keeps_each init hreg.left.left.left hs hi hinit
    refine reaches_loop st (l₁.sound hs) i₁ (temps_le l₁.toWorking) hloop
      (fun hF => reaches_each st init hreg.left.left.left hs hi hinit hF hp)
      (tests_condition hreg.left.left.right (reaches_expr st cond hreg.left.left.right))
      (runs_round hreg.right hreg.left.right ?_ (reaches_each st post hreg.left.right)) hF
    intro g c c' v w s hs hi h hF hp
    exact reaches_stmts st body hreg.right hs (by simp) hi h hF hp trivial

end

end TreeLang.Simulation
