import TreeLang.Proofs.Lowering.Functions

namespace TreeLang.Lowering

open TreeLang.Tree (Ty Expr Stmt FunctionDecl nestedOfExprs nestedFunctions)
open Typing (Registry Callee coercible)
open Ir (Knowledge Certified Surroundings)
open Lower

variable {r : Registry} {g : Knowledge} {c c' : Context}

/-- No external function takes or returns a comparison. -/
theorem prototype_types : ∀ x ∈ Ir.prototypes, x.returns ≠ .bool ∧ ∀ ty ∈ x.params, ty ≠ .bool := by
  decide

/-- A callee is what instructions take its name for. -/
theorem callee_signature {name : String} {callee : Callee}
    (h : Callee.resolve r Ir.prototype? name = .ok callee) :
    callee.name = name ∧ ∃ x, callees r name = some x ∧ x.params = callee.params.map Ty.toIr ∧
      x.returns = callee.returns.toIr ∧ ∀ n, x.accepts n = callee.accepts n := by
  unfold Callee.resolve at h
  unfold callees
  cases hr : r.get? name with
  | some decl =>
    rw [hr] at h
    cases h
    have hname : decl.name = name := by simpa using List.find?_some hr
    refine ⟨hname, signature decl, rfl, ?_, rfl, fun n => ?_⟩
    · simp [signature, Callee.params]
    · simp [Ir.External.accepts, signature, Callee.accepts]
  | none =>
    rw [hr] at h
    cases hp : Ir.prototype? name with
    | none => rw [hp] at h; cases h
    | some x =>
      rw [hp] at h
      cases h
      have hname : x.name = name := by simpa using List.find?_some hp
      obtain ⟨hret, hparams⟩ := prototype_types x (List.mem_of_find?_eq_some hp)
      refine ⟨hname, x, rfl, ?_, (Ty.toIr_ofIr hret).symm, fun n => rfl⟩
      simp only [Callee.params, List.map_map]
      refine ((List.map_congr_left fun ty hty => ?_).trans (List.map_id _)).symm
      exact Ty.toIr_ofIr (hparams ty hty)

/-- As long as the module is in order, a call resolves in it as it does among the prototypes. -/
theorem resolve_externals (ho : Orderly r c.module) (name : String) :
    Callee.resolve r c.module.external? name = Callee.resolve r Ir.prototype? name := by
  unfold Callee.resolve
  cases hr : r.get? name with
  | some decl => rfl
  | none => simp [ho.externals name hr]

/-- An argument is converted to the type of its parameter, or passed as a value where there is none. -/
theorem sound_argument (hs : Sound r g c) {callee : Callee} {index : Nat} {t : Typed}
    {v : Ir.Operand} (ht : t.Fits r g c) (h : Gives (argument callee index t) c v c') :
    Lowered r [] g c g c' ∧ v.IsArgument (c'.surroundings r) (c'.top.builder.known g)
      (callee.params.map Ty.toIr)[index]? := by
  rcases gives_argument.mp h with ⟨expected, hp, _, hco⟩ | ⟨hp, hm⟩
  · obtain ⟨hl, hv⟩ := sound_coerce hs ht hco
    refine ⟨hl, expected.toIr, hv, ?_⟩
    simp [hp]
  · obtain ⟨hl, hv⟩ := sound_materialize hs ht hm
    refine ⟨hl, t.ty.toIr, hv, ?_⟩
    have hne := ht.ty
    rw [List.getElem?_map, hp]
    cases hty : t.ty <;> simp_all [Ty.toIr]

/-- A call whose arguments have the types of the parameters is legal. -/
theorem sound_call (hs : Sound r g c) {name : String} {callee : Callee} {args : List Ir.Operand}
    {u : Option Typed} (hcallee : Callee.resolve r Ir.prototype? name = .ok callee)
    (hacc : callee.accepts args.length = true)
    (hargs : ∀ (i : Nat) (o : Ir.Operand), args[i]? = some o →
      o.IsArgument (c.surroundings r) (c.top.builder.known g) (callee.params.map Ty.toIr)[i]?)
    (h : Gives (call callee args) c u c') : Lowered r [] g c g c' ∧ ∀ t ∈ u, t.Fits r g c' := by
  obtain ⟨hname, x, hx, hparams, hreturns, haccepts⟩ := callee_signature hcallee
  rcases gives_call.mp h with ⟨hvoid, rfl, ha⟩ | ⟨hne, o, rfl, hd⟩
  · refine ⟨sound_append hs ha rfl rfl ⟨x, hname ▸ hx, (haccepts _).trans hacc, ?_, ?_, ?_⟩,
      by simp⟩
    · rw [hreturns, hvoid]
      rfl
    · simp
    · exact hparams ▸ hargs
  · have hir : callee.returns.toIr ≠ .void := fun hv => hne (Ty.toIr_injective hv)
    obtain ⟨hl, ho⟩ := sound_define hs hd (fun _ => rfl) (fun _ => rfl) fun _ =>
      ⟨x, hname ▸ hx, (haccepts _).trans hacc, hreturns.symm, by simp [hir], hparams ▸ hargs⟩
    refine ⟨hl, fun t ht => ?_⟩
    rw [Option.mem_some_iff] at ht
    subst ht
    exact Typed.fits_plain hne ho

/-- A function is lowered beside the one at hand, which stays as it was. -/
theorem sound_lowerFunction {decl : FunctionDecl} {u : Unit} (hs : Sound r g c)
    (hr : Registered r (decl :: nestedFunctions decl.body))
    (hbody : ∀ g c v c', Sound r g c → Gives (lowerStmts r none decl.body) c v c' →
      ∃ g', Lowered r (nestedFunctions decl.body) g c g' c' ∧ ∀ t ∈ v, t.Fits r g' c')
    (h : Gives (lowerFunction r decl) c u c') :
    Lowered r (decl :: nestedFunctions decl.body) g c g c' ∧ c'.frames = c.frames ∧
      c'.scopes = c.scopes := by
  obtain ⟨v, d, d', d'', f, rest, m, henter, hlower, hclose, hf, hm, rfl⟩ := gives_lowerFunction.mp h
  have l₀ := sound_enter hs.orderly decl.name decl.params decl.returns
  have l₁ := sound_enterFunction hs.orderly henter
  have s₁ := l₁.sound l₀
  obtain ⟨g', l₂, hv⟩ := hbody _ d v d' s₁ hlower
  have w₃ := sound_close l₀ (l₁.trans l₂).toWorking l₂.isOpen (.value v) hv hclose
  obtain rfl := Context.top_eq hf
  obtain ⟨F, hF, hnew, hname, rfl⟩ := define_eq_ok hm
  have hname : F.name = decl.name := hname.trans w₃.laid.name
  have hrest : rest = c.frames := by
    have := w₃.tail
    rw [hf] at this
    exact this
  have hscopes : d''.scopes.leave = c.scopes := by
    have hout : d''.scopes.outer = c.scopes.inner :: c.scopes.outer := w₃.outer
    simp [Typing.Scopes.leave, hout]
  have htop : Context.top { d'' with
      module := { d''.module with
        functions := d''.module.functions ++ [F]
        externals := d''.module.externals.filter (·.name != F.name) }
      scopes := d''.scopes.leave
      frames := rest } = c.top := by
    simp [Context.top, hrest]
  have hcompiled : FunctionDecl.Compiled r decl d''.module.strings F :=
    ⟨_, .intro rfl henter s₁ hlower (l₂.sound s₁) hclose w₃.laid hF List.prefix_rfl hr.tail⟩
  refine ⟨⟨?_, by rw [htop]; exact hs.isOpen⟩, hrest, hscopes⟩
  refine { frames := hrest ▸ hs.frames, tail := by rw [hrest], laid := ?_, stored := htop ▸ hs.stored,
           returns := by rw [htop], outer := by rw [hscopes], strings := w₃.strings,
           functions := w₃.functions.trans (List.prefix_append _ _), orderly := ?_, made := ?_,
           found := ?_ }
  · rw [htop]
    exact (Working.refl hs).laid.mono w₃.strings.length_le
  · refine w₃.orderly.define hnew fun hnone => ?_
    rw [hname, hr decl List.mem_cons_self] at hnone
    cases hnone
  · intro F' hF'
    rcases List.mem_append.mp hF' with hF' | hF'
    · rcases w₃.made F' hF' with hold | ⟨d, hd, hmade⟩
      · exact .inl hold
      · exact .inr ⟨d, List.mem_cons_of_mem _ hd, hmade⟩
    · rw [List.mem_singleton.mp hF']
      exact .inr ⟨decl, List.mem_cons_self, hname, hcompiled⟩
  · intro d hd
    rcases List.mem_cons.mp hd with rfl | hd
    · exact ⟨F, by simp, hname, hcompiled⟩
    · obtain ⟨F', hF', h⟩ := w₃.found d hd
      exact ⟨F', List.mem_append_left _ hF', h⟩

section Parts

variable {ds ds' : List FunctionDecl} {block : List Stmt} {cond : Expr} {post : List Expr}

theorem sound_nothing (hs : Sound r g c) (h : Gives (lowerBranch r none) c () c') :
    ∃ g', Lowered r [] g c g' c' := by
  obtain rfl := lowerBranch_none.mp h
  exact ⟨g, .refl hs⟩

/-- A branch is lowered as its statements are, and its value is dropped. -/
theorem sound_lowerBranch
    (hblock : ∀ {v}, Gives (lowerStmts r none block) c v c' →
      ∃ g', Lowered r ds g c g' c' ∧ ∀ t ∈ v, t.Fits r g' c')
    (h : Gives (lowerBranch r (some block)) c () c') : ∃ g', Lowered r ds g c g' c' := by
  obtain ⟨v, h⟩ := lowerBranch_some.mp h
  obtain ⟨g', hl, _⟩ := hblock h
  exact ⟨g', hl⟩

theorem sound_lowerTest {o : Ir.Operand} (hs : Sound r g c)
    (hcond : ∀ {v d}, Gives (lowerExpr r cond) c v d →
      ∃ g', Lowered r ds g c g' d ∧ ∀ t ∈ v, t.Fits r g' d)
    (h : Gives (lowerTest r cond) c o c') : ∃ g', Lowered r ds g c g' c' ∧ Holds r g' c' o .bool := by
  obtain ⟨t, d, he, ht⟩ := gives_lowerTest.mp h
  obtain ⟨g', hl, hfit⟩ := hcond he
  obtain ⟨hl', ho⟩ := sound_test (hl.sound hs) (hfit t rfl) ht
  exact ⟨g', hl.andThen hl', ho⟩

theorem sound_lowerRound (hs : Sound r g c)
    (hbody : ∀ {v d}, Gives (lowerStmts r none block) c v d →
      ∃ g', Lowered r ds g c g' d ∧ ∀ t ∈ v, t.Fits r g' d)
    (hpost : ∀ {g d}, Sound r g d → Gives (lowerEach r post) d () c' →
      ∃ g', Lowered r ds' g d g' c')
    (h : Gives (lowerRound r block post) c () c') : ∃ g', Lowered r (ds ++ ds') g c g' c' := by
  obtain ⟨v, d, hb, hp⟩ := gives_lowerRound.mp h
  obtain ⟨g', hl, _⟩ := hbody hb
  obtain ⟨g'', hl'⟩ := hpost (hl.sound hs) hp
  exact ⟨g'', hl.trans hl'⟩

end Parts

/-- The parts of a loop are lowered in another order than the walk over a tree meets them. -/
theorem nestedFunctions_loop (init : List Expr) (cond : Expr) (post : List Expr) (body : List Stmt) :
    (Stmt.loop init cond post body).nestedFunctions.Perm (nestedOfExprs init ++
      (cond.nestedFunctions ++ (nestedFunctions body ++ nestedOfExprs post))) := by
  rw [Stmt.nestedFunctions, List.append_assoc, List.append_assoc]
  exact (List.perm_append_comm.append_left _).append_left _

mutual

/-- Lowering an expression is a region of certified code, and its value, if it has one, fits. -/
theorem lowerExpr_sound (r : Registry) : ∀ (e : Expr) {g : Knowledge} {c c' : Context}
    {v : Option Typed}, Registered r e.nestedFunctions → Sound r g c →
    Gives (lowerExpr r e) c v c' →
    ∃ g', Lowered r e.nestedFunctions g c g' c' ∧ ∀ t ∈ v, t.Fits r g' c'
  | .int n, g, c, c', v, _, hs, h => by
    obtain ⟨rfl, rfl⟩ := lower_int.mp h
    exact ⟨g, .refl hs, by simpa using Typed.fits_plain (by simp) (.constant (.i32 n))⟩
  | .double x, g, c, c', v, _, hs, h => by
    obtain ⟨rfl, rfl⟩ := lower_double.mp h
    exact ⟨g, .refl hs, by simpa using Typed.fits_plain (by simp) (.constant (.f64 x))⟩
  | .str text, g, c, c', v, _, hs, h => by
    obtain ⟨rfl, rfl⟩ := lower_str.mp h
    have hl : Lowered r [] g c g
        { c with module := { c.module with strings := c.module.strings ++ [text] } } :=
      ⟨{ Working.refl hs with
        laid := (Working.refl hs).laid.mono (by simp)
        strings := List.prefix_append _ _
        orderly := ⟨hs.orderly.names, hs.orderly.externals, hs.orderly.prototypes⟩
        made := fun _ hF => .inl hF
        found := fun _ hd => nomatch hd }, hs.isOpen⟩
    refine ⟨g, hl, ?_⟩
    have hlt : c.module.strings.length < (Context.surroundings r
        { c with module := { c.module with strings := c.module.strings ++ [text] } }).strings := by
      simp [Context.surroundings, Ir.Function.surroundings]
    simpa using Typed.fits_plain (by simp) (.str hlt)
  | .ident name, g, c, c', v, _, hs, h => by
    obtain ⟨t, ht, rfl⟩ := lower_ident.mp h
    obtain ⟨hl, hfit⟩ := sound_readName hs ht
    exact ⟨g, hl, by simpa using hfit⟩
  | .neg e, g, c, c', v, hr, hs, h => by
    obtain ⟨t, d, u, he, hn, rfl⟩ := lower_neg.mp h
    obtain ⟨g₁, l₁, hfit⟩ := lowerExpr_sound r e hr hs he
    obtain ⟨l₂, hfit₂⟩ := sound_negate (l₁.sound hs) (hfit t rfl) hn
    exact ⟨g₁, l₁.andThen l₂, by simpa using hfit₂⟩
  | .binary op lhs rhs, g, c, c', v, hr, hs, h => by
    obtain ⟨t, d, t', d', u, hl, hrhs, hc, rfl⟩ := lower_binary.mp h
    obtain ⟨g₁, l₁, hfit₁⟩ := lowerExpr_sound r lhs hr.left hs hl
    obtain ⟨g₂, l₂, hfit₂⟩ := lowerExpr_sound r rhs hr.right (l₁.sound hs) hrhs
    obtain ⟨l₃, hfit₃⟩ := sound_combine (l₂.sound (l₁.sound hs))
      ((hfit₁ t rfl).mono l₂.toWorking) (hfit₂ t' rfl) hc
    exact ⟨g₂, (l₁.trans l₂).andThen l₃, by simpa using hfit₃⟩
  | .assign target value, g, c, c', v, hr, hs, h => by
    obtain ⟨f, rest, s, t, d, hc, hst, he, hstore, rfl⟩ := lower_assign.mp h
    obtain rfl := Context.top_eq hc
    obtain ⟨g₁, l₁, hfit⟩ := lowerExpr_sound r value hr hs he
    have hslot := Ir.getElem?_of_extended (l₁.laid.slots.map _) (hs.stored target s hst).2
    have l₂ := sound_storeInto (l₁.sound hs) hslot (hfit t rfl) hstore
    exact ⟨g₁, l₁.andThen l₂, by simp⟩
  | .call name args, g, c, c', v, hr, hs, h => by
    obtain ⟨callee, values, d, hres, hacc, hargs, hcall⟩ := lower_call.mp h
    rw [resolve_externals hs.orderly] at hres
    obtain ⟨g₁, l₁, hlen, hvals⟩ := lowerArgs_sound r callee 0 args hr hs hargs
    simp only [Nat.zero_add] at hvals
    obtain ⟨l₂, hfit⟩ := sound_call (l₁.sound hs) hres (hlen ▸ hacc) hvals hcall
    exact ⟨g₁, l₁.andThen l₂, hfit⟩
  | .block stmts, g, c, c', v, hr, hs, h =>
    lowerStmts_sound r none stmts hr hs (by simp) (lower_block.mp h)

/-- The arguments of a call are regions one behind the other, and each fits its parameter. -/
theorem lowerArgs_sound (r : Registry) (callee : Callee) (index : Nat) : ∀ (es : List Expr)
    {g : Knowledge} {c c' : Context} {values : List Ir.Operand},
    Registered r (nestedOfExprs es) → Sound r g c → Gives (lowerArgs r callee index es) c values c' →
    ∃ g', Lowered r (nestedOfExprs es) g c g' c' ∧ values.length = es.length ∧
      ∀ (i : Nat) (o : Ir.Operand), values[i]? = some o →
        o.IsArgument (c'.surroundings r) (c'.top.builder.known g')
          (callee.params.map Ty.toIr)[index + i]?
  | [], g, c, c', values, _, hs, h => by
    obtain ⟨rfl, rfl⟩ := lowerArgs_nil.mp h
    exact ⟨g, .refl hs, rfl, by simp⟩
  | e :: es, g, c, c', values, hr, hs, h => by
    obtain ⟨t, d, value, d', rest, he, ha, hes, rfl⟩ := lowerArgs_cons.mp h
    obtain ⟨g₁, l₁, hfit⟩ := lowerExpr_sound r e hr.left hs he
    obtain ⟨l₂, harg⟩ := sound_argument (l₁.sound hs) (hfit t rfl) ha
    obtain ⟨g₃, l₃, hlen, hrest⟩ :=
      lowerArgs_sound r callee (index + 1) es hr.right (l₂.sound (l₁.sound hs)) hes
    refine ⟨g₃, (l₁.andThen l₂).trans l₃, by simp [hlen], ?_⟩
    · intro i o ho
      cases i with
      | zero =>
        cases ho
        obtain ⟨ty, hty, hm⟩ := harg
        exact ⟨ty, l₃.hasType hty, hm⟩
      | succ i =>
        rw [show index + (i + 1) = index + 1 + i by omega]
        exact hrest i o ho

theorem lowerEach_sound (r : Registry) : ∀ (es : List Expr) {g : Knowledge} {c c' : Context}
    {u : Unit}, Registered r (nestedOfExprs es) → Sound r g c → Gives (lowerEach r es) c u c' →
    ∃ g', Lowered r (nestedOfExprs es) g c g' c'
  | [], g, c, c', u, _, hs, h => by
    obtain rfl := lowerEach_nil.mp h
    exact ⟨g, .refl hs⟩
  | e :: es, g, c, c', u, hr, hs, h => by
    obtain ⟨v, d, he, hes⟩ := lowerEach_cons.mp h
    obtain ⟨g₁, l₁, _⟩ := lowerExpr_sound r e hr.left hs he
    obtain ⟨g₂, l₂⟩ := lowerEach_sound r es hr.right (l₁.sound hs) hes
    exact ⟨g₂, l₁.trans l₂⟩

theorem lowerStmts_sound (r : Registry) (last : Option Typed) : ∀ (ss : List Stmt) {g : Knowledge}
    {c c' : Context} {v : Option Typed}, Registered r (nestedFunctions ss) → Sound r g c →
    (∀ t ∈ last, t.Fits r g c) → Gives (lowerStmts r last ss) c v c' →
    ∃ g', Lowered r (nestedFunctions ss) g c g' c' ∧ ∀ t ∈ v, t.Fits r g' c'
  | [], g, c, c', v, _, hs, hlast, h => by
    obtain ⟨rfl, rfl⟩ := lowerStmts_nil.mp h
    exact ⟨g, .refl hs, hlast⟩
  | s :: ss, g, c, c', v, hr, hs, _, h => by
    obtain ⟨w, d, hw, hss⟩ := lowerStmts_cons.mp h
    obtain ⟨g₁, l₁, hfit⟩ := lowerStmtValue_sound r s hr.left hs hw
    obtain ⟨g₂, l₂, hfit₂⟩ := lowerStmts_sound r w ss hr.right (l₁.sound hs) hfit hss
    exact ⟨g₂, l₁.trans l₂, hfit₂⟩

/-- Lowering a statement is a region of certified code, whether or not control comes to its end. -/
theorem lowerStmtValue_sound (r : Registry) : ∀ (s : Stmt) {g : Knowledge} {c c' : Context}
    {v : Option Typed}, Registered r s.nestedFunctions → Sound r g c →
    Gives (lowerStmtValue r s) c v c' →
    ∃ g', Lowered r s.nestedFunctions g c g' c' ∧ ∀ t ∈ v, t.Fits r g' c'
  | .expr e, g, c, c', v, hr, hs, h => lowerExpr_sound r e hr hs (lower_expr.mp h)
  | .var name ty none, g, c, c', v, _, hs, h => by
    obtain ⟨hty, ⟨s, hd⟩, rfl⟩ := lower_var.mp h
    exact ⟨g, (sound_declareVar hs hty hd).1, by simp⟩
  | .var name ty (some init), g, c, c', v, hr, hs, h => by
    obtain ⟨hty, t, d, s, d', he, hd, hstore, rfl⟩ := lower_var_init.mp h
    obtain ⟨g₁, l₁, hfit⟩ := lowerExpr_sound r init hr hs he
    obtain ⟨l₂, _, hslot⟩ := sound_declareVar (l₁.sound hs) hty hd
    have l₃ := sound_storeInto (l₂.sound (l₁.sound hs)) hslot ((hfit t rfl).mono l₂.toWorking) hstore
    exact ⟨g₁, (l₁.andThen l₂).andThen l₃, by simp⟩
  | .function ⟨name, params, returns, body⟩, g, c, c', v, hr, hs, h => by
    obtain ⟨hf, rfl⟩ := lower_function.mp h
    obtain ⟨hl, _⟩ := sound_lowerFunction hs hr
      (fun _ _ _ _ hs => lowerStmts_sound r none body (Registered.tail hr) hs (by simp)) hf
    exact ⟨g, hl, by simp⟩
  | .ret none, g, c, c', v, _, hs, h => by
    obtain ⟨t, d, ⟨_, rfl, rfl⟩ | ⟨_, _, hnone, _⟩, hret, rfl⟩ := lower_ret.mp h
    · obtain ⟨g', hl⟩ := sound_returnFrom hs (by simp) hret
      exact ⟨g', hl, by simp⟩
    · cases hnone
  | .ret (some value), g, c, c', v, hr, hs, h => by
    obtain ⟨t, d, ⟨hnone, _⟩ | ⟨_, u, ⟨rfl⟩, rfl, _, he⟩, hret, rfl⟩ := lower_ret.mp h
    · cases hnone
    · obtain ⟨g₁, l₁, hfit⟩ := lowerExpr_sound r value hr hs he
      obtain ⟨g₂, l₂⟩ := sound_returnFrom (l₁.sound hs) hfit hret
      exact ⟨g₂, l₁.andThen l₂, by simp⟩
  | .ite cond thenBlock none, g, c, c', v, hr, hs, h => by
    obtain ⟨t, d, o, d', he, ht, hcond, rfl⟩ := lower_ite.mp h
    obtain ⟨g₁, l₁, hfit⟩ := lowerExpr_sound r cond hr.left hs he
    have s₁ := l₁.sound hs
    obtain ⟨l₂, ho⟩ := sound_test s₁ (hfit t rfl) ht
    obtain ⟨g₃, l₃⟩ := sound_conditional (l₂.sound s₁) ho
      (fun _ _ _ hs => sound_lowerBranch (lowerStmts_sound r none thenBlock hr.right hs (by simp)))
      (fun _ _ _ => sound_nothing) hcond
    have l₁₃ := (l₁.andThen l₂).trans l₃
    rw [List.append_nil] at l₁₃
    exact ⟨g₃, l₁₃, by simp⟩
  | .ite cond thenBlock (some elseBlock), g, c, c', v, hr, hs, h => by
    obtain ⟨t, d, o, d', he, ht, hcond, rfl⟩ := lower_ite.mp h
    obtain ⟨g₁, l₁, hfit⟩ := lowerExpr_sound r cond hr.left.left hs he
    have s₁ := l₁.sound hs
    obtain ⟨l₂, ho⟩ := sound_test s₁ (hfit t rfl) ht
    obtain ⟨g₃, l₃⟩ := sound_conditional (l₂.sound s₁) ho
      (fun _ _ _ hs => sound_lowerBranch (lowerStmts_sound r none thenBlock hr.left.right hs (by simp)))
      (fun _ _ _ hs => sound_lowerBranch (lowerStmts_sound r none elseBlock hr.right hs (by simp)))
      hcond
    have l₁₃ := (l₁.andThen l₂).trans l₃
    rw [← List.append_assoc] at l₁₃
    exact ⟨g₃, l₁₃, by simp⟩
  | .loop init cond post body, g, c, c', v, hr, hs, h => by
    obtain ⟨d, hinit, hloop, rfl⟩ := lower_loop.mp h
    obtain ⟨g₁, l₁⟩ := lowerEach_sound r init hr.left.left.left hs hinit
    obtain ⟨g₂, l₂⟩ := sound_repeated (l₁.sound hs)
      (fun _ _ _ _ hs => sound_lowerTest hs (lowerExpr_sound r cond hr.left.left.right hs))
      (fun _ _ _ hs => sound_lowerRound hs (lowerStmts_sound r none body hr.right hs (by simp))
        (lowerEach_sound r post hr.left.right)) hloop
    exact ⟨g₂, (l₁.trans l₂).congr fun d => (nestedFunctions_loop init cond post body).symm.mem_iff,
      by simp⟩

end

section

variable {block : List Stmt} {cond : Expr} {post : List Expr}

theorem lowerBranch_sound (hr : Registered r (nestedFunctions block)) (hs : Sound r g c)
    (h : Gives (lowerBranch r (some block)) c () c') :
    ∃ g', Lowered r (nestedFunctions block) g c g' c' :=
  sound_lowerBranch (lowerStmts_sound r none block hr hs (by simp)) h

theorem lowerTest_sound {o : Ir.Operand} (hr : Registered r cond.nestedFunctions) (hs : Sound r g c)
    (h : Gives (lowerTest r cond) c o c') :
    ∃ g', Lowered r cond.nestedFunctions g c g' c' ∧ Holds r g' c' o .bool :=
  sound_lowerTest hs (lowerExpr_sound r cond hr hs) h

theorem lowerRound_sound (hr : Registered r (nestedFunctions block ++ nestedOfExprs post))
    (hs : Sound r g c) (h : Gives (lowerRound r block post) c () c') :
    ∃ g', Lowered r (nestedFunctions block ++ nestedOfExprs post) g c g' c' :=
  sound_lowerRound hs (lowerStmts_sound r none block hr.left hs (by simp))
    (lowerEach_sound r post hr.right) h

end

end TreeLang.Lowering
