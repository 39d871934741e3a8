import TreeLang.Proofs.Position.Mirrors

namespace TreeLang.Lowering

open TreeLang.Tree (Ty Expr Stmt FunctionDecl Site Sited MovedExpr MovedExprs MovedStmt MovedDecl Moved
  literals finished literalsOfExprs finishedOfExprs)
open Typing (Registry Callee)
open Lower

namespace Share

def expr (e e' : Expr) : Share := ⟨e.literals, e'.literals, e'.finished⟩

def exprs (es es' : List Expr) : Share :=
  ⟨literalsOfExprs es, literalsOfExprs es', finishedOfExprs es'⟩

def stmt (s s' : Stmt) : Share := ⟨s.literals, s'.literals, s'.finished⟩

def stmts (ss ss' : List Stmt) : Share := ⟨literals ss, literals ss', finished ss'⟩

def decl (d d' : FunctionDecl) : Share := ⟨d.literals, d'.literals, d'.finished⟩

def swap (σ τ : Share) : Share := ⟨σ.texts ++ τ.texts, τ.texts' ++ σ.texts', τ.made ++ σ.made⟩

end Share

/-- Wherever the literals of two corresponding parts begin, there are sites for them, and the property
holds of all numbers that fit the sites. -/
def Placed (σ : Share) (P : (Nat → Nat) → Nat → Nat → Prop) : Prop :=
  ∀ n n', ∃ sites, Sited n n' σ.texts σ.texts' sites ∧
    ∀ ρ, (∀ s ∈ sites, ρ s.before = s.after) → P ρ n n'

section

variable {σ τ : Share} {P Q R : (Nat → Nat) → Nat → Nat → Prop}

theorem placed_none (h : ∀ ρ n n', P ρ n n') : Placed .none P :=
  fun n n' => ⟨[], .nil, fun ρ _ => h ρ n n'⟩

theorem Placed.mono (hP : Placed σ P) (h : ∀ ρ n n', P ρ n n' → Q ρ n n') : Placed σ Q := by
  intro n n'
  obtain ⟨sites, hs, hρ⟩ := hP n n'
  exact ⟨sites, hs, fun ρ hfit => h ρ n n' (hρ ρ hfit)⟩

theorem placed_and (hP : Placed σ P) (hQ : Placed τ Q)
    (h : ∀ ρ n n', P ρ n n' → Q ρ (n + σ.texts.length) (n' + σ.texts'.length) → R ρ n n') :
    Placed (σ.and τ) R := by
  intro n n'
  obtain ⟨sites, hs, hρ⟩ := hP n n'
  obtain ⟨sites', hs', hρ'⟩ := hQ (n + σ.texts.length) (n' + σ.texts'.length)
  refine ⟨sites ++ sites', hs.append hs', fun ρ hfit => h ρ n n' (hρ ρ ?_) (hρ' ρ ?_)⟩
  · exact fun s hm => hfit s (List.mem_append_left _ hm)
  · exact fun s hm => hfit s (List.mem_append_right _ hm)

theorem placed_swap (hP : Placed σ P) (hQ : Placed τ Q)
    (h : ∀ ρ n n', P ρ n (n' + τ.texts'.length) → Q ρ (n + σ.texts.length) n' → R ρ n n') :
    Placed (σ.swap τ) R := by
  intro n n'
  obtain ⟨sites, hs, hρ⟩ := hP n (n' + τ.texts'.length)
  obtain ⟨sites', hs', hρ'⟩ := hQ (n + σ.texts.length) n'
  refine ⟨sites ++ sites', hs.swap hs', fun ρ hfit => h ρ n n' (hρ ρ ?_) (hρ' ρ ?_)⟩
  · exact fun s hm => hfit s (List.mem_append_left _ hm)
  · exact fun s hm => hfit s (List.mem_append_right _ hm)

theorem Placed.exists (hP : Placed σ P) (n n' : Nat) : ∃ ρ, P ρ n n' := by
  obtain ⟨sites, hs, hρ⟩ := hP n n'
  exact ⟨Tree.renumbering sites, hρ _ fun s hm => Tree.renumbering_before hs.nodup_before hm⟩

end

variable {r r' : Registry}

/-- The lowering of one expression mirrors that of the other. -/
def MirrorsExpr (r r' : Registry) (e e' : Expr) : Prop :=
  Placed (.expr e e') fun ρ n n' => Mirrors r r' ρ n n' (.expr e e') (Option.map (Typed.renumber ρ))
    (lowerExpr r e) (lowerExpr r' e')

def MirrorsArgs (r r' : Registry) (es es' : List Expr) : Prop :=
  Placed (.exprs es es') fun ρ n n' => ∀ callee callee' index, Callee.Alike callee callee' →
    Mirrors r r' ρ n n' (.exprs es es') (List.map (Ir.Operand.renumber ρ))
      (lowerArgs r callee index es) (lowerArgs r' callee' index es')

def MirrorsEach (r r' : Registry) (es es' : List Expr) : Prop :=
  Placed (.exprs es es') fun ρ n n' => Mirrors r r' ρ n n' (.exprs es es') id
    (lowerEach r es) (lowerEach r' es')

def MirrorsStmt (r r' : Registry) (s s' : Stmt) : Prop :=
  Placed (.stmt s s') fun ρ n n' => Mirrors r r' ρ n n' (.stmt s s') (Option.map (Typed.renumber ρ))
    (lowerStmtValue r s) (lowerStmtValue r' s')

def MirrorsStmts (r r' : Registry) (ss ss' : List Stmt) : Prop :=
  Placed (.stmts ss ss') fun ρ n n' => ∀ last, Mirrors r r' ρ n n' (.stmts ss ss')
    (Option.map (Typed.renumber ρ)) (lowerStmts r last ss)
    (lowerStmts r' (last.map (·.renumber ρ)) ss')

/-- A function is lowered beside the one at hand, of which the runs need not agree. -/
def MirrorsDecl (r r' : Registry) (d d' : FunctionDecl) : Prop :=
  Placed (.decl d d') fun ρ n n' => ∀ c c' k, Beside r r' n n' (Share.decl d d').made c k →
    Gives (lowerFunction r d) c () c' → ∃ k', Gives (lowerFunction r' d') k () k' ∧
      c'.frames = c.frames ∧ k'.frames = k.frames ∧ Filled ρ (.decl d d') c c' k k'

/-- The string takes the next number on both sides. -/
theorem mirrors_str (text : String) : MirrorsExpr r r' (.str text) (.str text) := by
  intro n n'
  refine ⟨[⟨text, n, n'⟩], .single n n' text, fun ρ hfit => ?_⟩
  intro c v c' k hbeside ht h
  obtain ⟨rfl, rfl⟩ := lower_str.mp h
  have hρ : ρ c.module.strings.length = k.module.strings.length := by
    rw [hbeside.strings, hbeside.strings']
    exact hfit _ (List.mem_singleton.mpr rfl)
  refine ⟨_, lower_str.mpr ⟨?_, rfl⟩, ⟨ht.frames, ht.frames', ht.top⟩, [], [], ?_, ?_, .nil, rfl⟩
  · change some (Typed.plain (.str (ρ c.module.strings.length)) .string) = _
    rw [hρ]
  · exact ⟨rfl, (List.append_nil _).symm, fun _ _ => rfl, rfl, rfl⟩
  · exact ⟨rfl, (List.append_nil _).symm, fun _ _ => rfl, rfl, rfl⟩

/-- Both runs count the same arguments, and resolve the name to functions with the same header. -/
theorem mirrors_call (halike : Alike r r') (name : String) {es es' : List Expr}
    (hlength : es'.length = es.length) (h : MirrorsArgs r r' es es') :
    MirrorsExpr r r' (.call name es) (.call name es') := by
  refine h.mono fun ρ n n' hargs => ?_
  intro c v c' k hbeside ht hg
  obtain ⟨callee, values, d, hresolve, haccepts, hvalues, hcall⟩ := lower_call.mp hg
  obtain ⟨callee', hresolve', hcallee⟩ := resolve_alike halike hbeside hresolve
  obtain ⟨l, hl, ht₁, hf₁⟩ := hargs callee callee' 0 hcallee c values d k hbeside ht hvalues
  obtain ⟨k', hk', ht₂, hc, hk⟩ := level_call hcallee values d v c' l ht₁ hcall
  have hf₂ := hf₁.trans (.of_still hc hk)
  rw [Share.and_none] at hf₂
  refine ⟨k', lower_call.mpr ⟨callee', _, l, hresolve', ?_, hl, hk'⟩, ht₂, hf₂⟩
  rw [hcallee.accepts, hlength]
  exact haccepts

theorem mirrors_var (name : String) (ty : Ty) :
    MirrorsStmt r r' (.var name ty none) (.var name ty none) := by
  refine placed_none fun ρ n n' => ?_
  simp only [lowerStmtValue]
  split
  · exact mirrors_refused
  · apply Level.mirrors
    exact level_bind (level_declareVar name ty) fun _ => level_pure rfl

theorem mirrors_init (halike : Alike r r') (name : String) (ty : Ty) {e e' : Expr}
    (h : MirrorsExpr r r' e e') :
    MirrorsStmt r r' (.var name ty (some e)) (.var name ty (some e')) := by
  refine h.mono fun ρ n n' he => ?_
  simp only [lowerStmtValue]
  split
  · exact mirrors_refused
  · apply mirrors_before halike (mirrors_needed he)
    intro t
    apply level_bind (level_declareVar name ty)
    intro s
    exact level_bind (level_storeInto name s t) fun _ => level_pure rfl

theorem mirrors_retValue (halike : Alike r r') {e e' : Expr} (h : MirrorsExpr r r' e e') :
    MirrorsStmt r r' (.ret (some e)) (.ret (some e')) := by
  refine h.mono fun ρ n n' he => ?_
  simp only [lowerStmtValue]
  apply mirrors_after halike level_frame
  intro _
  apply mirrors_before halike (mirrors_needed he)
  intro t
  exact level_bind (level_returnFrom (some t)) fun _ => level_pure rfl

theorem mirrors_part {ρ : Nat → Nat} {n n' : Nat} {σ : Share} {ss ss' : List Stmt}
    (h : ∀ last, Mirrors r r' ρ n n' σ (Option.map (Typed.renumber ρ)) (lowerStmts r last ss)
      (lowerStmts r' (last.map (·.renumber ρ)) ss')) :
    Mirrors r r' ρ n n' σ id (lowerBranch r (some ss)) (lowerBranch r' (some ss')) :=
  mirrors_adapt _ _ (mirrors_discard (h none))

theorem mirrors_test (halike : Alike r r') (role : String) {ρ : Nat → Nat} {n n' : Nat} {σ : Share}
    {e e' : Expr} (h : Mirrors r r' ρ n n' σ (Option.map (Typed.renumber ρ)) (lowerExpr r e)
      (lowerExpr r' e')) :
    Mirrors r r' ρ n n' σ (Ir.Operand.renumber ρ)
      (needed role e (lowerExpr r e) >>= test role) (needed role e' (lowerExpr r' e') >>= test role) :=
  mirrors_before halike (mirrors_needed h) fun t => level_test role role t

theorem mirrors_ite (halike : Alike r r') {cond cond' : Expr} {block block' : List Stmt}
    (hc : MirrorsExpr r r' cond cond') (hb : MirrorsStmts r r' block block') :
    MirrorsStmt r r' (.ite cond block none) (.ite cond' block' none) := by
  refine placed_and hc hb fun ρ n n' hcond hblock => ?_
  simp only [lowerStmtValue]
  apply mirrors_bind (τ := .stmts block block') halike (mirrors_needed hcond)
  intro t
  apply mirrors_after halike (level_test _ _ t)
  intro o
  apply mirrors_before halike
  · have hbranches := mirrors_conditional halike o (mirrors_part hblock) mirrors_nothing
    rwa [Share.and_none] at hbranches
  · exact fun _ => level_pure rfl

theorem mirrors_iteElse (halike : Alike r r') {cond cond' : Expr}
    {block block' other other' : List Stmt} (hc : MirrorsExpr r r' cond cond')
    (hb : MirrorsStmts r r' block block') (ho : MirrorsStmts r r' other other') :
    MirrorsStmt r r' (.ite cond block (some other)) (.ite cond' block' (some other')) := by
  have hbranches := placed_and hb ho (R := fun ρ n n' => ∀ o, Mirrors r r' ρ n n'
      ((Share.stmts block block').and (.stmts other other')) id
      (conditional o (lowerBranch r (some block)) (lowerBranch r (some other)))
      (conditional (o.renumber ρ) (lowerBranch r' (some block')) (lowerBranch r' (some other'))))
    fun ρ n n' hblock hother o =>
      mirrors_conditional halike o (mirrors_part hblock) (mirrors_part hother)
  have hall := placed_and hc hbranches (R := fun ρ n n' => Mirrors r r' ρ n n'
      ((Share.expr cond cond').and ((Share.stmts block block').and (.stmts other other')))
      (Option.map (Typed.renumber ρ)) (lowerStmtValue r (.ite cond block (some other)))
      (lowerStmtValue r' (.ite cond' block' (some other')))) ?_
  · rwa [← Share.and_assoc] at hall
  · intro ρ n n' hcond hparts
    simp only [lowerStmtValue]
    apply mirrors_bind halike (mirrors_needed hcond)
    intro t
    apply mirrors_after halike (level_test _ _ t)
    intro o
    exact mirrors_before halike (hparts o) fun _ => level_pure rfl

theorem mirrors_loop (halike : Alike r r') {init init' post post' : List Expr} {cond cond' : Expr}
    {body body' : List Stmt} (hi : MirrorsEach r r' init init') (hc : MirrorsExpr r r' cond cond')
    (hp : MirrorsEach r r' post post') (hb : MirrorsStmts r r' body body') :
    MirrorsStmt r r' (.loop init cond post body) (.loop init' cond' post' body') := by
  have hround := placed_and hb hp (R := fun ρ n n' => Mirrors r r' ρ n n'
      ((Share.stmts body body').and (.exprs post post')) id (lowerRound r body post)
      (lowerRound r' body' post'))
    fun ρ n n' hbody hpost => mirrors_bind halike (mirrors_part hbody) fun _ => hpost
  have hrounds := placed_and hc hround (R := fun ρ n n' => Mirrors r r' ρ n n'
      ((Share.expr cond cond').and ((Share.stmts body body').and (.exprs post post'))) id
      (repeated (lowerTest r cond) (lowerRound r body post))
      (repeated (lowerTest r' cond') (lowerRound r' body' post')))
    fun ρ n n' hcond hround => mirrors_repeated halike (mirrors_test halike _ hcond) hround
  have hall := placed_and hi hrounds (R := fun ρ n n' => Mirrors r r' ρ n n'
      ((Share.exprs init init').and
        ((Share.expr cond cond').and ((Share.stmts body body').and (.exprs post post'))))
      (Option.map (Typed.renumber ρ)) (lowerStmtValue r (.loop init cond post body))
      (lowerStmtValue r' (.loop init' cond' post' body'))) ?_
  · rwa [← Share.and_assoc, ← Share.and_assoc] at hall
  · intro ρ n n' hinit hrest
    simp only [lowerStmtValue]
    apply mirrors_bind halike hinit
    intro _
    exact mirrors_before halike hrest fun _ => level_pure rfl

theorem mirrors_decl {name : String} {params : List Tree.Param} {returns : Ty}
    {body body' : List Stmt} (h : MirrorsStmts r r' body body') :
    MirrorsDecl r r' ⟨name, params, returns, body⟩ ⟨name, params, returns, body'⟩ := by
  refine h.mono fun ρ n n' hbody => ?_
  intro c c' k hbeside hg
  have hmade : (Share.decl ⟨name, params, returns, body⟩ ⟨name, params, returns, body'⟩).made =
    finished body' ++ [⟨name, params, returns, body'⟩] := rfl
  rw [hmade] at hbeside
  have hnodup := hbeside.fresh.nodup
  rw [List.map_append, List.nodup_append] at hnodup
  obtain ⟨k', hk', hrest⟩ := defined_mirrors .value (fun _ => rfl) (hbody none)
    hbeside.left (hbeside.fresh.absent _ (List.mem_append_right _ (List.mem_singleton.mpr rfl)))
    (fun d hd => hnodup.2.2 d.name (List.mem_map_of_mem hd) name (List.mem_singleton.mpr rfl))
    (gives_lowerFunction.mp hg)
  have hshare : (Share.stmts body body').and ⟨[], [], [⟨name, params, returns, body'⟩]⟩ =
      .decl ⟨name, params, returns, body⟩ ⟨name, params, returns, body'⟩ := by
    unfold Share.and
    simp only [Share.stmts, List.append_nil]
    rfl
  rw [hshare] at hrest
  exact ⟨k', gives_lowerFunction.mpr hk', hrest⟩

theorem mirrors_function {d d' : FunctionDecl} (h : MirrorsDecl r r' d d') :
    MirrorsStmt r r' (.function d) (.function d') := by
  refine h.mono fun ρ n n' hd => ?_
  intro c v c' k hbeside ht hg
  obtain ⟨hf, rfl⟩ := lower_function.mp hg
  obtain ⟨k', hk', hc, hk, hfilled⟩ := hd c c' k hbeside hf
  exact ⟨k', lower_function.mpr ⟨hk', rfl⟩, ht.congr hc hk, hfilled⟩

/-- The value of a block is that of its last statement. -/
theorem lowerStmts_last (last last' : Option Typed) {ss : List Stmt} (hne : ss ≠ []) :
    lowerStmts r last ss = lowerStmts r last' ss := by
  cases ss with
  | nil => exact absurd rfl hne
  | cons s ss => rfl

/-- What a statement adds to the module, without a run beside it. -/
theorem MirrorsStmt.added (halike : Alike r r') {s s' : Stmt} (hs : MirrorsStmt r r' s s') {n n' : Nat}
    {c c' k : Context} {v : Option Typed} (hbeside : Beside r r' n n' s'.finished c k)
    (hc : c.frames ≠ []) (h : Gives (lowerStmtValue r s) c v c') :
    ∃ Fs, Added s.literals Fs c c' ∧ ∀ F ∈ Fs, r.get? F.name ≠ none := by
  obtain ⟨ρ, hρ⟩ := hs.exists n n'
  have htwin : Twin ρ c { k with frames := [c.top.renumber ρ] } :=
    ⟨hc, List.cons_ne_nil _ _, rfl⟩
  obtain ⟨_, _, _, Fs, Fs', hadded, _, hperm, hnames⟩ :=
    hρ c v c' { k with frames := [c.top.renumber ρ] } (hbeside.congr rfl rfl) htwin h
  exact ⟨Fs, hadded, hbeside.known halike hperm hnames⟩

/-- A statement and the declaration behind it, in the other order in the second run. -/
def MirrorsSwapped (r r' : Registry) (s s' : Stmt) (d d' : FunctionDecl) (ρ : Nat → Nat) (n n' : Nat) :
    Prop :=
  ∀ c v c' c'' k, Beside r r' n n' (d'.finished ++ s'.finished) c k → Twin ρ c k →
    Gives (lowerStmtValue r s) c v c' → Gives (lowerFunction r d) c' () c'' →
    ∃ k' v' k'', Gives (lowerFunction r' d') k () k' ∧ Gives (lowerStmtValue r' s') k' v' k'' ∧
      Twin ρ c'' k'' ∧ Filled ρ ((Share.stmt s s').swap (.decl d d')) c c'' k k''

/-- A declaration and the statement before it are lowered in the other order, and neither is touched by
the other: the declaration works in a frame of its own, and all the statement sees of it is its header.
-/
theorem mirrors_swapped (halike : Alike r r') {s s' : Stmt} {d d' : FunctionDecl}
    (hs : MirrorsStmt r r' s s') (hd : MirrorsDecl r r' d d') :
    Placed ((Share.stmt s s').swap (.decl d d')) (MirrorsSwapped r r' s s' d d') := by
  refine placed_swap hs hd fun ρ n n' hstmt hdecl => ?_
  intro c v c' c'' k hbeside ht hv hf
  obtain ⟨Fs, hadded, hknown⟩ := hs.added halike hbeside.right ht.frames hv
  -- The declaration is lowered with the strings of the statement in one module only.
  have hbefore := hbeside.left.before hadded hknown
  obtain ⟨k', hk', hframes, hframes', Gs, Gs', hc₂, hk₁, hperm, hnames⟩ := hdecl c' c'' k hbefore hf
  have hafter := hbeside.after hk₁ hnames
  obtain ⟨k'', hk'', ht', Fs₁, Fs', hc₁, hk₂, hperm', hnames'⟩ :=
    hstmt c v c' k' hafter (ht.congr rfl hframes') hv
  refine ⟨k', _, k'', hk', hk'', ht'.congr hframes rfl, Fs₁ ++ Gs, Gs' ++ Fs', hc₁.trans hc₂,
    hk₁.trans hk₂, ?_, ?_⟩
  · rw [List.map_append]
    exact List.perm_append_comm.trans (hperm'.append hperm)
  · rw [List.map_append, hnames, hnames', ← List.map_append]
    rfl

theorem mirrors_cons (halike : Alike r r') {s s' : Stmt} {ss ss' : List Stmt}
    (hs : MirrorsStmt r r' s s') (hss : MirrorsStmts r r' ss ss') :
    MirrorsStmts r r' (s :: ss) (s' :: ss') := by
  refine placed_and hs hss fun ρ n n' hstmt hstmts last => ?_
  simp only [lowerStmts]
  apply mirrors_get
  intro c k
  exact mirrors_bind (τ := .stmts ss ss') halike (mirrors_adapt _ _ hstmt) hstmts

/-- A declaration and the statement before it in the other order. Neither is the last statement, so
the value of the block is that of the same statement. -/
theorem mirrors_swap (halike : Alike r r') {s s' : Stmt} {d d' : FunctionDecl} {ss ss' : List Stmt}
    (hne : ss' ≠ []) (hs : MirrorsStmt r r' s s') (hd : MirrorsDecl r r' d d')
    (hss : MirrorsStmts r r' ss ss') :
    MirrorsStmts r r' (s :: .function d :: ss) (.function d' :: s' :: ss') := by
  have hall := placed_and (mirrors_swapped halike hs hd) hss (R := fun ρ n n' => ∀ last,
    Mirrors r r' ρ n n' (((Share.stmt s s').swap (.decl d d')).and (.stmts ss ss'))
      (Option.map (Typed.renumber ρ)) (lowerStmts r last (s :: .function d :: ss))
      (lowerStmts r' (last.map (·.renumber ρ)) (.function d' :: s' :: ss'))) ?_
  · have hshare : ((Share.stmt s s').swap (.decl d d')).and (.stmts ss ss') =
        .stmts (s :: .function d :: ss) (.function d' :: s' :: ss') := by
      simp [Share.and, Share.swap, Share.stmts, Share.stmt, Share.decl, literals, finished,
        Stmt.literals, Stmt.finished]
    rwa [hshare] at hall
  · intro ρ n n' hswapped hstmts last c v c' k hbeside ht hg
    obtain ⟨w, c₁, hw, hg⟩ := lowerStmts_cons.mp hg
    obtain ⟨_, c₂, hstep, hg⟩ := lowerStmts_cons.mp hg
    obtain ⟨hdecl, rfl⟩ := lower_function.mp hstep
    obtain ⟨k₁, w', k₂, hk₁, hk₂, ht₂, hf₂⟩ := hswapped c w c₁ c₂ k hbeside.left ht hw hdecl
    obtain ⟨k', hk', ht', hf'⟩ := hstmts none c₂ v c' k₂ (hbeside.next halike hf₂) ht₂ hg
    rw [Option.map_none, lowerStmts_last none w' hne] at hk'
    exact ⟨k', lowerStmts_cons.mpr ⟨none, k₁, lower_function.mpr ⟨hk₁, rfl⟩,
      lowerStmts_cons.mpr ⟨w', k₂, hk₂, hk'⟩⟩, ht', hf₂.trans hf'⟩

mutual

theorem mirrorsExpr (halike : Alike r r') : ∀ (e : Expr) {e' : Expr}, MovedExpr e e' →
    MirrorsExpr r r' e e'
  | .int _, _, .int _ => placed_none fun _ _ _ => by
    simp only [lowerExpr]
    exact Level.mirrors (level_pure rfl)
  | .double _, _, .double _ => placed_none fun _ _ _ => by
    simp only [lowerExpr]
    exact Level.mirrors (level_pure rfl)
  | .str text, _, .str _ => mirrors_str text
  | .ident name, _, .ident _ => placed_none fun _ _ _ => by
    simp only [lowerExpr]
    exact (level_some (level_readName name)).mirrors
  | .neg e, _, .neg he => (mirrorsExpr halike e he).mono fun ρ n n' h => by
    simp only [lowerExpr]
    exact mirrors_before halike (mirrors_needed h) fun t => level_some (level_negate t)
  | .binary op lhs rhs, _, .binary _ hl hr => by
    refine placed_and (mirrorsExpr halike lhs hl) (mirrorsExpr halike rhs hr)
      fun ρ n n' hlhs hrhs => ?_
    simp only [lowerExpr]
    apply mirrors_bind (τ := .expr rhs _) halike (mirrors_needed hlhs)
    intro t
    apply mirrors_before halike (mirrors_needed hrhs)
    intro t'
    exact level_some (level_combine op t t')
  | .assign target e, _, .assign _ he => (mirrorsExpr halike e he).mono fun ρ n n' h => by
    simp only [lowerExpr]
    apply mirrors_after halike (level_storage target)
    intro s
    apply mirrors_before halike (mirrors_needed h)
    intro t
    exact level_bind (level_storeInto target s t) fun _ => level_pure rfl
  | .call name es, _, .call _ hes =>
    mirrors_call halike name (Tree.length_movedExprs es hes) (mirrorsArgs halike es hes)
  | .block ss, _, .block hss => (mirrorsStmts halike ss hss).mono fun ρ n n' h => by
    simp only [lowerExpr]
    exact mirrors_adapt _ _ (h none)

theorem mirrorsArgs (halike : Alike r r') : ∀ (es : List Expr) {es' : List Expr},
    MovedExprs es es' → MirrorsArgs r r' es es'
  | [], _, .nil => placed_none fun _ _ _ _ _ _ _ => by
    simp only [lowerArgs]
    exact Level.mirrors (level_pure rfl)
  | e :: es, _, .cons he hes => by
    refine placed_and (mirrorsExpr halike e he) (mirrorsArgs halike es hes) fun ρ n n' h hargs => ?_
    intro callee callee' index hcallee
    simp only [lowerArgs]
    apply mirrors_bind (τ := .exprs es _) halike (mirrors_needed h)
    intro t
    apply mirrors_after halike (level_argument hcallee index t)
    intro value
    exact mirrors_before halike (hargs callee callee' (index + 1) hcallee) fun _ => level_pure rfl

theorem mirrorsEach (halike : Alike r r') : ∀ (es : List Expr) {es' : List Expr},
    MovedExprs es es' → MirrorsEach r r' es es'
  | [], _, .nil => placed_none fun _ _ _ => by
    simp only [lowerEach]
    exact Level.mirrors (level_pure rfl)
  | e :: es, _, .cons he hes => by
    refine placed_and (mirrorsExpr halike e he) (mirrorsEach halike es hes) fun ρ n n' h heach => ?_
    simp only [lowerEach]
    exact mirrors_bind (τ := .exprs es _) halike h fun _ => heach

theorem mirrorsStmt (halike : Alike r r') : ∀ (s : Stmt) {s' : Stmt}, MovedStmt s s' →
    MirrorsStmt r r' s s'
  | .expr e, _, .expr he => mirrorsExpr halike e he
  | .var name ty none, _, .var _ _ => mirrors_var name ty
  | .var name ty (some e), _, .init _ _ he => mirrors_init halike name ty (mirrorsExpr halike e he)
  | .function d, _, .function hd => mirrors_function (mirrorsDecl halike d hd)
  | .ret none, _, .ret => placed_none fun _ _ _ => by
    simp only [lowerStmtValue]
    apply Level.mirrors
    exact level_bind (level_returnFrom none) fun _ => level_pure rfl
  | .ret (some e), _, .retValue he => mirrors_retValue halike (mirrorsExpr halike e he)
  | .ite cond block none, _, .ite hc ht =>
    mirrors_ite halike (mirrorsExpr halike cond hc) (mirrorsStmts halike block ht)
  | .ite cond block (some other), _, .iteElse hc ht he =>
    mirrors_iteElse halike (mirrorsExpr halike cond hc) (mirrorsStmts halike block ht)
      (mirrorsStmts halike other he)
  | .loop init cond post body, _, .loop hi hc hp hb =>
    mirrors_loop halike (mirrorsEach halike init hi) (mirrorsExpr halike cond hc)
      (mirrorsEach halike post hp) (mirrorsStmts halike body hb)

theorem mirrorsDecl (halike : Alike r r') : ∀ (d : FunctionDecl) {d' : FunctionDecl},
    MovedDecl d d' → MirrorsDecl r r' d d'
  | ⟨_, _, _, body⟩, _, .intro _ _ _ hb => mirrors_decl (mirrorsStmts halike body hb)

/-- Blocks whose declarations stand at other places mirror each other. -/
theorem mirrorsStmts (halike : Alike r r') : ∀ (ss : List Stmt) {ss' : List Stmt}, Moved ss ss' →
    MirrorsStmts r r' ss ss'
  | [], _, .nil => placed_none fun _ _ _ _ => by
    simp only [lowerStmts]
    exact Level.mirrors (level_pure rfl)
  | s :: ss, _, .cons hs hss =>
    mirrors_cons halike (mirrorsStmt halike s hs) (mirrorsStmts halike ss hss)
  | s :: .function d :: ss, _, .swap hs hd hne hss =>
    mirrors_swap halike (hss.ne_nil hne) (mirrorsStmt halike s hs) (mirrorsDecl halike d hd)
      (mirrorsStmts halike ss hss)

end

end TreeLang.Lowering
