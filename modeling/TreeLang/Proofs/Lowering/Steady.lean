import TreeLang.Proofs.Lowering.Operations

namespace TreeLang

namespace Ir.Builder

variable {b b' : Builder} {v : Operand}

theorem name_append {i : Instruction} (h : b.append i = .ok b') :
    b'.function.name = b.function.name := by
  obtain ⟨id, _, rfl⟩ := append_eq_ok.mp h
  rfl

theorem name_define {i : Operand → Instruction} (h : b.define i = .ok (v, b')) :
    b'.function.name = b.function.name := by
  obtain ⟨_, id, _, rfl⟩ := define_eq_ok.mp h
  rfl

theorem name_terminate {t : Terminator} (h : b.terminate t = .ok b') :
    b'.function.name = b.function.name := by
  obtain ⟨id, k, _, _, _, rfl⟩ := terminate_eq_ok.mp h
  rfl

theorem name_switchTo {id : Nat} (h : b.switchTo id = .ok b') :
    b'.function.name = b.function.name := by
  obtain ⟨_, rfl⟩ := switchTo_eq_ok.mp h
  rfl

theorem name_alloca {name : String} {ty : Ty} {slot : Nat} (h : b.alloca name ty = .ok (slot, b')) :
    b'.function.name = b.function.name := by
  obtain ⟨_, _, rfl⟩ := alloca_eq_ok.mp h
  rfl

theorem name_cast {value : Operand} {source target : Ty} (h : b.cast value source target = .ok (v, b')) :
    b'.function.name = b.function.name := by
  unfold cast at h
  cases hc : b.cursor with
  | error e =>
    rw [hc] at h
    cases h
  | ok id =>
    rw [hc] at h
    change (if source = target then _ else _) = _ at h
    split at h
    · cases h
      rfl
    · split at h
      · exact name_define h
      · cases h

theorem name_call {callee : String} {args : List Operand} {returns : Ty} {result : Option Operand}
    (h : b.call callee args returns = .ok (result, b')) : b'.function.name = b.function.name := by
  unfold call at h
  split at h
  · cases ha : b.append (.call none callee args returns) with
    | error e =>
      rw [ha] at h
      cases h
    | ok c =>
      rw [ha] at h
      cases h
      exact name_append ha
  · cases hd : b.define fun result => .call (some result) callee args returns with
    | error e =>
      rw [hd] at h
      cases h
    | ok p =>
      rw [hd] at h
      cases h
      exact name_define hd

end Ir.Builder

namespace Ir.Module

/-- Strings and functions have been added; externals of the names of those functions are gone. -/
structure Grown (m m' : Module) : Prop where
  name : m'.name = m.name
  strings : m.strings <+: m'.strings
  functions : ∃ fs : List Function, m'.functions = m.functions ++ fs ∧
    m'.externals = m.externals.filter fun e => fs.all (·.name != e.name)

namespace Grown

variable {m m' m'' : Module}

theorem refl (m : Module) : Grown m m :=
  ⟨rfl, List.prefix_rfl, [], (List.append_nil _).symm, (List.filter_eq_self.mpr fun _ _ => rfl).symm⟩

theorem trans (h : Grown m m') (h' : Grown m' m'') : Grown m m'' := by
  obtain ⟨fs, hfs, hext⟩ := h.functions
  obtain ⟨fs', hfs', hext'⟩ := h'.functions
  refine ⟨h'.name.trans h.name, h.strings.trans h'.strings, fs ++ fs', ?_, ?_⟩
  · rw [hfs', hfs, List.append_assoc]
  · rw [hext', hext, List.filter_filter]
    refine List.filter_congr fun e _ => ?_
    rw [List.all_append, Bool.and_comm]

/-- No external is added. -/
theorem externals (h : Grown m m') : m'.externals ⊆ m.externals := by
  obtain ⟨fs, _, hext⟩ := h.functions
  rw [hext]
  exact List.filter_sublist.subset

theorem addString (m : Module) (text : String) : Grown m (m.addString text).2 :=
  ⟨rfl, List.prefix_append _ _, [], (List.append_nil _).symm, (List.filter_eq_self.mpr fun _ _ => rfl).symm⟩

theorem define {f : Function} (h : m.define f = .ok m') : Grown m m' := by
  unfold Module.define at h
  split at h
  · cases h
  · cases h
    refine ⟨rfl, List.prefix_rfl, [f], rfl, List.filter_congr fun e _ => ?_⟩
    simp [bne, Bool.beq_comm]

end Grown

end Ir.Module

namespace Lowering

open TreeLang.Tree (Ty Expr Stmt FunctionDecl)
open Typing (Registry Callee coercible)
open Lower

/-- What may have become of a context in the midst of a function. -/
structure Kept (c c' : Context) : Prop where
  function : c'.function = c.function
  depth : c'.frames.length = c.frames.length
  around : c'.frames.tail = c.frames.tail
  outer : c'.scopes.outer = c.scopes.outer
  module : c.module.Grown c'.module

namespace Kept

theorem refl (c : Context) : Kept c c := ⟨rfl, rfl, rfl, rfl, .refl _⟩

theorem trans {c c' c'' : Context} (h : Kept c c') (h' : Kept c' c'') : Kept c c'' :=
  ⟨h'.function.trans h.function, h'.depth.trans h.depth, h'.around.trans h.around,
    h'.outer.trans h.outer, h.module.trans h'.module⟩

/-- Another frame of the same name in the place of the one at hand. -/
theorem frame {c : Context} {f f' : Frame} {rest : List Frame} (hc : c.frames = f :: rest)
    (hname : f'.name = f.name) : Kept c { c with frames := f' :: rest } where
  function := by
    unfold Context.function
    simp [hc, hname]
  depth := by simp [hc]
  around := by simp [hc]
  outer := rfl
  module := .refl _

/-- A declaration binds a name in the innermost scope of the function at hand. -/
theorem declare (c : Context) (name : String) (ty : Ty) : Kept c (c.declare name ty) :=
  ⟨rfl, rfl, rfl, rfl, .refl _⟩

end Kept

def Steady {ε α : Type} (m : Lower ε α) : Prop := ∀ c, Kept c (outcome m c).2

section

variable {ε ε' α β : Type}

theorem Steady.of_gives {m : Lower ε α} (h : Steady m) {c c' : Context} {a : α}
    (hg : Gives m c a c') : Kept c c' := by
  have hc := h c
  rw [hg] at hc
  exact hc

theorem steady_pure (a : α) : Steady (pure a : Lower ε α) := fun c => .refl c

theorem steady_get : Steady (get : Lower ε Context) := fun c => .refl c

theorem steady_throw (e : ε) : Steady (throw e : Lower ε α) := fun c => .refl c

/-- Two steady works, one after the other, are steady. -/
theorem steady_bind {m : Lower ε α} {f : α → Lower ε β} (hm : Steady m) (hf : ∀ a, Steady (f a)) :
    Steady (m >>= f) := by
  intro c
  have hc := hm c
  rw [outcome_bind]
  cases ho : outcome m c with
  | mk res d =>
    rw [ho] at hc
    cases res with
    | error e => exact hc
    | ok a => exact hc.trans (hf a d)

theorem steady_map {m : Lower ε α} (f : α → β) (hm : Steady m) : Steady (f <$> m) := by
  rw [map_eq_pure_bind]
  exact steady_bind hm fun a => steady_pure (f a)

theorem steady_discard {m : Lower ε α} (hm : Steady m) : Steady (discard m) :=
  steady_map (fun _ => PUnit.unit) hm

theorem steady_liftExcept (x : Except ε α) : Steady (liftExcept x : Lower ε α) := by
  cases x with
  | ok a => exact steady_pure a
  | error e => exact steady_throw e

theorem steady_adapt {m : Lower ε α} (f : ε → ε') (hm : Steady m) :
    Steady (m.adapt f : Lower ε' α) := hm

theorem steady_pinned {m : Lower Cause α} (function node : String) (hm : Steady m) :
    Steady (pinned function node m) := steady_adapt _ hm

theorem steady_located {m : Lower Diagnostic α} (hm : Steady m) : Steady (located m) :=
  steady_adapt _ hm

end

theorem steady_frame : Steady frame := by
  unfold frame
  refine steady_bind steady_get fun c => ?_
  split
  · exact steady_throw _
  · exact steady_pure _

/-- Work on a frame that is there changes that frame only. -/
theorem steady_onFrame {α : Type} {m : Frame → Lower Cause α}
    (hm : ∀ f rest c, c.frames = f :: rest → Kept c (outcome (m f) c).2) :
    Steady (do m (← frame)) := by
  intro c
  rw [outcome_bind]
  cases hc : c.frames with
  | nil =>
    have hno : outcome frame c = (.error (.emission .noFunction), c) := by
      rw [frame, outcome_get, hc]
      rfl
    rw [hno]
    exact .refl c
  | cons f rest =>
    have hf : outcome frame c = (.ok f, c) := gives_frame.mpr ⟨⟨rest, hc⟩, rfl⟩
    rw [hf]
    exact hm f rest c hc

/-- An operation of the builder is steady if it keeps the name of the function. -/
theorem steady_build {α : Type} {step : Ir.Builder → Except Ir.Error (α × Ir.Builder)}
    (hstep : ∀ b a b', step b = .ok (a, b') → b'.function.name = b.function.name) :
    Steady (build step) := by
  refine steady_onFrame fun f rest c hc => ?_
  split
  · rename_i a b hs
    have hset : outcome (do setFrame { f with builder := b }; return a : Lower Cause α) c =
        (.ok a, { c with frames := { f with builder := b } :: rest }) := by
      change (Except.ok a, { c with frames := { f with builder := b } :: c.frames.tail }) = _
      rw [hc]
      rfl
    rw [hset]
    exact .frame hc (hstep f.builder a b hs)
  · exact .refl c

theorem steady_emit {step : Ir.Builder → Except Ir.Error Ir.Builder}
    (hstep : ∀ b b', step b = .ok b' → b'.function.name = b.function.name) : Steady (emit step) := by
  refine steady_build fun b _ b' h => hstep b b' ?_
  cases hs : step b with
  | error e =>
    rw [hs] at h
    cases h
  | ok b'' =>
    rw [hs] at h
    cases h
    rfl

theorem steady_define (i : Ir.Operand → Ir.Instruction) : Steady (build (·.define i)) :=
  steady_build fun _ _ _ => Ir.Builder.name_define

theorem steady_append (i : Ir.Instruction) : Steady (emit (·.append i)) :=
  steady_emit fun _ _ => Ir.Builder.name_append

theorem steady_terminate (t : Ir.Terminator) : Steady (emit (·.terminate t)) :=
  steady_emit fun _ _ => Ir.Builder.name_terminate

theorem steady_alloca (name : String) (ty : Ir.Ty) : Steady (build (·.alloca name ty)) :=
  steady_build fun _ _ _ => Ir.Builder.name_alloca

theorem steady_cast (value : Ir.Operand) (source target : Ir.Ty) :
    Steady (build (·.cast value source target)) :=
  steady_build fun _ _ _ => Ir.Builder.name_cast

theorem steady_createBlock (label : String) : Steady (createBlock label) := by
  refine steady_build fun b a b' h => ?_
  cases h
  rfl

theorem steady_switchTo (id : Nat) : Steady (switchTo id) :=
  steady_emit fun _ _ => Ir.Builder.name_switchTo

theorem steady_materialize (t : Typed) : Steady (materialize t) := by
  unfold materialize
  split
  · apply steady_cast
  · apply steady_pure

theorem steady_coerce (t : Typed) (target : Ty) : Steady (coerce t target) := by
  unfold coerce
  refine steady_bind (steady_materialize t) fun v => ?_
  split
  · apply steady_pure
  · split
    · apply steady_cast
    · apply steady_throw

theorem steady_negate (t : Typed) : Steady (negate t) := by
  unfold negate
  exact steady_bind (steady_liftExcept _) fun _ => steady_bind (steady_materialize t) fun _ =>
    steady_bind (steady_define _) fun _ => steady_pure _

theorem steady_combine (op : Tree.BinaryOp) (left right : Typed) : Steady (combine op left right) := by
  unfold combine
  exact steady_bind (steady_liftExcept _) fun ty => steady_bind (steady_coerce left ty) fun _ =>
    steady_bind (steady_coerce right ty) fun _ => steady_bind (steady_define _) fun _ => steady_pure _

theorem steady_storage (name : String) : Steady (storage name) := by
  unfold storage
  refine steady_bind steady_frame fun f => ?_
  split
  · apply steady_pure
  · refine steady_bind steady_get fun c => ?_
    split
    · apply steady_throw
    · apply steady_throw

theorem steady_readName (name : String) : Steady (readName name) := by
  unfold readName
  exact steady_bind (steady_storage name) fun _ => steady_bind (steady_define _) fun _ => steady_pure _

theorem steady_storeInto (name : String) (s : Storage) (t : Typed) : Steady (storeInto name s t) := by
  unfold storeInto
  split
  · exact steady_bind (steady_coerce t s.ty) fun _ => steady_append _
  · apply steady_throw

theorem steady_argument (callee : Callee) (index : Nat) (t : Typed) :
    Steady (argument callee index t) := by
  unfold argument
  split
  · split
    · apply steady_coerce
    · apply steady_throw
  · apply steady_materialize

theorem steady_call (callee : Callee) (args : List Ir.Operand) : Steady (call callee args) := by
  unfold call
  exact steady_bind (steady_build fun _ _ _ => Ir.Builder.name_call) fun _ => steady_pure _

theorem steady_test (role : String) (t : Typed) : Steady (test role t) := by
  unfold test
  split
  · apply steady_pure
  · split
    · apply steady_define
    · apply steady_define
    · apply steady_throw

theorem steady_needed {role : String} {e : Expr} {m : Lower Cause (Option Typed)} (hm : Steady m) :
    Steady (needed role e m) := by
  unfold needed
  refine steady_bind hm fun v => ?_
  split
  · apply steady_pure
  · apply steady_throw

theorem steady_declareVar (name : String) (ty : Ty) : Steady (declareVar name ty) := by
  unfold declareVar
  refine steady_bind (steady_alloca name ty.toIr) fun slot => ?_
  refine steady_onFrame fun f rest c hc => ?_
  change Kept c (Context.declare { c with frames := { f with
    locals := (name, ⟨slot, ty⟩) :: f.locals } :: c.frames.tail } name ty)
  rw [hc]
  have hframe : Kept c { c with frames := { f with locals := (name, ⟨slot, ty⟩) :: f.locals } :: rest } :=
    .frame hc rfl
  exact hframe.trans (.declare _ name ty)

theorem steady_returnFrom (t : Option Typed) : Steady (returnFrom t) := by
  unfold returnFrom
  refine steady_bind steady_frame fun f => steady_bind steady_get fun c => ?_
  have hnext : Steady (do switchTo (← createBlock "after.return")) :=
    steady_bind (steady_createBlock _) fun _ => steady_switchTo _
  cases t with
  | some t =>
    dsimp only
    split
    · exact steady_bind (steady_coerce t _) fun _ => steady_bind (steady_terminate _) fun _ => hnext
    · exact steady_bind (steady_throw _) fun _ => hnext
  | none =>
    dsimp only
    split
    · exact steady_bind (steady_terminate _) fun _ => hnext
    · exact steady_bind (steady_throw _) fun _ => hnext

theorem steady_fallThrough (target : Nat) : Steady (fallThrough target) := by
  unfold fallThrough
  refine steady_bind steady_frame fun f => ?_
  split
  · apply steady_pure
  · apply steady_terminate

/-- A conditional is steady if its two parts are. -/
theorem steady_conditional {condition : Ir.Operand} {thenPart elsePart : Lower Cause Unit}
    (hthen : Steady thenPart) (helse : Steady elsePart) :
    Steady (conditional condition thenPart elsePart) := by
  unfold conditional
  exact steady_bind (steady_createBlock _) fun _ => steady_bind (steady_createBlock _) fun _ =>
    steady_bind (steady_createBlock _) fun _ => steady_bind (steady_terminate _) fun _ =>
    steady_bind (steady_switchTo _) fun _ => steady_bind hthen fun _ =>
    steady_bind (steady_fallThrough _) fun _ => steady_bind (steady_switchTo _) fun _ =>
    steady_bind helse fun _ => steady_bind (steady_fallThrough _) fun _ => steady_switchTo _

theorem steady_repeated {condition : Lower Cause Ir.Operand} {body : Lower Cause Unit}
    (hcond : Steady condition) (hbody : Steady body) : Steady (repeated condition body) := by
  unfold repeated
  exact steady_bind (steady_createBlock _) fun _ => steady_bind (steady_createBlock _) fun _ =>
    steady_bind (steady_createBlock _) fun _ => steady_bind (steady_terminate _) fun _ =>
    steady_bind (steady_switchTo _) fun _ => steady_bind hcond fun _ =>
    steady_bind (steady_terminate _) fun _ => steady_bind (steady_switchTo _) fun _ =>
    steady_bind hbody fun _ => steady_bind (steady_fallThrough _) fun _ => steady_switchTo _

/-- Closing a function only touches its last block. -/
theorem steady_close (ending : Ending) : Steady (close ending) := by
  unfold close
  refine steady_bind steady_frame fun f => ?_
  have hret : ∀ value : Ir.Operand, Steady (emit (·.returnValue (some value))) :=
    fun _ => steady_terminate _
  split
  · apply steady_pure
  · split
    · apply steady_pure
    · split
      · apply steady_terminate
      · dsimp only
        split
        · exact steady_bind (steady_coerce _ _) hret
        · exact steady_bind (steady_throw _) hret
        · split
          · exact steady_bind (steady_pure _) hret
          · exact steady_bind (steady_throw _) hret

theorem steady_storeParams (index : Nat) (ps : List Tree.Param) : Steady (storeParams index ps) := by
  induction ps generalizing index with
  | nil => exact steady_pure ()
  | cons p ps ih =>
    rw [storeParams]
    have hbind : ∀ slot, Steady (do
        let f ← frame
        setFrame { f with params := (p.name, ⟨slot, p.ty⟩) :: f.params }
        modify (·.declare p.name p.ty)
        storeParams (index + 1) ps) := by
      intro slot
      refine steady_onFrame fun f rest c hc => ?_
      have hframe : Kept c { c with frames :=
          { f with params := (p.name, ⟨slot, p.ty⟩) :: f.params } :: rest } := .frame hc rfl
      change Kept c (outcome (storeParams (index + 1) ps) (Context.declare { c with frames := { f with
        params := (p.name, ⟨slot, p.ty⟩) :: f.params } :: c.frames.tail } p.name p.ty)).2
      rw [hc]
      exact (hframe.trans (.declare _ p.name p.ty)).trans (ih (index + 1) _)
    have hstore : Steady (do
        let slot ← build (·.alloca p.name p.ty.toIr)
        emit (·.store slot (.param index) p.ty.toIr)
        let f ← frame
        setFrame { f with params := (p.name, ⟨slot, p.ty⟩) :: f.params }
        modify (·.declare p.name p.ty)
        storeParams (index + 1) ps) :=
      steady_bind (steady_alloca _ _) fun slot => steady_bind (steady_append _) fun _ => hbind slot
    split
    · exact steady_bind (steady_throw _) fun _ => hstore
    · exact hstore

structure Apart (c c' : Context) : Prop where
  scopes : c'.scopes = c.scopes
  frames : c'.frames = c.frames
  module : c.module.Grown c'.module

theorem Apart.kept {c c' : Context} (h : Apart c c') : Kept c c' where
  function := by simp [Context.function, h.frames]
  depth := by rw [h.frames]
  around := by rw [h.frames]
  outer := by rw [h.scopes]
  module := h.module

/-- What a function kept is there again where it is left. -/
theorem Kept.leave {c d : Context} {f : Frame} (h : Kept (c.enter f) d) : Apart c d.leave where
  scopes := by
    have houter : d.scopes.outer = c.scopes.inner :: c.scopes.outer := h.outer
    simp [Context.leave, Typing.Scopes.leave, houter]
  frames := h.around
  module := h.module

/-- What is done after a failure happens to the context that the failure left. -/
theorem outcome_onFailure {ε α : Type} (m : Lower ε α) (f : Context → Context) (c : Context) :
    outcome (m.onFailure (modify f)) c =
      match outcome m c with
      | (.ok a, d) => (.ok a, d)
      | (.error e, d) => (.error e, f d) := by
  unfold Lower.onFailure
  rw [outcome_tryCatch]
  rcases outcome m c with ⟨e | a, d⟩ <;> rfl

/-- A function that is begun goes on in a frame of its own, or is left at once. -/
theorem outcome_enterFunction (name : String) (params : List Tree.Param) (returns : Ty)
    (c : Context) :
    (∃ d, outcome (enterFunction name params returns) c = (.ok (), d) ∧
        Kept (c.enter (.start name params returns)) d) ∨
      ∃ e d, outcome (enterFunction name params returns) c = (.error e, d) ∧ Apart c d := by
  have hparams := steady_storeParams 0 params (c.enter (.start name params returns))
  have hrun : outcome (enterFunction name params returns) c =
      outcome ((storeParams 0 params).onFailure (modify (·.leave)))
        (c.enter (.start name params returns)) := rfl
  rw [hrun, outcome_onFailure]
  rcases hstore : outcome (storeParams 0 params) (c.enter (.start name params returns)) with
    ⟨e | u, d⟩
  · rw [hstore] at hparams
    exact .inr ⟨e, d.leave, rfl, hparams.leave⟩
  · rw [hstore] at hparams
    exact .inl ⟨d, rfl, hparams⟩

/-- The frame of a function is dropped before the function is added to the module. -/
theorem outcome_finish {c d : Context} {f : Frame} (h : Kept (c.enter f) d) :
    Apart c (outcome (do install (← finishFunction)) d).2 := by
  have hleave := h.leave
  cases hd : d.frames with
  | nil => exact absurd h.depth (by simp [hd, Context.enter])
  | cons f' rest =>
    have hfinish : outcome finishFunction d = (.ok f', d.leave) :=
      gives_finishFunction.mpr ⟨⟨rest, hd⟩, rfl⟩
    rw [outcome_bind, hfinish]
    change Apart c (outcome (install f') d.leave).2
    rw [install, outcome_get]
    split
    · rename_i m hm
      cases hb : f'.builder.prune.build with
      | error e =>
        rw [hb] at hm
        cases hm
      | ok fn =>
        rw [hb] at hm
        exact ⟨hleave.scopes, hleave.frames, hleave.module.trans (.define hm)⟩
    · exact hleave

/-- However a function ends, the frames and the bindings around it are what they were. -/
theorem define_apart {name node : String} {params : List Tree.Param} {returns : Ty}
    {body : Lower Diagnostic Ending} (hbody : Steady body) (c : Context) :
    Apart c (outcome (define name node params returns body) c).2 := by
  unfold define
  rw [outcome_bind, pinned, outcome_adapt]
  rcases outcome_enterFunction name params returns c with ⟨d, ho, hd⟩ | ⟨e, d, ho, hd⟩
  · rw [ho]
    change Apart c (outcome _ d).2
    have hrest : Steady (do
        let ending ← body
        pinned name node (close ending)) :=
      steady_bind hbody fun _ => steady_pinned _ _ (steady_close _)
    have hkept := hd.trans (hrest d)
    rw [outcome_bind, outcome_onFailure]
    rcases hr : outcome (do
        let ending ← body
        pinned name node (close ending)) d with ⟨e | u, d'⟩
    · rw [hr] at hkept
      exact hkept.leave
    · rw [hr] at hkept
      exact outcome_finish hkept
  · rw [ho]
    exact hd

theorem steady_addString (text : String) : Steady (do
    let c ← get
    let (id, m) := c.module.addString text
    set { c with module := m }
    return some (.plain (.str id) .string) : Lower Cause (Option Typed)) :=
  fun c => ⟨rfl, rfl, rfl, rfl, .addString c.module text⟩

mutual

theorem lowerExpr_steady (r : Registry) : ∀ e : Expr, Steady (lowerExpr r e)
  | .int _ => by
    rw [lowerExpr]
    apply steady_pure
  | .double _ => by
    rw [lowerExpr]
    apply steady_pure
  | .str text => by
    rw [lowerExpr]
    exact steady_addString text
  | .ident name => by
    rw [lowerExpr]
    exact steady_map some (steady_readName name)
  | .neg operand => by
    rw [lowerExpr]
    exact steady_bind (steady_needed (lowerExpr_steady r operand)) fun t =>
      steady_map some (steady_negate t)
  | .binary op lhs rhs => by
    rw [lowerExpr]
    exact steady_bind (steady_needed (lowerExpr_steady r lhs)) fun left =>
      steady_bind (steady_needed (lowerExpr_steady r rhs)) fun right =>
        steady_map some (steady_combine op left right)
  | .assign target value => by
    rw [lowerExpr]
    exact steady_bind (steady_storage target) fun s =>
      steady_bind (steady_needed (lowerExpr_steady r value)) fun t =>
        steady_bind (steady_storeInto target s t) fun _ => steady_pure _
  | .call name args => by
    rw [lowerExpr]
    exact steady_bind steady_get fun c => steady_bind (steady_liftExcept _) fun callee =>
      steady_bind (steady_liftExcept _) fun _ =>
        steady_bind (lowerArgs_steady r callee 0 args) fun values => steady_call callee values
  | .block stmts => by
    rw [lowerExpr]
    exact steady_located (lowerStmts_steady r none stmts)

theorem lowerArgs_steady (r : Registry) (callee : Callee) (index : Nat) :
    ∀ es : List Expr, Steady (lowerArgs r callee index es)
  | [] => by
    rw [lowerArgs]
    apply steady_pure
  | e :: es => by
    rw [lowerArgs]
    exact steady_bind (steady_needed (lowerExpr_steady r e)) fun t =>
      steady_bind (steady_argument callee index t) fun _ =>
        steady_bind (lowerArgs_steady r callee (index + 1) es) fun _ => steady_pure _

theorem lowerEach_steady (r : Registry) : ∀ es : List Expr, Steady (lowerEach r es)
  | [] => by
    rw [lowerEach]
    apply steady_pure
  | e :: es => by
    rw [lowerEach]
    exact steady_bind (lowerExpr_steady r e) fun _ => lowerEach_steady r es

theorem lowerStmts_steady (r : Registry) (last : Option Typed) :
    ∀ ss : List Stmt, Steady (lowerStmts r last ss)
  | [] => by
    rw [lowerStmts]
    apply steady_pure
  | s :: ss => by
    rw [lowerStmts]
    exact steady_bind steady_get fun c =>
      steady_bind (steady_pinned c.function s.summary (lowerStmtValue_steady r s)) fun value =>
        lowerStmts_steady r value ss

/-- A statement is steady. A function declared in it has a frame of its own, which is left again. -/
theorem lowerStmtValue_steady (r : Registry) : ∀ s : Stmt, Steady (lowerStmtValue r s)
  | .expr e => by
    rw [lowerStmtValue]
    exact lowerExpr_steady r e
  | .var name ty none => by
    rw [lowerStmtValue]
    have hdeclare : Steady (do
        let _ ← declareVar name ty
        return none : Lower Cause (Option Typed)) :=
      steady_bind (steady_declareVar name ty) fun _ => steady_pure none
    split
    · exact steady_bind (steady_throw _) fun _ => hdeclare
    · exact hdeclare
  | .var name ty (some init) => by
    rw [lowerStmtValue]
    have hinit : Steady (do
        let t ← needed "initializer" init (lowerExpr r init)
        let s ← declareVar name ty
        storeInto name s t
        return none : Lower Cause (Option Typed)) :=
      steady_bind (steady_needed (lowerExpr_steady r init)) fun t =>
        steady_bind (steady_declareVar name ty) fun s =>
          steady_bind (steady_storeInto name s t) fun _ => steady_pure none
    split
    · exact steady_bind (steady_throw _) fun _ => hinit
    · exact hinit
  | .function decl => by
    rw [lowerStmtValue]
    exact steady_bind (steady_located fun c => (lowerFunction_apart r decl c).kept) fun _ =>
      steady_pure _
  | .ret none => by
    rw [lowerStmtValue]
    exact steady_bind (steady_returnFrom none) fun _ => steady_pure _
  | .ret (some value) => by
    rw [lowerStmtValue]
    exact steady_bind steady_frame fun _ =>
      steady_bind (steady_needed (lowerExpr_steady r value)) fun t =>
        steady_bind (steady_returnFrom (some t)) fun _ => steady_pure _
  | .ite cond thenBlock none => by
    rw [lowerStmtValue]
    exact steady_bind (steady_needed (lowerExpr_steady r cond)) fun t =>
      steady_bind (steady_test _ t) fun _ =>
        steady_bind
          (steady_conditional
            (steady_located (steady_discard (lowerStmts_steady r none thenBlock)))
            (steady_pure ()))
          fun _ => steady_pure _
  | .ite cond thenBlock (some elseBlock) => by
    rw [lowerStmtValue]
    exact steady_bind (steady_needed (lowerExpr_steady r cond)) fun t =>
      steady_bind (steady_test _ t) fun _ =>
        steady_bind
          (steady_conditional
            (steady_located (steady_discard (lowerStmts_steady r none thenBlock)))
            (steady_located (steady_discard (lowerStmts_steady r none elseBlock))))
          fun _ => steady_pure _
  | .loop init cond post body => by
    rw [lowerStmtValue]
    exact steady_bind (lowerEach_steady r init) fun _ =>
      steady_bind
        (steady_repeated
          (steady_bind (steady_needed (lowerExpr_steady r cond)) fun t => steady_test _ t)
          (steady_bind (steady_located (steady_discard (lowerStmts_steady r none body)))
            fun _ => lowerEach_steady r post))
        fun _ => steady_pure _

/-- A declared function leaves all frames and all scopes as they were, whether its lowering succeeds or
fails. -/
theorem lowerFunction_apart (r : Registry) : ∀ (decl : FunctionDecl) (c : Context),
    Apart c (outcome (lowerFunction r decl) c).2
  | ⟨name, params, returns, body⟩, c => by
    rw [lowerFunction]
    exact define_apart (steady_bind (lowerStmts_steady r none body) fun _ => steady_pure _) c

end

end Lowering

end TreeLang
