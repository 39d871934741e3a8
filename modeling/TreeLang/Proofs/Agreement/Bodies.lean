import TreeLang.Proofs.Agreement.Failures
import TreeLang.Proofs.Builder.Verified
import TreeLang.Proofs.Typing.Parts

namespace TreeLang.Lowering

open TreeLang.Tree (Ty Expr Stmt FunctionDecl)
open Typing (Registry Callee Scopes Checker coercible declareParams)
open Ir (Knowledge)
open Ir.Builder (Laid)
open Lower

variable {r : Registry} {g g' : Knowledge} {c c' : Context} {k k' : Checker} {decl : FunctionDecl}
  {u u' : Unit}

/-- The check opens a table for the function, the lowering a frame; neither binds a name yet. -/
theorem Agrees.enter (h : Agrees k.scopes c) (name : String) (params : List Tree.Param)
    (returns : Ty) : Agrees (k.enter name returns).scopes (c.enter (.start name params returns)) where
  inner := rfl
  outer := by
    change c.scopes.inner :: c.scopes.outer = k.scopes.inner :: (k.scopes.outer ++ [.empty .int])
    rw [h.inner, h.outer]
  returns := rfl
  stored _ := rfl

/-- A parameter has a slot, and its argument is stored there. -/
theorem withBuilder_storeParam {index slot : Nat} {p : Tree.Param} {d d' : Context}
    (ha : Gives (build (·.alloca p.name p.ty.toIr)) c slot d)
    (hs : Gives (emit (·.append (.store slot (.param index) p.ty.toIr))) d u d') :
    ∃ b, d' = c.withBuilder b := by
  obtain ⟨_, _, _, _, _, rfl⟩ := gives_alloca.mp ha
  obtain ⟨_, _, _, _, _, rfl⟩ := gives_append.mp hs
  exact ⟨_, withBuilder_withBuilder c _ _⟩

/-- A parameter is bound to the slot that its argument is stored in. -/
theorem Agrees.bindParam {s : Scopes} (h : Agrees s c) (hloc : c.top.locals = []) (name : String)
    (slot : Nat) (ty : Ty) (rest : List Frame) :
    Agrees (s.declare name ty)
      { c with
        scopes := c.scopes.declare name ty
        frames := { c.top with params := (name, ⟨slot, ty⟩) :: c.top.params } :: rest } where
  inner := by
    change c.scopes.inner.insert name ty = s.inner.insert name ty
    rw [h.inner]
  outer := h.outer
  returns := h.returns.trans (Typing.Table.returns_insert s.inner name ty).symm
  stored other := by
    have hold := h.stored other
    unfold Frame.storage? at hold
    change ((c.top.locals.lookup other).or
      (((name, (⟨slot, ty⟩ : Storage)) :: c.top.params).lookup other)).map (·.ty) =
        (s.inner.insert name ty).get? other
    rw [hloc] at hold ⊢
    rw [Typing.Table.get?_insert, List.lookup_nil, Option.none_or, List.lookup_cons]
    by_cases ho : other = name
    · simp [ho]
    · rw [beq_eq_false_iff_ne.mpr ho, if_neg ho]
      exact hold

/-- The parameters are bound in the same order on both sides, so behind them the names agree again. -/
theorem agrees_storeParams {ps : List Tree.Param} {index : Nat} (hc : c.frames ≠ [])
    (hloc : c.top.locals = []) (ha : Agrees k.scopes c) (hk : Gives (declareParams decl ps) k u k')
    (h : Gives (storeParams index ps) c u' c') : Agrees k'.scopes c' := by
  induction ps generalizing index c k with
  | nil =>
    obtain ⟨_, rfl⟩ := gives_pure.mp hk
    obtain ⟨_, rfl⟩ := gives_pure.mp h
    exact ha
  | cons p ps ih =>
    obtain ⟨_, hk⟩ := Typing.declareParams_cons.mp hk
    obtain ⟨_, slot, d, d', f, rest, halloca, hstore, hf, h⟩ := gives_storeParams_cons.mp h
    obtain rfl := Context.top_eq hf
    obtain ⟨b, rfl⟩ := withBuilder_storeParam halloca hstore
    have hloc' : (c.withBuilder b).top.locals = [] := by
      rw [Context.top_withBuilder hc]
      exact hloc
    refine ih ?_ ?_ ?_ hk h
    · exact List.cons_ne_nil _ _
    · exact hloc'
    · exact (ha.withBuilder hc b).bindParam hloc' p.name slot p.ty rest

/-- Only a parameter that cannot hold a value has no slot. -/
theorem fails_storeParams {ps : List Tree.Param} {index : Nat} {e : Cause} (hc : c.frames ≠ [])
    (ho : c.top.builder.IsOpen) (h : Fails (storeParams index ps) c e c') :
    ∃ p ∈ ps, p.ty = .void ∧ e = .voidBinding p.name := by
  induction ps generalizing index c with
  | nil => exact absurd h fails_pure
  | cons p ps ih =>
    rw [storeParams] at h
    by_cases hv : p.ty = .void
    · rw [if_pos hv] at h
      rcases fails_bind.mp h with hf | ⟨_, _, hno, _⟩
      · exact ⟨p, List.mem_cons_self, hv, (fails_throw.mp hf).1⟩
      · exact absurd hno gives_throw
    rw [if_neg hv] at h
    rcases fails_bind.mp h with hf | ⟨slot, d, halloca, h⟩
    · exact ((succeeds_alloca hc p.name hv).not_fails hf).elim
    have hd : d.frames ≠ [] := by
      obtain ⟨_, _, _, _, _, rfl⟩ := gives_alloca.mp halloca
      exact Context.frames_withBuilder_ne hc _
    have hod : d.top.builder.IsOpen := by
      obtain ⟨f, rest, hf, _, _, rfl⟩ := gives_alloca.mp halloca
      obtain rfl := Context.top_eq hf
      rw [Context.top_withBuilder hc]
      exact ho.reserve _ _
    rcases fails_bind.mp h with hf | ⟨_, d', hstore, h⟩
    · exact ((succeeds_append hd hod (.store slot (.param index) p.ty.toIr)).not_fails hf).elim
    have hd' := (tame_append _ _ _ _ hstore).frames hd
    have hod' : d'.top.builder.IsOpen := by
      obtain ⟨f, rest, id, hf, _, rfl⟩ := gives_append.mp hstore
      obtain rfl := Context.top_eq hf
      rw [Context.top_withBuilder hd]
      exact hod.add _
    rcases fails_bind.mp h with hf | ⟨f, _, hframe, h⟩
    · exact ((succeeds_frame hd').not_fails hf).elim
    obtain ⟨⟨rest, hf⟩, rfl⟩ := gives_frame.mp hframe
    obtain rfl := Context.top_eq hf
    rcases fails_bind.mp h with hno | ⟨_, _, hset, h⟩
    · exact absurd hno fails_modify
    obtain rfl := gives_setFrame.mp hset
    rcases fails_bind.mp h with hno | ⟨_, _, hdeclare, h⟩
    · exact absurd hno fails_modify
    obtain rfl := gives_modify.mp hdeclare
    have hrest := fun hf ho => ih hf ho h
    obtain ⟨q, hq, hvoid, rfl⟩ := hrest (List.cons_ne_nil _ _) hod'
    exact ⟨q, List.mem_cons_of_mem _ hq, hvoid, rfl⟩

/-- Parameters of types that have values can be stored, whatever their names. -/
theorem succeeds_storeParams {ps : List Tree.Param} (index : Nat) (hc : c.frames ≠ [])
    (ho : c.top.builder.IsOpen) (hps : ∀ p ∈ ps, p.ty ≠ .void) : Succeeds (storeParams index ps) c := by
  rcases gives_or_fails (storeParams index ps) c with hg | ⟨e, c', hf⟩
  · exact hg
  · obtain ⟨p, hp, hvoid, _⟩ := fails_storeParams hc ho hf
    exact absurd hvoid (hps p hp)

/-- What is wrong where the end of a function cannot be closed: control comes to it, and there is no
value of the type that the function returns. -/
def Unclosed (c : Context) : Ending → Prop
  | .value none => True
  | .value (some t) => coercible t.ty c.top.returns = false
  | .zero => Ir.Constant.zero? c.top.returns.toIr = none

/-- A function that cannot be closed has a result, and the end of its body can be reached. -/
theorem fails_close (hs : Sound r g c) {ending : Ending} (he : ending.Fits r g c) {e : Cause}
    (h : Fails (close ending) c e c') : c.top.returns ≠ .void ∧ Unclosed c ending ∧
      ∃ id, c.top.builder.current = some id ∧ c.top.builder.isReachable id = true := by
  unfold close at h
  rcases fails_bind.mp h with hno | ⟨f, d, hf, hclose⟩
  · exact ((succeeds_frame hs.frames).not_fails hno).elim
  obtain ⟨⟨rest, hf⟩, rfl⟩ := gives_frame.mp hf
  obtain rfl := Context.top_eq hf
  split at hclose
  · exact absurd hclose fails_pure
  rename_i id hid
  split at hclose
  · exact absurd hclose fails_pure
  rename_i hend
  have hreach : d.top.builder.isReachable id = true := by
    simp only [Bool.or_eq_true, Bool.not_eq_true', not_or, Bool.not_eq_false] at hend
    exact hend.2
  split at hclose
  · exact ((succeeds_terminate hs.frames hs.isOpen _).not_fails hclose).elim
  rename_i hne
  refine ⟨hne, ?_, id, hid, hreach⟩
  cases ending with
  | value t =>
    cases t with
    | none => trivial
    | some t =>
      cases hco : coercible t.ty d.top.returns with
      | false => exact hco
      | true =>
        rcases fails_bind.mp hclose with hno | ⟨v, d', hval, hret⟩
        · exact ((succeeds_coerce hs (he t rfl) hco).not_fails hno).elim
        · obtain ⟨hl, _⟩ := sound_coerce hs (he t rfl) hval
          exact ((succeeds_terminate hl.frames hl.isOpen _).not_fails hret).elim
  | zero =>
    dsimp only at hclose
    split at hclose
    · rcases fails_bind.mp hclose with hno | ⟨v, d', hval, hret⟩
      · exact absurd hno fails_pure
      · obtain ⟨_, rfl⟩ := gives_pure.mp hval
        exact ((succeeds_terminate hs.frames hs.isOpen _).not_fails hret).elim
    · assumption

/-- Behind the end of a function only a block that control cannot come to is left open. -/
theorem settled_close (ho : c.top.builder.IsOpen) {ending : Ending}
    (h : Gives (close ending) c u c') {id : Nat} {block : Ir.Block}
    (hid : c'.top.builder.current = some id) (hblock : c'.top.builder.function.block? id = some block)
    (hreach : c'.top.builder.function.graph.Reached id) : block.terminator ≠ .unset := by
  obtain ⟨f, rest, hc, ⟨hcase, rfl⟩ | ⟨_, value, d, _, _, _, _, hret⟩⟩ := gives_close h
  · obtain rfl := Context.top_eq hc
    rcases hcase with hnone | hterm | ⟨j, hj, hno⟩
    · rw [hid] at hnone
      cases hnone
    · intro hu
      simp [Ir.Builder.isTerminated, hid, hblock, Ir.Block.isTerminated, hu] at hterm
    · cases hid.symm.trans hj
      rw [Ir.Builder.isReachable_iff.mpr hreach] at hno
      cases hno
  · obtain ⟨f', rest', j, b, hf', hj, hb, _, rfl⟩ := gives_terminate.mp hret
    obtain rfl := Context.top_eq hf'
    rw [Context.top_withBuilder (by simp [hf'])] at hid hblock
    cases hj.symm.trans hid
    cases (Ir.Function.block?_finish_self hb _).symm.trans hblock
    intro hunset
    cases hunset

/-- A function whose end has been closed passes the verifier. -/
theorem build_closed {name : String} {params : List Ir.Param} {returns : Ir.Ty} {strings : Nat}
    {b : Ir.Builder} (hl : Laid (callees r) strings .nothing (.start name params returns) g b [])
    (hset : ∀ id k, b.current = some id → b.function.block? id = some k →
      b.function.graph.Reached id → k.terminator ≠ .unset) :
    ∃ F, b.prune.build = .ok F ∧ F.name = name := by
  refine ⟨b.prune.function, Ir.Builder.build_prune hl.certified hl.shaped fun id k hk hr => ?_, hl.name⟩
  by_cases hid : b.current = some id
  · exact hset id k hid hk hr
  · -- everything has been made since the function was begun
    have howns : (Ir.Builder.start name params returns).Owns id := by
      rcases Nat.eq_zero_or_pos id with rfl | hpos
      · exact .inl rfl
      · exact .inr hpos
    exact hl.settled id k hk howns (by simp) hid

/-- A name that no function of the module has can be given to a new one. -/
theorem define_ok {m : Ir.Module} {F : Ir.Function} (h : ∀ F' ∈ m.functions, F'.name ≠ F.name) :
    m.define F = .ok { m with
      functions := m.functions ++ [F]
      externals := m.externals.filter (·.name != F.name) } := by
  unfold Ir.Module.define
  rw [if_neg]
  intro hany
  obtain ⟨F', hF', he⟩ := List.any_eq_true.mp hany
  exact h F' hF' (by simpa using he)

/-- A function whose end has been closed goes to a module without another one of its name. -/
theorem define_closed {ds : List FunctionDecl} {name : String} {params : List Tree.Param} {returns : Ty}
    {c₁ c₂ : Context} {ending : Ending}
    (hw : Working r ds .nothing (c.enter (.start name params returns)) g c₂ [])
    (ho : c₁.top.builder.IsOpen) (hclose : Gives (close ending) c₁ u c₂)
    (hnew : ∀ F ∈ c.module.functions, F.name ≠ name) (hname : ∀ d ∈ ds, d.name ≠ name) :
    ∃ m, (c₂.top.builder.prune.build >>= c₂.module.define) = .ok m := by
  obtain ⟨F, hF, hFname⟩ := build_closed hw.laid fun id k hid hk hr =>
    settled_close ho hclose hid hk hr
  have habsent : ∀ F' ∈ c₂.module.functions, F'.name ≠ F.name := by
    intro F' hF'
    rw [hFname]
    rcases hw.made F' hF' with hold | ⟨d', hd', hname', _⟩
    · exact hnew F' hold
    · rw [hname']
      exact hname d' hd'
  rw [hF]
  exact ⟨_, define_ok habsent⟩

theorem fails_define {name node : String} {params : List Tree.Param} {returns : Ty}
    {body : Lower Diagnostic Ending} {d : Diagnostic}
    (h : Fails (define name node params returns body) c d c') :
    (∃ e c₁, Fails (enterFunction name params returns) c e c₁ ∧ d = .pin name node e) ∨
    ∃ c₁, Gives (enterFunction name params returns) c () c₁ ∧ ((∃ c₂, Fails body c₁ d c₂) ∨
      ∃ ending c₂, Gives body c₁ ending c₂ ∧
        ((∃ e c₃, Fails (close ending) c₂ e c₃ ∧ d = .pin name node e) ∨
        ∃ c₃, Gives (close ending) c₂ () c₃ ∧ (c₃.frames = [] ∨
          ∀ m, (c₃.top.builder.prune.build >>= c₃.module.define) ≠ .ok m))) := by
  unfold define pinned Lower.onFailure at h
  rcases fails_bind.mp h with hno | ⟨_, c₁, henter, hrest⟩
  · obtain ⟨e, he, hd⟩ := fails_adapt.mp hno
    exact .inl ⟨e, c', he, hd⟩
  refine .inr ⟨c₁, gives_adapt.mp henter, ?_⟩
  rcases fails_bind.mp hrest with hno | ⟨_, c₃, hbody, hinstall⟩
  · obtain ⟨d', c₂, hfail, hthrow⟩ := fails_tryCatch.mp hno
    have hd : d = d' := by
      rcases fails_bind.mp hthrow with hno | ⟨_, _, _, hthrow⟩
      · exact absurd hno fails_lift
      · exact (fails_throw.mp hthrow).1
    subst hd
    rcases fails_bind.mp hfail with hno | ⟨ending, c₂', hgives, hclose⟩
    · exact .inl ⟨c₂, hno⟩
    · obtain ⟨e, he, hpin⟩ := fails_adapt.mp hclose
      exact .inr ⟨ending, c₂', hgives, .inl ⟨e, c₂, he, hpin⟩⟩
  · -- the handler of a failure gives nothing, so the body and the end have been lowered
    have hbody := gives_onFailure.mp hbody
    obtain ⟨ending, c₂, hgives, hclose⟩ := gives_bind.mp hbody
    refine .inr ⟨ending, c₂, hgives, .inr ⟨c₃, gives_adapt.mp hclose, ?_⟩⟩
    by_cases hc₃ : c₃.frames = []
    · exact .inl hc₃
    · refine .inr fun m hm => ?_
      obtain ⟨e, he, _⟩ := fails_adapt.mp hinstall
      have hfinish : Gives finishFunction c₃ c₃.top c₃.leave :=
        gives_finishFunction.mpr ⟨⟨_, Context.frames_eq hc₃⟩, rfl⟩
      rcases fails_bind.mp he with hno | ⟨f, c₄, hf, hno⟩
      · exact gives_not_fails hfinish hno
      · obtain ⟨rfl, rfl⟩ := gives_unique hfinish hf
        unfold install at hno
        rcases fails_bind.mp hno with hno | ⟨c₅, _, hget, hno⟩
        · exact absurd hno fails_get
        · obtain ⟨rfl, rfl⟩ := gives_get.mp hget
          rw [show c₃.leave.module = c₃.module from rfl, hm] at hno
          exact absurd hno fails_set

end TreeLang.Lowering
