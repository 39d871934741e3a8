import TreeLang.Proofs.Agreement.Progress
import TreeLang.Proofs.Lowering.Programs

namespace TreeLang

def EmissionFault.internal : EmissionFault → Bool
  | .noFunction | .noFrame | .noZero _ => true
  | .noValue .. | .noConversion .. | .openEnd _ => false

mutual

/-- Whether a failure is one of the lowering itself: the builder has refused a step or a function, or
the lowering has lost the function at hand or the zero that its entry returns. -/
def Cause.internal : Cause → Bool
  | .builder _ => true
  | .emission fault => fault.internal
  | .located diagnostic => diagnostic.internal
  | _ => false

def Diagnostic.internal : Diagnostic → Bool
  | ⟨_, _, cause⟩ => cause.internal

end

theorem Diagnostic.internal_pin (function node : String) (cause : Cause) :
    (Diagnostic.pin function node cause).internal = cause.internal := by
  cases cause <;> simp [Diagnostic.pin, Diagnostic.internal, Cause.internal]

namespace Lowering

open TreeLang.Tree (Ty Expr Stmt FunctionDecl nestedOfExprs nestedFunctions)
open Typing (Registry Callee coercible)
open Ir (Knowledge)
open Lower

variable {r : Registry} {ds ds' : List FunctionDecl} {g g' : Knowledge} {c c' : Context}

def Blameless {α : Type} (m : Lower Cause α) (c : Context) : Prop :=
  ∀ e c', Fails m c e c' → e.internal = false

section

variable {α β : Type} {m : Lower Cause α}

theorem Succeeds.blameless (h : Succeeds m c) : Blameless m c :=
  fun _ _ hf => (h.not_fails hf).elim

/-- Blame is passed on through every way of putting work together. -/
theorem blameless_pure (a : α) (c : Context) : Blameless (pure a) c :=
  fun _ _ hf => absurd hf fails_pure

theorem blameless_throw {e : Cause} (h : e.internal = false) (c : Context) :
    Blameless (throw e : Lower Cause α) c := by
  intro e' c' hf
  rw [(fails_throw.mp hf).1]
  exact h

theorem blameless_liftExcept {x : Except Cause α} (h : ∀ e, x = .error e → e.internal = false)
    (c : Context) : Blameless (liftExcept x) c :=
  fun e _ hf => h e (fails_liftExcept.mp hf).1

/-- The second part is asked about only where the first one has come to an end. -/
theorem blameless_bind {f : α → Lower Cause β} (hm : Blameless m c)
    (hf : ∀ a c', Gives m c a c' → Blameless (f a) c') : Blameless (m >>= f) c := by
  intro e c' h
  rcases fails_bind.mp h with h | ⟨a, d, hg, h⟩
  · exact hm e c' h
  · exact hf a d hg e c' h

theorem blameless_map {f : α → β} (hm : Blameless m c) : Blameless (f <$> m) c :=
  fun e c' h => hm e c' (fails_map.mp h)

theorem blameless_needed {role : String} {e : Expr} {m : Lower Cause (Option Typed)}
    (hm : Blameless m c) : Blameless (needed role e m) c := by
  refine blameless_bind hm fun v d _ => ?_
  cases v with
  | none => exact blameless_throw rfl d
  | some t => exact blameless_pure t d

theorem blameless_located {m : Lower Diagnostic α}
    (h : ∀ d c', Fails m c d c' → d.internal = false) : Blameless (located m) c := by
  intro e c' hf
  obtain ⟨d, hd, rfl⟩ := fails_adapt.mp hf
  exact h d c' hd

end

/-- Outside of a function there is no frame; that is a failure of the lowering. -/
theorem blameless_frame (hc : c.frames ≠ []) : Blameless frame c :=
  (succeeds_frame hc).blameless

/-- A name without a slot is the fault of the tree. -/
theorem blameless_storage (hc : c.frames ≠ []) (name : String) : Blameless (storage name) c := by
  refine blameless_bind (blameless_frame hc) fun f d _ => ?_
  split
  · exact blameless_pure _ d
  · refine blameless_bind (fun _ _ hf => absurd hf fails_get) fun d' _ _ => ?_
    split <;> exact blameless_throw rfl _

/-- Operands that fit the function at hand are ones that the builder takes. -/
theorem blameless_coerce (hs : Sound r g c) {t : Typed} (ht : t.Fits r g c) (target : Ty) :
    Blameless (coerce t target) c := by
  cases hco : coercible t.ty target with
  | true => exact (succeeds_coerce hs ht hco).blameless
  | false =>
    simp only [coercible, Bool.or_eq_false_iff, beq_eq_false_iff_ne] at hco
    refine blameless_bind (succeeds_materialize hs ht).blameless fun v d _ => ?_
    rw [if_neg hco.1, if_neg (by simp [hco.2])]
    exact blameless_throw rfl d

theorem blameless_negate (hs : Sound r g c) {t : Typed} (ht : t.Fits r g c) :
    Blameless (negate t) c := by
  cases hn : t.ty.isNumeric with
  | true => exact (succeeds_negate hs ht hn).blameless
  | false =>
    refine blameless_bind (blameless_liftExcept (fun e he => ?_) c) fun ty d hty => ?_
    · rw [Typing.negType, if_neg (by simp [hn])] at he
      cases he
      rfl
    · rw [Typing.negType, if_neg (by simp [hn])] at hty
      cases (gives_liftExcept.mp hty).1

/-- An operator is refused for the types of its operands. -/
theorem internal_of_binaryType {op : Tree.BinaryOp} {left right : Ty} {e : Cause}
    (h : Typing.binaryType op left right = .error e) : e.internal = false := by
  unfold Typing.binaryType at h
  split at h
  · cases h
    rfl
  · split at h
    · cases h
      rfl
    · cases h

theorem blameless_combine (hs : Sound r g c) {op : Tree.BinaryOp} {left right : Typed}
    (hleft : left.Fits r g c) (hright : right.Fits r g c) : Blameless (combine op left right) c := by
  cases hty : Typing.binaryType op left.ty right.ty with
  | ok ty => exact (succeeds_combine hs hleft hright hty).blameless
  | error e =>
    refine blameless_bind (blameless_liftExcept (fun _ => internal_of_binaryType) c) fun ty d h => ?_
    cases hty.symm.trans (gives_liftExcept.mp h).1

theorem blameless_readName (hs : Sound r g c) (name : String) : Blameless (readName name) c := by
  refine blameless_bind (blameless_storage hs.frames name) fun s d hst => ?_
  obtain ⟨_, rfl⟩ := gives_storage.mp hst
  exact blameless_bind (succeeds_define hs (.load · s.slot s.ty.toIr)).blameless
    fun _ _ _ => blameless_pure _ _

theorem blameless_storeInto (hs : Sound r g c) (name : String) (s : Storage) {t : Typed}
    (ht : t.Fits r g c) : Blameless (storeInto name s t) c := by
  cases hco : coercible t.ty s.ty with
  | true => exact (succeeds_storeInto hs name ht hco).blameless
  | false =>
    rw [storeInto, if_neg (by simp [hco])]
    exact blameless_throw rfl c

theorem blameless_argument (hs : Sound r g c) (callee : Callee) (index : Nat) {t : Typed}
    (ht : t.Fits r g c) : Blameless (argument callee index t) c := by
  unfold argument
  split
  · split
    · exact blameless_coerce hs ht _
    · exact blameless_throw rfl c
  · exact (succeeds_materialize hs ht).blameless

theorem blameless_test (hs : Sound r g c) (role : String) (t : Typed) :
    Blameless (test role t) c := by
  cases hn : t.ty.isNumeric with
  | true => exact (succeeds_test hs role hn).blameless
  | false =>
    unfold test
    split
    · exact blameless_pure _ c
    · split
      · simp_all [Ty.isNumeric]
      · simp_all [Ty.isNumeric]
      · exact blameless_throw rfl c

theorem blameless_returnFrom (hs : Sound r g c) {t : Option Typed} (ht : ∀ t' ∈ t, t'.Fits r g c) :
    Blameless (returnFrom t) c := by
  by_cases hreturns : ∀ t' ∈ t, c.top.returns ≠ .void ∧ coercible t'.ty c.top.returns = true
  · by_cases hnone : t = none → c.top.returns = .void
    · exact (succeeds_returnFrom hs ht hreturns hnone).blameless
    · obtain ⟨rfl, hne⟩ := Classical.not_imp.mp hnone
      refine blameless_bind (blameless_frame hs.frames) fun f d hf => ?_
      obtain ⟨⟨rest, hf⟩, rfl⟩ := gives_frame.mp hf
      obtain rfl := Context.top_eq hf
      refine blameless_bind (fun _ _ hno => absurd hno fails_get) fun d' d'' hget => ?_
      dsimp only
      rw [if_neg hne]
      exact blameless_bind (blameless_throw rfl _) fun _ _ hno => absurd hno gives_throw
  · cases t with
    | none => exact absurd (by simp) hreturns
    | some t =>
      refine blameless_bind (blameless_frame hs.frames) fun f d hf => ?_
      obtain ⟨⟨rest, hf⟩, rfl⟩ := gives_frame.mp hf
      obtain rfl := Context.top_eq hf
      refine blameless_bind (fun _ _ hno => absurd hno fails_get) fun d' d'' hget => ?_
      have hno : ¬ (d.top.returns ≠ .void ∧ coercible t.ty d.top.returns = true) := by
        simpa using hreturns
      dsimp only
      rw [if_neg hno]
      exact blameless_bind (blameless_throw rfl _) fun _ _ hno => absurd hno gives_throw

/-- The end of a function can be closed if there is a zero where one is returned. -/
theorem blameless_close (hs : Sound r g c) {ending : Ending} (he : ending.Fits r g c)
    (hzero : ending = .zero → Ir.Constant.zero? c.top.returns.toIr ≠ none) :
    Blameless (close ending) c := by
  have hreturn : ∀ {v d}, Lowered r [] g c g d →
      Blameless (emit (·.returnValue (some v))) d := fun hl =>
    (succeeds_terminate hl.frames hl.isOpen _).blameless
  refine blameless_bind (blameless_frame hs.frames) fun f d hf => ?_
  obtain ⟨⟨rest, hf⟩, rfl⟩ := gives_frame.mp hf
  obtain rfl := Context.top_eq hf
  split
  · exact blameless_pure _ _
  split
  · exact blameless_pure _ _
  split
  · exact (succeeds_terminate hs.frames hs.isOpen _).blameless
  cases ending with
  | value t =>
    cases t with
    | none => exact blameless_bind (blameless_throw rfl _) fun _ _ hno => absurd hno gives_throw
    | some t =>
      refine blameless_bind (blameless_coerce hs (he t rfl) _) fun v d' hv => ?_
      exact hreturn (sound_coerce hs (he t rfl) hv).1
  | zero =>
    dsimp only
    split
    · refine blameless_bind (blameless_pure _ _) fun v d' hv => ?_
      obtain ⟨_, rfl⟩ := gives_pure.mp hv
      exact hreturn (.refl hs)
    · rename_i hno
      exact absurd hno (hzero rfl)

theorem blameless_resolve (r : Registry) (externals : String → Option Ir.External) (name : String)
    (c : Context) : Blameless (liftExcept (Callee.resolve r externals name)) c := by
  refine blameless_liftExcept (fun e he => ?_) c
  unfold Callee.resolve at he
  split at he
  · cases he
  · split at he
    · cases he
    · cases he
      rfl

theorem blameless_checkArity (callee : Callee) (n : Nat) (c : Context) :
    Blameless (liftExcept (callee.checkArity n)) c := by
  refine blameless_liftExcept (fun e he => ?_) c
  unfold Callee.checkArity at he
  split at he
  · cases he
  · cases he
    rfl

/-- Lowering stands before a part of a tree that declares `ds`. -/
structure Poised (r : Registry) (ds : List FunctionDecl) (g : Knowledge) (c : Context) : Prop where
  sound : Sound r g c
  registered : Registered r ds
  fresh : Fresh ds c.module

namespace Poised

/-- A part of a tree may be lowered whenever the functions that it declares are still missing in the
module. -/
theorem perm (h : Poised r ds g c) (hp : ds.Perm ds') : Poised r ds' g c where
  sound := h.sound
  registered d hd := h.registered d (hp.mem_iff.mpr hd)
  fresh := h.fresh.perm hp

theorem left (h : Poised r (ds ++ ds') g c) : Poised r ds g c :=
  ⟨h.sound, h.registered.left, h.fresh.left⟩

theorem right (h : Poised r (ds ++ ds') g c) : Poised r ds' g c :=
  (h.perm List.perm_append_comm).left

/-- Behind the first part of a tree lowering stands before the second. -/
theorem next (h : Poised r (ds ++ ds') g c) (hl : Lowered r ds g c g' c') : Poised r ds' g' c' :=
  ⟨hl.sound h.sound, h.registered.right, h.fresh.right hl⟩

theorem step (h : Poised r ds g c) (hl : Lowered r [] g c g' c') : Poised r ds g' c' := by
  have hnil : Poised r ([] ++ ds) g c := h
  exact hnil.next hl

theorem rebuilt (h : Poised r ds g c) (hr : Rebuilt c c') (hs : Sound r g' c') :
    Poised r ds g' c' :=
  ⟨hs, h.registered, hr.module ▸ h.fresh⟩

/-- Behind one part of a conditional or a loop, where the other one begins. -/
theorem preceded {α : Type} {m : Lower Cause α} (h : Poised r (ds ++ ds') g c)
    (hp : Preceded r ds m c c' g') : Poised r ds' g' c' := by
  obtain ⟨⟨g₁, c₁, a, c₂, hr₁, hs₁, _, hl, hr₂⟩, hs⟩ := hp
  exact ((h.rebuilt hr₁ hs₁).next hl).rebuilt hr₂ hs

end Poised

/-- The blocks of a conditional are made before anything is put into them, so the builder does not
refuse a jump. -/
theorem blameless_conditional {condition : Ir.Operand} {thenPart elsePart : Lower Cause Unit}
    (hp : Poised r (ds ++ ds') g c) (hcond : Holds r g c condition .bool)
    (hthen : ∀ g c c', Sound r g c → Gives thenPart c () c' → ∃ g', Lowered r ds g c g' c')
    (helse : ∀ g c c', Sound r g c → Gives elsePart c () c' → ∃ g', Lowered r ds' g c g' c')
    (bthen : ∀ {g c}, Poised r ds g c → Blameless thenPart c)
    (belse : ∀ {g c}, Poised r ds' g c → Blameless elsePart c) :
    Blameless (conditional condition thenPart elsePart) c := by
  intro e c' h
  rcases fails_conditional hp.sound hcond hthen helse h with ⟨g₁, c₁, hr, hs, d, hf⟩ |
    ⟨g₂, c₂, hpre, d, hf⟩
  · exact bthen (hp.left.rebuilt hr hs) e d hf
  · exact belse (hp.preceded hpre) e d hf

theorem blameless_repeated {condition : Lower Cause Ir.Operand} {body : Lower Cause Unit}
    (hp : Poised r (ds ++ ds') g c)
    (hcond : ∀ g c o c', Sound r g c → Gives condition c o c' →
      ∃ g', Lowered r ds g c g' c' ∧ Holds r g' c' o .bool)
    (hbody : ∀ g c c', Sound r g c → Gives body c () c' → ∃ g', Lowered r ds' g c g' c')
    (bcond : ∀ {g c}, Poised r ds g c → Blameless condition c)
    (bbody : ∀ {g c}, Poised r ds' g c → Blameless body c) :
    Blameless (repeated condition body) c := by
  intro e c' h
  rcases fails_repeated hp.sound hcond hbody h with ⟨g₁, c₁, hr, hs, d, hf⟩ | ⟨g₂, c₂, hpre, d, hf⟩
  · exact bcond (hp.left.rebuilt hr hs) e d hf
  · exact bbody (hp.preceded hpre) e d hf

/-- A function is blameless if its body is: its end is closed, and it passes the verifier. -/
theorem blameless_define {name node : String} {params : List Tree.Param} {returns : Ty}
    {body : List Stmt} (ending : Option Typed → Ending) {d : Diagnostic} (ho : Orderly r c.module)
    (hreg : Registered r (nestedFunctions body)) (hfresh : Fresh (nestedFunctions body) c.module)
    (hnew : ∀ F ∈ c.module.functions, F.name ≠ name)
    (hname : ∀ d ∈ nestedFunctions body, d.name ≠ name)
    (hfits : ∀ g c v, (∀ t ∈ v, t.Fits r g c) → (ending v).Fits r g c)
    (hzero : ∀ v, ending v = .zero → Ir.Constant.zero? returns.toIr ≠ none)
    (ih : ∀ {g c d c'}, Poised r (nestedFunctions body) g c → Fails (lowerStmts r none body) c d c' →
      d.internal = false)
    (h : Fails (define name node params returns (do return ending (← lowerStmts r none body))) c d c') :
    d.internal = false := by
  have hs₀ := sound_enter (r := r) ho name params returns
  rcases fails_define h with ⟨e, c₁, hf, rfl⟩ | ⟨c₁, henter, hrest⟩
  · obtain ⟨e', _, hstore, hthrow⟩ : ∃ e' d', Fails (storeParams 0 params)
        (c.enter (.start name params returns)) e' d' ∧ e = e' := by
      unfold enterFunction Lower.onFailure at hf
      rcases fails_bind.mp hf with hno | ⟨_, _, henter, hf⟩
      · exact absurd hno fails_modify
      · obtain rfl := gives_modify.mp henter
        obtain ⟨e', d', hstore, hthrow⟩ := fails_tryCatch.mp hf
        rcases fails_bind.mp hthrow with hno | ⟨_, _, _, hthrow⟩
        · exact absurd hno fails_lift
        · exact ⟨e', d', hstore, (fails_throw.mp hthrow).1⟩
    obtain ⟨p, _, _, rfl⟩ := fails_storeParams hs₀.frames hs₀.isOpen hstore
    rw [hthrow, Diagnostic.internal_pin]
    rfl
  have l₁ := sound_enterFunction ho henter
  have hs₁ := l₁.sound hs₀
  have hfresh₀ : Fresh ([] ++ nestedFunctions body) (c.enter (.start name params returns)).module :=
    hfresh
  rcases hrest with ⟨c₂, hf⟩ | ⟨e, c₂, hgives, hrest⟩
  · rcases fails_bind.mp hf with hf | ⟨_, _, _, hf⟩
    · exact ih ⟨hs₁, hreg, hfresh₀.right l₁⟩ hf
    · exact absurd hf fails_pure
  obtain ⟨v, _, hlower, hpure⟩ := gives_bind.mp hgives
  obtain ⟨rfl, rfl⟩ := gives_pure.mp hpure
  obtain ⟨g₂, l₂, hfit⟩ := lowerStmts_sound r none body hreg hs₁ (by simp) hlower
  have hs₂ := l₂.sound hs₁
  have he := hfits g₂ c₂ v hfit
  rcases hrest with ⟨e, c₃, hf, rfl⟩ | ⟨c₃, hclose, hrest⟩
  · have hret : c₂.top.returns = returns := l₂.returns.trans l₁.returns
    rw [Diagnostic.internal_pin]
    exact blameless_close hs₂ he (hret ▸ hzero v) e c₃ hf
  · have w₃ := sound_close hs₀ (l₁.trans l₂).toWorking l₂.isOpen (ending v) he hclose
    rcases hrest with hnil | hno
    · exact absurd hnil w₃.frames
    · obtain ⟨m, hm⟩ := define_closed w₃ l₂.isOpen hclose hnew hname
      exact absurd hm (hno m)

section Forms

variable {cond : Expr} {init post : List Expr} {thenBlock body : List Stmt}
  {elseBlock : Option (List Stmt)}

theorem blameless_lowerBranch (h : ∀ {d c'}, Fails (lowerStmts r none body) c d c' → d.internal = false) :
    Blameless (lowerBranch r (some body)) c :=
  blameless_located fun _ _ hf => h (fails_discard.mp hf)

theorem blameless_ite (hp : Poised r (cond.nestedFunctions ++ (nestedFunctions thenBlock ++ ds)) g c)
    (helse : ∀ g c c', Sound r g c → Gives (lowerBranch r elseBlock) c () c' →
      ∃ g', Lowered r ds g c g' c')
    (bcond : Blameless (lowerExpr r cond) c)
    (bthen : ∀ {g c d c'}, Poised r (nestedFunctions thenBlock) g c →
      Fails (lowerStmts r none thenBlock) c d c' → d.internal = false)
    (belse : ∀ {g c}, Poised r ds g c → Blameless (lowerBranch r elseBlock) c) :
    Blameless (lowerStmtValue r (.ite cond thenBlock elseBlock)) c := by
  intro e c' h
  rcases fails_ite.mp h with hf | ⟨t, d, ht, h⟩
  · exact blameless_needed bcond e c' hf
  obtain ⟨g₁, l₁, hfit⟩ := lowerExpr_sound r cond hp.left.registered hp.sound ht
  have hp₁ := hp.next l₁
  rcases h with hf | ⟨o, d', ho, h⟩
  · exact blameless_test hp₁.sound _ t e c' hf
  obtain ⟨l₂, hcond⟩ := sound_test hp₁.sound (hfit t rfl) ho
  exact blameless_conditional (hp₁.step l₂) hcond
    (fun _ _ _ => lowerBranch_sound hp₁.left.registered) helse
    (fun hp => blameless_lowerBranch (bthen hp)) belse e c' h

theorem blameless_loop
    (hp : Poised r (nestedOfExprs init ++ (cond.nestedFunctions ++
      (nestedFunctions body ++ nestedOfExprs post))) g c)
    (binit : Blameless (lowerEach r init) c)
    (bcond : ∀ {g c}, Poised r cond.nestedFunctions g c → Blameless (lowerExpr r cond) c)
    (bbody : ∀ {g c d c'}, Poised r (nestedFunctions body) g c →
      Fails (lowerStmts r none body) c d c' → d.internal = false)
    (bpost : ∀ {g c}, Poised r (nestedOfExprs post) g c → Blameless (lowerEach r post) c) :
    Blameless (lowerStmtValue r (.loop init cond post body)) c := by
  intro e c' h
  rcases fails_loop.mp h with hf | ⟨d, hinit, h⟩
  · exact binit e c' hf
  obtain ⟨g₁, l₁⟩ := lowerEach_sound r init hp.left.registered hp.sound hinit
  have hp₁ := hp.next l₁
  refine blameless_repeated hp₁ (fun _ _ _ _ => lowerTest_sound hp₁.left.registered)
    (fun _ _ _ => lowerRound_sound hp₁.right.registered) (fun hp => ?_) (fun hp => ?_) e c' h
  · refine blameless_bind (blameless_needed (bcond hp)) fun t d ht => ?_
    obtain ⟨g₂, l₂, _⟩ := lowerExpr_sound r cond hp.registered hp.sound (gives_needed.mp ht)
    exact blameless_test (l₂.sound hp.sound) _ t
  · refine blameless_bind (blameless_lowerBranch (bbody hp.left)) fun _ d hb => ?_
    obtain ⟨g₂, l₂⟩ := lowerBranch_sound hp.left.registered hp.sound hb
    exact bpost (hp.next l₂)

end Forms

mutual

/-- Whatever expression is lowered, well typed or not, a failure is the fault of the tree: the builder
never refuses a step. -/
theorem lowerExpr_blameless (r : Registry) : ∀ (e : Expr) {g : Knowledge} {c : Context},
    Poised r e.nestedFunctions g c → Blameless (lowerExpr r e) c
  | .int _, _, c, _ => by
    rw [lowerExpr]
    exact blameless_pure _ c
  | .double _, _, c, _ => by
    rw [lowerExpr]
    exact blameless_pure _ c
  | .str _, _, c, _ => by
    intro e c' h
    simp [lowerExpr] at h
  | .ident name, g, c, hp => by
    rw [lowerExpr]
    exact blameless_map (blameless_readName hp.sound name)
  | .neg e, g, c, hp => by
    rw [lowerExpr]
    refine blameless_bind (blameless_needed (lowerExpr_blameless r e hp)) fun t d ht => ?_
    obtain ⟨g₁, l₁, hfit⟩ := lowerExpr_sound r e hp.registered hp.sound (gives_needed.mp ht)
    exact blameless_map (blameless_negate (l₁.sound hp.sound) (hfit t rfl))
  | .binary op lhs rhs, g, c, hp => by
    rw [lowerExpr]
    refine blameless_bind (blameless_needed (lowerExpr_blameless r lhs hp.left)) fun t d ht => ?_
    obtain ⟨g₁, l₁, hfit⟩ := lowerExpr_sound r lhs hp.left.registered hp.sound (gives_needed.mp ht)
    have hp₁ := hp.next l₁
    refine blameless_bind (blameless_needed (lowerExpr_blameless r rhs hp₁)) fun t' d' ht' => ?_
    obtain ⟨g₂, l₂, hfit'⟩ := lowerExpr_sound r rhs hp₁.registered hp₁.sound (gives_needed.mp ht')
    exact blameless_map (blameless_combine (l₂.sound hp₁.sound) ((hfit t rfl).mono l₂.toWorking)
      (hfit' t' rfl))
  | .assign target value, g, c, hp => by
    rw [lowerExpr]
    refine blameless_bind (blameless_storage hp.sound.frames target) fun s d hst => ?_
    obtain ⟨_, rfl⟩ := gives_storage.mp hst
    refine blameless_bind (blameless_needed (lowerExpr_blameless r value hp)) fun t d' ht => ?_
    obtain ⟨g₁, l₁, hfit⟩ := lowerExpr_sound r value hp.registered hp.sound (gives_needed.mp ht)
    exact blameless_bind (blameless_storeInto (l₁.sound hp.sound) target s (hfit t rfl))
      fun _ _ _ => blameless_pure _ _
  | .call name args, g, c, hp => by
    rw [lowerExpr]
    refine blameless_bind (fun _ _ hno => absurd hno fails_get) fun d _ hget => ?_
    obtain ⟨rfl, rfl⟩ := gives_get.mp hget
    refine blameless_bind (blameless_resolve r _ name _) fun callee d' hres => ?_
    obtain ⟨_, rfl⟩ := gives_liftExcept.mp hres
    refine blameless_bind (blameless_checkArity callee _ _) fun _ d' harity => ?_
    obtain ⟨_, rfl⟩ := gives_liftExcept.mp harity
    refine blameless_bind (lowerArgs_blameless r callee 0 args hp) fun values d' hargs => ?_
    obtain ⟨g₁, l₁, _⟩ := lowerArgs_sound r callee 0 args hp.registered hp.sound hargs
    exact (succeeds_call (l₁.sound hp.sound) callee values).blameless
  | .block stmts, g, c, hp => by
    rw [lowerExpr]
    exact blameless_located fun d c' hf => lowerStmts_blameless r none stmts hp hf

theorem lowerArgs_blameless (r : Registry) (callee : Callee) (index : Nat) : ∀ (es : List Expr)
    {g : Knowledge} {c : Context}, Poised r (nestedOfExprs es) g c →
    Blameless (lowerArgs r callee index es) c
  | [], _, c, _ => by
    rw [lowerArgs]
    exact blameless_pure _ c
  | e :: es, g, c, hp => by
    rw [lowerArgs]
    refine blameless_bind (blameless_needed (lowerExpr_blameless r e hp.left)) fun t d ht => ?_
    obtain ⟨g₁, l₁, hfit⟩ := lowerExpr_sound r e hp.left.registered hp.sound (gives_needed.mp ht)
    have hp₁ := hp.next l₁
    refine blameless_bind (blameless_argument hp₁.sound callee index (hfit t rfl)) fun v d' hv => ?_
    obtain ⟨l₂, _⟩ := sound_argument hp₁.sound (hfit t rfl) hv
    exact blameless_bind (lowerArgs_blameless r callee (index + 1) es (hp₁.step l₂))
      fun _ _ _ => blameless_pure _ _

theorem lowerEach_blameless (r : Registry) : ∀ (es : List Expr) {g : Knowledge} {c : Context},
    Poised r (nestedOfExprs es) g c → Blameless (lowerEach r es) c
  | [], _, c, _ => by
    rw [lowerEach]
    exact blameless_pure _ c
  | e :: es, g, c, hp => by
    rw [lowerEach]
    refine blameless_bind (lowerExpr_blameless r e hp.left) fun v d hv => ?_
    obtain ⟨g₁, l₁, _⟩ := lowerExpr_sound r e hp.left.registered hp.sound hv
    exact lowerEach_blameless r es (hp.next l₁)

/-- In a block every failure has a place already, and it is the tree that is at fault there. -/
theorem lowerStmts_blameless (r : Registry) (last : Option Typed) : ∀ (ss : List Stmt)
    {g : Knowledge} {c c' : Context} {d : Diagnostic}, Poised r (nestedFunctions ss) g c →
    Fails (lowerStmts r last ss) c d c' → d.internal = false
  | [], _, _, _, _, _, h => by simp [lowerStmts] at h
  | s :: ss, g, c, c', d, hp, h => by
    rw [lowerStmts] at h
    rcases fails_bind.mp h with hno | ⟨_, _, hget, hrest⟩
    · exact absurd hno fails_get
    obtain ⟨rfl, rfl⟩ := gives_get.mp hget
    rcases fails_bind.mp hrest with hf | ⟨v, d₁, hv, hss⟩
    · obtain ⟨e, he, rfl⟩ := fails_adapt.mp hf
      rw [Diagnostic.internal_pin]
      exact lowerStmtValue_blameless r s hp.left e c' he
    · obtain ⟨g₁, l₁, _⟩ :=
        lowerStmtValue_sound r s hp.left.registered hp.sound (gives_adapt.mp hv)
      exact lowerStmts_blameless r v ss (hp.next l₁) hss

theorem lowerStmtValue_blameless (r : Registry) : ∀ (s : Stmt) {g : Knowledge} {c : Context},
    Poised r s.nestedFunctions g c → Blameless (lowerStmtValue r s) c
  | .expr e, g, c, hp => by
    rw [lowerStmtValue]
    exact lowerExpr_blameless r e hp
  | .var name ty none, g, c, hp => by
    rw [lowerStmtValue]
    split
    · exact blameless_bind (blameless_throw rfl c) fun _ _ hno => absurd hno gives_throw
    · rename_i hne
      exact blameless_bind (succeeds_declareVar hp.sound.frames name hne).blameless
        fun _ _ _ => blameless_pure _ _
  | .var name ty (some init), g, c, hp => by
    rw [lowerStmtValue]
    split
    · exact blameless_bind (blameless_throw rfl c) fun _ _ hno => absurd hno gives_throw
    · rename_i hne
      refine blameless_bind (blameless_needed (lowerExpr_blameless r init hp)) fun t d ht => ?_
      obtain ⟨g₁, l₁, hfit⟩ := lowerExpr_sound r init hp.registered hp.sound (gives_needed.mp ht)
      have hs₁ := l₁.sound hp.sound
      refine blameless_bind (succeeds_declareVar hs₁.frames name hne).blameless fun s d' hd => ?_
      obtain ⟨l₂, _⟩ := sound_declareVar hs₁ hne hd
      exact blameless_bind
        (blameless_storeInto (l₂.sound hs₁) name s ((hfit t rfl).mono l₂.toWorking))
        fun _ _ _ => blameless_pure _ _
  | .function ⟨name, params, returns, body⟩, g, c, hp => by
    intro e c' h
    obtain ⟨d, hf, rfl⟩ := fails_function.mp h
    obtain ⟨hfresh, hnew, hname⟩ := hp.fresh.body
    rw [lowerFunction] at hf
    rw [Cause.internal]
    exact blameless_define .value hp.sound.orderly
      (fun d hd => hp.registered d (List.mem_cons_of_mem _ hd)) hfresh hnew hname
      (fun _ _ _ hv => hv) nofun (fun hp hf => lowerStmts_blameless r none body hp hf) hf
  | .ret none, g, c, hp => by
    rw [lowerStmtValue]
    exact blameless_bind (blameless_returnFrom hp.sound (by simp)) fun _ _ _ => blameless_pure _ _
  | .ret (some value), g, c, hp => by
    rw [lowerStmtValue]
    refine blameless_bind (blameless_frame hp.sound.frames) fun f d hf => ?_
    obtain ⟨_, rfl⟩ := gives_frame.mp hf
    refine blameless_bind (blameless_needed (lowerExpr_blameless r value hp)) fun t d' ht => ?_
    obtain ⟨g₁, l₁, hfit⟩ := lowerExpr_sound r value hp.registered hp.sound (gives_needed.mp ht)
    exact blameless_bind (blameless_returnFrom (l₁.sound hp.sound) hfit)
      fun _ _ _ => blameless_pure _ _
  | .ite cond thenBlock none, g, c, hp => by
    have hp : Poised r (cond.nestedFunctions ++ (nestedFunctions thenBlock ++ [])) g c := by
      rw [List.append_nil]
      exact hp
    exact blameless_ite hp (fun _ _ _ => sound_nothing) (lowerExpr_blameless r cond hp.left)
      (fun hp hf => lowerStmts_blameless r none thenBlock hp hf) (fun _ => blameless_pure _ _)
  | .ite cond thenBlock (some elseBlock), g, c, hp => by
    have hp : Poised r (cond.nestedFunctions ++
        (nestedFunctions thenBlock ++ nestedFunctions elseBlock)) g c := by
      rw [← List.append_assoc]
      exact hp
    exact blameless_ite hp (fun _ _ _ => lowerBranch_sound hp.right.right.registered)
      (lowerExpr_blameless r cond hp.left)
      (fun hp hf => lowerStmts_blameless r none thenBlock hp hf)
      (fun hp => blameless_lowerBranch (lowerStmts_blameless r none elseBlock hp))
  | .loop init cond post body, g, c, hp => by
    have hp := hp.perm (nestedFunctions_loop init cond post body)
    exact blameless_loop hp (lowerEach_blameless r init hp.left)
      (fun hp => lowerExpr_blameless r cond hp)
      (fun hp hf => lowerStmts_blameless r none body hp hf) (fun hp => lowerEach_blameless r post hp)

end

/-- Functions of one name are the fault of the program. -/
theorem internal_of_duplicates {seen : List String} {ds : List FunctionDecl} :
    ∀ d ∈ Registry.duplicates seen ds, d.internal = false := by
  induction ds generalizing seen with
  | nil => exact nofun
  | cons x xs ih =>
    intro d hd
    unfold Registry.duplicates at hd
    split at hd
    · rcases List.mem_cons.mp hd with rfl | hd
      · simp [Diagnostic.internal, Cause.internal]
      · exact ih d hd
    · exact ih d hd

/-- Where the entry function fails, the program is to blame. -/
theorem lowerEntry_blameless {program : Tree.Block} {name : String} {d : Diagnostic} {c : Context}
    (hdup : Registry.duplicates [] (nestedFunctions program) = [])
    (hf : Fails (lowerEntry (registry program) program) (.start name) d c) : d.internal = false := by
  obtain ⟨hnames, hnodup⟩ := duplicates_eq_nil.mp hdup
  have habsent : ∀ F, F ∉ (Context.start name).module.functions := by
    rw [functions_start]
    exact fun F => List.not_mem_nil
  rw [lowerEntry_eq] at hf
  exact blameless_define (fun _ => .zero) (orderly_start _ name) (registered_of_nodup hnodup)
    ⟨hnodup, fun d _ F hF => absurd hF (habsent F)⟩ (fun F hF => absurd hF (habsent F))
    (fun d hd => (hnames d hd).1) (fun _ _ _ _ => trivial) (fun _ _ h => by cases h)
    (fun hp hf => lowerStmts_blameless _ none program hp hf) hf

/-- Whatever the program, the lowering gives a module or finds something wrong with the program. -/
theorem lower_blameless {program : Tree.Block} {name : String} {d : Diagnostic}
    (h : lower program name = .error d) : d.internal = false := by
  cases hdup : Registry.duplicates [] (nestedFunctions program) with
  | cons d' ds =>
    have hd : d' = d := by
      unfold lower at h
      simpa [hdup] using h
    exact hd ▸ internal_of_duplicates d' (hdup ▸ List.mem_cons_self)
  | nil =>
    obtain ⟨c, hf⟩ := lower_eq_error hdup h
    exact lowerEntry_blameless hdup hf

/-- Behind a `return` inside of a condition, the operand of a negation is reported. -/
theorem lower_blameless_operand :
    let program : Tree.Block := [.ite (.block [.ret (some (.int 1)), .expr (.int 2)])
      [.expr (.neg (.str "x"))] none]
    ∃ d, lower program "m" = .error d ∧ d.internal = false := by
  intro program
  have hfails : (lower program "m").isOk = false := by decide +kernel
  cases h : lower program "m" with
  | ok m =>
    rw [h] at hfails
    cases hfails
  | error d => exact ⟨d, rfl, lower_blameless h⟩

end Lowering

end TreeLang
