import TreeLang.Proofs.Lowering.Functions
import TreeLang.Proofs.Lowering.Parts
import TreeLang.Proofs.Position.Renumbering

namespace TreeLang.Lowering

open TreeLang.Tree (Ty Expr Stmt FunctionDecl)
open Typing (Registry Callee coercible)
open Lower

def Typed.renumber (ρ : Nat → Nat) (t : Typed) : Typed :=
  { t with value := t.value.renumber ρ }

@[simp] theorem Typed.ty_renumber (ρ : Nat → Nat) (t : Typed) : (t.renumber ρ).ty = t.ty := rfl

def Frame.renumber (ρ : Nat → Nat) (f : Frame) : Frame :=
  { f with builder := f.builder.renumber ρ }

@[simp] theorem Frame.returns_renumber (ρ : Nat → Nat) (f : Frame) :
    (f.renumber ρ).returns = f.returns := rfl

def Lower.Ending.renumber (ρ : Nat → Nat) : Ending → Ending
  | .value t => .value (t.map (·.renumber ρ))
  | .zero => .zero

variable {ρ : Nat → Nat}

/-- The function at hand of one run is that of the other with other numbers for its strings. -/
structure Twin (ρ : Nat → Nat) (c k : Context) : Prop where
  frames : c.frames ≠ []
  frames' : k.frames ≠ []
  top : k.top = c.top.renumber ρ

theorem Twin.congr {c c' k k' : Context} (h : Twin ρ c k) (hc : c'.frames = c.frames)
    (hk : k'.frames = k.frames) : Twin ρ c' k' := by
  refine ⟨hc ▸ h.frames, hk ▸ h.frames', ?_⟩
  unfold Context.top
  rw [hc, hk]
  exact h.top

/-- At most the function at hand has changed, and it has kept its name. -/
structure Still (c c' : Context) : Prop where
  module : c'.module = c.module
  tail : c'.frames.tail = c.frames.tail
  name : c'.top.builder.function.name = c.top.builder.function.name

namespace Still

theorem refl (c : Context) : Still c c := ⟨rfl, rfl, rfl⟩

theorem trans {c c' c'' : Context} (h : Still c c') (h' : Still c' c'') : Still c c'' :=
  ⟨h'.module.trans h.module, h'.tail.trans h.tail, h'.name.trans h.name⟩

theorem withBuilder {c : Context} (hc : c.frames ≠ []) {b : Ir.Builder}
    (hb : b.function.name = c.top.builder.function.name) : Still c (c.withBuilder b) := by
  refine ⟨rfl, Context.tail_withBuilder b, ?_⟩
  rw [Context.top_withBuilder hc]
  exact hb

end Still

/-- What succeeds in one run succeeds in its twin, and is called `f` of it there. -/
def Level {ε ε' α β : Type} (ρ : Nat → Nat) (f : α → β) (m : Lower ε α) (m' : Lower ε' β) : Prop :=
  ∀ c a c' k, Twin ρ c k → Gives m c a c' →
    ∃ k', Gives m' k (f a) k' ∧ Twin ρ c' k' ∧ Still c c' ∧ Still k k'

section

variable {ε ε' α β γ δ : Type}

theorem level_pure {f : α → β} {a : α} {b : β} (hb : b = f a) :
    Level ρ f (pure a : Lower ε α) (pure b : Lower ε' β) := by
  intro c a' c' k ht h
  obtain ⟨rfl, rfl⟩ := gives_pure.mp h
  exact ⟨k, gives_pure.mpr ⟨hb.symm, rfl⟩, ht, .refl _, .refl k⟩

theorem level_throw {f : α → β} {e : ε} {m' : Lower ε' β} :
    Level ρ f (throw e : Lower ε α) m' :=
  fun _ _ _ _ _ h => absurd h gives_throw

theorem level_liftExcept (x : Except ε α) :
    Level ρ id (liftExcept x : Lower ε α) (liftExcept x : Lower ε α) := by
  intro c a c' k ht h
  obtain ⟨hx, rfl⟩ := gives_liftExcept.mp h
  exact ⟨k, gives_liftExcept.mpr ⟨hx, rfl⟩, ht, .refl _, .refl k⟩

/-- Both runs go the same way through two works, one after the other. -/
theorem level_bind {f : α → β} {g : γ → δ} {m : Lower ε α} {m' : Lower ε' β} {h : α → Lower ε γ}
    {h' : β → Lower ε' δ} (hm : Level ρ f m m') (hh : ∀ a, Level ρ g (h a) (h' (f a))) :
    Level ρ g (m >>= h) (m' >>= h') := by
  intro c b c' k ht hg
  obtain ⟨a, d, ha, hb⟩ := gives_bind.mp hg
  obtain ⟨l, hl, ht₁, hc₁, hk₁⟩ := hm c a d k ht ha
  obtain ⟨k', hk', ht₂, hc₂, hk₂⟩ := hh a d b c' l ht₁ hb
  exact ⟨k', gives_bind.mpr ⟨f a, l, hl, hk'⟩, ht₂, hc₁.trans hc₂, hk₁.trans hk₂⟩

theorem level_some {f : α → β} {m : Lower ε α} {m' : Lower ε' β} (hm : Level ρ f m m') :
    Level ρ (Option.map f) (some <$> m) (some <$> m') := by
  rw [map_eq_pure_bind, map_eq_pure_bind]
  exact level_bind hm fun a => level_pure rfl

theorem level_frame : Level ρ (Frame.renumber ρ) frame frame := by
  intro c f c' k ht h
  obtain ⟨⟨rest, hc⟩, rfl⟩ := gives_frame.mp h
  obtain rfl := Context.top_eq hc
  exact ⟨k, gives_frame.mpr ⟨⟨_, ht.top ▸ Context.frames_eq ht.frames'⟩, rfl⟩, ht, .refl _, .refl k⟩

/-- The builders of both runs take the same step. -/
theorem level_build {f : α → β} {step : Ir.Builder → Except Ir.Error (α × Ir.Builder)}
    {step' : Ir.Builder → Except Ir.Error (β × Ir.Builder)}
    (hstep : ∀ b a b', step b = .ok (a, b') → step' (b.renumber ρ) = .ok (f a, b'.renumber ρ) ∧
      b'.function.name = b.function.name) : Level ρ f (build step) (build step') := by
  intro c a c' k ht h
  obtain ⟨g, rest, b, hc, hs, rfl⟩ := gives_build.mp h
  obtain rfl := Context.top_eq hc
  obtain ⟨hs', hname⟩ := hstep c.top.builder a b hs
  have hbuilder : k.top.builder = c.top.builder.renumber ρ := congrArg Frame.builder ht.top
  refine ⟨k.withBuilder (b.renumber ρ), gives_build.mpr
    ⟨k.top, k.frames.tail, b.renumber ρ, Context.frames_eq ht.frames', ?_, rfl⟩,
    ⟨Context.frames_withBuilder_ne ht.frames b, Context.frames_withBuilder_ne ht.frames' _, ?_⟩,
    .withBuilder ht.frames hname, .withBuilder ht.frames' ?_⟩
  · rw [hbuilder]
    exact hs'
  · rw [Context.top_withBuilder ht.frames', Context.top_withBuilder ht.frames, ht.top]
    rfl
  · rw [hbuilder]
    exact hname

theorem level_emit {step step' : Ir.Builder → Except Ir.Error Ir.Builder}
    (hstep : ∀ b b', step b = .ok b' → step' (b.renumber ρ) = .ok (b'.renumber ρ) ∧
      b'.function.name = b.function.name) : Level ρ id (emit step) (emit step') := by
  apply level_build
  intro b u b' h
  cases hs : step b with
  | error e =>
    rw [hs] at h
    cases h
  | ok b₁ =>
    rw [hs] at h
    cases h
    obtain ⟨hs', hname⟩ := hstep b b' hs
    rw [hs']
    exact ⟨rfl, hname⟩

end

theorem level_define (i i' : Ir.Operand → Ir.Instruction)
    (hi : ∀ id, (i (.temp id)).renumber ρ = i' (.temp id)) :
    Level ρ (Ir.Operand.renumber ρ) (build (·.define i)) (build (·.define i')) := by
  apply level_build
  intro b v b' h
  refine ⟨Ir.Builder.define_renumber h hi, ?_⟩
  obtain ⟨_, _, _, rfl⟩ := Ir.Builder.define_eq_ok.mp h
  rfl

theorem level_append (i : Ir.Instruction) :
    Level ρ id (emit (·.append i)) (emit (·.append (i.renumber ρ))) := by
  apply level_emit
  intro b b' h
  refine ⟨Ir.Builder.append_renumber h, ?_⟩
  obtain ⟨_, _, rfl⟩ := Ir.Builder.append_eq_ok.mp h
  rfl

theorem level_terminate (t : Ir.Terminator) :
    Level ρ id (emit (·.terminate t)) (emit (·.terminate (t.renumber ρ))) := by
  apply level_emit
  intro b b' h
  refine ⟨Ir.Builder.terminate_renumber h, ?_⟩
  obtain ⟨_, _, _, _, _, rfl⟩ := Ir.Builder.terminate_eq_ok.mp h
  rfl

theorem level_alloca (name : String) (ty : Ir.Ty) :
    Level ρ id (build (·.alloca name ty)) (build (·.alloca name ty)) := by
  apply level_build
  intro b slot b' h
  refine ⟨Ir.Builder.alloca_renumber h, ?_⟩
  obtain ⟨_, _, rfl⟩ := Ir.Builder.alloca_eq_ok.mp h
  rfl

theorem level_createBlock (label : String) :
    Level ρ id (createBlock label) (createBlock label) := by
  apply level_build
  intro b id b' h
  cases h
  exact ⟨congrArg Except.ok (Ir.Builder.createBlock_renumber label), rfl⟩

theorem level_switchTo (block : Nat) : Level ρ id (switchTo block) (switchTo block) := by
  apply level_emit
  intro b b' h
  refine ⟨Ir.Builder.switchTo_renumber h, ?_⟩
  obtain ⟨_, rfl⟩ := Ir.Builder.switchTo_eq_ok.mp h
  rfl

theorem level_cast (value : Ir.Operand) (source target : Ir.Ty) :
    Level ρ (Ir.Operand.renumber ρ) (build (·.cast value source target))
      (build (·.cast (value.renumber ρ) source target)) := by
  by_cases he : source = target
  · apply level_build
    intro b v b' h
    subst he
    unfold Ir.Builder.cast Ir.Builder.cursor at h ⊢
    cases hc : b.current with
    | none =>
      rw [hc] at h
      cases h
    | some id =>
      rw [hc] at h
      simp only [bind, Except.bind, if_true] at h
      cases h
      simp [Ir.Builder.renumber, hc, bind, Except.bind, pure, Except.pure]
  · intro c v c' k ht h
    obtain ⟨hconv, hd⟩ := (gives_cast he).mp h
    obtain ⟨k', hk', hrest⟩ := level_define _ (.cast · (value.renumber ρ) source target)
      (fun _ => rfl) c v c' k ht hd
    exact ⟨k', (gives_cast he).mpr ⟨hconv, hk'⟩, hrest⟩

theorem level_materialize (t : Typed) :
    Level ρ (Ir.Operand.renumber ρ) (materialize t) (materialize (t.renumber ρ)) := by
  unfold materialize
  change Level ρ _ (if t.repr = .bool then _ else _) (if t.repr = .bool then _ else _)
  split
  · exact level_cast t.value .bool t.ty.toIr
  · exact level_pure rfl

theorem level_coerce (t : Typed) (target : Ty) :
    Level ρ (Ir.Operand.renumber ρ) (coerce t target) (coerce (t.renumber ρ) target) := by
  unfold coerce
  apply level_bind (level_materialize t)
  intro v
  change Level ρ _ (if t.ty = target then _ else if t.ty.isNumeric && target.isNumeric then _ else _)
    (if t.ty = target then _ else if t.ty.isNumeric && target.isNumeric then _ else _)
  split
  · exact level_pure rfl
  · split
    · exact level_cast v t.ty.toIr target.toIr
    · exact level_throw

theorem level_negate (t : Typed) :
    Level ρ (Typed.renumber ρ) (negate t) (negate (t.renumber ρ)) := by
  unfold negate
  apply level_bind (level_liftExcept (Typing.negType t.ty))
  intro ty
  apply level_bind (level_materialize t)
  intro v
  apply level_bind (level_define _ _ fun _ => rfl)
  exact fun _ => level_pure rfl

theorem level_combine (op : Tree.BinaryOp) (left right : Typed) :
    Level ρ (Typed.renumber ρ) (combine op left right)
      (combine op (left.renumber ρ) (right.renumber ρ)) := by
  unfold combine
  apply level_bind (level_liftExcept (Typing.binaryType op left.ty right.ty))
  intro ty
  apply level_bind (level_coerce left ty)
  intro l
  apply level_bind (level_coerce right ty)
  intro r
  apply level_bind (level_define _ _ fun _ => rfl)
  intro x
  apply level_pure
  split <;> rfl

theorem level_storage (name : String) : Level ρ id (storage name) (storage name) := by
  intro c s c' k ht h
  obtain ⟨⟨f, rest, hc, hs⟩, rfl⟩ := gives_storage.mp h
  obtain rfl := Context.top_eq hc
  refine ⟨k, gives_storage.mpr ⟨⟨k.top, _, Context.frames_eq ht.frames', ?_⟩, rfl⟩, ht, .refl _,
    .refl k⟩
  rw [ht.top]
  exact hs

theorem level_readName (name : String) :
    Level ρ (Typed.renumber ρ) (readName name) (readName name) := by
  unfold readName
  apply level_bind (level_storage name)
  intro s
  apply level_bind (level_define _ _ fun _ => rfl)
  exact fun _ => level_pure rfl

theorem level_storeInto (name : String) (s : Storage) (t : Typed) :
    Level ρ id (storeInto name s t) (storeInto name s (t.renumber ρ)) := by
  unfold storeInto
  rw [Typed.ty_renumber]
  split
  · apply level_bind (level_coerce t s.ty)
    exact fun v => level_append (.store s.slot v s.ty.toIr)
  · exact level_throw

/-- What a test is for only matters where it fails. -/
theorem level_test (role role' : String) (t : Typed) :
    Level ρ (Ir.Operand.renumber ρ) (test role t) (test role' (t.renumber ρ)) := by
  unfold test
  change Level ρ _ (if t.repr = .bool then _ else _) (if t.repr = .bool then _ else _)
  split
  · exact level_pure rfl
  · rw [Typed.ty_renumber]
    split
    · exact level_define _ _ fun _ => rfl
    · exact level_define _ _ fun _ => rfl
    · exact level_throw

theorem level_declareVar (name : String) (ty : Ty) :
    Level ρ id (declareVar name ty) (declareVar name ty) := by
  intro c s c' k ht h
  obtain ⟨slot, d, f, rest, ha, hd, rfl, rfl⟩ := gives_declareVar.mp h
  obtain rfl := Context.top_eq hd
  obtain ⟨k₁, hk₁, ht₁, hc₁, hs₁⟩ := level_alloca name ty.toIr c slot d k ht ha
  refine ⟨_, gives_declareVar.mpr ⟨slot, k₁, k₁.top, k₁.frames.tail, hk₁, Context.frames_eq ht₁.frames',
    rfl, rfl⟩, ⟨List.cons_ne_nil _ _, List.cons_ne_nil _ _, ?_⟩, ⟨hc₁.module, ?_, hc₁.name⟩,
    ⟨hs₁.module, hs₁.tail, hs₁.name⟩⟩
  · change ({ k₁.top with locals := _ } : Frame) = _
    rw [ht₁.top]
    rfl
  · have htail := hc₁.tail
    rw [hd] at htail
    exact htail

structure Callee.Alike (callee callee' : Callee) : Prop where
  name : callee'.name = callee.name
  params : callee'.params = callee.params
  returns : callee'.returns = callee.returns
  accepts : ∀ n, callee'.accepts n = callee.accepts n

/-- An argument is converted alike for functions with the same header. -/
theorem level_argument {callee callee' : Callee} (h : Callee.Alike callee callee') (index : Nat)
    (t : Typed) : Level ρ (Ir.Operand.renumber ρ) (argument callee index t)
      (argument callee' index (t.renumber ρ)) := by
  unfold argument
  rw [h.params]
  split
  · rename_i expected _
    rw [Typed.ty_renumber]
    split
    · exact level_coerce t expected
    · exact level_throw
  · exact level_materialize t

theorem level_call {callee callee' : Callee} (h : Callee.Alike callee callee')
    (args : List Ir.Operand) : Level ρ (Option.map (Typed.renumber ρ)) (call callee args)
      (call callee' (args.map (·.renumber ρ))) := by
  intro c v c' k ht hg
  rcases gives_call.mp hg with ⟨hvoid, rfl, ha⟩ | ⟨hne, x, rfl, hd⟩
  · obtain ⟨k', hk', hrest⟩ := level_append _ c () c' k ht ha
    refine ⟨k', gives_call.mpr (.inl ⟨h.returns.trans hvoid, rfl, ?_⟩), hrest⟩
    rw [h.name]
    exact hk'
  · obtain ⟨k', hk', hrest⟩ := level_define _
      (fun x => .call (some x) callee.name (args.map (·.renumber ρ)) callee.returns.toIr)
      (fun _ => rfl) c x c' k ht hd
    refine ⟨k', gives_call.mpr (.inr ⟨h.returns ▸ hne, x.renumber ρ, ?_, ?_⟩), hrest⟩
    · rw [h.returns]
      rfl
    · rw [h.name, h.returns]
      exact hk'

theorem level_returnFrom (t : Option Typed) :
    Level ρ id (returnFrom t) (returnFrom (t.map (·.renumber ρ))) := by
  intro c u c' k ht h
  obtain ⟨f, rest, value, d, d', id, d'', hc, hval, hret, hcreate, hswitch⟩ := gives_returnFrom.mp h
  obtain rfl := Context.top_eq hc
  have hreturns : k.top.returns = c.top.returns := by
    rw [ht.top]
    rfl
  have hval : ∃ l, ((∃ t' v, t.map (·.renumber ρ) = some t' ∧
        value.map (·.renumber ρ) = some v ∧ k.top.returns ≠ .void ∧
        coercible t'.ty k.top.returns = true ∧ Gives (coerce t' k.top.returns) k v l) ∨
      (t.map (·.renumber ρ) = none ∧ value.map (·.renumber ρ) = none ∧ k.top.returns = .void ∧
        l = k)) ∧ Twin ρ d l ∧ Still c d ∧ Still k l := by
    rw [hreturns]
    rcases hval with ⟨t', v, rfl, rfl, hne, hco, hv⟩ | ⟨rfl, rfl, hvoid, rfl⟩
    · obtain ⟨l, hl, hrest⟩ := level_coerce t' _ c v d k ht hv
      exact ⟨l, .inl ⟨_, _, rfl, rfl, hne, hco, hl⟩, hrest⟩
    · exact ⟨k, .inr ⟨rfl, rfl, hvoid, rfl⟩, ht, .refl _, .refl k⟩
  obtain ⟨l, hl, ht₁, hc₁, hk₁⟩ := hval
  obtain ⟨l', hl', ht₂, hc₂, hk₂⟩ := level_terminate _ d () d' l ht₁ hret
  obtain ⟨l'', hl'', ht₃, hc₃, hk₃⟩ := level_createBlock _ d' id d'' l' ht₂ hcreate
  obtain ⟨k', hk', ht₄, hc₄, hk₄⟩ := level_switchTo id d'' u c' l'' ht₃ hswitch
  exact ⟨k', gives_returnFrom.mpr ⟨k.top, _, _, l, l', id, l'', Context.frames_eq ht.frames', hl, hl',
    hl'', hk'⟩, ht₄, ((hc₁.trans hc₂).trans hc₃).trans hc₄, ((hk₁.trans hk₂).trans hk₃).trans hk₄⟩

theorem level_fallThrough (target : Nat) : Level ρ id (fallThrough target) (fallThrough target) := by
  unfold fallThrough
  apply level_bind level_frame
  intro f
  rw [show (f.renumber ρ).builder.isTerminated = f.builder.isTerminated from
    Ir.Builder.isTerminated_renumber]
  split
  · exact level_pure rfl
  · exact level_terminate (.jump target)

theorem level_close (ending : Ending) : Level ρ id (close ending) (close (ending.renumber ρ)) := by
  unfold close
  apply level_bind level_frame
  intro f
  rw [Frame.returns_renumber, show (f.renumber ρ).builder.current = f.builder.current from rfl]
  split
  · exact level_pure rfl
  · rename_i current _
    rw [show (f.renumber ρ).builder.isTerminated = f.builder.isTerminated from
        Ir.Builder.isTerminated_renumber,
      show (f.renumber ρ).builder.isReachable current = f.builder.isReachable current from
        Ir.Builder.isReachable_renumber current]
    split
    · exact level_pure rfl
    · split
      · exact level_terminate (.ret none)
      · have hret : ∀ v : Ir.Operand, Level ρ id (emit (·.returnValue (some v)))
            (emit (·.returnValue (some (v.renumber ρ)))) :=
          fun v => level_terminate (.ret (some v))
        cases ending with
        | value t =>
          cases t with
          | none => exact level_bind (f := Ir.Operand.renumber ρ) level_throw hret
          | some t => exact level_bind (level_coerce t f.returns) hret
        | zero =>
          rw [Ending.renumber]
          dsimp only
          split
          · exact level_bind (f := Ir.Operand.renumber ρ) (level_pure rfl) hret
          · exact level_bind (f := Ir.Operand.renumber ρ) level_throw hret

theorem level_storeParams (index : Nat) (ps : List Tree.Param) :
    Level ρ id (storeParams index ps) (storeParams index ps) := by
  induction ps generalizing index with
  | nil => exact level_pure rfl
  | cons p ps ih =>
    intro c u c' k ht h
    obtain ⟨hp, slot, d, d', f, rest, ha, hst, hf, h⟩ := gives_storeParams_cons.mp h
    obtain rfl := Context.top_eq hf
    obtain ⟨l, hl, ht₁, hc₁, hk₁⟩ := level_alloca p.name p.ty.toIr c slot d k ht ha
    obtain ⟨l', hl', ht₂, hc₂, hk₂⟩ := level_append _ d () d' l ht₁ hst
    obtain ⟨k', hk', ht₃, hc₃, hk₃⟩ := ih (index + 1) _ u c'
      { l' with
        scopes := l'.scopes.declare p.name p.ty
        frames := { l'.top with params := (p.name, ⟨slot, p.ty⟩) :: l'.top.params } :: l'.frames.tail }
      ⟨List.cons_ne_nil _ _, List.cons_ne_nil _ _, by
        change ({ l'.top with params := _ } : Frame) = _
        rw [ht₂.top]
        rfl⟩ h
    refine ⟨k', gives_storeParams_cons.mpr ⟨hp, slot, l, l', l'.top, l'.frames.tail, hl, hl',
      Context.frames_eq ht₂.frames', hk'⟩, ht₃, (hc₁.trans hc₂).trans ⟨hc₃.module, ?_, hc₃.name⟩,
      (hk₁.trans hk₂).trans ⟨hk₃.module, hk₃.tail, hk₃.name⟩⟩
    have htail := hc₃.tail
    rw [hf]
    exact htail

end TreeLang.Lowering
