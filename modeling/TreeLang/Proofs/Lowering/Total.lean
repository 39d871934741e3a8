import TreeLang.Proofs.Lowering.Functions

namespace TreeLang.Lowering

open TreeLang.Tree (Ty Expr Stmt FunctionDecl)
open Typing (Registry Callee coercible)
open Ir (Knowledge)
open Lower

variable {r : Registry} {g : Knowledge} {c c' : Context}

def Succeeds {α : Type} (m : Lower Cause α) (c : Context) : Prop :=
  ∃ a c', Gives m c a c'

theorem Succeeds.not_fails {α : Type} {m : Lower Cause α} {e : Cause} (h : Succeeds m c)
    (hf : Fails m c e c') : False := by
  obtain ⟨a, d, hg⟩ := h
  exact gives_not_fails hg hf

theorem succeeds_frame (hc : c.frames ≠ []) : Succeeds frame c :=
  ⟨c.top, c, gives_frame.mpr ⟨⟨_, Context.frames_eq hc⟩, rfl⟩⟩

theorem succeeds_createBlock (hc : c.frames ≠ []) (label : String) :
    Succeeds (createBlock label) c :=
  ⟨_, _, gives_createBlock.mpr ⟨c.top, _, Context.frames_eq hc, rfl, rfl⟩⟩

theorem succeeds_switchTo (hc : c.frames ≠ []) {id : Nat}
    (hk : ∃ k ∈ c.top.builder.function.blocks, k.id = id) : Succeeds (switchTo id) c :=
  ⟨(), _, gives_switchTo.mpr ⟨c.top, _, Context.frames_eq hc, hk, rfl⟩⟩

/-- One may go on in a block that has just been made. -/
theorem succeeds_switchTo_new (hc : c.frames ≠ []) {label : String} {id : Nat}
    (h : Gives (createBlock label) c id c') : Succeeds (switchTo id) c' := by
  obtain ⟨f, rest, hf, rfl, rfl⟩ := gives_createBlock.mp h
  apply succeeds_switchTo (Context.frames_withBuilder_ne hc _)
  rw [Context.top_withBuilder hc]
  exact ⟨.empty f.builder.function.nextBlock label, List.mem_append_right _ List.mem_cons_self, rfl⟩

/-- An open block may be ended. -/
theorem succeeds_terminate (hc : c.frames ≠ []) (ho : c.top.builder.IsOpen) (t : Ir.Terminator) :
    Succeeds (emit (·.terminate t)) c := by
  obtain ⟨id, k, hid, hk, hu⟩ := ho
  exact ⟨(), _, gives_terminate.mpr ⟨c.top, _, id, k, Context.frames_eq hc, hid, hk, hu, rfl⟩⟩

theorem succeeds_fallThrough (hc : c.frames ≠ []) (ho : c.top.builder.IsOpen) (target : Nat) :
    Succeeds (fallThrough target) c := by
  obtain ⟨u, d, hd⟩ := succeeds_terminate hc ho (.jump target)
  obtain ⟨id, k, hid, hk, hu⟩ := ho
  have hopen : c.top.builder.isTerminated = false := by
    simp [Ir.Builder.isTerminated, hid, hk, Ir.Block.isTerminated, hu]
  exact ⟨u, d, gives_fallThrough.mpr ⟨c.top, _, Context.frames_eq hc, .inr ⟨hopen, hd⟩⟩⟩

theorem succeeds_define (hs : Sound r g c) (i : Ir.Operand → Ir.Instruction) :
    Succeeds (build (·.define i)) c := by
  obtain ⟨id, k, hid, _⟩ := hs.isOpen
  exact ⟨_, _, gives_define.mpr ⟨c.top, _, id, Context.frames_eq hs.frames, hid, rfl, rfl⟩⟩

theorem succeeds_append (hc : c.frames ≠ []) (ho : c.top.builder.IsOpen) (i : Ir.Instruction) :
    Succeeds (emit (·.append i)) c := by
  obtain ⟨id, k, hid, _⟩ := ho
  exact ⟨(), _, gives_append.mpr ⟨c.top, _, id, Context.frames_eq hc, hid, rfl⟩⟩

/-- A slot is refused for type `void` only. -/
theorem succeeds_alloca (hc : c.frames ≠ []) (name : String) {ty : Ty} (hty : ty ≠ .void) :
    Succeeds (build (·.alloca name ty.toIr)) c := by
  have hne : ty.toIr ≠ .void := fun h => hty (Ty.toIr_injective h)
  exact ⟨_, _, gives_alloca.mpr ⟨c.top, _, Context.frames_eq hc, hne, rfl, rfl⟩⟩

/-- Of the values that fit, only a number can be held as a `bool`. -/
theorem Typed.Fits.isNumeric {t : Typed} (h : t.Fits r g c) (hb : t.repr = .bool) :
    t.ty.isNumeric = true := by
  rcases h.repr with hr | ⟨_, hn⟩
  · exact absurd (hr.symm.trans hb) (Ty.toIr_ne_bool t.ty)
  · exact hn

/-- A comparison has a type to which `bool` is converted. -/
theorem succeeds_materialize (hs : Sound r g c) {t : Typed} (ht : t.Fits r g c) :
    Succeeds (materialize t) c := by
  by_cases hb : t.repr = .bool
  · obtain ⟨v, d, hd⟩ := succeeds_define hs (.cast · t.value .bool t.ty.toIr)
    exact ⟨v, d, gives_materialize.mpr (.inr ⟨hb, Ty.isConversion_bool (ht.isNumeric hb), hd⟩)⟩
  · exact ⟨t.value, c, gives_materialize.mpr (.inl ⟨hb, rfl, rfl⟩)⟩

/-- A value is converted to any type that its own may stand for. -/
theorem succeeds_coerce (hs : Sound r g c) {t : Typed} (ht : t.Fits r g c) {target : Ty}
    (hco : coercible t.ty target = true) : Succeeds (coerce t target) c := by
  obtain ⟨w, d, hm⟩ := succeeds_materialize hs ht
  obtain ⟨hl, _⟩ := sound_materialize hs ht hm
  by_cases he : t.ty = target
  · exact ⟨w, d, gives_coerce.mpr ⟨w, d, hm, .inl ⟨he, rfl, rfl⟩⟩⟩
  · have hnum : t.ty.isNumeric = true ∧ target.isNumeric = true := by
      simpa [coercible, he] using hco
    obtain ⟨v, d', hd⟩ := succeeds_define (hl.sound hs) (.cast · w t.ty.toIr target.toIr)
    exact ⟨v, d', gives_coerce.mpr ⟨w, d, hm, .inr ⟨he, hnum.1, hnum.2, hd⟩⟩⟩

theorem succeeds_negate (hs : Sound r g c) {t : Typed} (ht : t.Fits r g c)
    (hn : t.ty.isNumeric = true) : Succeeds (negate t) c := by
  obtain ⟨w, d, hm⟩ := succeeds_materialize hs ht
  obtain ⟨hl, _⟩ := sound_materialize hs ht hm
  obtain ⟨x, d', hd⟩ := succeeds_define (hl.sound hs) (.neg · w t.ty.toIr)
  exact ⟨_, d', gives_negate.mpr ⟨hn, w, d, x, hm, hd, rfl⟩⟩

/-- Operands that the rules let through are converted and combined. -/
theorem succeeds_combine (hs : Sound r g c) {op : Tree.BinaryOp} {left right : Typed} {ty : Ty}
    (hleft : left.Fits r g c) (hright : right.Fits r g c)
    (hty : Typing.binaryType op left.ty right.ty = .ok ty) : Succeeds (combine op left right) c := by
  obtain ⟨hl, hr, he⟩ := Typing.binaryType_eq_ok.mp hty
  have hnum : ty.isNumeric = true := by
    rw [he]
    split <;> rfl
  have hco : ∀ {s : Ty}, s.isNumeric = true → coercible s ty = true := by
    intro s hs
    simp [coercible, hs, hnum]
  obtain ⟨x, d, hx⟩ := succeeds_coerce hs hleft (hco hl)
  obtain ⟨l₁, _⟩ := sound_coerce hs hleft hx
  have hs₁ := l₁.sound hs
  obtain ⟨y, d', hy⟩ := succeeds_coerce hs₁ (hright.mono l₁.toWorking) (hco hr)
  obtain ⟨l₂, _⟩ := sound_coerce hs₁ (hright.mono l₁.toWorking) hy
  obtain ⟨z, d'', hz⟩ := succeeds_define (l₂.sound hs₁) (.binary op.toIr · x y ty.toIr)
  exact ⟨_, d'', gives_combine.mpr ⟨ty, x, d, y, d', z, hty, hx, hy, hz, rfl⟩⟩

theorem succeeds_storeInto (hs : Sound r g c) (name : String) {s : Storage} {t : Typed}
    (ht : t.Fits r g c) (hco : coercible t.ty s.ty = true) : Succeeds (storeInto name s t) c := by
  obtain ⟨v, d, hv⟩ := succeeds_coerce hs ht hco
  obtain ⟨hl, _⟩ := sound_coerce hs ht hv
  obtain ⟨u, d', hd⟩ := succeeds_append hl.frames hl.isOpen (.store s.slot v s.ty.toIr)
  exact ⟨u, d', gives_storeInto.mpr ⟨hco, v, d, hv, hd⟩⟩

/-- An argument beyond the parameters is passed as it is, and so cannot fail. -/
theorem succeeds_argument (hs : Sound r g c) {callee : Callee} {index : Nat} {t : Typed}
    (ht : t.Fits r g c)
    (hco : ∀ expected, callee.params[index]? = some expected → coercible t.ty expected = true) :
    Succeeds (argument callee index t) c := by
  cases hp : callee.params[index]? with
  | some expected =>
    obtain ⟨v, d, hv⟩ := succeeds_coerce hs ht (hco expected hp)
    exact ⟨v, d, gives_argument.mpr (.inl ⟨expected, hp, hco expected hp, hv⟩)⟩
  | none =>
    obtain ⟨v, d, hv⟩ := succeeds_materialize hs ht
    exact ⟨v, d, gives_argument.mpr (.inr ⟨hp, hv⟩)⟩

theorem succeeds_call (hs : Sound r g c) (callee : Callee) (args : List Ir.Operand) :
    Succeeds (call callee args) c := by
  by_cases hv : callee.returns = .void
  · obtain ⟨u, d, hd⟩ := succeeds_append hs.frames hs.isOpen (.call none callee.name args .void)
    exact ⟨none, d, gives_call.mpr (.inl ⟨hv, rfl, hd⟩)⟩
  · obtain ⟨x, d, hd⟩ :=
      succeeds_define hs fun x => .call (some x) callee.name args callee.returns.toIr
    exact ⟨_, d, gives_call.mpr (.inr ⟨hv, x, rfl, hd⟩)⟩

theorem succeeds_test (hs : Sound r g c) (role : String) {t : Typed} (hn : t.ty.isNumeric = true) :
    Succeeds (test role t) c := by
  by_cases hb : t.repr = .bool
  · exact ⟨t.value, c, gives_test.mpr (.inl ⟨hb, rfl, rfl⟩)⟩
  · cases hty : t.ty with
    | int =>
      obtain ⟨x, d, hd⟩ := succeeds_define hs (.binary .ne · t.value (.int 0) .i32)
      exact ⟨x, d, gives_test.mpr (.inr (.inl ⟨hb, hty, hd⟩))⟩
    | double =>
      obtain ⟨x, d, hd⟩ := succeeds_define hs (.binary .ne · t.value (.float .zero) .f64)
      exact ⟨x, d, gives_test.mpr (.inr (.inr ⟨hb, hty, hd⟩))⟩
    | string => rw [hty] at hn; cases hn
    | void => rw [hty] at hn; cases hn

theorem succeeds_declareVar (hc : c.frames ≠ []) (name : String) {ty : Ty} (hty : ty ≠ .void) :
    Succeeds (declareVar name ty) c := by
  obtain ⟨slot, d, hd⟩ := succeeds_alloca hc name hty
  obtain ⟨_, _, _, _, _, rfl⟩ := gives_alloca.mp hd
  exact ⟨_, _, gives_declareVar.mpr
    ⟨slot, _, _, _, hd, Context.frames_eq (Context.frames_withBuilder_ne hc _), rfl, rfl⟩⟩

/-- A `return` of what the function returns succeeds, and ends the block at hand. -/
theorem succeeds_returnFrom (hs : Sound r g c) {t : Option Typed} (ht : ∀ t' ∈ t, t'.Fits r g c)
    (hsome : ∀ t' ∈ t, c.top.returns ≠ .void ∧ coercible t'.ty c.top.returns = true)
    (hnone : t = none → c.top.returns = .void) : Succeeds (returnFrom t) c := by
  have hval : ∃ value d, ((∃ t' v, t = some t' ∧ value = some v ∧ c.top.returns ≠ .void ∧
      coercible t'.ty c.top.returns = true ∧ Gives (coerce t' c.top.returns) c v d) ∨
        (t = none ∧ value = none ∧ c.top.returns = .void ∧ d = c)) ∧ Lowered r [] g c g d := by
    cases t with
    | none => exact ⟨none, c, .inr ⟨rfl, rfl, hnone rfl, rfl⟩, .refl hs⟩
    | some t =>
      obtain ⟨hne, hco⟩ := hsome t rfl
      obtain ⟨v, d, hv⟩ := succeeds_coerce hs (ht t rfl) hco
      exact ⟨some v, d, .inl ⟨t, v, rfl, rfl, hne, hco, hv⟩, (sound_coerce hs (ht t rfl) hv).1⟩
  obtain ⟨value, d, hcase, hl⟩ := hval
  obtain ⟨_, d₁, h₁⟩ := succeeds_terminate hl.frames hl.isOpen (.ret value)
  have hf₁ : d₁.frames ≠ [] := by
    obtain ⟨_, _, _, _, _, _, _, _, rfl⟩ := gives_terminate.mp h₁
    exact Context.frames_withBuilder_ne hl.frames _
  obtain ⟨id, d₂, h₂⟩ := succeeds_createBlock hf₁ "after.return"
  obtain ⟨u, d₃, h₃⟩ := succeeds_switchTo_new hf₁ h₂
  exact ⟨u, d₃, gives_returnFrom.mpr
    ⟨c.top, _, value, d, d₁, id, d₂, Context.frames_eq hs.frames, hcase, h₁, h₂, h₃⟩⟩

end TreeLang.Lowering
