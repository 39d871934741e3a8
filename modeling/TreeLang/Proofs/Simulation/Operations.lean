import TreeLang.Proofs.Lowering.Trees
import TreeLang.Proofs.Simulation.Judgement
import TreeLang.Proofs.Simulation.Names

namespace TreeLang

theorem Machine.Activation.value_define_below {m : Ir.Module} {o : Ir.Operand} {n : Nat}
    (a : Activation) (x : Value) (h : o.Below n) :
    (a.define (.temp n) x).value m o = a.value m o := by
  apply value_define_other
  rintro rfl
  exact Nat.lt_irrefl n h

namespace Simulation

open TreeLang.Tree (Ty Expr Stmt FunctionDecl)
open Typing (Registry Callee coercible)
open Ir (Knowledge)
open Machine (Activation Caller State Steps Fault)
open Lowering
open Lower
open Meaning (Value World Eval Names)

variable {r : Registry} {g g' : Knowledge} {c c' d : Context} {m : Ir.Module} {F : Ir.Function}
  {cs : List Caller} {w w' : World} {s s' : State} {names : Names}

def temps (c : Context) : Nat := c.top.builder.function.nextTemp

/-- What stands in the function at hand stays in the finished function, and the strings stay in the
module. -/
structure Stays (m : Ir.Module) (F : Ir.Function) (c : Context) : Prop where
  code : c.top.builder.function.PartOf F
  strings : c.module.strings <+: m.strings

/-- What a later point of the lowering has laid out includes what an earlier one had. -/
theorem stays_of_working {ds : List FunctionDecl} {pending : List Nat} (h : Stays m F c')
    (hs : Sound r g c) (hw : Working r ds g c g' c' pending) : Stays m F c :=
  ⟨h.code.of_grown hw.laid.toGrown hs.isOpen, hw.strings.trans h.strings⟩

theorem stays_of_lowered {ds : List FunctionDecl} (h : Stays m F c') (hs : Sound r g c)
    (hl : Lowered r ds g c g' c') : Stays m F c :=
  stays_of_working h hs hl.toWorking

/-- The machine has got from where the lowering was at `c` to where it was at `c'`. -/
structure Arrived (m : Ir.Module) (F : Ir.Function) (cs : List Caller) (c c' : Context) (s : State)
    (w' : World) (s' : State) : Prop where
  point : Point F cs c'.top.builder w' s'
  kept : Kept m (temps c) s s'

theorem Arrived.refl (h : Point F cs c.top.builder w s) : Arrived m F cs c c s w s :=
  ⟨h, .refl m _ s⟩

/-- What was known at the start is still known at the end, since no temporary is defined twice. -/
theorem Arrived.trans {s'' : State} {w'' : World} (h : Arrived m F cs c d s w s')
    (h' : Arrived m F cs d c' s' w'' s'') (hle : temps c ≤ temps d) :
    Arrived m F cs c c' s w'' s'' :=
  ⟨h'.point, h.kept.trans h'.kept hle⟩

def Advances (m : Ir.Module) (F : Ir.Function) (cs : List Caller) (c c' : Context) (s : State)
    (w' : World) (Q : State → Prop) : Prop :=
  ∃ k s', Steps m k s s' ∧ Arrived m F cs c c' s w' s' ∧ Q s'

namespace Advances

variable {P Q : State → Prop}

theorem refl (h : Point F cs c.top.builder w s) (hq : Q s) : Advances m F cs c c s w Q :=
  ⟨0, s, .refl m s, .refl h, hq⟩

theorem trans (h : Advances m F cs c d s w P) (hle : temps c ≤ temps d)
    (h' : ∀ s', Arrived m F cs c d s w s' → P s' → Advances m F cs d c' s' w' Q) :
    Advances m F cs c c' s w' Q := by
  obtain ⟨k, s', hk, ha, hp⟩ := h
  obtain ⟨j, s'', hj, ha', hq⟩ := h' s' ha hp
  exact ⟨k + j, s'', hk.trans hj, ha.trans ha' hle, hq⟩

theorem mono (h : Advances m F cs c c' s w P) (hpq : ∀ s', P s' → Q s') :
    Advances m F cs c c' s w Q := by
  obtain ⟨k, s', hk, ha, hp⟩ := h
  exact ⟨k, s', hk, ha, hpq s' hp⟩

end Advances

/-- The machine gets there as the evaluation says, and `Q` holds of the result then. -/
def Reaches {α : Type} (m : Ir.Module) (F : Ir.Function) (cs : List Caller) (bound : Nat)
    (c c' : Context) (s : State) (w : World) (x : Eval α) (Q : α → State → Prop) : Prop :=
  Follows m F cs bound s w x fun a w' s' => Arrived m F cs c c' s w' s' ∧ Q a s'

section

variable {α β : Type} {bound : Nat} {x : Eval α} {a : α} {P Q : α → State → Prop}

theorem reaches_of_gives (h : Gives x w a w') (ha : Advances m F cs c c' s w' (Q a)) :
    Reaches m F cs bound c c' s w x Q :=
  follows_of_gives h ha

theorem reaches_pure (hp : Point F cs c.top.builder w s) (hq : Q a s) :
    Reaches m F cs bound c c s w (pure a) Q :=
  follows_pure ⟨.refl hp, hq⟩

namespace Reaches

/-- The machine gets through two evaluations one after the other. -/
theorem bind {f : α → Eval β} {R : β → State → Prop} (h : Reaches m F cs bound c d s w x P)
    (hle : temps c ≤ temps d)
    (hf : ∀ a w' s', Arrived m F cs c d s w' s' → P a s' →
      Reaches m F cs bound d c' s' w' (f a) R) :
    Reaches m F cs bound c c' s w (x >>= f) R := by
  apply Follows.bind h
  intro a w' s' hp
  apply (hf a w' s' hp.1 hp.2).mono (Nat.le_refl bound)
  intro b w'' s'' hr
  exact ⟨hp.1.trans hr.1 hle, hr.2⟩

/-- What holds from a later point on holds from an earlier one. -/
theorem of_later (hle : temps c ≤ temps d) (h : Reaches m F cs bound d c' s w x Q) :
    Reaches m F cs bound c c' s w x Q := by
  apply Follows.mono h (Nat.le_refl bound)
  intro a w' s' hp
  exact ⟨⟨hp.1.point, (Kept.refl m (temps c) s).trans hp.1.kept hle⟩, hp.2⟩

/-- The rest of the evaluation does nothing that the machine has to do. -/
theorem andPure {f : α → β} {R : β → State → Prop} (h : Reaches m F cs bound c c' s w x P)
    (hf : ∀ a s', P a s' → R (f a) s') :
    Reaches m F cs bound c c' s w (x >>= fun a => pure (f a)) R :=
  Follows.bind h fun a _ s' hp => follows_pure ⟨hp.1, hf a s' hp.2⟩

theorem discard (h : Reaches m F cs bound c c' s w x P) :
    Reaches m F cs bound c c' s w (Functor.discard x) fun _ _ => True :=
  Follows.discard h fun _ _ _ hp => ⟨hp.1, trivial⟩

theorem needed {x : Eval (Option Value)} {n : Nat} {t : Typed}
    (h : Reaches m F cs bound c c' s w x fun v s' => Yields m n s' (some t) v) :
    Reaches m F cs bound c c' s w (Eval.needed x) fun v s' => Denotes m n s' t v := by
  apply Follows.needed h
  intro v w' s' hp
  cases v with
  | none => exact hp.2.elim
  | some u => exact ⟨u, rfl, hp⟩

end Reaches

end

theorem temps_le {ds : List FunctionDecl} {pending : List Nat}
    (h : Working r ds g c g' c' pending) : temps c ≤ temps c' :=
  h.laid.nextTemp

def Computes (m : Ir.Module) (F : Ir.Function) (cs : List Caller) (c c' : Context) (s : State)
    (w : World) (o : Ir.Operand) : Except Fault Machine.Value → Prop
  | .ok x => Advances m F cs c c' s w (Carries m (temps c') · o (· = x))
  | .error fault => s.step m = .inr (.failed fault, w.console)

theorem append_next (hs : Sound r g c) {i : Ir.Instruction} (h : Gives (emit (·.append i)) c () c')
    (hi : i.isAlloca = false) (hF : Stays m F c') (hp : Point F cs c.top.builder w s) :
    ∃ code, s.current.code = i :: code ∧
      Stands F c'.top.builder { s.current with code := code } := by
  obtain ⟨f, rest, id, hc, hid, rfl⟩ := gives_append.mp h
  obtain rfl := Context.top_eq hc
  have hcode := hF.code
  rw [Context.top_withBuilder hs.frames] at hcode ⊢
  exact hp.stands.next hi hid hcode

/-- Behind an instruction with a result, the machine is at the next place of the block. -/
theorem define_next (hs : Sound r g c) {i : Ir.Operand → Ir.Instruction} {o : Ir.Operand}
    (h : Gives (build (·.define i)) c o c') (hi : ∀ v, (i v).isAlloca = false) (hF : Stays m F c')
    (hp : Point F cs c.top.builder w s) : o = .temp (temps c) ∧ temps c < temps c' ∧
      ∃ code, s.current.code = i o :: code ∧
        Stands F c'.top.builder { s.current with code := code } := by
  obtain ⟨f, rest, id, hc, hid, rfl, rfl⟩ := gives_define.mp h
  obtain rfl := Context.top_eq hc
  have hcode := hF.code
  unfold temps
  rw [Context.top_withBuilder hs.frames] at hcode ⊢
  obtain ⟨code, hcode, hstands⟩ := hp.stands.next (hi _) hid ⟨hcode.slots, hcode.begun, hcode.ended⟩
  exact ⟨rfl, Nat.lt_succ_self _, code, hcode, hstands.function, hstands.place⟩

/-- An instruction that defines a temporary is the next one, and defines it. -/
theorem step_define (hs : Sound r g c) {i : Ir.Operand → Ir.Instruction} {o : Ir.Operand}
    (h : Gives (build (·.define i)) c o c') (hi : ∀ v, (i v).isAlloca = false)
    (hcall : ∀ v, (i v).isCall = false) (hF : Stays m F c') (hp : Point F cs c.top.builder w s)
    (result : Except Fault Machine.Value)
    (hx : ∀ code, ({ s.current with code := code } : Activation).execute m (i o) =
      result.map (({ s.current with code := code } : Activation).define o)) :
    Computes m F cs c c' s w o result := by
  obtain ⟨rfl, hlt, code, hcode, hstands⟩ := define_next hs h hi hF hp
  have hstep := State.step_execute hcode (hcall _) (m := m)
  rw [hx] at hstep
  cases result with
  | error fault =>
    unfold Computes
    rw [hstep, ← hp.console]
    rfl
  | ok x =>
    refine ⟨1, _, .one hstep, ⟨⟨?_, hp.callers, hp.console, hp.types, hp.cells⟩, ?_⟩, ?_⟩
    · exact hstands.congr rfl rfl rfl
    · intro o ho
      exact (Activation.value_define_below _ x ho).trans (Activation.value_code _ _ o)
    · exact ⟨hlt, x, Activation.value_define_self _ _ x, rfl⟩

section

variable {t u : Typed} {v : Value} {o : Ir.Operand}

/-- A comparison that is needed as a value is converted to it. -/
theorem advance_materialize (hs : Sound r g c) (hfit : t.Fits r g c)
    (h : Gives (materialize t) c o c') (hF : Stays m F c') (hp : Point F cs c.top.builder w s)
    (hv : Denotes m (temps c) s t v) : Advances m F cs c c' s w (Bears m (temps c') · o v) := by
  obtain ⟨hbelow, x, hx, hty, hrep⟩ := hv
  rcases gives_materialize.mp h with ⟨hne, rfl, rfl⟩ | ⟨heq, hconv, hd⟩
  · rw [if_neg hne] at hrep
    exact .refl hp ⟨hbelow, x, hx, hrep⟩
  · rw [if_pos heq] at hrep
    obtain ⟨b, rfl, rfl⟩ := hrep
    have hnum : t.ty.isNumeric = true := by
      rcases hfit.repr with hr | hr
      · exact absurd (hr.symm.trans heq) (Ty.toIr_ne_bool t.ty)
      · exact hr.2
    obtain ⟨y, hy, hval⟩ := cast_truth hnum b
    have hstep := step_define hs hd (fun _ => rfl) (fun _ => rfl) hF hp (.ok y) fun code => by
      rw [Activation.execute_cast ((Activation.value_code _ code _).trans hx), hy]
    exact Advances.mono hstep fun s' hs' => hs'.mono fun x hxy => hxy ▸ hval

/-- A conversion of the lowering converts the value as the tree does. -/
theorem advance_coerce (hs : Sound r g c) (hfit : t.Fits r g c) {target : Ty}
    (h : Gives (coerce t target) c o c') (hF : Stays m F c') (hp : Point F cs c.top.builder w s)
    (hv : Denotes m (temps c) s t v) : ∃ u, v.convert target = .ok u ∧
      Advances m F cs c c' s w (Bears m (temps c') · o u) := by
  have hty : v.ty = t.ty := hv.2.choose_spec.2.1
  obtain ⟨o', d, hm, h⟩ := gives_coerce.mp h
  obtain ⟨l₁, hbear⟩ := sound_materialize hs hfit hm
  rcases h with ⟨rfl, rfl, rfl⟩ | ⟨hne, hsrc, htgt, hd⟩
  · refine ⟨v, ?_, advance_materialize hs hfit hm hF hp hv⟩
    rw [← hty]
    exact convert_self
  · have s₁ := l₁.sound hs
    obtain ⟨l₂, _⟩ := sound_define s₁ hd (fun _ => rfl) (fun _ => rfl)
      fun _ => ⟨Ty.isConversion_toIr hsrc htgt hne, hbear⟩
    have hfirst := advance_materialize hs hfit hm (stays_of_lowered hF s₁ l₂) hp hv
    rw [← hty] at hne hsrc hd
    obtain ⟨u, hu, hcast⟩ := cast_convert hsrc htgt hne
    refine ⟨u, hu, hfirst.trans (temps_le l₁.toWorking) fun s' ha hb => ?_⟩
    obtain ⟨_, x, hx, hval⟩ := hb
    obtain ⟨y, hy, hvaly⟩ := hcast x hval
    have hstep := step_define s₁ hd (fun _ => rfl) (fun _ => rfl) hF ha.point (.ok y)
      fun code => by
        rw [Activation.execute_cast ((Activation.value_code _ code _).trans hx), hy]
    exact Advances.mono hstep fun s' hs' => hs'.mono fun x hxy => hxy ▸ hvaly

/-- A value in its own type is what the lowering says of it. -/
theorem denotes_plain {n : Nat} {ty : Ty} (h : Bears m n s o v) (hty : v.ty = ty) :
    Denotes m n s (.plain o ty) v := by
  apply Carries.mono h
  intro x hx
  refine ⟨hty, ?_⟩
  rw [if_neg (show (Typed.plain o ty).repr ≠ .bool from Ty.toIr_ne_bool ty)]
  exact hx

theorem advance_negate (hs : Sound r g c) (hfit : t.Fits r g c) (h : Gives (negate t) c u c')
    (hF : Stays m F c') (hp : Point F cs c.top.builder w s) (hv : Denotes m (temps c) s t v) :
    ∃ v', v.negate = .ok v' ∧ Advances m F cs c c' s w (Denotes m (temps c') · u v') := by
  have hty : v.ty = t.ty := hv.2.choose_spec.2.1
  obtain ⟨hnum, o, d, o', hm, hd, rfl⟩ := gives_negate.mp h
  obtain ⟨l₁, hbear⟩ := sound_materialize hs hfit hm
  have s₁ := l₁.sound hs
  obtain ⟨l₂, _⟩ := sound_define s₁ hd (fun _ => rfl) (fun _ => rfl)
    fun _ => ⟨Ty.isNumeric_toIr hnum, hbear⟩
  have hfirst := advance_materialize hs hfit hm (stays_of_lowered hF s₁ l₂) hp hv
  rw [← hty] at hnum hd ⊢
  obtain ⟨v', hv', hty', hneg⟩ := negate_represents hnum
  refine ⟨v', hv', hfirst.trans (temps_le l₁.toWorking) fun s' ha hb => ?_⟩
  obtain ⟨_, x, hx, hval⟩ := hb
  obtain ⟨y, hy, hvaly⟩ := hneg x hval
  have hstep := step_define s₁ hd (fun _ => rfl) (fun _ => rfl) hF ha.point (.ok y) fun code => by
    rw [Activation.execute_neg ((Activation.value_code _ code _).trans hx), hy]
  exact Advances.mono hstep fun s' hs' =>
    denotes_plain (hs'.mono fun x hxy => hxy ▸ hvaly) hty'

/-- The operator fails, or its result is what both operands make of it. -/
theorem reaches_combine (hs : Sound r g c) {op : Tree.BinaryOp} {left right : Typed} {bound : Nat}
    {vl vr : Value} (hleft : left.Fits r g c) (hright : right.Fits r g c)
    (h : Gives (combine op left right) c u c') (hF : Stays m F c')
    (hp : Point F cs c.top.builder w s) (hl : Denotes m (temps c) s left vl)
    (hr : Denotes m (temps c) s right vr) :
    Reaches m F cs bound c c' s w (Eval.attempt (Value.binary op vl vr)) fun v s' =>
      Denotes m (temps c') s' u v := by
  have htyl : vl.ty = left.ty := hl.2.choose_spec.2.1
  have htyr : vr.ty = right.ty := hr.2.choose_spec.2.1
  obtain ⟨ty, ol, d, or, d', o, hty, hcl, hcr, hd, rfl⟩ := gives_combine.mp h
  have hnum : ty.isNumeric = true := by
    obtain ⟨_, _, rfl⟩ := Typing.binaryType_eq_ok.mp hty
    split <;> rfl
  obtain ⟨l₁, hol⟩ := sound_coerce hs hleft hcl
  have s₁ := l₁.sound hs
  obtain ⟨l₂, hor⟩ := sound_coerce s₁ (hright.mono l₁.toWorking) hcr
  have s₂ := l₂.sound s₁
  obtain ⟨l₃, _⟩ := sound_define s₂ hd (fun _ => rfl) (fun _ => rfl)
    fun _ => ⟨Ty.isNumeric_toIr hnum, Holds.mono hol l₂.toWorking, hor⟩
  have hF₂ := stays_of_lowered hF s₂ l₃
  obtain ⟨ul, hul, k₁, s₁', hk₁, ha₁, hbl⟩ :=
    advance_coerce hs hleft hcl (stays_of_lowered hF₂ s₁ l₂) hp hl
  have hle₁ := temps_le l₁.toWorking
  have hle₂ := temps_le l₂.toWorking
  obtain ⟨ur, hur, k₂, s₂', hk₂, ha₂, hbr⟩ := advance_coerce s₁ (hright.mono l₁.toWorking) hcr hF₂
    ha₁.point (hr.kept ha₁.kept hle₁)
  obtain ⟨_, x, hx, hvalx⟩ := Carries.kept hbl ha₂.kept hle₂
  obtain ⟨_, y, hy, hvaly⟩ := hbr
  have hans := binary_represents op o hnum hvalx hvaly (ty_convert hul) (ty_convert hur)
  rw [← htyl, ← htyr] at hty
  rw [← binary_convert hty hul hur] at hans
  have hstep := step_define s₂ hd (fun _ => rfl) (fun _ => rfl) hF ha₂.point
    (Machine.binary op.toIr ty.toIr x y) fun code =>
      Activation.execute_binary ((Activation.value_code _ code _).trans hx)
        ((Activation.value_code _ code _).trans hy)
  cases hm : Machine.binary op.toIr ty.toIr x y with
  | error fault =>
    cases hv : Value.binary op vl vr with
    | error fault' =>
      rw [hm] at hstep
      rw [hm, hv] at hans
      cases hans
      exact follows_of_fails (fails_throw.mpr ⟨rfl, rfl⟩) ⟨k₁ + k₂, s₂', hk₁.trans hk₂, hstep⟩
    | ok v =>
      rw [hm, hv] at hans
      cases hans
  | ok z =>
    cases hv : Value.binary op vl vr with
    | error fault =>
      rw [hm, hv] at hans
      cases hans
    | ok v =>
      rw [hm] at hstep
      rw [hm, hv] at hans
      have hall : Advances m F cs d' c' s₂' w (Denotes m (temps c') ·
          (if op.isComparison then .comparison o ty else .plain o ty) v) := by
        apply Advances.mono hstep
        intro s' hs'
        have hval : (if op.isComparison then Typed.comparison o ty else .plain o ty).value = o := by
          split <;> rfl
        unfold Denotes
        rw [hval]
        exact hs'.mono fun x hxz => hxz ▸ hans
      obtain ⟨k₃, s₃', hk₃, ha₃, hden⟩ := hall
      exact reaches_of_gives (gives_pure.mpr ⟨rfl, rfl⟩) ⟨k₁ + k₂ + k₃, s₃',
        (hk₁.trans hk₂).trans hk₃, (ha₁.trans ha₂ hle₁).trans ha₃ (Nat.le_trans hle₁ hle₂), hden⟩

/-- What the machine branches on is whether the condition holds. -/
theorem advance_test (hs : Sound r g c) (hfit : t.Fits r g c) {role : String}
    (h : Gives (test role t) c o c') (hF : Stays m F c') (hp : Point F cs c.top.builder w s)
    (hv : Denotes m (temps c) s t v) : ∃ b, v.isTrue = .ok b ∧
      Advances m F cs c c' s w (Carries m (temps c') · o (· = .ofBool b)) := by
  obtain ⟨hbelow, x, hx, hty, hrep⟩ := hv
  rcases gives_test.mp h with ⟨heq, rfl, rfl⟩ | ⟨hne, htt, hd⟩ | ⟨hne, htt, hd⟩
  · rw [if_pos heq] at hrep
    obtain ⟨b, rfl, rfl⟩ := hrep
    have hnum : t.ty.isNumeric = true := by
      rcases hfit.repr with hr | hr
      · exact absurd (hr.symm.trans heq) (Ty.toIr_ne_bool t.ty)
      · exact hr.2
    exact ⟨b, isTrue_truth hnum b, .refl hp ⟨hbelow, _, hx, rfl⟩⟩
  · rw [if_neg hne] at hrep
    obtain ⟨b, hb, htest⟩ := isTrue_int (hty.trans htt)
    refine ⟨b, hb, step_define hs hd (fun _ => rfl) (fun _ => rfl) hF hp (.ok (.ofBool b)) ?_⟩
    intro code
    rw [Activation.execute_binary ((Activation.value_code _ code _).trans hx) rfl]
    exact congrArg _ (htest x hrep)
  · rw [if_neg hne] at hrep
    obtain ⟨b, hb, htest⟩ := isTrue_double (hty.trans htt)
    refine ⟨b, hb, step_define hs hd (fun _ => rfl) (fun _ => rfl) hF hp (.ok (.ofBool b)) ?_⟩
    intro code
    rw [Activation.execute_binary ((Activation.value_code _ code _).trans hx) rfl]
    exact congrArg _ (htest x hrep)

end

end Simulation

end TreeLang
