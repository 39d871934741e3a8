import TreeLang.Proofs.Agreement.Types
import TreeLang.Proofs.Lowering.Programs
import TreeLang.Proofs.Lowering.Total

namespace TreeLang.Lowering

open TreeLang.Tree (Ty Expr Stmt FunctionDecl)
open Typing (Registry Callee Scopes Checker coercible typeOf typeOfStmt)
open Ir (Knowledge)
open Lower

variable {r : Registry} {g : Knowledge} {c c' d : Context} {k k' : Checker}

/-- The block at hand in `c` is one that ends in a `return` in `c'`. -/
def EndsInReturn (c c' : Context) : Prop :=
  ∃ id block value, c.top.builder.current = some id ∧
    c'.top.builder.function.block? id = some block ∧ block.terminator = .ret value

theorem current_define (hc : c.frames ≠ []) {i : Ir.Operand → Ir.Instruction} {v : Ir.Operand}
    (h : Gives (build (·.define i)) c v c') : c'.top.builder.current = c.top.builder.current := by
  obtain ⟨f, rest, id, hf, _, _, rfl⟩ := gives_define.mp h
  obtain rfl := Context.top_eq hf
  rw [Context.top_withBuilder hc]

/-- A conversion is emitted into the block at hand. -/
theorem current_coerce (hs : Sound r g c) {t : Typed} (ht : t.Fits r g c) {target : Ty}
    {v : Ir.Operand} (h : Gives (coerce t target) c v c') :
    c'.top.builder.current = c.top.builder.current := by
  obtain ⟨w, d, hm, hcase⟩ := gives_coerce.mp h
  have hd : d.top.builder.current = c.top.builder.current := by
    rcases gives_materialize.mp hm with ⟨_, _, rfl⟩ | ⟨_, _, hdef⟩
    · rfl
    · exact current_define hs.frames hdef
  rcases hcase with ⟨_, _, rfl⟩ | ⟨_, _, _, hdef⟩
  · exact hd
  · exact (current_define (sound_materialize hs ht hm).1.frames hdef).trans hd

/-- A `return` ends the block at hand and leaves all others alone. -/
theorem endsInReturn (hs : Sound r g c) {t : Option Typed} {u : Unit}
    (ht : ∀ t' ∈ t, t'.Fits r g c) (h : Gives (returnFrom t) c u c') : EndsInReturn c c' := by
  obtain ⟨f, rest, value, d, d₁, new, d₂, _, hval, hret, hcreate, hswitch⟩ := gives_returnFrom.mp h
  have hl : Sound r g d ∧ d.top.builder.current = c.top.builder.current := by
    rcases hval with ⟨t', v, rfl, _, _, _, hco⟩ | ⟨_, _, _, rfl⟩
    · exact ⟨(sound_coerce hs (ht t' rfl) hco).1.sound hs, current_coerce hs (ht t' rfl) hco⟩
    · exact ⟨hs, rfl⟩
  obtain ⟨hd, hcur⟩ := hl
  obtain ⟨f₀, _, id, block, hf₀, hid, hblock, _, rfl⟩ := gives_terminate.mp hret
  obtain rfl := Context.top_eq hf₀
  obtain ⟨f₁, _, hf₁, rfl, rfl⟩ := gives_createBlock.mp hcreate
  obtain rfl := Context.top_eq hf₁
  obtain ⟨f₂, _, hf₂, _, rfl⟩ := gives_switchTo.mp hswitch
  obtain rfl := Context.top_eq hf₂
  refine ⟨id, block.finish (.ret value), value, hcur.symm.trans hid, ?_, rfl⟩
  have hne₁ := Context.frames_withBuilder_ne hd.frames
  have hne₂ := fun b => Context.frames_withBuilder_ne (hne₁ b)
  simp only [Context.top_withBuilder (hne₂ _ _), Context.top_withBuilder (hne₁ _),
    Context.top_withBuilder hd.frames]
  exact Ir.Function.block?_extend_of_some (Ir.Function.block?_finish_self hblock _) _

def ValueLowered (r : Registry) (value : Option Expr) (c : Context) (v : Option Typed) (d : Context) :
    Prop :=
  match value with
  | none => v = none ∧ d = c
  | some e => Gives (lowerExpr r e) c v d

theorem ret_lowered_none (hs : Sound r g c) (hvoid : c.top.returns = .void) :
    ∃ c', Gives (lowerStmtValue r (.ret none)) c none c' ∧ EndsInReturn c c' := by
  have hfits : ∀ t ∈ (none : Option Typed), t.Fits r g c := by simp
  obtain ⟨_, c', hret⟩ := succeeds_returnFrom hs hfits (by simp) fun _ => hvoid
  exact ⟨c', lower_ret.mpr ⟨none, c, .inl ⟨rfl, rfl, rfl⟩, hret, rfl⟩, endsInReturn hs hfits hret⟩

/-- A value that can be converted to the result of the function is returned. -/
theorem ret_lowered_some {e : Expr} {t : Typed} (hc : c.frames ≠ [])
    (he : Gives (lowerExpr r e) c (some t) d) (hs : Sound r g d) (ht : t.Fits r g d)
    (hne : d.top.returns ≠ .void) (hco : coercible t.ty d.top.returns = true) :
    ∃ c', Gives (lowerStmtValue r (.ret (some e))) c none c' ∧ EndsInReturn d c' := by
  have hfits : ∀ t' ∈ some t, t'.Fits r g d := by
    intro t' ht'
    cases ht'
    exact ht
  obtain ⟨_, c', hret⟩ := succeeds_returnFrom hs hfits (by simpa using ⟨hne, hco⟩) (by simp)
  exact ⟨c', lower_ret.mpr ⟨some t, d, .inr ⟨e, t, rfl, rfl, hc, he⟩, hret, rfl⟩,
    endsInReturn hs hfits hret⟩

/-- The value of a `return` is needed, whatever the function returns. -/
theorem ret_fails {e : Expr} (hc : c.frames ≠ []) (he : Gives (lowerExpr r e) c none d) :
    Fails (lowerStmtValue r (.ret (some e))) c (.emission (.noValue "return value" e.source)) d := by
  rw [lowerStmtValue]
  refine fails_bind.mpr (.inr ⟨c.top, c, gives_frame.mpr ⟨⟨_, Context.frames_eq hc⟩, rfl⟩, ?_⟩)
  refine fails_bind.mpr (.inl ?_)
  exact fails_bind.mpr (.inr ⟨none, d, he, fails_throw.mpr ⟨rfl, rfl⟩⟩)

/-- A `return` that the check accepts, and whose value can be lowered, is lowered to a block that ends
in a `return` unless it has a value where the function has no result. There it fails, since the
expression has no value. -/
theorem ret_lowered_iff {value : Option Expr} {v : Option Typed} {ty : Ty}
    (hreg : Registered r (Stmt.ret value).nestedFunctions) (hs : Sound r g c)
    (ha : Agrees k.scopes c) (hcheck : Gives (typeOfStmt r (.ret value)) k ty k')
    (hvalue : ValueLowered r value c v d) :
    ((∃ c', Gives (lowerStmtValue r (.ret value)) c none c' ∧ EndsInReturn d c') ↔
      ¬ (k.scopes.returns = .void ∧ value.isSome = true)) ∧
    ∀ e, value = some e → k.scopes.returns = .void →
      Fails (lowerStmtValue r (.ret value)) c (.emission (.noValue "return value" e.source)) d := by
  obtain ⟨found, hcase, hco, _⟩ := Typing.check_ret.mp hcheck
  cases value with
  | none =>
    obtain ⟨rfl, rfl⟩ := hvalue
    rcases hcase with ⟨_, rfl, rfl⟩ | ⟨_, hsome, _⟩
    · have hvoid : d.top.returns = .void := ha.returns.trans ((Typing.coercible_void hco).mp rfl)
      obtain ⟨c', hlow, hend⟩ := ret_lowered_none (r := r) hs hvoid
      refine ⟨⟨fun _ h => ?_, fun _ => ⟨c', hlow, hend⟩⟩, ?_⟩
      · cases h.2
      · intro e he
        cases he
    · cases hsome
  | some e =>
    rcases hcase with ⟨hsome, _⟩ | ⟨_, ⟨rfl⟩, hke⟩
    · cases hsome
    · rw [((Typing.typeOf_steady r e).of_gives hke).returns, ← ha.returns] at hco
      rw [← ha.returns]
      have hy := lowerExpr_yields hs ha hke hvalue
      obtain ⟨g', hl, hfit⟩ := lowerExpr_sound r e hreg hs hvalue
      have hsome := hy.some_iff fun t ht => (hfit t ht).ty
      by_cases hvoid : c.top.returns = .void
      · have hnone : v = none := by
          have hfound := (Typing.coercible_void hco).mpr hvoid
          cases v with
          | none => rfl
          | some t => exact absurd hfound (hsome.mpr ⟨t, rfl⟩)
        subst hnone
        have hfail := ret_fails hs.frames hvalue
        refine ⟨⟨fun ⟨c', hlow, _⟩ => absurd hfail (gives_not_fails hlow), fun h => ?_⟩, ?_⟩
        · exact absurd ⟨hvoid, rfl⟩ h
        · intro e' he' _
          cases he'
          exact hfail
      · obtain ⟨t, rfl⟩ := hsome.mp fun hf => hvoid ((Typing.coercible_void hco).mp hf)
        have hty : t.ty = found := hy
        obtain ⟨c', hlow, hend⟩ := ret_lowered_some hs.frames hvalue (hl.sound hs) (hfit t rfl)
          (hl.returns ▸ hvoid) (hl.returns ▸ hty ▸ hco)
        refine ⟨⟨fun _ h => hvoid h.1, fun _ => ⟨c', hlow, hend⟩⟩, ?_⟩
        intro e' _ h
        exact absurd h hvoid

/-- `return 1` at the top level is lowered. In a function without a result the check accepts a `return`
of an empty block, which is not lowered. -/
theorem ret_lowered_iff_cases :
    let main := (Context.start "m").enter (.start entryName [] .int)
    (∃ c', Gives (lowerStmtValue ⟨[]⟩ (.ret (some (.int 1)))) main none c' ∧ EndsInReturn main c') ∧
    let f := main.enter (.start "f" [] .void)
    Fails (lowerStmtValue ⟨[]⟩ (.ret (some (.block [])))) f
      (.emission (.noValue "return value" (Expr.block []).source)) f := by
  have ho := orderly_start ⟨[]⟩ "m"
  have hreg : ∀ e : Expr, e.nestedFunctions = [] →
      Registered ⟨[]⟩ (Stmt.ret (some e)).nestedFunctions := by
    intro e he d hd
    rw [Stmt.nestedFunctions, he] at hd
    cases hd
  constructor
  · have hcheck : Gives (typeOfStmt ⟨[]⟩ (.ret (some (.int 1)))) (.start (.ofReturns .int)) .void
        (.start (.ofReturns .int)) :=
      Typing.check_ret.mpr ⟨.int, .inr ⟨_, rfl, Typing.check_int.mpr ⟨rfl, rfl⟩⟩, rfl, rfl⟩
    have hreturns : (Checker.start (.ofReturns .int)).scopes.returns ≠ .void := nofun
    exact (ret_lowered_iff (hreg _ rfl) (sound_enter ho entryName [] .int)
      ⟨rfl, rfl, rfl, fun _ => rfl⟩ hcheck (lower_int.mpr ⟨rfl, rfl⟩)).1.mpr
      fun h => hreturns h.1
  · have hcheck : Gives (typeOfStmt ⟨[]⟩ (.ret (some (.block []))))
        ((Checker.start (.ofReturns .int)).enter "f" .void) .void
        ((Checker.start (.ofReturns .int)).enter "f" .void) :=
      Typing.check_ret.mpr ⟨.void, .inr ⟨_, rfl,
        Typing.check_block.mpr (Typing.typeOfStmts_nil.mpr ⟨rfl, rfl⟩)⟩, rfl, rfl⟩
    have hs := sound_enter (c := (Context.start "m").enter (.start entryName [] .int)) ho "f" [] .void
    exact (ret_lowered_iff (hreg _ rfl) hs ⟨rfl, rfl, rfl, fun _ => rfl⟩ hcheck
      (lower_block.mpr (lowerStmts_nil.mpr ⟨rfl, rfl⟩))).2 _ rfl rfl

end TreeLang.Lowering
