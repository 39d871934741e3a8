import TreeLang.Lowering.Program
import TreeLang.Proofs.Builder.Steps
import TreeLang.Proofs.Outcome
import TreeLang.Proofs.Typing.Rules

namespace TreeLang.Lowering

open TreeLang.Tree (Ty Expr Stmt FunctionDecl)
open Typing (Registry Callee coercible)
open Lower

variable {c c' : Context} {r : Registry}

/-- The context with another builder for the function at hand. -/
def Context.withBuilder (c : Context) (b : Ir.Builder) : Context :=
  { c with frames := (c.frames.head?.map fun f => { f with builder := b }).toList ++ c.frames.tail }

theorem Context.frames_withBuilder {f : Frame} {rest : List Frame} (hc : c.frames = f :: rest)
    (b : Ir.Builder) : (c.withBuilder b).frames = { f with builder := b } :: rest := by
  simp [withBuilder, hc]

theorem gives_frame {f : Frame} : Gives frame c f c' ↔ (∃ rest, c.frames = f :: rest) ∧ c' = c := by
  unfold frame
  simp only [gives_bind, gives_get]
  constructor
  · rintro ⟨_, _, ⟨rfl, rfl⟩, h⟩
    split at h
    · exact absurd h gives_throw
    · obtain ⟨rfl, rfl⟩ := gives_pure.mp h
      exact ⟨⟨_, by assumption⟩, rfl⟩
  · rintro ⟨⟨rest, hc⟩, rfl⟩
    refine ⟨_, _, ⟨rfl, rfl⟩, ?_⟩
    simp [hc]

theorem gives_setFrame {f : Frame} {u : Unit} :
    Gives (setFrame f) c u c' ↔ c' = { c with frames := f :: c.frames.tail } := gives_modify

/-- An operation of the builder concerns the function at hand alone. -/
theorem gives_build {α : Type} {step : Ir.Builder → Except Ir.Error (α × Ir.Builder)} {a : α} :
    Gives (build step) c a c' ↔
      ∃ f rest b, c.frames = f :: rest ∧ step f.builder = .ok (a, b) ∧ c' = c.withBuilder b := by
  unfold build
  simp only [gives_bind, gives_frame]
  constructor
  · rintro ⟨f, _, ⟨⟨rest, hc⟩, rfl⟩, h⟩
    split at h
    · rename_i a' b hs
      obtain ⟨_, _, hf, hp⟩ := gives_bind.mp h
      obtain ⟨rfl, rfl⟩ := gives_pure.mp hp
      refine ⟨f, rest, b, hc, hs, ?_⟩
      rw [gives_setFrame.mp hf]
      simp [Context.withBuilder, hc]
    · exact absurd h gives_throw
  · rintro ⟨f, rest, b, hc, hs, rfl⟩
    refine ⟨f, c, ⟨⟨rest, hc⟩, rfl⟩, ?_⟩
    simp [hs, gives_setFrame, Context.withBuilder, hc]

theorem gives_emit {step : Ir.Builder → Except Ir.Error Ir.Builder} {u : Unit} :
    Gives (emit step) c u c' ↔
      ∃ f rest b, c.frames = f :: rest ∧ step f.builder = .ok b ∧ c' = c.withBuilder b := by
  unfold emit
  rw [gives_build]
  refine exists_congr fun f => exists_congr fun rest => exists_congr fun b => ?_
  cases step f.builder <;> simp [bind, Except.bind, pure, Except.pure]

theorem gives_createBlock {label : String} {id : Nat} :
    Gives (createBlock label) c id c' ↔
      ∃ f rest, c.frames = f :: rest ∧ id = f.builder.function.nextBlock ∧
        c' = c.withBuilder { f.builder with function := f.builder.function.extend label } := by
  unfold createBlock
  rw [gives_build]
  constructor
  · rintro ⟨f, rest, b, hc, hs, rfl⟩
    cases hs
    exact ⟨f, rest, hc, rfl, rfl⟩
  · rintro ⟨f, rest, hc, rfl, rfl⟩
    exact ⟨f, rest, _, hc, rfl, rfl⟩

theorem gives_switchTo {id : Nat} {u : Unit} :
    Gives (switchTo id) c u c' ↔
      ∃ f rest, c.frames = f :: rest ∧ (∃ k ∈ f.builder.function.blocks, k.id = id) ∧
        c' = c.withBuilder { f.builder with current := some id } := by
  unfold switchTo
  rw [gives_emit]
  constructor
  · rintro ⟨f, rest, b, hc, hs, rfl⟩
    obtain ⟨hk, rfl⟩ := Ir.Builder.switchTo_eq_ok.mp hs
    exact ⟨f, rest, hc, hk, rfl⟩
  · rintro ⟨f, rest, hc, hk, rfl⟩
    exact ⟨f, rest, _, hc, Ir.Builder.switchTo_eq_ok.mpr ⟨hk, rfl⟩, rfl⟩

theorem gives_define {i : Ir.Operand → Ir.Instruction} {v : Ir.Operand} :
    Gives (build (·.define i)) c v c' ↔
      ∃ f rest id, c.frames = f :: rest ∧ f.builder.current = some id ∧
        v = .temp f.builder.function.nextTemp ∧
        c' = c.withBuilder { f.builder with function := f.builder.function.assign id (i v) } := by
  rw [gives_build]
  constructor
  · rintro ⟨f, rest, b, hc, hs, rfl⟩
    obtain ⟨hv, id, hid, rfl⟩ := Ir.Builder.define_eq_ok.mp hs
    exact ⟨f, rest, id, hc, hid, hv, rfl⟩
  · rintro ⟨f, rest, id, hc, hid, hv, rfl⟩
    exact ⟨f, rest, _, hc, Ir.Builder.define_eq_ok.mpr ⟨hv, id, hid, rfl⟩, rfl⟩

theorem gives_append {i : Ir.Instruction} {u : Unit} :
    Gives (emit (·.append i)) c u c' ↔
      ∃ f rest id, c.frames = f :: rest ∧ f.builder.current = some id ∧
        c' = c.withBuilder { f.builder with function := f.builder.function.updateBlock id (.add i) } := by
  rw [gives_emit]
  constructor
  · rintro ⟨f, rest, b, hc, hs, rfl⟩
    obtain ⟨id, hid, rfl⟩ := Ir.Builder.append_eq_ok.mp hs
    exact ⟨f, rest, id, hc, hid, rfl⟩
  · rintro ⟨f, rest, id, hc, hid, rfl⟩
    exact ⟨f, rest, _, hc, Ir.Builder.append_eq_ok.mpr ⟨id, hid, rfl⟩, rfl⟩

/-- A terminator goes to the block at hand, which has none so far. -/
theorem gives_terminate {t : Ir.Terminator} {u : Unit} :
    Gives (emit (·.terminate t)) c u c' ↔
      ∃ f rest id k, c.frames = f :: rest ∧ f.builder.current = some id ∧
        f.builder.function.block? id = some k ∧ k.terminator = .unset ∧
        c' = c.withBuilder
          { f.builder with function := f.builder.function.updateBlock id (.finish t) } := by
  rw [gives_emit]
  constructor
  · rintro ⟨f, rest, b, hc, hs, rfl⟩
    obtain ⟨id, k, hid, hk, ht, rfl⟩ := Ir.Builder.terminate_eq_ok.mp hs
    exact ⟨f, rest, id, k, hc, hid, hk, ht, rfl⟩
  · rintro ⟨f, rest, id, k, hc, hid, hk, ht, rfl⟩
    exact ⟨f, rest, _, hc, Ir.Builder.terminate_eq_ok.mpr ⟨id, k, hid, hk, ht, rfl⟩, rfl⟩

/-- A slot is behind all others, and never of type `void`. -/
theorem gives_alloca {name : String} {ty : Ir.Ty} {slot : Nat} :
    Gives (build (·.alloca name ty)) c slot c' ↔
      ∃ f rest, c.frames = f :: rest ∧ ty ≠ .void ∧ slot = f.builder.function.slots.length ∧
        c' = c.withBuilder { f.builder with function := f.builder.function.reserve name ty } := by
  rw [gives_build]
  constructor
  · rintro ⟨f, rest, b, hc, hs, rfl⟩
    obtain ⟨hty, hslot, rfl⟩ := Ir.Builder.alloca_eq_ok.mp hs
    exact ⟨f, rest, hc, hty, hslot, rfl⟩
  · rintro ⟨f, rest, hc, hty, hslot, rfl⟩
    exact ⟨f, rest, _, hc, Ir.Builder.alloca_eq_ok.mpr ⟨hty, hslot, rfl⟩, rfl⟩

theorem gives_needed {role : String} {e : Expr} {m : Lower Cause (Option Typed)} {t : Typed} :
    Gives (needed role e m) c t c' ↔ Gives m c (some t) c' := by
  unfold needed
  rw [gives_bind]
  constructor
  · rintro ⟨v, d, hm, h⟩
    split at h
    · obtain ⟨rfl, rfl⟩ := gives_pure.mp h
      exact hm
    · exact absurd h gives_throw
  · exact fun hm => ⟨some t, c', hm, gives_pure.mpr ⟨rfl, rfl⟩⟩

theorem gives_cast {value v : Ir.Operand} {source target : Ir.Ty} (hne : source ≠ target) :
    Gives (build (·.cast value source target)) c v c' ↔
      Ir.Builder.isConversion source target = true ∧
        Gives (build (·.define (.cast · value source target))) c v c' := by
  simp only [gives_build, Ir.Builder.cast, if_neg hne]
  constructor
  · rintro ⟨f, rest, b, hc, hs, rfl⟩
    cases hcur : f.builder.current with
    | none => simp [Ir.Builder.cursor, hcur, bind, Except.bind] at hs
    | some id =>
      simp only [Ir.Builder.cursor, hcur, bind, Except.bind] at hs
      split at hs
      · exact ⟨by assumption, f, rest, b, hc, hs, rfl⟩
      · cases hs
  · rintro ⟨hconv, f, rest, b, hc, hs, rfl⟩
    obtain ⟨_, id, hcur, _⟩ := Ir.Builder.define_eq_ok.mp hs
    refine ⟨f, rest, b, hc, ?_, rfl⟩
    simp [Ir.Builder.cursor, hcur, bind, Except.bind, hconv, hs]

/-- A comparison becomes a value of its type by a conversion; anything else is one already. -/
theorem gives_materialize {t : Typed} {v : Ir.Operand} :
    Gives (materialize t) c v c' ↔
      (t.repr ≠ .bool ∧ v = t.value ∧ c' = c) ∨
      (t.repr = .bool ∧ Ir.Builder.isConversion .bool t.ty.toIr = true ∧
        Gives (build (·.define (.cast · t.value .bool t.ty.toIr))) c v c') := by
  unfold materialize
  split
  · rename_i h
    simp [h, gives_cast (Ty.toIr_ne_bool t.ty).symm]
  · rename_i h
    simp [h]

/-- Equal types need no conversion, and numbers are converted into each other. -/
theorem gives_coerce {t : Typed} {target : Ty} {v : Ir.Operand} :
    Gives (coerce t target) c v c' ↔ ∃ w d, Gives (materialize t) c w d ∧
      ((t.ty = target ∧ v = w ∧ c' = d) ∨
       (t.ty ≠ target ∧ t.ty.isNumeric = true ∧ target.isNumeric = true ∧
        Gives (build (·.define (.cast · w t.ty.toIr target.toIr))) d v c')) := by
  unfold coerce
  rw [gives_bind]
  refine exists_congr fun w => exists_congr fun d => and_congr_right fun _ => ?_
  split
  · rename_i h
    simp [h]
  · rename_i h
    split
    · rename_i hn
      simp only [Bool.and_eq_true] at hn
      rw [gives_cast fun he => h (Ty.toIr_injective he)]
      simp [h, hn, Ty.isConversion_toIr hn.1 hn.2 h]
    · rename_i hn
      simp only [Bool.and_eq_true] at hn
      simp [h]
      exact fun h1 h2 => absurd ⟨h1, h2⟩ hn

theorem gives_negate {t u : Typed} :
    Gives (negate t) c u c' ↔ t.ty.isNumeric = true ∧ ∃ w d x, Gives (materialize t) c w d ∧
      Gives (build (·.define (.neg · w t.ty.toIr))) d x c' ∧ u = .plain x t.ty := by
  unfold negate Typing.negType
  cases hn : t.ty.isNumeric with
  | false => simp
  | true =>
    simp only [gives_bind, gives_liftExcept, gives_pure]
    constructor
    · rintro ⟨_, _, ⟨⟨rfl⟩, rfl⟩, w, d, hm, x, _, hx, rfl, rfl⟩
      exact ⟨trivial, w, d, x, hm, hx, rfl⟩
    · rintro ⟨_, w, d, x, hm, hx, rfl⟩
      exact ⟨_, _, ⟨rfl, rfl⟩, w, d, hm, x, _, hx, rfl, rfl⟩

/-- Both operands are converted to the type of the operation first. -/
theorem gives_combine {op : Tree.BinaryOp} {left right u : Typed} :
    Gives (combine op left right) c u c' ↔ ∃ ty l d r d' x,
      Typing.binaryType op left.ty right.ty = .ok ty ∧ Gives (coerce left ty) c l d ∧
      Gives (coerce right ty) d r d' ∧
      Gives (build (·.define (.binary op.toIr · l r ty.toIr))) d' x c' ∧
      u = if op.isComparison then .comparison x ty else .plain x ty := by
  unfold combine
  simp only [gives_bind, gives_liftExcept, gives_pure]
  constructor
  · rintro ⟨ty, _, ⟨hty, rfl⟩, l, d, hl, r, d', hr, x, _, hx, rfl, rfl⟩
    exact ⟨ty, l, d, r, d', x, hty, hl, hr, hx, rfl⟩
  · rintro ⟨ty, l, d, r, d', x, hty, hl, hr, hx, rfl⟩
    exact ⟨ty, c, ⟨hty, rfl⟩, l, d, hl, r, d', hr, x, _, hx, rfl, rfl⟩

theorem gives_storage {name : String} {s : Storage} :
    Gives (storage name) c s c' ↔
      (∃ f rest, c.frames = f :: rest ∧ f.storage? name = some s) ∧ c' = c := by
  unfold storage
  simp only [gives_bind, gives_frame]
  constructor
  · rintro ⟨f, _, ⟨⟨rest, hc⟩, rfl⟩, h⟩
    split at h
    · obtain ⟨rfl, rfl⟩ := gives_pure.mp h
      exact ⟨⟨f, rest, hc, by assumption⟩, rfl⟩
    · obtain ⟨_, _, _, h⟩ := gives_bind.mp h
      split at h <;> exact absurd h gives_throw
  · rintro ⟨⟨f, rest, hc, hs⟩, rfl⟩
    exact ⟨f, c', ⟨⟨rest, hc⟩, rfl⟩, by simp [hs]⟩

theorem gives_readName {name : String} {u : Typed} :
    Gives (readName name) c u c' ↔ ∃ f rest s x, c.frames = f :: rest ∧ f.storage? name = some s ∧
      Gives (build (·.define (.load · s.slot s.ty.toIr))) c x c' ∧ u = .plain x s.ty := by
  unfold readName
  simp only [gives_bind, gives_storage, gives_pure]
  constructor
  · rintro ⟨s, _, ⟨⟨f, rest, hc, hs⟩, rfl⟩, x, _, hx, rfl, rfl⟩
    exact ⟨f, rest, s, x, hc, hs, hx, rfl⟩
  · rintro ⟨f, rest, s, x, hc, hs, hx, rfl⟩
    exact ⟨s, c, ⟨⟨f, rest, hc, hs⟩, rfl⟩, x, _, hx, rfl, rfl⟩

theorem gives_storeInto {name : String} {s : Storage} {t : Typed} {u : Unit} :
    Gives (storeInto name s t) c u c' ↔ coercible t.ty s.ty = true ∧ ∃ v d,
      Gives (coerce t s.ty) c v d ∧ Gives (emit (·.append (.store s.slot v s.ty.toIr))) d u c' := by
  unfold storeInto
  split
  · rename_i h
    simp only [h, gives_bind, true_and]
    rfl
  · rename_i h
    simp [h]

theorem gives_argument {callee : Callee} {index : Nat} {t : Typed} {v : Ir.Operand} :
    Gives (argument callee index t) c v c' ↔
      (∃ expected, callee.params[index]? = some expected ∧ coercible t.ty expected = true ∧
        Gives (coerce t expected) c v c') ∨
      (callee.params[index]? = none ∧ Gives (materialize t) c v c') := by
  unfold argument
  split
  · rename_i expected h
    rw [h]
    split
    · rename_i hco
      simp [hco]
    · rename_i hco
      simp [hco]
  · rename_i h
    rw [h]
    simp

theorem gives_call {callee : Callee} {args : List Ir.Operand} {u : Option Typed} :
    Gives (call callee args) c u c' ↔
      (callee.returns = .void ∧ u = none ∧
        Gives (emit (·.append (.call none callee.name args .void))) c () c') ∨
      (callee.returns ≠ .void ∧ ∃ x, u = some (.plain x callee.returns) ∧
        Gives (build (·.define fun x => .call (some x) callee.name args callee.returns.toIr))
          c x c') := by
  unfold call
  simp only [gives_bind, gives_pure]
  by_cases hv : callee.returns = .void
  · simp only [hv, ne_eq, not_true, false_and, or_false, true_and]
    simp only [gives_build, gives_emit, Ir.Builder.call, Ty.toIr, if_true]
    constructor
    · rintro ⟨x, d, ⟨f, rest, b, hc, hs, rfl⟩, rfl, rfl⟩
      cases ha : f.builder.append (.call none callee.name args .void) with
      | error e => simp [ha, bind, Except.bind] at hs
      | ok b' =>
        simp only [ha, bind, Except.bind, pure, Except.pure] at hs
        cases hs
        exact ⟨rfl, f, rest, _, hc, ha, rfl⟩
    · rintro ⟨rfl, f, rest, b, hc, hs, rfl⟩
      refine ⟨none, _, ⟨f, rest, b, hc, ?_, rfl⟩, rfl, rfl⟩
      simp [hs, bind, Except.bind, pure, Except.pure]
  · have hir : callee.returns.toIr ≠ .void := fun h => hv (Ty.toIr_injective h)
    simp only [hv, ne_eq, not_false_eq_true, false_and, false_or, true_and]
    simp only [gives_build, Ir.Builder.call, if_neg hir]
    constructor
    · rintro ⟨x, d, ⟨f, rest, b, hc, hs, rfl⟩, rfl, rfl⟩
      cases ha : f.builder.define fun x =>
          .call (some x) callee.name args callee.returns.toIr with
      | error e => simp [ha, bind, Except.bind] at hs
      | ok p =>
        simp only [ha, bind, Except.bind, pure, Except.pure] at hs
        cases hs
        exact ⟨p.1, rfl, f, rest, p.2, hc, ha, rfl⟩
    · rintro ⟨x, rfl, f, rest, b, hc, hs, rfl⟩
      refine ⟨some x, _, ⟨f, rest, b, hc, ?_, rfl⟩, rfl, rfl⟩
      simp [hs, bind, Except.bind, pure, Except.pure]

/-- A condition is a comparison already, or is compared with zero. -/
theorem gives_test {role : String} {t : Typed} {v : Ir.Operand} :
    Gives (test role t) c v c' ↔
      (t.repr = .bool ∧ v = t.value ∧ c' = c) ∨
      (t.repr ≠ .bool ∧ t.ty = .int ∧
        Gives (build (·.define (.binary .ne · t.value (.int 0) .i32))) c v c') ∨
      (t.repr ≠ .bool ∧ t.ty = .double ∧
        Gives (build (·.define (.binary .ne · t.value (.float .zero) .f64))) c v c') := by
  unfold test
  by_cases h : t.repr = .bool
  · simp [h]
  · simp only [h, if_false]
    cases ht : t.ty <;> simp [h, Ir.Builder.binary]

theorem gives_declareVar {name : String} {ty : Ty} {s : Storage} :
    Gives (declareVar name ty) c s c' ↔ ∃ slot d f rest,
      Gives (build (·.alloca name ty.toIr)) c slot d ∧ d.frames = f :: rest ∧ s = ⟨slot, ty⟩ ∧
      c' = { d with
        scopes := d.scopes.declare name ty
        frames := { f with locals := (name, s) :: f.locals } :: rest } := by
  unfold declareVar
  simp only [gives_bind, gives_frame, gives_setFrame, gives_modify, gives_pure]
  constructor
  · rintro ⟨slot, d, ha, f, _, ⟨⟨rest, hd⟩, rfl⟩, _, _, rfl, _, _, rfl, rfl, rfl⟩
    exact ⟨slot, _, f, rest, ha, hd, rfl, by simp [Context.declare, hd]⟩
  · rintro ⟨slot, d, f, rest, ha, hd, rfl, rfl⟩
    exact ⟨slot, d, ha, f, d, ⟨⟨rest, hd⟩, rfl⟩, (), _, rfl, (), _, rfl, rfl,
      by simp [Context.declare, hd]⟩

/-- A `return` ends the block at hand; what follows it goes to a block of its own. -/
theorem gives_returnFrom {t : Option Typed} {u : Unit} :
    Gives (returnFrom t) c u c' ↔ ∃ f rest value d d' id d'', c.frames = f :: rest ∧
      ((∃ t' v, t = some t' ∧ value = some v ∧ f.returns ≠ .void ∧
          coercible t'.ty f.returns = true ∧ Gives (coerce t' f.returns) c v d) ∨
        (t = none ∧ value = none ∧ f.returns = .void ∧ d = c)) ∧
      Gives (emit (·.terminate (.ret value))) d () d' ∧
      Gives (createBlock "after.return") d' id d'' ∧ Gives (switchTo id) d'' u c' := by
  unfold returnFrom
  simp only [gives_bind, gives_frame, gives_get]
  constructor
  · rintro ⟨f, _, ⟨⟨rest, hc⟩, rfl⟩, _, _, ⟨rfl, rfl⟩, h⟩
    cases t with
    | none =>
      dsimp only at h
      split at h
      · simp only [gives_bind] at h
        obtain ⟨_, d', he, id, d'', hb, hs⟩ := h
        exact ⟨f, rest, none, _, d', id, d'', hc, .inr ⟨rfl, rfl, by assumption, rfl⟩, he, hb, hs⟩
      · simp at h
    | some t =>
      dsimp only at h
      split at h
      · rename_i hret
        simp only [gives_bind] at h
        obtain ⟨v, d, hv, _, d', he, id, d'', hb, hs⟩ := h
        exact ⟨f, rest, some v, d, d', id, d'', hc,
          .inl ⟨t, v, rfl, rfl, hret.1, hret.2, hv⟩, he, hb, hs⟩
      · simp at h
  · rintro ⟨f, rest, value, d, d', id, d'', hc, h, he, hb, hs⟩
    refine ⟨f, c, ⟨⟨rest, hc⟩, rfl⟩, c, c, ⟨rfl, rfl⟩, ?_⟩
    rcases h with ⟨t, v, rfl, rfl, hret, hco, hv⟩ | ⟨rfl, rfl, hret, rfl⟩
    · simp only [ne_eq, hret, not_false_eq_true, hco, and_self, if_true, gives_bind]
      exact ⟨v, d, hv, (), d', he, id, d'', hb, hs⟩
    · simp only [hret, if_true, gives_bind]
      exact ⟨(), d', he, id, d'', hb, hs⟩

theorem gives_fallThrough {target : Nat} {u : Unit} :
    Gives (fallThrough target) c u c' ↔ ∃ f rest, c.frames = f :: rest ∧
      ((f.builder.isTerminated = true ∧ c' = c) ∨
       (f.builder.isTerminated = false ∧ Gives (emit (·.terminate (.jump target))) c u c')) := by
  unfold fallThrough
  simp only [gives_bind, gives_frame]
  constructor
  · rintro ⟨f, _, ⟨⟨rest, hc⟩, rfl⟩, h⟩
    refine ⟨f, rest, hc, ?_⟩
    split at h
    · exact .inl ⟨by assumption, (gives_pure.mp h).2⟩
    · exact .inr ⟨by simpa using ‹¬ f.builder.isTerminated = true›, h⟩
  · rintro ⟨f, rest, hc, h⟩
    refine ⟨f, c, ⟨⟨rest, hc⟩, rfl⟩, ?_⟩
    rcases h with ⟨ht, rfl⟩ | ⟨ht, h⟩
    · simp [ht]
    · simp only [ht, Bool.false_eq_true, if_false]
      exact h

/-- The two parts of a conditional in the order in which they are laid out. The blocks are made before
either part. -/
theorem gives_conditional {condition : Ir.Operand} {thenPart elsePart : Lower Cause Unit} {u : Unit}
    (h : Gives (conditional condition thenPart elsePart) c u c') :
    ∃ thenId elseId mergeId c₁ c₂ c₃ c₄ c₅ c₆ c₇ c₈ c₉ c₁₀,
      Gives (createBlock "then") c thenId c₁ ∧ Gives (createBlock "else") c₁ elseId c₂ ∧
      Gives (createBlock "ifcont") c₂ mergeId c₃ ∧
      Gives (emit (·.terminate (.branch condition thenId elseId))) c₃ () c₄ ∧
      Gives (switchTo thenId) c₄ () c₅ ∧ Gives thenPart c₅ () c₆ ∧
      Gives (fallThrough mergeId) c₆ () c₇ ∧ Gives (switchTo elseId) c₇ () c₈ ∧
      Gives elsePart c₈ () c₉ ∧ Gives (fallThrough mergeId) c₉ () c₁₀ ∧
      Gives (switchTo mergeId) c₁₀ () c' := by
  unfold conditional at h
  simp only [gives_bind] at h
  obtain ⟨t, c₁, h₁, e, c₂, h₂, m, c₃, h₃, _, c₄, h₄, _, c₅, h₅, _, c₆, h₆, _, c₇, h₇, _, c₈, h₈,
    _, c₉, h₉, _, c₁₀, h₁₀, h₁₁⟩ := h
  exact ⟨t, e, m, c₁, c₂, c₃, c₄, c₅, c₆, c₇, c₈, c₉, c₁₀, h₁, h₂, h₃, h₄, h₅, h₆, h₇, h₈, h₉, h₁₀,
    h₁₁⟩

/-- The parts of a loop in the order in which they are laid out. -/
theorem gives_repeated {condition : Lower Cause Ir.Operand} {body : Lower Cause Unit} {u : Unit}
    (h : Gives (repeated condition body) c u c') :
    ∃ condId bodyId exitId test c₁ c₂ c₃ c₄ c₅ c₆ c₇ c₈ c₉ c₁₀,
      Gives (createBlock "loop.cond") c condId c₁ ∧ Gives (createBlock "loop.body") c₁ bodyId c₂ ∧
      Gives (createBlock "loop.exit") c₂ exitId c₃ ∧
      Gives (emit (·.terminate (.jump condId))) c₃ () c₄ ∧ Gives (switchTo condId) c₄ () c₅ ∧
      Gives condition c₅ test c₆ ∧
      Gives (emit (·.terminate (.branch test bodyId exitId))) c₆ () c₇ ∧
      Gives (switchTo bodyId) c₇ () c₈ ∧ Gives body c₈ () c₉ ∧
      Gives (fallThrough condId) c₉ () c₁₀ ∧ Gives (switchTo exitId) c₁₀ () c' := by
  unfold repeated at h
  simp only [gives_bind] at h
  obtain ⟨n, c₁, h₁, b, c₂, h₂, e, c₃, h₃, _, c₄, h₄, _, c₅, h₅, t, c₆, h₆, _, c₇, h₇, _, c₈, h₈,
    _, c₉, h₉, _, c₁₀, h₁₀, h₁₁⟩ := h
  exact ⟨n, b, e, t, c₁, c₂, c₃, c₄, c₅, c₆, c₇, c₈, c₉, c₁₀, h₁, h₂, h₃, h₄, h₅, h₆, h₇, h₈, h₉,
    h₁₀, h₁₁⟩

theorem gives_onFailure {ε α : Type} {m : Lower ε α} {after : StateM Context Unit} {a : α} :
    Gives (m.onFailure after) c a c' ↔ Gives m c a c' := by
  unfold Lower.onFailure
  refine gives_tryCatch fun e d h => ?_
  simp at h

theorem gives_storeParams_cons {index : Nat} {p : Tree.Param} {ps : List Tree.Param} {u : Unit} :
    Gives (storeParams index (p :: ps)) c u c' ↔ p.ty ≠ .void ∧ ∃ slot d d' f rest,
      Gives (build (·.alloca p.name p.ty.toIr)) c slot d ∧
      Gives (emit (·.append (.store slot (.param index) p.ty.toIr))) d () d' ∧
      d'.frames = f :: rest ∧
      Gives (storeParams (index + 1) ps)
        { d' with
          scopes := d'.scopes.declare p.name p.ty
          frames := { f with params := (p.name, ⟨slot, p.ty⟩) :: f.params } :: rest } u c' := by
  rw [storeParams]
  by_cases hp : p.ty = .void
  · simp [hp]
  · simp only [hp, if_false, ne_eq, not_false_eq_true, true_and, gives_bind, gives_frame,
      gives_setFrame, gives_modify]
    constructor
    · rintro ⟨slot, d, ha, _, d', hs, f, _, ⟨⟨rest, hd⟩, rfl⟩, _, _, rfl, _, _, rfl, h⟩
      refine ⟨slot, d, _, f, rest, ha, hs, hd, ?_⟩
      simpa [Context.declare, hd] using h
    · rintro ⟨slot, d, d', f, rest, ha, hs, hd, h⟩
      refine ⟨slot, d, ha, (), d', hs, f, d', ⟨⟨rest, hd⟩, rfl⟩, (), _, rfl, (), _, rfl, ?_⟩
      simpa [Context.declare, hd] using h

theorem gives_enterFunction {name : String} {params : List Tree.Param} {returns : Ty} {u : Unit} :
    Gives (enterFunction name params returns) c u c' ↔
      Gives (storeParams 0 params) (c.enter (.start name params returns)) u c' := by
  unfold enterFunction
  simp [gives_onFailure]

theorem gives_finishFunction {f : Frame} :
    Gives finishFunction c f c' ↔ (∃ rest, c.frames = f :: rest) ∧ c' = c.leave := by
  unfold finishFunction
  simp only [gives_bind, gives_get]
  constructor
  · rintro ⟨_, _, ⟨rfl, rfl⟩, h⟩
    split at h
    · exact absurd h gives_throw
    · rename_i f' rest hf
      obtain ⟨_, _, hleave, hp⟩ := gives_bind.mp h
      obtain ⟨rfl, rfl⟩ := gives_pure.mp hp
      exact ⟨⟨rest, hf⟩, gives_modify.mp hleave⟩
  · rintro ⟨⟨rest, hf⟩, rfl⟩
    refine ⟨c, c, ⟨rfl, rfl⟩, ?_⟩
    simp [hf]

/-- A function is entered, lowered, closed, left and put into the module. -/
theorem gives_define_function {name node : String} {params : List Tree.Param} {returns : Ty}
    {body : Lower Diagnostic Ending} {u : Unit} :
    Gives (define name node params returns body) c u c' ↔ ∃ ending d d' d'' f rest m,
      Gives (enterFunction name params returns) c () d ∧ Gives body d ending d' ∧
      Gives (close ending) d' () d'' ∧ d''.frames = f :: rest ∧
      (f.builder.prune.build >>= d''.module.define) = .ok m ∧
      c' = { d'' with module := m, scopes := d''.scopes.leave, frames := rest } := by
  unfold define install pinned
  simp only [gives_bind, gives_finishFunction, gives_adapt, gives_get, gives_onFailure]
  constructor
  · rintro ⟨_, d, he, _, d'', ⟨ending, d', hb, hcl⟩, f, _, ⟨⟨rest, hf⟩, rfl⟩, _, _, ⟨rfl, rfl⟩, h⟩
    split at h
    · rename_i m hm
      refine ⟨ending, d, d', _, _, rest, m, he, hb, hcl, hf, hm, ?_⟩
      rw [gives_set.mp h]
      simp [Context.leave, hf]
    · exact absurd h gives_throw
  · rintro ⟨ending, d, d', d'', f, rest, m, he, hb, hcl, hf, hm, rfl⟩
    refine ⟨(), d, he, (), d'', ⟨ending, d', hb, hcl⟩, f, d''.leave, ⟨⟨rest, hf⟩, rfl⟩, d''.leave,
      d''.leave, ⟨rfl, rfl⟩, ?_⟩
    simp [Context.leave, hf, hm]

/-- The value that a function returns at its end, if control gets there. -/
theorem gives_close {ending : Ending} {u : Unit} (h : Gives (close ending) c u c') :
    ∃ f rest, c.frames = f :: rest ∧
      (((f.builder.current = none ∨ f.builder.isTerminated = true ∨
            ∃ id, f.builder.current = some id ∧ f.builder.isReachable id = false) ∧ c' = c) ∨
       ∃ id value d, f.builder.current = some id ∧ f.builder.isTerminated = false ∧
        f.builder.isReachable id = true ∧
        ((f.returns = .void ∧ value = none ∧ d = c) ∨
         (f.returns ≠ .void ∧ ∃ v, value = some v ∧
          ((∃ t, ending = .value (some t) ∧ Gives (coerce t f.returns) c v d) ∨
           ∃ k, ending = .zero ∧ Ir.Constant.zero? f.returns.toIr = some k ∧ v = .constant k ∧
            d = c))) ∧
        Gives (emit (·.terminate (.ret value))) d u c') := by
  unfold close at h
  simp only [gives_bind, gives_frame] at h
  obtain ⟨f, _, ⟨⟨rest, hc⟩, rfl⟩, h⟩ := h
  refine ⟨f, rest, hc, ?_⟩
  split at h
  · exact .inl ⟨.inl (by assumption), (gives_pure.mp h).2⟩
  · rename_i id hid
    split at h
    · rename_i hend
      refine .inl ⟨.inr ?_, (gives_pure.mp h).2⟩
      simp only [Bool.or_eq_true, Bool.not_eq_true'] at hend
      exact hend.imp_right fun hr => ⟨id, hid, hr⟩
    · rename_i hend
      simp only [Bool.or_eq_true, Bool.not_eq_true', not_or, Bool.not_eq_true,
        Bool.not_eq_false] at hend
      split at h
      · rename_i hret
        exact .inr ⟨id, none, _, hid, hend.1, hend.2, .inl ⟨hret, rfl, rfl⟩, h⟩
      · rename_i hret
        cases ending with
        | value t =>
          cases t with
          | none => simp at h
          | some t =>
            obtain ⟨v, d, hv, he⟩ := gives_bind.mp h
            exact .inr ⟨id, some v, d, hid, hend.1, hend.2,
              .inr ⟨hret, v, rfl, .inl ⟨t, rfl, hv⟩⟩, he⟩
        | zero =>
          dsimp only at h
          split at h
          · rename_i k hk
            simp only [gives_bind, gives_pure] at h
            obtain ⟨_, _, ⟨rfl, rfl⟩, he⟩ := h
            exact .inr ⟨id, some (.constant k), _, hid, hend.1, hend.2,
              .inr ⟨hret, _, rfl, .inr ⟨k, rfl, hk, rfl, rfl⟩⟩, he⟩
          · simp at h

end TreeLang.Lowering
