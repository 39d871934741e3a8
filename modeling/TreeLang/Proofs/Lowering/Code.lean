import TreeLang.Proofs.Lowering.Programs

namespace TreeLang.Lowering

open TreeLang.Tree (Ty Expr Stmt FunctionDecl nestedOfExprs nestedFunctions)
open Typing (Registry Callee coercible)
open Ir (Knowledge)
open Lower

/-- At most the code of the function at hand has changed; its slots are what they were. -/
def Rebuilt (c c' : Context) : Prop :=
  c' = c ∨ ∃ b, b.function.slots = c.top.builder.function.slots ∧ c' = c.withBuilder b

theorem Rebuilt.refl (c : Context) : Rebuilt c c := .inl rfl

theorem Rebuilt.slots {c c' : Context} (h : Rebuilt c c') :
    c'.top.builder.function.slots = c.top.builder.function.slots := by
  rcases h with rfl | ⟨b, hb, rfl⟩
  · rfl
  · cases hf : c.frames with
    | nil => simp [Context.top, Context.withBuilder, hf]
    | cons f rest =>
      rw [Context.top_withBuilder (by simp [hf])]
      exact hb

theorem withBuilder_withBuilder (c : Context) (b b' : Ir.Builder) :
    (c.withBuilder b).withBuilder b' = c.withBuilder b' := by
  cases hf : c.frames <;> simp [Context.withBuilder, hf]

/-- Work on the code alone can go on with more of it. -/
theorem Rebuilt.trans {c c' c'' : Context} (h : Rebuilt c c') (h' : Rebuilt c' c'') :
    Rebuilt c c'' := by
  have hslots := h.slots
  rcases h with rfl | ⟨b, hb, rfl⟩
  · exact h'
  · rcases h' with rfl | ⟨b', hb', rfl⟩
    · exact .inr ⟨b, hb, rfl⟩
    · exact .inr ⟨b', hb'.trans hslots, withBuilder_withBuilder c b b'⟩

theorem Rebuilt.frames {c c' : Context} (h : Rebuilt c c') (hc : c.frames ≠ []) :
    c'.frames ≠ [] := by
  rcases h with rfl | ⟨b, _, rfl⟩
  · exact hc
  · exact Context.frames_withBuilder_ne hc b

theorem Rebuilt.module {c c' : Context} (h : Rebuilt c c') : c'.module = c.module := by
  rcases h with rfl | ⟨b, _, rfl⟩ <;> rfl

/-- Work that changes nothing but the code of the function at hand, if it succeeds. -/
def Tame {ε α : Type} (m : Lower ε α) : Prop := ∀ c a c', Gives m c a c' → Rebuilt c c'

section

variable {ε α β : Type}

theorem tame_pure (a : α) : Tame (pure a : Lower ε α) := by
  intro c b c' h
  rw [(gives_pure.mp h).2]
  exact .refl c

theorem tame_throw (e : ε) : Tame (throw e : Lower ε α) := fun _ _ _ h => absurd h gives_throw

theorem tame_liftExcept (x : Except ε α) : Tame (liftExcept x : Lower ε α) := by
  intro c a c' h
  rw [(gives_liftExcept.mp h).2]
  exact .refl c

/-- Two works on the code alone, one after the other, are such work again. -/
theorem tame_bind {m : Lower ε α} {f : α → Lower ε β} (hm : Tame m) (hf : ∀ a, Tame (f a)) :
    Tame (m >>= f) := by
  intro c b c' h
  obtain ⟨a, d, ha, hb⟩ := gives_bind.mp h
  exact (hm c a d ha).trans (hf a d b c' hb)

/-- An operation of the builder is such work, if it keeps the slots. -/
theorem tame_build {step : Ir.Builder → Except Ir.Error (α × Ir.Builder)}
    (hstep : ∀ b a b', step b = .ok (a, b') → b'.function.slots = b.function.slots) :
    Tame (build step) := by
  intro c a c' h
  obtain ⟨f, rest, b, hc, hs, rfl⟩ := gives_build.mp h
  refine .inr ⟨b, ?_, rfl⟩
  rw [Context.top_eq hc]
  exact hstep f.builder a b hs

theorem tame_emit {step : Ir.Builder → Except Ir.Error Ir.Builder}
    (hstep : ∀ b b', step b = .ok b' → b'.function.slots = b.function.slots) :
    Tame (emit step) := by
  intro c a c' h
  obtain ⟨f, rest, b, hc, hs, rfl⟩ := gives_emit.mp h
  refine .inr ⟨b, ?_, rfl⟩
  rw [Context.top_eq hc]
  exact hstep f.builder b hs

theorem tame_frame : Tame frame := by
  intro c a c' h
  rw [(gives_frame.mp h).2]
  exact .refl c

theorem tame_storage (name : String) : Tame (storage name) := by
  intro c a c' h
  rw [(gives_storage.mp h).2]
  exact .refl c

end

theorem tame_define (i : Ir.Operand → Ir.Instruction) : Tame (build (·.define i)) :=
  tame_build fun _ _ _ => Ir.Builder.slots_define

theorem tame_append (i : Ir.Instruction) : Tame (emit (·.append i)) :=
  tame_emit fun _ _ => Ir.Builder.slots_append

theorem tame_terminate (t : Ir.Terminator) : Tame (emit (·.terminate t)) :=
  tame_emit fun _ _ => Ir.Builder.slots_terminate

theorem tame_cast (value : Ir.Operand) (source target : Ir.Ty) :
    Tame (build (·.cast value source target)) :=
  tame_build fun _ _ _ => Ir.Builder.slots_cast

theorem tame_materialize (t : Typed) : Tame (materialize t) := by
  unfold materialize
  split
  · apply tame_cast
  · apply tame_pure

/-- A conversion adds instructions to the code and nothing else. -/
theorem tame_coerce (t : Typed) (target : Ty) : Tame (coerce t target) := by
  unfold coerce
  apply tame_bind (tame_materialize t)
  intro v
  split
  · apply tame_pure
  · split
    · apply tame_cast
    · apply tame_throw

theorem tame_negate (t : Typed) : Tame (negate t) := by
  unfold negate
  apply tame_bind (tame_liftExcept _)
  intro ty
  apply tame_bind (tame_materialize t)
  intro v
  apply tame_bind (tame_define _)
  exact fun _ => tame_pure _

theorem tame_combine (op : Tree.BinaryOp) (left right : Typed) : Tame (combine op left right) := by
  unfold combine
  apply tame_bind (tame_liftExcept _)
  intro ty
  apply tame_bind (tame_coerce left ty)
  intro l
  apply tame_bind (tame_coerce right ty)
  intro r
  apply tame_bind (tame_define _)
  exact fun _ => tame_pure _

theorem tame_readName (name : String) : Tame (readName name) := by
  unfold readName
  apply tame_bind (tame_storage name)
  intro s
  apply tame_bind (tame_define _)
  exact fun _ => tame_pure _

theorem tame_storeInto (name : String) (s : Storage) (t : Typed) : Tame (storeInto name s t) := by
  unfold storeInto
  split
  · exact tame_bind (tame_coerce t s.ty) fun _ => tame_append _
  · apply tame_throw

theorem tame_argument (callee : Callee) (index : Nat) (t : Typed) :
    Tame (argument callee index t) := by
  unfold argument
  split
  · split
    · apply tame_coerce
    · apply tame_throw
  · apply tame_materialize

/-- A call adds one instruction; the callee and its arguments are known before. -/
theorem tame_call (callee : Callee) (args : List Ir.Operand) : Tame (call callee args) := by
  unfold call
  exact tame_bind (tame_build fun _ _ _ => Ir.Builder.slots_call) fun _ => tame_pure _

theorem tame_test (role : String) (t : Typed) : Tame (test role t) := by
  unfold test
  split
  · apply tame_pure
  · split
    · apply tame_define
    · apply tame_define
    · apply tame_throw

theorem tame_createBlock (label : String) : Tame (createBlock label) :=
  tame_build fun _ _ _ => Ir.Builder.slots_createBlock

theorem tame_switchTo (id : Nat) : Tame (switchTo id) :=
  tame_emit fun _ _ => Ir.Builder.slots_switchTo

theorem tame_returnFrom (t : Option Typed) : Tame (returnFrom t) := by
  intro c u c' h
  obtain ⟨f, rest, value, d, d', id, d'', hc, hval, hret, hcreate, hswitch⟩ := gives_returnFrom.mp h
  have hd : Rebuilt c d := by
    rcases hval with ⟨t', v, _, _, _, _, hco⟩ | ⟨_, _, _, rfl⟩
    · exact tame_coerce _ _ c v d hco
    · exact .refl _
  exact ((hd.trans (tame_terminate _ d () d' hret)).trans
    (tame_createBlock _ d' id d'' hcreate)).trans (tame_switchTo id d'' u c' hswitch)

theorem tame_fallThrough (id : Nat) : Tame (fallThrough id) := by
  unfold fallThrough
  apply tame_bind tame_frame
  intro f
  split
  · apply tame_pure
  · apply tame_terminate

theorem tame_close (ending : Ending) : Tame (close ending) := by
  intro c u c' h
  obtain ⟨f, rest, _, ⟨_, rfl⟩ | ⟨id, value, d, _, _, _, hval, hret⟩⟩ := gives_close h
  · exact .refl _
  · have hd : Rebuilt c d := by
      rcases hval with ⟨_, _, rfl⟩ | ⟨_, v, _, ⟨t, _, hco⟩ | ⟨_, _, _, _, rfl⟩⟩
      · exact .refl _
      · exact tame_coerce t f.returns c v d hco
      · exact .refl _
    exact hd.trans (tame_terminate _ d u c' hret)

section

variable {r : Registry} {g : Knowledge} {c c' : Context} {P Q R : Context → Prop}
  {ds ds' : List FunctionDecl} {u : Unit}

def Robust (P : Context → Prop) : Prop := ∀ c c', c.frames ≠ [] → Rebuilt c c' → P c → P c'

/-- The lowering of a part of a tree takes the property `P` to `Q`. -/
def Moves (r : Registry) (ds : List FunctionDecl) (P Q : Context → Prop) (m : Lower Cause Unit) :
    Prop :=
  ∀ g c c', Sound r g c → Gives m c () c' →
    (∃ g', Lowered r ds g c g' c') ∧ (P c → Q c')

def MovesTest (r : Registry) (ds : List FunctionDecl) (P Q : Context → Prop)
    (condition : Lower Cause Ir.Operand) : Prop :=
  ∀ g c o c', Sound r g c → Gives condition c o c' →
    (∃ g', Lowered r ds g c g' c' ∧ Holds r g' c' o .bool) ∧ (P c → Q c')

/-- A part takes `P` to `Q`, whatever it leaves behind. -/
def Takes {ε α : Type} (r : Registry) (P Q : Context → Prop) (m : Lower ε α) : Prop :=
  ∀ ⦃g c a c'⦄, Sound r g c → Gives m c a c' → P c → Q c'

theorem moves_nothing (P : Context → Prop) : Moves r [] P P (lowerBranch r none) := by
  intro g c c' hs h
  refine ⟨sound_nothing hs h, fun hp => ?_⟩
  rwa [lowerBranch_none.mp h]

/-- A branch has a scope of its own, and leaves behind what its statements leave behind. -/
theorem moves_block {ss : List Stmt} (hreg : Registered r (nestedFunctions ss))
    (h : Takes r P Q (lowerStmts r none ss)) :
    Moves r (nestedFunctions ss) P Q (lowerBranch r (some ss)) := by
  intro g c c' hs hb
  obtain ⟨v, hv⟩ := lowerBranch_some.mp hb
  exact ⟨lowerBranch_sound hreg hs hb, h hs hv⟩

/-- A condition is evaluated and tested; the test is work on the code alone. -/
theorem moves_lowerTest (hQ : Robust Q) {cond : Expr} (hreg : Registered r cond.nestedFunctions)
    (h : Takes r P Q (lowerExpr r cond)) :
    MovesTest r cond.nestedFunctions P Q (lowerTest r cond) := by
  intro g c o c' hs ht
  obtain ⟨t, d, he, htest⟩ := gives_lowerTest.mp ht
  obtain ⟨g', hl, _⟩ := lowerExpr_sound r cond hreg hs he
  refine ⟨lowerTest_sound hreg hs ht, fun hp => ?_⟩
  exact hQ d c' hl.frames (tame_test _ t d o c' htest) (h hs he hp)

/-- A round of a loop is the body, in a scope of its own, and then the expressions behind it. -/
theorem moves_lowerRound {body : List Stmt} {post : List Expr}
    (hbodyReg : Registered r (nestedFunctions body)) (hpostReg : Registered r (nestedOfExprs post))
    (hbody : Takes r P Q (lowerStmts r none body)) (hpost : Takes r Q R (lowerEach r post)) :
    Moves r (nestedFunctions body ++ nestedOfExprs post) P R (lowerRound r body post) := by
  intro g c c' hs h
  obtain ⟨v, d, hb, hp⟩ := gives_lowerRound.mp h
  obtain ⟨g', hl, _⟩ := lowerStmts_sound r none body hbodyReg hs (by simp) hb
  have hs' := hl.sound hs
  obtain ⟨g'', hl'⟩ := lowerEach_sound r post hpostReg hs' hp
  exact ⟨⟨g'', hl.trans hl'⟩, fun h => hpost hs' hp (hbody hs hb h)⟩

end

end TreeLang.Lowering
