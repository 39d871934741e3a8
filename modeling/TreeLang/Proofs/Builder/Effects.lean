import TreeLang.Proofs.Builder.Regular

namespace TreeLang.Ir

/-- The outcome of work that changes the builder only where it succeeds. -/
def Builder.settle {α : Type} (b : Builder) : Except Error (α × Builder) → Except Error α × Builder
  | .ok (a, b') => (.ok a, b')
  | .error e => (.error e, b)

namespace Builder

variable {b : Builder} {block : Nat} {k : Block} {callee : String} {args : List Operand} {returns : Ty}

/-- With a block at hand, a cast to the same type is no instruction at all. -/
theorem cast_at (hc : b.current = some block) (value : Operand) (source target : Ty) :
    b.cast value source target =
      if source = target then .ok (value, b)
      else if isConversion source target then b.define (.cast · value source target)
      else .error (.type (.noConversion source target)) := by
  simp only [cast, cursor, hc]
  rfl

/-- With a block at hand, only a second terminator is refused. -/
theorem terminate_at (hc : b.current = some block) (hk : b.function.block? block = some k)
    (t : Terminator) :
    b.terminate t =
      if k.isTerminated then .error (.builder (.alreadyTerminated block))
      else .ok { b with function := b.function.updateBlock block (.finish t) } := by
  simp only [terminate, cursor, hc, bind, Except.bind, hk]
  rfl

theorem call_of_void (hv : returns = .void) :
    b.call callee args returns = (none, ·) <$> b.append (.call none callee args returns) := by
  rw [call, if_pos hv]
  cases b.append (.call none callee args returns) <;> rfl

theorem call_of_ne_void (hv : returns ≠ .void) : b.call callee args returns =
    Prod.map some id <$> b.define fun result => .call (some result) callee args returns := by
  rw [call, if_neg hv]
  cases b.define fun result => .call (some result) callee args returns <;> rfl

end Builder

namespace Edit

variable {α β : Type} {b b' : Builder} {e : Edit α} {i : Instruction} {block : Nat}
  {k : Block} {a : α}

/-- What is answered may be changed behind the work. -/
theorem outcome_value {x : Except Error (α × Builder)} (g : α → β)
    (h : e.outcome b = b.settle x) : (g <$> e).outcome b = b.settle (Prod.map g id <$> x) := by
  have hmap : (g <$> e).outcome b = ((e.outcome b).1.map g, (e.outcome b).2) := by
    simp only [outcome, ExceptT.run_map, StateT.run_map]
    rfl
  rw [hmap, h]
  cases x with
  | error e => rfl
  | ok p => rfl

theorem outcome_done {e : Edit Unit} {x : Except Error Builder} {a : α}
    (h : e.outcome b = b.settle (((), ·) <$> x)) :
    (e *> pure a).outcome b = b.settle ((a, ·) <$> x) := by
  have hmap : e *> pure a = (fun _ => a) <$> e := by
    rw [seqRight_eq_bind]
    exact bind_pure_comp _ _
  rw [hmap, outcome_value _ h, ← comp_map]
  rfl

theorem outcome_bind (h : e.outcome b = (.ok a, b')) (g : α → Edit β) :
    (e >>= g).outcome b = (g a).outcome b' := by
  unfold outcome at h ⊢
  rw [ExceptT.run_bind, StateT.run_bind, h]
  rfl

theorem outcome_get (g : Builder → Edit α) : (do g (← get)).outcome b = (g b).outcome b := rfl

/-- An instruction for a block that is there is appended to it. -/
theorem outcome_insert (hk : b.function.block? block = some k) (i : Instruction) :
    (insert block i).outcome b =
      (.ok (), { b with function := b.function.updateBlock block (.add i) }) := by
  rw [insert, outcome_get, hk]
  rfl

/-- Carried out change by change, an operation does what it does to the builder as a whole. -/
theorem outcome_append (h : b.Regular) (i : Instruction) :
    (append i).outcome b = b.settle (((), ·) <$> b.append i) := by
  obtain ⟨f, current⟩ := b
  cases current with
  | none => rfl
  | some id =>
    obtain ⟨k, hk⟩ := h.current id rfl
    exact outcome_insert hk i

theorem outcome_define (h : b.Regular) (i : Operand → Instruction) :
    (define i).outcome b = b.settle (b.define i) := by
  obtain ⟨f, current⟩ := b
  cases current with
  | none => rfl
  | some id =>
    obtain ⟨k, hk⟩ := h.current id rfl
    exact outcome_bind (outcome_insert (b := ⟨{ f with nextTemp := f.nextTemp + 1 }, some id⟩) hk
      (i (.temp f.nextTemp))) _

theorem outcome_cast (h : b.Regular) (value : Operand) (source target : Ty) :
    (cast value source target).outcome b = b.settle (b.cast value source target) := by
  have hdef := outcome_define h (.cast · value source target)
  obtain ⟨f, current⟩ := b
  cases current with
  | none => rfl
  | some id =>
    rw [Builder.cast_at rfl]
    change outcome (if source = target then _ else _) _ = _
    split
    · rfl
    · split
      · exact hdef
      · rfl

theorem outcome_call (h : b.Regular) (callee : String) (args : List Operand) (returns : Ty) :
    (call callee args returns).outcome b = b.settle (b.call callee args returns) := by
  by_cases hv : returns = .void
  · rw [Builder.call_of_void hv]
    subst hv
    obtain ⟨f, current⟩ := b
    cases current with
    | none => rfl
    | some id =>
      obtain ⟨k, hk⟩ := h.current id rfl
      exact outcome_bind (outcome_insert hk _) _
  · rw [Builder.call_of_ne_void hv]
    obtain ⟨f, current⟩ := b
    cases current with
    | none => rfl
    | some id =>
      obtain ⟨k, hk⟩ := h.current id rfl
      simp only [call, if_neg hv]
      exact outcome_bind (outcome_insert (b := ⟨{ f with nextTemp := f.nextTemp + 1 }, some id⟩) hk
        (.call (some (.temp f.nextTemp)) callee args returns)) _

theorem outcome_terminate (h : b.Regular) (t : Terminator) :
    (terminate t).outcome b = b.settle (((), ·) <$> b.terminate t) := by
  obtain ⟨f, current⟩ := b
  cases current with
  | none => rfl
  | some id =>
    obtain ⟨k, hk⟩ := h.current id rfl
    rw [Builder.terminate_at rfl hk]
    have hcursor : cursor.outcome ⟨f, some id⟩ = (.ok id, ⟨f, some id⟩) := rfl
    rw [terminate, outcome_bind hcursor, outcome_get, hk]
    change outcome (if k.isTerminated then _ else _) _ = _
    split
    · rfl
    · rfl

/-- The slot is reserved before its alloca is put at the top of the entry block; both are done, or
neither. -/
theorem outcome_alloca (h : b.Regular) (name : String) (ty : Ty) :
    (alloca name ty).outcome b = b.settle (b.alloca name ty) := by
  obtain ⟨k, hk⟩ := h.entry
  by_cases hty : ty = .void
  · subst hty
    rfl
  · rw [Builder.alloca, if_neg hty]
    let b₁ : Builder := { b with function.slots := b.function.slots ++ [⟨name, ty⟩] }
    have hslot : (addSlot name ty).outcome b = (.ok b.function.slots.length, b₁) := rfl
    have hk₁ : b₁.function.block? b₁.function.entry = some k := hk
    simp only [alloca, if_neg hty]
    rw [outcome_bind hslot, outcome_get, hk₁]
    rfl

theorem outcome_createBlock (h : b.Regular) (label : String) :
    (createBlock label).outcome b = b.settle (.ok (b.createBlock label)) := by
  have hput : Function.putBlock { b.function with nextBlock := b.function.nextBlock + 1 }
      (.empty b.function.nextBlock label) = b.function.extend label := by
    unfold Function.putBlock
    rw [if_neg]
    · rfl
    · intro hany
      obtain ⟨k, hk, hid⟩ := List.any_eq_true.mp hany
      exact Nat.ne_of_lt (h.below k hk) (beq_iff_eq.mp hid)
  change (Except.ok b.function.nextBlock, Builder.mk (Function.putBlock _ _) b.current) = _
  rw [hput]
  rfl

theorem outcome_switchTo (id : Nat) :
    (switchTo id).outcome b = b.settle (((), ·) <$> b.switchTo id) := by
  unfold Builder.switchTo
  change outcome (if b.function.blocks.any (·.id == id) then _ else _) b = _
  split
  · rfl
  · rfl

end Edit

namespace Operation

def apply (b : Builder) : Operation → Except Error (Answer × Builder)
  | createBlock label => .ok (Prod.map .block id (b.createBlock label))
  | switchTo id => (.done, ·) <$> b.switchTo id
  | alloca name ty => Prod.map .slot id <$> b.alloca name ty
  | load slot ty => Prod.map (.value ∘ some) id <$> b.load slot ty
  | store slot value ty => (.done, ·) <$> b.store slot value ty
  | binary op left right ty => Prod.map (.value ∘ some) id <$> b.binary op left right ty
  | neg operand ty => Prod.map (.value ∘ some) id <$> b.neg operand ty
  | cast value source target => Prod.map (.value ∘ some) id <$> b.cast value source target
  | call callee args returns => Prod.map .value id <$> b.call callee args returns
  | jump target => (.done, ·) <$> b.jump target
  | branch condition thenBlock elseBlock => (.done, ·) <$> b.branch condition thenBlock elseBlock
  | ret value => (.done, ·) <$> b.returnValue value
  | prune => .ok (.removed (b.function.blocks.length - b.prune.function.blocks.length), b.prune)

variable {b : Builder}

/-- Nothing that an operation did before it failed is left. -/
theorem step_eq_apply (h : b.Regular) (op : Operation) : op.step b = b.settle (op.apply b) := by
  cases op with
  | createBlock label => exact Edit.outcome_value _ (Edit.outcome_createBlock h label)
  | switchTo id => exact Edit.outcome_done (Edit.outcome_switchTo id)
  | alloca name ty => exact Edit.outcome_value _ (Edit.outcome_alloca h name ty)
  | load slot ty => exact Edit.outcome_value _ (Edit.outcome_define h _)
  | store slot v ty => exact Edit.outcome_done (Edit.outcome_append h _)
  | binary op left right ty => exact Edit.outcome_value _ (Edit.outcome_define h _)
  | neg operand ty => exact Edit.outcome_value _ (Edit.outcome_define h _)
  | cast v source target => exact Edit.outcome_value _ (Edit.outcome_cast h v source target)
  | call callee args returns => exact Edit.outcome_value _ (Edit.outcome_call h callee args returns)
  | jump target => exact Edit.outcome_done (Edit.outcome_terminate h _)
  | branch condition thenBlock elseBlock => exact Edit.outcome_done (Edit.outcome_terminate h _)
  | ret v => exact Edit.outcome_done (Edit.outcome_terminate h _)
  | prune => rfl

def instruction? (f : Function) : Operation → Option Instruction
  | load slot ty => some (.load (.temp f.nextTemp) slot ty)
  | store slot value ty => some (.store slot value ty)
  | binary op left right ty => some (.binary op (.temp f.nextTemp) left right ty)
  | neg operand ty => some (.neg (.temp f.nextTemp) operand ty)
  | cast value source target =>
    if Builder.isConversion source target then
      some (.cast (.temp f.nextTemp) value source target)
    else none
  | call callee args returns =>
    some (.call (if returns = .void then none else some (.temp f.nextTemp)) callee args returns)
  | _ => none

def terminator? : Operation → Option Terminator
  | jump target => some (.jump target)
  | branch condition thenBlock elseBlock => some (.branch condition thenBlock elseBlock)
  | ret value => some (.ret value)
  | _ => none

def isLocal : Operation → Bool
  | createBlock _ | switchTo _ | alloca .. | prune => false
  | _ => true

end Operation

namespace Builder

/-- What an operation that succeeds answers and does. -/
inductive Effect (b : Builder) : Operation → Answer → Builder → Prop
  | createBlock (label : String) : Effect b (.createBlock label) (.block b.function.nextBlock)
      { b with function := b.function.extend label }
  | switchTo {id : Nat} {k : Block} (hk : b.function.block? id = some k) :
      Effect b (.switchTo id) .done { b with current := some id }
  | alloca (name : String) {ty : Ty} (hty : ty ≠ .void) :
      Effect b (.alloca name ty) (.slot b.function.slots.length)
        { b with function := b.function.reserve name ty }
  | keep {id : Nat} (hc : b.current = some id) (value : Operand) (ty : Ty) :
      Effect b (.cast value ty ty) (.value (some value)) b
  | add {op : Operation} {i : Instruction} {a : Answer} {id : Nat} {k : Block}
      (hi : op.instruction? b.function = some i) (hr : i.result? = none)
      (ha : a = .done ∨ a = .value none) (hc : b.current = some id)
      (hk : b.function.block? id = some k) :
      Effect b op a { b with function := b.function.updateBlock id (.add i) }
  | assign {op : Operation} {i : Instruction} {id : Nat} {k : Block}
      (hi : op.instruction? b.function = some i)
      (hr : i.result? = some (.temp b.function.nextTemp)) (hc : b.current = some id)
      (hk : b.function.block? id = some k) :
      Effect b op (.value (some (.temp b.function.nextTemp)))
        { b with function := b.function.assign id i }
  | finish {op : Operation} {t : Terminator} {id : Nat} {k : Block} (ht : op.terminator? = some t)
      (hc : b.current = some id) (hk : b.function.block? id = some k) (hu : k.terminator = .unset) :
      Effect b op .done { b with function := b.function.updateBlock id (.finish t) }
  | prune : Effect b .prune
      (.removed (b.function.blocks.length - b.prune.function.blocks.length)) b.prune

inductive Refuses (b : Builder) : Operation → Error → Prop
  | missing {id : Nat} (hk : b.function.block? id = none) :
      Refuses b (.switchTo id) (.builder (.missingBlock id b.function.name))
  | void (name : String) : Refuses b (.alloca name .void) (.type (.voidSlot name))
  | nowhere {op : Operation} (ho : op.isLocal = true) (hc : b.current = none) :
      Refuses b op (.builder .noCurrentBlock)
  | conversion {id : Nat} {source target : Ty} (hc : b.current = some id) (value : Operand)
      (hne : source ≠ target) (hcv : isConversion source target = false) :
      Refuses b (.cast value source target) (.type (.noConversion source target))
  | terminated {op : Operation} {t : Terminator} {id : Nat} {k : Block}
      (ht : op.terminator? = some t) (hc : b.current = some id)
      (hk : b.function.block? id = some k) (hset : k.terminator ≠ .unset) :
      Refuses b op (.builder (.alreadyTerminated id))

/-- An operation ends as it should: an answer comes with its effect, an error with its reason. -/
def Decides (b : Builder) (op : Operation) : Except Error (Answer × Builder) → Prop
  | .ok (a, b') => b.Effect op a b'
  | .error e => b.Refuses op e

end Builder

namespace Operation

variable {b : Builder} {op : Operation} {i : Instruction}

/-- An operation without a result emits one instruction, or finds no block that is open. -/
theorem decides_append (h : b.Regular) {a : Answer} (hl : op.isLocal = true)
    (hi : op.instruction? b.function = some i) (hr : i.result? = none)
    (ha : a = .done ∨ a = .value none) : b.Decides op ((a, ·) <$> b.append i) := by
  obtain ⟨f, current⟩ := b
  cases current with
  | none => exact .nowhere hl rfl
  | some id =>
    obtain ⟨k, hk⟩ := h.current id rfl
    exact .add hi hr ha rfl hk

/-- An operation with a result names it by the next temporary. -/
theorem decides_define (h : b.Regular) {i : Operand → Instruction} (hl : op.isLocal = true)
    (hi : op.instruction? b.function = some (i (.temp b.function.nextTemp)))
    (hr : ∀ v, (i v).result? = some v) :
    b.Decides op (Prod.map (.value ∘ some) id <$> b.define i) := by
  obtain ⟨f, current⟩ := b
  cases current with
  | none => exact .nowhere hl rfl
  | some id =>
    obtain ⟨k, hk⟩ := h.current id rfl
    exact .assign hi (hr _) rfl hk

theorem decides_terminate (h : b.Regular) {t : Terminator} (hl : op.isLocal = true)
    (ht : op.terminator? = some t) : b.Decides op ((.done, ·) <$> b.terminate t) := by
  obtain ⟨f, current⟩ := b
  cases current with
  | none => exact .nowhere hl rfl
  | some id =>
    obtain ⟨k, hk⟩ := h.current id rfl
    rw [Builder.terminate_at rfl hk]
    split
    · exact .terminated ht rfl hk (by simpa [Block.isTerminated] using ‹k.isTerminated = true›)
    · exact .finish ht rfl hk (by simpa [Block.isTerminated] using ‹¬ k.isTerminated = true›)

theorem decides_cast (h : b.Regular) (value : Operand) (source target : Ty) :
    b.Decides (.cast value source target) ((cast value source target).apply b) := by
  cases hc : b.current with
  | none =>
    have hcast : b.cast value source target = .error (.builder .noCurrentBlock) := by
      simp only [Builder.cast, Builder.cursor, hc]
      rfl
    rw [apply, hcast]
    exact .nowhere rfl hc
  | some id =>
    rw [apply, Builder.cast_at hc]
    split
    · rename_i heq
      subst heq
      exact .keep hc value source
    · rename_i hne
      split
      · rename_i hcv
        exact decides_define h rfl (by simp [instruction?, hcv]) fun _ => rfl
      · rename_i hcv
        exact .conversion hc value hne (by simpa using hcv)

theorem decides_call (h : b.Regular) (callee : String) (args : List Operand) (returns : Ty) :
    b.Decides (.call callee args returns) ((call callee args returns).apply b) := by
  by_cases hv : returns = .void
  · rw [apply, Builder.call_of_void hv, ← comp_map]
    exact decides_append h rfl (by simp [instruction?, hv]) rfl (.inr rfl)
  · rw [apply, Builder.call_of_ne_void hv, ← comp_map]
    exact decides_define h rfl (by simp [instruction?, hv]) fun _ => rfl

/-- Each operation ends with its effect or for one of the reasons. -/
theorem decides_apply (h : b.Regular) (op : Operation) : b.Decides op (op.apply b) := by
  cases op with
  | createBlock label => exact .createBlock label
  | switchTo id =>
    have hany : b.function.blocks.any (·.id == id) = (b.function.block? id).isSome :=
      List.isSome_find?.symm
    rw [apply, Builder.switchTo, hany]
    cases hk : b.function.block? id with
    | none => exact .missing hk
    | some k => exact .switchTo hk
  | alloca name ty =>
    rw [apply, Builder.alloca]
    split
    · rename_i hty
      subst hty
      exact .void name
    · rename_i hty
      exact .alloca name hty
  | load slot ty => exact decides_define h rfl rfl fun _ => rfl
  | store slot v ty => exact decides_append h rfl rfl rfl (.inl rfl)
  | binary op left right ty => exact decides_define h rfl rfl fun _ => rfl
  | neg operand ty => exact decides_define h rfl rfl fun _ => rfl
  | cast v source target => exact decides_cast h v source target
  | call callee args returns => exact decides_call h callee args returns
  | jump target => exact decides_terminate h rfl rfl
  | branch condition thenBlock elseBlock => exact decides_terminate h rfl rfl
  | ret v => exact decides_terminate h rfl rfl
  | prune => exact .prune

/-- An operation that fails leaves the builder as it was. -/
theorem step_error (h : b.Regular) {e : Error} {b' : Builder} (hstep : op.step b = (.error e, b')) :
    b' = b ∧ b.Refuses op e := by
  have hd := decides_apply h op
  rw [step_eq_apply h] at hstep
  cases ha : op.apply b with
  | ok p =>
    rw [ha] at hstep
    cases hstep
  | error e' =>
    rw [ha] at hstep hd
    cases hstep
    exact ⟨rfl, hd⟩

/-- An operation that is answered has had its effect. -/
theorem step_ok (h : b.Regular) {a : Answer} {b' : Builder} (hstep : op.step b = (.ok a, b')) :
    b.Effect op a b' := by
  have hd := decides_apply h op
  rw [step_eq_apply h] at hstep
  cases ha : op.apply b with
  | ok p =>
    rw [ha] at hstep hd
    cases hstep
    exact hd
  | error e' =>
    rw [ha] at hstep
    cases hstep

end Operation

end TreeLang.Ir
