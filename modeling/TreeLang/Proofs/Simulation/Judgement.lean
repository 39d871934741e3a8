import TreeLang.Proofs.Meaning.Evaluation
import TreeLang.Proofs.Outcome
import TreeLang.Proofs.Simulation.Places
import TreeLang.Proofs.Simulation.Steps
import TreeLang.Proofs.Simulation.Values

namespace TreeLang

def Ir.Operand.Below (n : Nat) : Operand → Prop
  | .temp id => id < n
  | .param _ | .constant _ | .str _ => True

theorem Ir.Operand.Below.mono {n n' : Nat} {o : Operand} (h : o.Below n) (hle : n ≤ n') :
    o.Below n' := by
  cases o with
  | temp id => exact Nat.lt_of_lt_of_le h hle
  | param | constant | str => trivial

namespace Simulation

open Machine (Activation Caller State Steps Fault Console)
open Meaning (Value World Eval Stop Halt)

section

variable {m : Ir.Module} {F : Ir.Function} {cs : List Caller} {n n' : Nat} {s s' s'' : State}
  {o : Ir.Operand}

/-- What was computed before temporary `n` is still what it was. -/
def Kept (m : Ir.Module) (n : Nat) (s s' : State) : Prop :=
  ∀ o : Ir.Operand, o.Below n → s'.current.value m o = s.current.value m o

theorem Kept.refl (m : Ir.Module) (n : Nat) (s : State) : Kept m n s s := fun _ _ => rfl

/-- What was kept through two runs was kept through both. -/
theorem Kept.trans (h : Kept m n s s') (h' : Kept m n' s' s'') (hle : n ≤ n') :
    Kept m n s s'' :=
  fun o ho => (h' o (ho.mono hle)).trans (h o ho)

/-- The operand has been computed before temporary `n`, and holds a word of the kind. -/
def Carries (m : Ir.Module) (n : Nat) (s : State) (o : Ir.Operand) (R : Machine.Value → Prop) :
    Prop :=
  o.Below n ∧ ∃ x, s.current.value m o = .ok x ∧ R x

/-- An operand still holds its word where it was kept. -/
theorem Carries.kept {R : Machine.Value → Prop} (h : Carries m n s o R) (hk : Kept m n s s')
    (hle : n ≤ n') : Carries m n' s' o R := by
  obtain ⟨hb, x, hx, hR⟩ := h
  exact ⟨hb.mono hle, x, (hk o hb).trans hx, hR⟩

theorem Carries.mono {R R' : Machine.Value → Prop} (h : Carries m n s o R)
    (hR : ∀ x, R x → R' x) : Carries m n s o R' := by
  obtain ⟨hb, x, hx, hRx⟩ := h
  exact ⟨hb, x, hx, hR x hRx⟩

def Bears (m : Ir.Module) (n : Nat) (s : State) (o : Ir.Operand) (v : Value) : Prop :=
  Carries m n s o (Value.ofMachine · = some v)

/-- The operand holds the value as the lowering says. -/
def Denotes (m : Ir.Module) (n : Nat) (s : State) (t : Lowering.Typed) (v : Value) : Prop :=
  Carries m n s t.value (Represents t · v)

def Yields (m : Ir.Module) (n : Nat) (s : State) : Option Lowering.Typed → Option Value → Prop
  | some t, some v => Denotes m n s t v
  | none, none => True
  | _, _ => False

/-- The machine is where the builder had got in the function at hand, and its slots and its console
are the cells and the console of the world. -/
structure Point (F : Ir.Function) (cs : List Caller) (b : Ir.Builder) (w : World) (s : State) :
    Prop where
  stands : Stands F b s.current
  callers : s.callers = cs
  console : s.console = w.console
  types : w.cells.map (·.ty.toIr) = F.slots.map (·.ty)
  cells : ∀ (i : Nat) (v : Value), w.cells[i]? = some v →
    ∃ x, s.current.slots.lookup i = some x ∧ Value.ofMachine x = some v

def Returned (ty : Ir.Ty) : Option Machine.Value → Option Value → Prop
  | some x, some v => Value.ofMachine x = some v ∧ x.ty = ty
  | none, none => ty = .void
  | _, _ => False

theorem Returned.none_of_void {x : Option Machine.Value} {v : Option Value}
    (h : Returned .void x v) : v = none := by
  cases x with
  | none =>
    cases v with
    | none => rfl
    | some v => cases h
  | some x =>
    cases v with
    | none => rfl
    | some v =>
      have hty := h.2
      cases x <;> cases hty

/-- A function with a result gives one, and it is of the type that was declared. -/
theorem Returned.some_of_ne {ty : Tree.Ty} {x : Option Machine.Value} {v : Option Value}
    (h : Returned ty.toIr x v) (hne : ty ≠ .void) :
    ∃ y u, x = some y ∧ v = some u ∧ Value.ofMachine y = some u ∧ u.ty = ty := by
  have hir : ty.toIr ≠ .void := fun he => hne (Tree.Ty.toIr_injective he)
  cases x with
  | none =>
    cases v with
    | none => exact absurd h hir
    | some v => cases h
  | some y =>
    cases v with
    | none => cases h
    | some u =>
      obtain ⟨hval, hty⟩ := h
      exact ⟨y, u, rfl, rfl, hval,
        Tree.Ty.toIr_injective ((Value.ty_of_ofMachine hval).symm.trans hty)⟩

/-- The machine is about to return from the function at hand. -/
structure Returning (m : Ir.Module) (F : Ir.Function) (cs : List Caller) (v : Option Value)
    (console : Console) (s : State) : Prop where
  function : s.current.function = F
  callers : s.callers = cs
  console : s.console = console
  leaves : ∃ x, s.step m = s.leave x ∧ Returned F.returns x v

end

section

variable {m : Ir.Module} {F : Ir.Function} {cs : List Caller} {bound bound' : Nat}
  {s s' : State} {w w' : World} {α β : Type} {x : Eval α} {P Q : α → World → State → Prop}

def Stops (m : Ir.Module) (F : Ir.Function) (cs : List Caller) (bound : Nat) (s : State) :
    Stop → Console → Prop
  | .returned v, console => ∃ k s', Steps m k s s' ∧ Returning m F cs v console s'
  | .halted (.failed fault), console =>
    ∃ k s', Steps m k s s' ∧ s'.step m = .inr (.failed fault, console)
  | .halted .exhausted, _ => ∃ k s', bound ≤ k ∧ Steps m k s s'

theorem Stops.after {k : Nat} {stop : Stop} {console : Console} (hk : Steps m k s s')
    (h : Stops m F cs bound s' stop console) (hle : bound' ≤ k + bound) :
    Stops m F cs bound' s stop console := by
  cases stop with
  | returned v =>
    obtain ⟨j, t, ht, hr⟩ := h
    exact ⟨k + j, t, hk.trans ht, hr⟩
  | halted halt =>
    cases halt with
    | failed fault =>
      obtain ⟨j, t, ht, hr⟩ := h
      exact ⟨k + j, t, hk.trans ht, hr⟩
    | exhausted =>
      obtain ⟨j, t, hj, ht⟩ := h
      exact ⟨k + j, t, by omega, hk.trans ht⟩

/-- An end without a result is one for the callers too. -/
theorem Stops.halted {G : Ir.Function} {ds : List Caller} {halt : Halt} {console : Console}
    (h : Stops m F cs bound s (.halted halt) console) :
    Stops m G ds bound s (.halted halt) console := by
  cases halt with
  | failed => exact h
  | exhausted => exact h

/-- The machine goes on or stops as the evaluation does, and where it goes on, `P` holds. -/
def Follows (m : Ir.Module) (F : Ir.Function) (cs : List Caller) (bound : Nat) (s : State)
    (w : World) (x : Eval α) (P : α → World → State → Prop) : Prop :=
  match outcome x w with
  | (.ok a, w') => ∃ k s', Steps m k s s' ∧ P a w' s'
  | (.error stop, w') => Stops m F cs bound s stop w'.console

/-- An evaluation that gives a value is followed by steps to a state where `P` holds. -/
theorem follows_of_gives {a : α} (h : Gives x w a w') (hp : ∃ k s', Steps m k s s' ∧ P a w' s') :
    Follows m F cs bound s w x P := by
  unfold Follows
  rw [show outcome x w = (.ok a, w') from h]
  exact hp

theorem follows_of_fails {stop : Stop} (h : Fails x w stop w')
    (hp : Stops m F cs bound s stop w'.console) : Follows m F cs bound s w x P := by
  unfold Follows
  rw [show outcome x w = (.error stop, w') from h]
  exact hp

theorem follows_pure {a : α} (h : P a w s) : Follows m F cs bound s w (pure a) P :=
  follows_of_gives (gives_pure.mpr ⟨rfl, rfl⟩) ⟨0, s, .refl m s, h⟩

/-- The evaluation gives a value that the machine comes to, or stops and the machine stops alike. -/
theorem Follows.cases (h : Follows m F cs bound s w x P) :
    (∃ a w' k s', Gives x w a w' ∧ Steps m k s s' ∧ P a w' s') ∨
      ∃ stop w', Fails x w stop w' ∧ Stops m F cs bound s stop w'.console := by
  unfold Follows at h
  rcases gives_or_fails x w with ⟨a, w', ho⟩ | ⟨stop, w', ho⟩
  · rw [show outcome x w = (.ok a, w') from ho] at h
    obtain ⟨k, s', hk, hp⟩ := h
    exact .inl ⟨a, w', k, s', ho, hk, hp⟩
  · rw [show outcome x w = (.error stop, w') from ho] at h
    exact .inr ⟨stop, w', ho, h⟩

theorem Follows.after {k : Nat} (hk : Steps m k s s') (h : Follows m F cs bound s' w x P)
    (hle : bound' ≤ k + bound) : Follows m F cs bound' s w x P := by
  rcases h.cases with ⟨a, w', j, t, ho, ht, hp⟩ | ⟨stop, w', ho, hstop⟩
  · exact follows_of_gives ho ⟨k + j, t, hk.trans ht, hp⟩
  · exact follows_of_fails ho (hstop.after hk hle)

/-- Less may be asked of the machine: a smaller bound, or a weaker property. -/
theorem Follows.mono (h : Follows m F cs bound s w x P) (hle : bound' ≤ bound)
    (hp : ∀ a w' s', P a w' s' → Q a w' s') : Follows m F cs bound' s w x Q := by
  rcases h.cases with ⟨a, w', k, t, ho, ht, hpost⟩ | ⟨stop, w', ho, hstop⟩
  · exact follows_of_gives ho ⟨k, t, ht, hp a w' t hpost⟩
  · exact follows_of_fails ho (hstop.after (.refl m s) (by omega))

/-- The machine goes on a little where the evaluation is done. -/
theorem Follows.advance (h : Follows m F cs bound s w x P)
    (hq : ∀ a w' s', P a w' s' → ∃ k s'', Steps m k s' s'' ∧ Q a w' s'') :
    Follows m F cs bound s w x Q := by
  rcases h.cases with ⟨a, w', k, t, ho, ht, hp⟩ | ⟨stop, w', ho, hstop⟩
  · obtain ⟨j, t', ht', hQ⟩ := hq a w' t hp
    exact follows_of_gives ho ⟨k + j, t', ht.trans ht', hQ⟩
  · exact follows_of_fails ho hstop

/-- The machine follows two evaluations one after the other, if it follows the second from every state
that the first may lead to. -/
theorem Follows.bind {f : α → Eval β} {R : β → World → State → Prop}
    (h : Follows m F cs bound s w x P)
    (hf : ∀ a w' s', P a w' s' → Follows m F cs bound s' w' (f a) R) :
    Follows m F cs bound s w (x >>= f) R := by
  rcases h.cases with ⟨a, w', k, t, ho, ht, hp⟩ | ⟨stop, w', ho, hstop⟩
  · have hnext := (hf a w' t hp).after ht (Nat.le_add_left bound k)
    unfold Follows at hnext ⊢
    rw [outcome_bind, show outcome x w = (.ok a, w') from ho]
    exact hnext
  · exact follows_of_fails (fails_bind.mpr (.inl ho)) hstop

theorem Follows.map {f : α → β} {R : β → World → State → Prop} (h : Follows m F cs bound s w x P)
    (hf : ∀ a w' s', P a w' s' → R (f a) w' s') : Follows m F cs bound s w (f <$> x) R := by
  rw [map_eq_pure_bind]
  exact h.bind fun a w' s' hp => follows_pure (hf a w' s' hp)

theorem Follows.discard {R : Unit → World → State → Prop} (h : Follows m F cs bound s w x P)
    (hf : ∀ a w' s', P a w' s' → R () w' s') : Follows m F cs bound s w (Functor.discard x) R :=
  Follows.map h hf

theorem Follows.needed {x : Eval (Option Value)} {P : Option Value → World → State → Prop}
    {R : Value → World → State → Prop} (h : Follows m F cs bound s w x P)
    (hf : ∀ v w' s', P v w' s' → ∃ u, v = some u ∧ R u w' s') :
    Follows m F cs bound s w (Eval.needed x) R := by
  unfold Eval.needed
  apply h.bind
  intro v w' s' hp
  obtain ⟨u, rfl, hR⟩ := hf v w' s' hp
  exact follows_pure hR

end

end Simulation

end TreeLang
