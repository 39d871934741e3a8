import TreeLang.Machine.Run

namespace TreeLang.Machine

section

variable {m : Ir.Module} {a : Activation} {o : Ir.Operand} {n : Nat} {s : State}

namespace Activation

@[simp] theorem value_code (a : Activation) (code : List Ir.Instruction) (o : Ir.Operand) :
    ({ a with code := code } : Activation).value m o = a.value m o := by
  cases o <;> rfl

@[simp] theorem value_slots (a : Activation) (slots : List (Nat × Value)) (o : Ir.Operand) :
    ({ a with slots := slots } : Activation).value m o = a.value m o := by
  cases o <;> rfl

theorem value_define_self (a : Activation) (n : Nat) (x : Value) :
    (a.define (.temp n) x).value m (.temp n) = .ok x := by
  simp [define, value, lookup_update]

/-- A temporary that is defined leaves all other operands alone. -/
theorem value_define_other (a : Activation) (x : Value) (h : o ≠ .temp n) :
    (a.define (.temp n) x).value m o = a.value m o := by
  cases o with
  | temp | param => simp [define, value, lookup_update_other x a.values h]
  | constant | str => rfl

theorem execute_load {slot : Nat} {ty : Ir.Ty} {x : Value} (hx : a.slots.lookup slot = some x) :
    a.execute m (.load o slot ty) = .ok (a.define o x) := by
  simp [execute, hx]

theorem execute_binary {op : Ir.BinOp} {left right : Ir.Operand} {ty : Ir.Ty} {x y : Value}
    (hx : a.value m left = .ok x) (hy : a.value m right = .ok y) :
    a.execute m (.binary op o left right ty) = (binary op ty x y).map (a.define o) := by
  simp only [execute, hx, hy, bind, Except.bind]
  cases binary op ty x y <;> rfl

theorem execute_neg {operand : Ir.Operand} {ty : Ir.Ty} {x : Value}
    (hx : a.value m operand = .ok x) :
    a.execute m (.neg o operand ty) = (negate ty x).map (a.define o) := by
  simp only [execute, hx, bind, Except.bind]
  cases negate ty x <;> rfl

theorem execute_cast {value : Ir.Operand} {source target : Ir.Ty} {x : Value}
    (hx : a.value m value = .ok x) :
    a.execute m (.cast o value source target) = (cast source target x).map (a.define o) := by
  simp only [execute, hx, bind, Except.bind]
  cases cast source target x <;> rfl

theorem execute_store {slot : Nat} {operand : Ir.Operand} {ty : Ir.Ty} {x y : Value}
    (hx : a.value m operand = .ok x) (hy : a.slots.lookup slot = some y) (hty : x.ty = y.ty) :
    a.execute m (.store slot operand ty) = .ok { a with slots := update slot x a.slots } := by
  simp [execute, hx, hy, hty, bind, Except.bind, pure, Except.pure]

end Activation

theorem State.step_execute {i : Ir.Instruction} {code : List Ir.Instruction}
    (h : s.current.code = i :: code) (hi : i.isCall = false) :
    s.step m = s.proceed (({ s.current with code := code } : Activation).execute m i) := by
  unfold State.step
  rw [h]
  cases i with
  | call => cases hi
  | _ => rfl

/-- A call evaluates its operands in order and hands their words over. -/
theorem State.step_call {result : Option Ir.Operand} {callee : String} {operands : List Ir.Operand}
    {ty : Ir.Ty} {code : List Ir.Instruction} {xs : List Value}
    (h : s.current.code = .call result callee operands ty :: code)
    (hxs : operands.mapM (s.current.value m) = .ok xs) :
    s.step m = ({ s with current := { s.current with code := code } } : State).call m result callee
      xs := by
  have hvalue : (({ s.current with code := code } : Activation).value m) = s.current.value m :=
    funext (Activation.value_code s.current code)
  unfold State.step
  rw [h]
  simp only [hvalue, hxs]

theorem State.step_jump {target : Nat} (hc : s.current.code = [])
    (ht : s.current.terminator = .jump target) (ha : s.current.jump target = .ok a) :
    s.step m = .inl { s with current := a } := by
  simp [State.step, hc, ht, State.terminate, ha, State.proceed]

theorem State.step_branch {o : Ir.Operand} {thenId elseId : Nat} {b : Bool}
    (hc : s.current.code = []) (ht : s.current.terminator = .branch o thenId elseId)
    (ho : s.current.value m o = .ok (.ofBool b))
    (ha : s.current.jump (if b then thenId else elseId) = .ok a) :
    s.step m = .inl { s with current := a } := by
  simp [State.step, hc, ht, State.terminate, ho, Value.test_ofBool, bind, Except.bind, ha,
    State.proceed]

theorem State.step_ret {x : Value} (hc : s.current.code = [])
    (ht : s.current.terminator = .ret (some o)) (hx : s.current.value m o = .ok x) :
    s.step m = s.leave (some x) := by
  simp [State.step, hc, ht, State.terminate, hx]

theorem State.step_ret_none (hc : s.current.code = []) (ht : s.current.terminator = .ret none) :
    s.step m = s.leave none := by
  simp [State.step, hc, ht, State.terminate]

end

variable {m : Ir.Module} {s t u : State} {j k : Nat} {done : Ending × Console}

/-- The machine comes from one state to the other in `k` steps. -/
def Steps (m : Ir.Module) : Nat → State → State → Prop
  | 0, s, t => t = s
  | k + 1, s, t => ∃ u, s.step m = .inl u ∧ Steps m k u t

theorem Steps.refl (m : Ir.Module) (s : State) : Steps m 0 s s := rfl

theorem Steps.one (h : s.step m = .inl t) : Steps m 1 s t := ⟨t, h, rfl⟩

theorem Steps.trans (h : Steps m j s t) (h' : Steps m k t u) : Steps m (j + k) s u := by
  induction j generalizing s with
  | zero =>
    cases h
    rw [Nat.zero_add]
    exact h'
  | succ j ih =>
    obtain ⟨v, hv, h⟩ := h
    rw [Nat.succ_add]
    exact ⟨v, hv, ih h⟩

def Finishes (m : Ir.Module) (s : State) (done : Ending × Console) : Prop :=
  ∃ fuel, s.run m fuel = some done

/-- Fuel that steps have used up is fuel less for the rest. -/
theorem run_steps (h : Steps m k s t) (fuel : Nat) : s.run m (k + fuel) = t.run m fuel := by
  induction k generalizing s with
  | zero =>
    cases h
    rw [Nat.zero_add]
  | succ k ih =>
    obtain ⟨u, hu, h⟩ := h
    rw [Nat.succ_add, State.run, hu]
    exact ih h

theorem run_step_done (h : s.step m = .inr done) (fuel : Nat) : s.run m (fuel + 1) = some done := by
  rw [State.run, h]

/-- What has ended within a bound has ended within any greater one. -/
theorem run_mono {fuel fuel' : Nat} (h : s.run m fuel = some done) (hle : fuel ≤ fuel') :
    s.run m fuel' = some done := by
  induction fuel generalizing s fuel' with
  | zero => cases h
  | succ fuel ih =>
    obtain ⟨fuel', rfl⟩ := Nat.exists_eq_add_of_lt hle
    rw [State.run] at h ⊢
    cases hs : s.step m with
    | inl u =>
      rw [hs] at h
      exact ih h (by omega)
    | inr d =>
      rw [hs] at h
      exact h

theorem Finishes.unique {done' : Ending × Console} (h : Finishes m s done)
    (h' : Finishes m s done') : done = done' := by
  obtain ⟨fuel, h⟩ := h
  obtain ⟨fuel', h'⟩ := h'
  have hle := run_mono h (Nat.le_max_left fuel fuel')
  have hle' := run_mono h' (Nat.le_max_right fuel fuel')
  exact Option.some.inj (hle.symm.trans hle')

theorem Steps.finishes (h : Steps m k s t) (ht : t.step m = .inr done) : Finishes m s done :=
  ⟨k + 1, (run_steps h 1).trans (run_step_done ht 0)⟩

/-- A machine that can take so many steps is not done within them. -/
theorem Steps.run_eq_none (h : Steps m k s t) {fuel : Nat} (hle : fuel ≤ k) :
    s.run m fuel = none := by
  cases hr : s.run m fuel with
  | none => rfl
  | some done =>
    have hk := run_mono hr hle
    have hzero := run_steps h 0
    rw [Nat.add_zero, hk] at hzero
    cases hzero

end TreeLang.Machine
