import Mathlib.Data.List.Forall2
import TreeLang.Proofs.Builder.Reachability
import TreeLang.Proofs.Simulation.Steps
import TreeLang.Proofs.Simulation.Values

namespace TreeLang

open Simulation (Answers)

/-- The module with the second function in the place of the first. -/
def Ir.Module.exchange (m : Ir.Module) (f f' : Ir.Function) : Ir.Module :=
  { m with functions := m.functions.map fun g => if g = f then f' else g }

namespace Machine

open Ir (Operand Module Instruction Terminator)

/-- The second function begins like the first, and has the same block wherever control can come. -/
structure Replaces (f f' : Ir.Function) : Prop where
  name : f'.name = f.name
  params : f'.params = f.params
  returns : f'.returns = f.returns
  first : ∃ k ks ks', f.blocks = k :: ks ∧ f'.blocks = k :: ks' ∧ f.block? f.entry = some k
  zeroed : Activation.zeroedSlots f' = Activation.zeroedSlots f
  found : ∀ id, f.graph.Reached id → f'.block? id = f.block? id

section

variable {f f' : Ir.Function} {m m' : Module} {a a' : Activation}

/-- The same activation, or one of `f'` in the place of one of `f` where control can come to. -/
inductive Alike (f f' : Ir.Function) : Activation → Activation → Prop
  | same (a : Activation) : Alike f f' a a
  | exchanged (code : List Instruction) {t : Terminator} (values : List (Operand × Value))
    (slots : List (Nat × Value)) (ht : ∀ id ∈ t.successors, f.graph.Reached id) :
    Alike f f' ⟨f, code, t, values, slots⟩ ⟨f', code, t, values, slots⟩

theorem answers_cases {α β : Type} {R : α → β → Prop} {x : Except Fault α} {y : Except Fault β}
    (h : Answers R x y) :
    (∃ fault, x = .error fault ∧ y = .error fault) ∨ ∃ v w, x = .ok v ∧ y = .ok w ∧ R v w := by
  cases x with
  | error fault =>
    cases y with
    | error fault' => exact .inl ⟨fault, rfl, congrArg Except.error (Eq.symm h)⟩
    | ok w => cases h
  | ok v =>
    cases y with
    | error fault => cases h
    | ok w => exact .inr ⟨v, w, rfl, rfl, h⟩

theorem answers_bind {α : Type} (x : Except Fault α) {g g' : α → Except Fault Activation}
    (h : ∀ v, Answers (Alike f f') (g v) (g' v)) : Answers (Alike f f') (x >>= g) (x >>= g') := by
  cases x with
  | error fault => rfl
  | ok v => exact h v

theorem answers_same (x : Except Fault Activation) : Answers (Alike f f') x x := by
  cases x with
  | error fault => rfl
  | ok a => exact .same a

namespace Alike

theorem code (h : Alike f f' a a') : a'.code = a.code := by
  cases h <;> rfl

theorem terminator (h : Alike f f' a a') : a'.terminator = a.terminator := by
  cases h <;> rfl

theorem slots (h : Alike f f' a a') : a'.slots = a.slots := by
  cases h <;> rfl

theorem returns (hf : Replaces f f') (h : Alike f f' a a') :
    a'.function.returns = a.function.returns := by
  cases h with
  | same => rfl
  | exchanged => exact hf.returns

theorem drop (h : Alike f f' a a') (code : List Instruction) :
    Alike f f' { a with code := code } { a' with code := code } := by
  cases h with
  | same => exact .same _
  | exchanged _ values slots ht => exact .exchanged code values slots ht

theorem define (h : Alike f f' a a') (result : Operand) (v : Value) :
    Alike f f' (a.define result v) (a'.define result v) := by
  cases h with
  | same => exact .same _
  | exchanged code values slots ht => exact .exchanged code (update result v values) slots ht

theorem store (h : Alike f f' a a') (slot : Nat) (v : Value) :
    Alike f f' { a with slots := update slot v a.slots }
      { a' with slots := update slot v a'.slots } := by
  cases h with
  | same => exact .same _
  | exchanged code values slots ht => exact .exchanged code values (update slot v slots) ht

/-- Operands have the same values, since strings are the same and constants are their own. -/
theorem value (h : Alike f f' a a') (hm : m'.strings = m.strings) (o : Operand) :
    a'.value m' o = a.value m o := by
  cases h <;> cases o <;> simp only [Activation.value, hm]

/-- A jump leads to the same block of either function, since control can come there. -/
theorem jump (hf : Replaces f f') (h : Alike f f' a a') {id : Nat}
    (hid : id ∈ a.terminator.successors) : Answers (Alike f f') (a.jump id) (a'.jump id) := by
  cases h with
  | same => exact answers_same _
  | exchanged code values slots ht =>
    have hr := ht id hid
    unfold Activation.jump
    simp only [hf.found id hr]
    cases hk : f.block? id with
    | none => rfl
    | some k => exact .exchanged _ _ _ fun t htk => Ir.Function.reached_target hr hk htk

/-- An instruction does not look at the function. -/
theorem execute (h : Alike f f' a a') (hm : m'.strings = m.strings) (i : Instruction) :
    Answers (Alike f f') (a.execute m i) (a'.execute m' i) := by
  cases i with
  | alloca slot ty name =>
    unfold Activation.execute
    simp only
    cases Value.zero? ty with
    | none => rfl
    | some v => exact h.store slot v
  | load result slot ty =>
    unfold Activation.execute
    simp only [h.slots]
    cases a.slots.lookup slot with
    | none => rfl
    | some v => exact h.define result v
  | store slot operand ty =>
    unfold Activation.execute
    simp only [h.value hm, h.slots]
    refine answers_bind _ fun v => ?_
    cases a.slots.lookup slot with
    | none => rfl
    | some old =>
      by_cases hty : v.ty = old.ty
      · simp only [hty, if_true]
        exact h.slots ▸ h.store slot v
      · simp only [hty, if_false]
        rfl
  | binary op result left right ty =>
    unfold Activation.execute
    simp only [h.value hm]
    exact answers_bind _ fun l => answers_bind _ fun r => answers_bind _ (h.define result)
  | neg result operand ty =>
    unfold Activation.execute
    simp only [h.value hm]
    exact answers_bind _ fun x => answers_bind _ (h.define result)
  | cast result operand source target =>
    unfold Activation.execute
    simp only [h.value hm]
    exact answers_bind _ fun x => answers_bind _ (h.define result)
  | call => rfl

end Alike

/-- Both functions begin at the same block with the same slots. -/
theorem start_replaced (hf : Replaces f f') (args : List Value) :
    Activation.start f' args =
      (Activation.start f args).map fun a => { a with function := f' } := by
  obtain ⟨k, ks, ks', hblocks, hblocks', -⟩ := hf.first
  unfold Activation.start
  rw [hblocks, hblocks', hf.params, hf.zeroed]
  simp only
  split <;> rfl

/-- A function begins at its entry, which control comes to. -/
theorem start_alike (hf : Replaces f f') (args : List Value) :
    Answers (Alike f f') (Activation.start f args) (Activation.start f' args) := by
  obtain ⟨k, ks, ks', hblocks, hblocks', hk⟩ := hf.first
  unfold Activation.start
  rw [hblocks, hblocks', hf.params, hf.zeroed]
  simp only
  split
  · exact .exchanged _ _ _ fun t ht => Ir.Function.reached_target .entry hk ht
  · rfl

/-- The same states, but for activations that run the second function in the place of the first. -/
structure State.Alike (f f' : Ir.Function) (s s' : State) : Prop where
  current : Machine.Alike f f' s.current s'.current
  callers : List.Forall₂
    (fun c c' => c'.result = c.result ∧ Machine.Alike f f' c.activation c'.activation)
    s.callers s'.callers
  console : s'.console = s.console

/-- Both go on in states that are alike, or both end alike. -/
def Progress.Alike (f f' : Ir.Function) : Progress → Progress → Prop
  | .inl s, .inl s' => s.Alike f f' s'
  | .inr done, .inr done' => done' = done
  | _, _ => False

/-- The callee is the same, or the second function in the place of the first. -/
theorem function?_exchange (hf : f'.name = f.name) (m : Module) (name : String) :
    (m.exchange f f').function? name =
      (m.function? name).map fun g => if g = f then f' else g := by
  have hname : ∀ g : Ir.Function, (if g = f then f' else g).name = g.name := by
    intro g
    split
    · rename_i hg
      rw [hf, hg]
    · rfl
  simp only [Ir.Module.exchange, Module.function?, List.find?_map, Function.comp_def, hname]

namespace State

variable {s s' : State}

theorem fail_alike (h : s.Alike f f' s') (fault : Fault) :
    Progress.Alike f f' (s.fail fault) (s'.fail fault) := by
  unfold fail
  rw [h.console]
  rfl

theorem proceed_alike (h : s.Alike f f' s') {x x' : Except Fault Activation}
    (hx : Answers (Machine.Alike f f') x x') :
    Progress.Alike f f' (s.proceed x) (s'.proceed x') := by
  rcases answers_cases hx with ⟨fault, rfl, rfl⟩ | ⟨a, a', rfl, rfl, ha⟩
  · exact fail_alike h fault
  · exact ⟨ha, h.callers, h.console⟩

theorem resume_alike (h : Machine.Alike f f' a a') (result : Option Operand) (v : Option Value) :
    Answers (Machine.Alike f f') (Caller.resume ⟨result, a⟩ v) (Caller.resume ⟨result, a'⟩ v) := by
  cases result with
  | none => exact h
  | some result =>
    cases v with
    | none => rfl
    | some v => exact h.define result v

theorem leave_alike (hf : Replaces f f') (h : s.Alike f f' s') (v : Option Value) :
    Progress.Alike f f' (s.leave v) (s'.leave v) := by
  unfold leave
  rw [h.current.returns hf]
  split
  · obtain ⟨current, callers, console⟩ := s
    obtain ⟨current', callers', console'⟩ := s'
    obtain ⟨hcurrent, hcallers, hconsole⟩ := h
    cases hcallers with
    | nil => exact congrArg _ hconsole
    | @cons c c' cs cs' hc hcs =>
      obtain ⟨result, a⟩ := c
      obtain ⟨_, a'⟩ := c'
      obtain ⟨⟨rfl⟩, ha⟩ := hc
      have hrest : State.Alike f f' ⟨current, cs, console⟩ ⟨current', cs', console'⟩ :=
        ⟨hcurrent, hcs, hconsole⟩
      exact proceed_alike hrest (resume_alike ha _ v)
  · exact fail_alike h .stuck

/-- A call of the function that is replaced enters the other one. -/
theorem call_alike (hf : Replaces f f') (h : s.Alike f f' s') (m : Module) (result : Option Operand)
    (callee : String) (args : List Value) :
    Progress.Alike f f' (s.call m result callee args)
      (s'.call (m.exchange f f') result callee args) := by
  unfold call
  rw [function?_exchange hf.name]
  cases m.function? callee with
  | none =>
    simp only [Option.map_none]
    cases Routine.ofName? callee with
    | none => exact fail_alike h .stuck
    | some routine =>
      simp only [h.console]
      cases routine.call s.console args with
      | error fault => exact fail_alike h fault
      | ok p =>
        have hconsole : State.Alike f f' { s with console := p.2 } { s' with console := p.2 } :=
          ⟨h.current, h.callers, rfl⟩
        exact proceed_alike hconsole (resume_alike h.current result (some p.1))
  | some g =>
    have hstart : Answers (Machine.Alike f f') (Activation.start g args)
        (Activation.start (if g = f then f' else g) args) := by
      split
      · rename_i hg
        exact hg ▸ start_alike hf args
      · exact answers_same _
    simp only [Option.map_some]
    rcases answers_cases hstart with ⟨fault, hg, hg'⟩ | ⟨b, b', hg, hg', hb⟩
    · rw [hg, hg']
      exact fail_alike h fault
    · rw [hg, hg']
      exact ⟨hb, .cons ⟨rfl, h.current⟩ h.callers, h.console⟩

theorem terminate_alike (hf : Replaces f f') (h : s.Alike f f' s') (m : Module) :
    Progress.Alike f f' (s.terminate m s.current.terminator)
      (s'.terminate (m.exchange f f') s'.current.terminator) := by
  have hjump : ∀ id ∈ s.current.terminator.successors,
      Answers (Machine.Alike f f') (s.current.jump id) (s'.current.jump id) := fun id hid =>
    h.current.jump hf hid
  have hvalue : ∀ o, s'.current.value (m.exchange f f') o = s.current.value m o :=
    h.current.value rfl
  rw [h.current.terminator]
  generalize s.current.terminator = t at hjump
  cases t with
  | jump target => exact proceed_alike h (hjump target (by simp [Terminator.successors]))
  | branch condition thenBlock elseBlock =>
    unfold terminate
    simp only [hvalue]
    refine proceed_alike h (answers_bind _ fun v => answers_bind _ fun b => hjump _ ?_)
    cases b <;> simp [Terminator.successors]
  | ret value =>
    cases value with
    | none => exact leave_alike hf h none
    | some o =>
      unfold terminate
      simp only [hvalue]
      cases s.current.value m o with
      | error fault => exact fail_alike h fault
      | ok v => exact leave_alike hf h (some v)
  | unset => exact fail_alike h .stuck

/-- One step. -/
theorem step_alike (hf : Replaces f f') (h : s.Alike f f' s') (m : Module) :
    Progress.Alike f f' (s.step m) (s'.step (m.exchange f f')) := by
  unfold step
  rw [h.current.code]
  cases s.current.code with
  | nil => exact terminate_alike hf h m
  | cons i code =>
    have hrest : State.Alike f f' { s with current := { s.current with code := code } }
        { s' with current := { s'.current with code := code } } :=
      ⟨h.current.drop code, h.callers, h.console⟩
    cases i with
    | call result callee operands returns =>
      have hvalue : ∀ o, { s'.current with code := code }.value (m.exchange f f') o =
          { s.current with code := code }.value m o := hrest.current.value rfl
      simp only [funext hvalue]
      cases operands.mapM ({ s.current with code := code }.value m) with
      | error fault => exact fail_alike hrest fault
      | ok args => exact call_alike hf hrest m result callee args
    | _ => exact proceed_alike h (hrest.current.execute rfl _)

/-- Executions of any length end alike, so no run tells the functions from each other. -/
theorem run_alike (hf : Replaces f f') (h : s.Alike f f' s') (m : Module) (fuel : Nat) :
    s'.run (m.exchange f f') fuel = s.run m fuel := by
  induction fuel generalizing s s' with
  | zero => rfl
  | succ fuel ih =>
    have hstep := step_alike hf h m
    unfold run
    cases hs : s.step m with
    | inl t =>
      cases hs' : s'.step (m.exchange f f') with
      | inl t' =>
        rw [hs, hs'] at hstep
        exact ih hstep
      | inr done =>
        rw [hs, hs'] at hstep
        cases hstep
    | inr done =>
      cases hs' : s'.step (m.exchange f f') with
      | inl t' =>
        rw [hs, hs'] at hstep
        cases hstep
      | inr done' =>
        rw [hs, hs'] at hstep
        exact congrArg some hstep

end State

end

end Machine

end TreeLang
