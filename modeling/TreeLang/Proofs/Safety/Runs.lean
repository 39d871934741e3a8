import Mathlib.Data.List.Forall2
import TreeLang.Proofs.Safety.Activations
import TreeLang.Proofs.Simulation.Library

namespace TreeLang

namespace Machine

open Ir (Operand Module Instruction External)

def State.Ready (m : Module) (s : State) : Prop :=
  match s.current.code with
  | [] => s.current.CanEnd m s.current.terminator
  | i :: _ => s.current.CanExecute m i

inductive State.MayEnd (m : Module) (s : State) : Ending → Prop
  /-- The entry function returns an integer. -/
  | returned (n : Int32) (outermost : s.callers = []) : MayEnd m s (.returned (some (.i32 n)))
  /-- An integer is divided by zero, or the least one by -1. -/
  | division {result left right : Operand} {code : List Instruction} {x y : Int32}
    (next : s.current.code = .binary .div result left right .i32 :: code)
    (dividend : s.current.value m left = .ok (.i32 x))
    (divisor : s.current.value m right = .ok (.i32 y))
    (undefined : y = 0 ∨ (x = Int32.minValue ∧ y = -1)) : MayEnd m s (.failed .division)
  /-- A formatted print takes an argument as a string that is none. -/
  | wildAddress {result : Option Operand} {callee : String} {operands : List Operand}
    {returns : Ir.Ty} {code : List Instruction} {format : Stored} {args : List Value} {i : Nat}
    {v : Value} (next : s.current.code = .call result callee operands returns :: code)
    (printer : callee = "print" ∨ callee = "println") (library : m.function? callee = none)
    (arguments : operands.mapM (s.current.value m) = .ok (.ptr (some format) :: args))
    (conversion : (Format.stringArguments (Format.pieces format.bytes))[i]? = some true)
    (argument : args[i]? = some v) (other : v.ty ≠ .ptr) : MayEnd m s (.failed .wildAddress)

/-- The next step is as it should be, and if there is none the execution may end here. -/
structure State.Safe (m : Module) (s : State) : Prop where
  ready : s.Ready m
  ends : ∀ ending console, s.step m = .inr (ending, console) → s.MayEnd m ending

/-- The entry function can be called, and however far its execution goes, the state that it comes to
is safe: on any bytes as input, wherever the strings lie and whatever the output takes. Memory is
without end, so neither a deep recursion nor a printed text of any width ends an execution. -/
def RunsSafely (m : Module) : Prop :=
  ∃ main a, m.function? entryName = some main ∧ Activation.start main [] = .ok a ∧
    ∀ console, (∀ fuel, execute m fuel main console = State.run m fuel ⟨a, [], console⟩) ∧
      ∀ n s, Steps m n ⟨a, [], console⟩ s → s.Safe m

section

variable {m : Module} {a : Activation} {x : External} {c : Console}

def Fit (params : List Ir.Ty) (vs : List Value) : Prop :=
  ∀ (n : Nat) (v : Value) (ty : Ir.Ty), vs[n]? = some v → params[n]? = some ty → v.ty = ty

theorem Fit.types {params : List Ir.Ty} {vs : List Value} (h : Fit params vs)
    (hlen : vs.length = params.length) : vs.map Value.ty = params := by
  refine List.ext_getElem? fun n => ?_
  rw [List.getElem?_map]
  cases hv : vs[n]? with
  | none =>
    rw [List.getElem?_eq_none_iff, hlen, ← List.getElem?_eq_none_iff] at hv
    rw [hv]
    rfl
  | some v =>
    have hn := (List.getElem?_eq_some_iff.mp hv).1
    rw [hlen] at hn
    rw [List.getElem?_eq_getElem hn]
    exact congrArg some (h n v _ hv (List.getElem?_eq_getElem hn))

/-- Operands that all have values can be taken as the arguments of a call. -/
theorem arguments_of_holds {operands : List Operand} (h : ∀ o ∈ operands, ∃ ty, a.Holds m o ty) :
    ∃ vs, operands.mapM (a.value m) = .ok vs ∧
      List.Forall₂ (fun o v => a.value m o = .ok v) operands vs := by
  induction operands with
  | nil => exact ⟨[], rfl, .nil⟩
  | cons o os ih =>
    obtain ⟨ty, v, hv, _⟩ := h o List.mem_cons_self
    obtain ⟨vs, hvs, hall⟩ := ih fun o' ho' => h o' (List.mem_cons_of_mem _ ho')
    refine ⟨v :: vs, ?_, .cons hv hall⟩
    rw [List.mapM_cons, hv, hvs]
    rfl

/-- Operands that are arguments of the parameters have values of their types. -/
theorem fit_of_holds {operands : List Operand} {vs : List Value} {params : List Ir.Ty}
    (hvs : List.Forall₂ (fun o v => a.value m o = .ok v) operands vs)
    (h : ∀ (n : Nat) (o : Operand) (ty : Ir.Ty), operands[n]? = some o → params[n]? = some ty →
      a.Holds m o ty) : Fit params vs := by
  induction hvs generalizing params with
  | nil =>
    intro n v ty hv
    cases hv
  | @cons o v os vs hov _ ih =>
    intro n u ty hu hty
    cases n with
    | zero =>
      cases hu
      obtain ⟨w, hw, hwty⟩ := h 0 o ty rfl hty
      rw [hov] at hw
      cases hw
      exact hwty
    | succ n =>
      cases params with
      | nil => cases hty
      | cons p ps => exact ih (fun n o ty ho hp => h (n + 1) o ty ho hp) n u ty hu hty

theorem not_readable {address : Stored → UInt64} {asStrings : List Bool} {vs : List Value}
    (h : readable address asStrings vs = false) :
    ∃ (i : Nat) (v : Value), asStrings[i]? = some true ∧ vs[i]? = some v ∧ v.ty ≠ .ptr := by
  induction asStrings generalizing vs with
  | nil => cases h
  | cons b bs ih =>
    cases vs with
    | nil => cases h
    | cons v vs =>
      simp only [readable, Bool.and_eq_false_iff] at h
      rcases h with h | h
      · refine ⟨0, v, ?_, rfl, ?_⟩
        · cases b
          · cases h
          · rfl
        · intro hty
          simp [hty] at h
      · obtain ⟨i, u, hb, hu, hty⟩ := ih h
        exact ⟨i + 1, u, hb, hu, hty⟩

/-- A formatted text is made, or an argument that is no string is taken as one. -/
theorem formatted_or_wild (address : Stored → UInt64) (format : Option Stored) (args : List Value) :
    (∃ bytes, formatted address format args = .ok bytes) ∨
      ∃ (text : Stored) (i : Nat) (v : Value), format = some text ∧
      (Format.stringArguments (Format.pieces text.bytes))[i]? = some true ∧ args[i]? = some v ∧
      v.ty ≠ .ptr ∧ formatted address format args = .error .wildAddress := by
  cases format with
  | none => exact .inl ⟨[], rfl⟩
  | some text =>
    cases h : readable address (Format.stringArguments (Format.pieces text.bytes)) args with
    | true => exact .inl ⟨_, by simp only [formatted, h, if_true]; rfl⟩
    | false =>
      obtain ⟨i, v, hb, hv, hty⟩ := not_readable h
      exact .inr ⟨text, i, v, rfl, hb, hv, hty, by simp [formatted, h]⟩

/-- What a routine does with arguments of the types of its prototype: it gives a value, or is a
formatted print that takes as a string what is none. -/
def Routine.Served (routine : Routine) (c : Console) (vs : List Value) : Prop :=
  (∃ v c', routine.call c vs = .ok (v, c')) ∨
    (routine = .print ∨ routine = .println) ∧
      ∃ (text : Stored) (args : List Value) (i : Nat) (v : Value), vs = .ptr (some text) :: args ∧
      (Format.stringArguments (Format.pieces text.bytes))[i]? = some true ∧ args[i]? = some v ∧
      v.ty ≠ .ptr ∧ routine.call c vs = .error .wildAddress

theorem served_formatted {routine : Routine} (hr : routine = .print ∨ routine = .println)
    {vs : List Value} (hlen : 1 ≤ vs.length) (hty : Fit [.ptr] vs) : routine.Served c vs := by
  cases vs with
  | nil => cases hlen
  | cons v args =>
    obtain ⟨format, rfl⟩ := eq_ptr_of_ty (hty 0 v .ptr rfl rfl)
    rcases formatted_or_wild c.host.address format args with
      ⟨bytes, hb⟩ | ⟨text, i, u, rfl, hs, hu, hne, hw⟩
    · refine .inl ?_
      rcases hr with rfl | rfl
      · exact ⟨_, _, by rw [Routine.call_print, hb]; rfl⟩
      · exact ⟨_, _, by rw [Routine.call_println, hb]; rfl⟩
    · refine .inr ⟨hr, text, args, i, u, rfl, hs, hu, hne, ?_⟩
      rcases hr with rfl | rfl
      · rw [Routine.call_print, hw]
        rfl
      · rw [Routine.call_println, hw]
        rfl

/-- A routine serves every call with arguments of its prototype. -/
theorem served {routine : Routine} (hx : Ir.prototype? routine.name = some x) {vs : List Value}
    (hacc : x.accepts vs.length = true) (hty : Fit x.params vs) : routine.Served c vs := by
  have none : x.params = [] → x.variadic = false → vs = [] := by
    intro hp hv
    simpa [External.accepts, hp, hv] using hacc
  have one : ∀ ty, x.params = [ty] → x.variadic = false → ∃ v, vs = [v] ∧ v.ty = ty := by
    intro ty hp hv
    have hlen : vs.length = 1 := by simpa [External.accepts, hp, hv] using hacc
    obtain ⟨v, rfl⟩ := List.length_eq_one_iff.mp hlen
    exact ⟨v, rfl, hty 0 v ty rfl (by rw [hp]; rfl)⟩
  cases routine with
  | print | println =>
    cases hx
    have hlen : 1 ≤ vs.length := by simpa [External.accepts] using hacc
    exact served_formatted (by simp) hlen hty
  | readi | readd | readline | pi =>
    cases hx
    cases none rfl rfl
    exact .inl ⟨_, _, rfl⟩
  | printi =>
    cases hx
    obtain ⟨v, rfl, hv⟩ := one _ rfl rfl
    obtain ⟨n, rfl⟩ := eq_i32_of_ty hv
    exact .inl ⟨_, _, rfl⟩
  | printd | fabs | sqrt | sin | cos =>
    cases hx
    obtain ⟨v, rfl, hv⟩ := one _ rfl rfl
    obtain ⟨y, rfl⟩ := eq_f64_of_ty hv
    exact .inl ⟨_, _, rfl⟩
  | pow =>
    cases hx
    have hlen : vs.length = 2 := by simpa [External.accepts] using hacc
    obtain ⟨u, v, rfl⟩ := List.length_eq_two.mp hlen
    obtain ⟨y, rfl⟩ := eq_f64_of_ty (hty 0 u .f64 rfl rfl)
    obtain ⟨z, rfl⟩ := eq_f64_of_ty (hty 1 v .f64 rfl rfl)
    exact .inl ⟨_, _, rfl⟩

end

/-- The module has the callees of its certificates, and a certificate for each function. -/
structure Sturdy (callees : String → Option External) (m : Module) : Prop where
  functions : ∀ name F, m.function? name = some F → ∃ g, F.Sturdy callees m.strings.length g
  named : ∀ name x, callees name = some x → m.callee? name = some x
  library : ∀ name x, callees name = some x → m.function? name = none → Ir.prototype? name = some x

def Waits (callees : String → Option External) (m : Module) : Ir.Ty → List Caller → Prop
  | ty, [] => ty = .i32
  | ty, c :: cs =>
    (∀ value : Option Value, (value.map Value.ty).getD .void = ty → ∃ a, c.resume value = .ok a ∧
      a.function = c.activation.function ∧ a.Running callees m) ∧
    Waits callees m c.activation.function.returns cs

structure State.Sound (callees : String → Option External) (m : Module) (s : State) : Prop where
  current : s.current.Running callees m
  callers : Waits callees m s.current.function.returns s.callers

namespace State

variable {callees : String → Option External} {m : Module} {s : State} {a : Activation}

def Steady (callees : String → Option External) (m : Module) (s : State) : Prop :=
  (∃ s', s.step m = .inl s' ∧ s'.Sound callees m) ∨
    ∃ ending console, s.step m = .inr (ending, console) ∧ s.MayEnd m ending

/-- In a sound state the next step finds all that it works on. -/
theorem Sound.ready (h : s.Sound callees m) (hm : Sturdy callees m) : s.Ready m := by
  obtain ⟨g, id, k, pre, hF, hp⟩ := h.current
  unfold Ready
  cases hcode : s.current.code with
  | nil => exact hp.canEnd hF hcode
  | cons i code => exact hp.canExecute hF hm.named hcode

/-- The activation at hand goes on in the same function. -/
theorem Sound.proceed (h : s.Sound callees m) (hf : a.function = s.current.function)
    (ha : a.Running callees m) : State.Sound callees m { s with current := a } :=
  ⟨ha, by
    change Waits callees m a.function.returns s.callers
    rw [hf]
    exact h.callers⟩

/-- Instructions other than calls leave the callers alone. -/
theorem Sound.steady_execute (h : s.Sound callees m) {i : Instruction} {code : List Instruction}
    (hcode : s.current.code = i :: code) (hcall : i.isCall = false) : s.Steady callees m := by
  obtain ⟨g, id, k, pre, hF, hp⟩ := h.current
  have hstep := step_execute hcode hcall (m := m)
  rcases hp.execute hF hcode hcall with ⟨a, ha, hf, hp'⟩ | ⟨_, _, _, _, _, rfl, hx, hy, hxy, herr⟩
  · rw [ha] at hstep
    exact .inl ⟨_, hstep, h.proceed hf ⟨g, id, k, _, hf ▸ hF, hp'⟩⟩
  · rw [herr] at hstep
    exact .inr ⟨_, _, hstep, .division hcode hx hy hxy⟩

theorem Sound.steady_jump (h : s.Sound callees m) (hcode : s.current.code = []) {t : Nat}
    (ht : t ∈ s.current.terminator.successors)
    (hstep : s.step m = s.proceed (s.current.jump t)) : s.Steady callees m := by
  obtain ⟨g, id, k, pre, hF, hp⟩ := h.current
  obtain ⟨a, ha, hf, hrun⟩ := hp.jump hF hcode ht
  rw [ha] at hstep
  exact .inl ⟨_, hstep, h.proceed hf hrun⟩

/-- A value of the right type goes to the caller, if there is one. -/
theorem Sound.steady_leave (h : s.Sound callees m) {value : Option Value}
    (hty : (value.map Value.ty).getD .void = s.current.function.returns)
    (hstep : s.step m = s.leave value) : s.Steady callees m := by
  unfold leave at hstep
  rw [if_pos hty] at hstep
  have hw := h.callers
  cases hc : s.callers with
  | nil =>
    rw [hc] at hstep hw
    have hint : (value.map Value.ty).getD .void = .i32 := hty.trans hw
    cases value with
    | none => cases hint
    | some v =>
      obtain ⟨n, rfl⟩ := eq_i32_of_ty hint
      exact .inr ⟨_, _, hstep, .returned n hc⟩
  | cons c cs =>
    rw [hc] at hstep hw
    obtain ⟨a, ha, hf, hrun⟩ := hw.1 value hty
    simp only [ha] at hstep
    refine .inl ⟨_, hstep, hrun, ?_⟩
    change Waits callees m a.function.returns cs
    rw [hf]
    exact hw.2

theorem Sound.steady_end (h : s.Sound callees m) (hm : Sturdy callees m)
    (hcode : s.current.code = []) : s.Steady callees m := by
  have hready := h.ready hm
  have hstep : s.step m = s.terminate m s.current.terminator := by simp [step, hcode]
  unfold Ready at hready
  rw [hcode] at hready
  cases ht : s.current.terminator with
  | unset =>
    rw [ht] at hready
    exact hready.elim
  | jump target =>
    rw [ht] at hstep
    exact h.steady_jump hcode (ht ▸ List.mem_cons_self) hstep
  | branch condition thenBlock elseBlock =>
    rw [ht] at hready hstep
    obtain ⟨⟨v, hv, hty⟩, _⟩ := hready
    obtain ⟨w, rfl⟩ := eq_bool_of_ty hty
    have htarget : (if (w != 0) = true then thenBlock else elseBlock) ∈
        s.current.terminator.successors := by
      rw [ht]
      split <;> simp [Ir.Terminator.successors]
    exact h.steady_jump hcode htarget
      (hstep.trans (by simp [terminate, hv, Value.test, bind, Except.bind]))
  | ret value =>
    rw [ht] at hready hstep
    cases value with
    | none =>
      have hvoid : ((none : Option Value).map Value.ty).getD .void = s.current.function.returns :=
        hready.symm
      exact h.steady_leave hvoid hstep
    | some o =>
      obtain ⟨_, v, hv, hty⟩ := hready
      have htyped : ((some v).map Value.ty).getD .void = s.current.function.returns := hty
      exact h.steady_leave htyped (hstep.trans (by simp [terminate, hv]))

section

variable {result : Option Operand} {callee : String} {operands : List Operand} {returns : Ir.Ty}
  {code : List Instruction} {x : External} {vs : List Value}

/-- The callee of a call is declared, and the arguments fit it. -/
theorem Sound.arguments (h : s.Sound callees m)
    (hcode : s.current.code = .call result callee operands returns :: code) :
    ∃ x vs, callees callee = some x ∧ operands.mapM (s.current.value m) = .ok vs ∧
      x.accepts vs.length = true ∧ Fit x.params vs := by
  obtain ⟨g, id, k, pre, hF, hp⟩ := h.current
  obtain ⟨x, hx, hacc, _, _, hargs⟩ := hp.legal hF hcode
  have hholds : ∀ o ∈ operands, ∃ ty, s.current.Holds m o ty := by
    intro o ho
    obtain ⟨n, hn⟩ := List.mem_iff_getElem?.mp ho
    obtain ⟨ty, hty, _⟩ := hargs n o hn
    exact ⟨ty, hp.holds hty⟩
  obtain ⟨vs, hvs, hall⟩ := arguments_of_holds hholds
  refine ⟨x, vs, hx, hvs, hall.length_eq ▸ hacc, fit_of_holds hall fun n o ty ho hpar => ?_⟩
  obtain ⟨ty', hty, hmem⟩ := hargs n o ho
  rw [hpar] at hmem
  obtain rfl := List.mem_singleton.mp hmem
  exact hp.holds hty

/-- Behind the call, the caller goes on with whatever the callee returns. -/
theorem Sound.resumes (h : s.Sound callees m)
    (hcode : s.current.code = .call result callee operands returns :: code)
    (hx : callees callee = some x) (value : Option Value)
    (hvalue : (value.map Value.ty).getD .void = x.returns) :
    ∃ a, Caller.resume ⟨result, { s.current with code := code }⟩ value = .ok a ∧
      a.function = s.current.function ∧ a.Running callees m := by
  obtain ⟨g, id, k, pre, hF, hp⟩ := h.current
  obtain ⟨x', hx', _, hret, hres, _⟩ := hp.legal hF hcode
  cases hx.symm.trans hx'
  cases result with
  | none => exact ⟨_, rfl, rfl, g, id, k, _, hF, hp.pass hcode rfl hp.meets.slots⟩
  | some o =>
    cases value with
    | none => exact absurd (hres.mpr (hret.trans hvalue.symm)) (by simp)
    | some v => exact ⟨_, rfl, rfl, g, id, k, _, hF, hp.define hF hcode rfl (hvalue.trans hret.symm)⟩

/-- A function of the module begins with the arguments in its slots. -/
theorem Sound.steady_function (h : s.Sound callees m) (hm : Sturdy callees m)
    (hcode : s.current.code = .call result callee operands returns :: code)
    (hx : callees callee = some x) (hvs : operands.mapM (s.current.value m) = .ok vs)
    (hacc : x.accepts vs.length = true) (hfit : Fit x.params vs) {G : Ir.Function}
    (hf : m.function? callee = some G) : s.Steady callees m := by
  have hresume := h.resumes hcode hx
  have hcallee := hm.named callee x hx
  simp only [Module.callee?, hf, Option.some.injEq] at hcallee
  subst hcallee
  obtain ⟨g, hG⟩ := hm.functions callee G hf
  have hcount : vs.length = (G.params.map (·.ty)).length := by
    simpa [External.accepts] using hacc
  obtain ⟨a, ha, haf, hrun⟩ := Activation.start_running hG (hfit.types hcount)
  have hstep := step_call hcode hvs
  simp only [call, hf, ha] at hstep
  refine .inl ⟨_, hstep, hrun, ?_⟩
  change Waits callees m a.function.returns _
  rw [haf]
  exact ⟨hresume, h.callers⟩

/-- A routine of the library gives its value at once, or takes as a string what is none. -/
theorem Sound.steady_routine (h : s.Sound callees m) (hm : Sturdy callees m)
    (hcode : s.current.code = .call result callee operands returns :: code)
    (hx : callees callee = some x) (hvs : operands.mapM (s.current.value m) = .ok vs)
    (hacc : x.accepts vs.length = true) (hfit : Fit x.params vs)
    (hf : m.function? callee = none) : s.Steady callees m := by
  have hproto := hm.library callee x hx hf
  have hname : x.name = callee := by simpa using List.find?_some hproto
  obtain ⟨routine, hr, hrname⟩ := routine_of_prototype (List.mem_of_find?_eq_some hproto)
  rw [hname] at hr hrname
  have hstep := step_call hcode hvs
  simp only [call, hf, hr] at hstep
  rcases served (c := s.console) (hrname.symm ▸ hproto) hacc hfit with
    ⟨v, c', hcall⟩ | ⟨hprint, text, args, i, v, rfl, hs, hv, hne, hcall⟩
  · obtain ⟨ext, hext, hty⟩ := Routine.ty_call hcall
    rw [hrname, hproto] at hext
    cases hext
    obtain ⟨a, ha, haf, hrun⟩ := h.resumes hcode hx (some v) hty
    simp only [hcall, ha] at hstep
    exact .inl ⟨_, hstep, hrun, by
      change Waits callees m a.function.returns s.callers
      rw [haf]
      exact h.callers⟩
  · simp only [hcall] at hstep
    refine .inr ⟨_, _, hstep, .wildAddress hcode ?_ hf hvs hs hv hne⟩
    rw [← hrname]
    rcases hprint with rfl | rfl
    · exact .inl rfl
    · exact .inr rfl

/-- A call enters a function with a certificate, or a routine that comes back at once. -/
theorem Sound.steady_call (h : s.Sound callees m) (hm : Sturdy callees m)
    (hcode : s.current.code = .call result callee operands returns :: code) :
    s.Steady callees m := by
  obtain ⟨x, vs, hx, hvs, hacc, hfit⟩ := h.arguments hcode
  cases hf : m.function? callee with
  | some G => exact h.steady_function hm hcode hx hvs hacc hfit hf
  | none => exact h.steady_routine hm hcode hx hvs hacc hfit hf

end

/-- A sound state steps to a sound state, or the execution may end in it. -/
theorem Sound.steady (h : s.Sound callees m) (hm : Sturdy callees m) : s.Steady callees m := by
  cases hcode : s.current.code with
  | nil => exact h.steady_end hm hcode
  | cons i code =>
    cases hcall : i.isCall with
    | false => exact h.steady_execute hcode hcall
    | true =>
      cases i with
      | call => exact h.steady_call hm hcode
      | alloca | load | store | binary | neg | cast => cases hcall

/-- A sound state is safe. -/
theorem Sound.safe (h : s.Sound callees m) (hm : Sturdy callees m) : s.Safe m where
  ready := h.ready hm
  ends ending console hend := by
    rcases h.steady hm with ⟨s', hs', _⟩ | ⟨e, c, he, hmay⟩
    · rw [hs'] at hend
      cases hend
    · rw [he] at hend
      cases hend
      exact hmay

/-- However many steps an execution takes, it stays sound. -/
theorem Sound.steps (h : s.Sound callees m) (hm : Sturdy callees m) {n : Nat} {t : State}
    (hn : Steps m n s t) : t.Sound callees m := by
  induction n generalizing s with
  | zero =>
    cases hn
    exact h
  | succ n ih =>
    obtain ⟨u, hu, hn⟩ := hn
    rcases h.steady hm with ⟨s', hs', hsound⟩ | ⟨e, c, he, _⟩
    · rw [hu] at hs'
      cases hs'
      exact ih hsound hn
    · rw [hu] at he
      cases he

end State

end Machine

namespace Lowering

open TreeLang.Tree (nestedFunctions FunctionDecl)
open Typing (Registry)
open Machine (Activation State Steps)

namespace Produced

variable {program : Tree.Block} {m : Ir.Module} {main : Ir.Function}

theorem sturdy (h : Produced program m main) : Machine.Sturdy (callees (registry program)) m where
  functions name F hF := h.sturdy_of_mem (List.mem_of_find?_eq_some hF)
  named name x hx := h.callee? hx
  library name x hx hnone := by
    unfold callees at hx
    split at hx
    · rename_i d hd
      have hname : d.name = name := by simpa using List.find?_some hd
      obtain ⟨F, hF, _⟩ := h.function? (List.mem_of_find?_eq_some hd)
      rw [hname, hnone] at hF
      cases hF
    · exact hx

end Produced

/-- Whatever program is lowered, type-checked or not, its executions never get stuck. Machine code is
made of the module in single assignment. -/
theorem lower_safe {program : Tree.Block} {name : String} {m : Ir.Module}
    (h : lower program name = .ok m) : Machine.RunsSafely m.single := by
  obtain ⟨main, hp⟩ := lower_produces h
  obtain ⟨hfind, hparams, hreturns⟩ := hp.entry_signature
  obtain ⟨g, hg⟩ := hp.sturdy_of_mem hp.entry.1
  have hargs : ([] : List Machine.Value).map Machine.Value.ty = main.params.map (·.ty) := by
    rw [hparams]
    rfl
  obtain ⟨a, ha, hf, hrun⟩ := Activation.start_running hg hargs
  rw [hp.single_eq_self]
  refine ⟨main, a, hfind, ha, fun console => ⟨fun fuel => ?_, fun n s hn => ?_⟩⟩
  · simp [Machine.execute, hparams, ha]
  · have hsound : State.Sound (callees (registry program)) m ⟨a, [], console⟩ :=
      ⟨hrun, by rw [hf, hreturns]; rfl⟩
    exact (hsound.steps hp.sturdy hn).safe hp.sturdy

/-- A function that divides by what it is called with, called with 0. -/
theorem lower_safe_division : ∃ m,
    lower [.function ⟨"share", [⟨"n", .int⟩], .int, [.ret (some (.binary .div (.int 1) (.ident "n")))]⟩,
      .expr (.call "share" [.int 0])] "division" = .ok m ∧ Machine.RunsSafely m.single := by
  have hok : (lower [.function ⟨"share", [⟨"n", .int⟩], .int,
      [.ret (some (.binary .div (.int 1) (.ident "n")))]⟩,
      .expr (.call "share" [.int 0])] "division").isOk = true := by decide +kernel
  cases h : lower [.function ⟨"share", [⟨"n", .int⟩], .int,
      [.ret (some (.binary .div (.int 1) (.ident "n")))]⟩,
      .expr (.call "share" [.int 0])] "division" with
  | error d =>
    rw [h] at hok
    cases hok
  | ok m => exact ⟨m, rfl, lower_safe h⟩

end Lowering

end TreeLang
