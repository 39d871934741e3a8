import Mathlib.Data.List.Forall2
import TreeLang.Proofs.Simulation.Cells
import TreeLang.Proofs.Simulation.Library

namespace TreeLang

namespace Simulation

open TreeLang.Tree (Ty Expr Stmt FunctionDecl)
open Typing (Registry Callee coercible)
open Ir (Knowledge)
open Machine (Activation Caller State Steps Fault Console Routine)
open Lowering
open Lower
open Meaning (Value World Eval Env Names Stop Halt)

variable {r : Registry} {g : Knowledge} {c c' : Context} {m : Ir.Module} {F : Ir.Function}
  {cs : List Caller} {w : World} {s s' : State} {t : Typed} {u : Option Typed} {v : Value}
  {env : Env} {callee : Callee}

/-- An argument is converted like the value it is passed for. -/
theorem advance_argument (hs : Sound r g c) (hfit : t.Fits r g c) {index : Nat} {o : Ir.Operand}
    (h : Gives (argument callee index t) c o c') (hF : Stays m F c')
    (hp : Point F cs c.top.builder w s) (hv : Denotes m (temps c) s t v) :
    ∃ u, Gives (Eval.argument callee.params[index]? v) w u w ∧
      (∀ ty ∈ callee.params[index]?, u.ty = ty) ∧
      Advances m F cs c c' s w (Bears m (temps c') · o u) := by
  rcases gives_argument.mp h with ⟨ty, hty, _, hco⟩ | ⟨hnone, hm⟩
  · obtain ⟨u, hu, hadv⟩ := advance_coerce hs hfit hco hF hp hv
    refine ⟨u, ?_, ?_, hadv⟩
    · simp [Eval.argument, hty, hu, Eval.attempt]
    · simpa [hty] using ty_convert hu
  · refine ⟨v, ?_, ?_, advance_materialize hs hfit hm hF hp hv⟩
    · simp [Eval.argument, hnone]
    · simp [hnone]

def Suited : List Ty → List Value → Prop
  | ty :: tys, v :: vs => v.ty = ty ∧ Suited tys vs
  | _, _ => True

theorem Suited.types {tys : List Ty} {vs : List Value} (h : Suited tys vs)
    (hlen : vs.length = tys.length) : vs.map (·.ty) = tys := by
  induction tys generalizing vs with
  | nil => simpa using hlen
  | cons ty tys ih =>
    cases vs with
    | nil => cases hlen
    | cons v vs => simp [h.1, ih h.2 (Nat.succ.inj hlen)]

theorem suited_cons {tys : List Ty} {index : Nat} {vs : List Value}
    (hv : ∀ ty ∈ tys[index]?, v.ty = ty) (h : Suited (tys.drop (index + 1)) vs) :
    Suited (tys.drop index) (v :: vs) := by
  by_cases hlt : index < tys.length
  · rw [List.drop_eq_getElem_cons hlt]
    exact ⟨hv _ (List.getElem?_eq_getElem hlt), h⟩
  · rw [List.drop_eq_nil_of_le (Nat.le_of_not_lt hlt)]
    trivial

def BearsAll (m : Ir.Module) (n : Nat) (s : State) (os : List Ir.Operand) (vs : List Value) : Prop :=
  List.Forall₂ (Bears m n s) os vs

/-- Where each operand holds a value, the words of the call are those of the values. -/
theorem BearsAll.values {n : Nat} {os : List Ir.Operand} {vs : List Value}
    (h : BearsAll m n s os vs) :
    ∃ xs, os.mapM (s.current.value m) = .ok xs ∧ xs.map Value.ofMachine = vs.map some := by
  induction h with
  | nil => exact ⟨[], rfl, rfl⟩
  | cons hb _ ih =>
    obtain ⟨_, x, hx, hval⟩ := hb
    obtain ⟨xs, hxs, hvals⟩ := ih
    refine ⟨x :: xs, ?_, by simp [hval, hvals]⟩
    rw [List.mapM_cons, hx, hxs]
    rfl

def ended : Except Halt (Option Value) → Stop
  | .ok v => .returned v
  | .error halt => .halted halt

/-- The module has what calls name, and a call of a declared function ends as `env` says: where its
bound is too small, the machine takes as many steps as loops may go round. -/
structure Serves (m : Ir.Module) (env : Env) : Prop where
  declared : ∀ decl, env.registry.get? decl.name = some decl →
    ∃ G, m.function? decl.name = some G ∧ G.returns = decl.returns.toIr ∧
      ∀ xs vs, xs.map Value.ofMachine = vs.map some → vs.map (·.ty) = decl.params.map (·.ty) →
        ∃ a, Activation.start G xs = .ok a ∧ ∀ cs console,
          Stops m G cs env.rounds ⟨a, cs, console⟩ (ended (env.invoke decl vs console).1)
            (env.invoke decl vs console).2
  library : ∀ name ext, env.registry.get? name = none → Ir.prototype? name = some ext →
    m.function? name = none

/-- The call comes next, and its result goes where the lowering says. -/
theorem call_next (hs : Sound r g c) {args : List Ir.Operand} (h : Gives (call callee args) c u c')
    (hF : Stays m F c') (hp : Point F cs c.top.builder w s) :
    ∃ result code, s.current.code = .call result callee.name args callee.returns.toIr :: code ∧
      Stands F c'.top.builder { s.current with code := code } ∧
      ((callee.returns = .void ∧ u = none ∧ result = none) ∨
        (callee.returns ≠ .void ∧ u = some (.plain (.temp (temps c)) callee.returns) ∧
          result = some (.temp (temps c)) ∧ temps c < temps c')) := by
  rcases gives_call.mp h with ⟨hvoid, rfl, ha⟩ | ⟨hne, o, rfl, hd⟩
  · obtain ⟨code, hcode, hstands⟩ := append_next hs ha rfl hF hp
    rw [hvoid]
    exact ⟨none, code, hcode, hstands, .inl ⟨rfl, rfl, rfl⟩⟩
  · obtain ⟨rfl, hlt, code, hcode, hstands⟩ := define_next hs hd (fun _ => rfl) hF hp
    exact ⟨_, code, hcode, hstands, .inr ⟨hne, rfl, rfl, hlt⟩⟩

/-- What comes back from a call goes where the lowering says. -/
theorem call_back {a : Activation} {console : Console} {result : Option Ir.Operand}
    {x : Option Machine.Value} {v : Option Value} (hp : Point F cs c.top.builder w s)
    (hstands : Stands F c'.top.builder a) (hvalues : a.values = s.current.values)
    (hslots : a.slots = s.current.slots) (hx : Returned callee.returns.toIr x v)
    (hresult : (callee.returns = .void ∧ u = none ∧ result = none) ∨
      (callee.returns ≠ .void ∧ u = some (.plain (.temp (temps c)) callee.returns) ∧
        result = some (.temp (temps c)) ∧ temps c < temps c')) :
    ∃ a', Caller.resume ⟨result, a⟩ x = .ok a' ∧
      Arrived m F cs c c' s { w with console := console } ⟨a', cs, console⟩ ∧
      Yields m (temps c') ⟨a', cs, console⟩ u v := by
  have hsame : ∀ o, a.value m o = s.current.value m o := by
    intro o
    cases o with
    | constant | str => rfl
    | temp | param => simp [Activation.value, hvalues]
  rcases hresult with ⟨hvoid, rfl, rfl⟩ | ⟨hne, rfl, rfl, hlt⟩
  · rw [hvoid] at hx
    obtain rfl := hx.none_of_void
    refine ⟨a, rfl, ⟨⟨hstands, rfl, rfl, hp.types, hslots ▸ hp.cells⟩, ?_⟩, trivial⟩
    exact fun o _ => hsame o
  · obtain ⟨y, v, rfl, rfl, hval, hty⟩ := hx.some_of_ne hne
    refine ⟨a.define (.temp (temps c)) y, rfl, ⟨⟨?_, rfl, rfl, hp.types, hslots ▸ hp.cells⟩, ?_⟩, ?_⟩
    · exact hstands.congr rfl rfl rfl
    · exact fun o ho => (Activation.value_define_below a y ho).trans (hsame o)
    · exact denotes_plain ⟨hlt, y, Activation.value_define_self a _ y, hval⟩ hty

/-- A function that returns goes on in its caller. -/
theorem Returning.resumes {G : Ir.Function} {caller : Caller} {v : Option Value} {console : Console}
    (h : Returning m G (caller :: cs) v console s) : ∃ x, Returned G.returns x v ∧
      s.step m = ({ s with callers := cs } : State).proceed (caller.resume x) := by
  obtain ⟨x, hx, hret⟩ := h.leaves
  refine ⟨x, hret, ?_⟩
  have hty : (x.map Machine.Value.ty).getD .void = s.current.function.returns := by
    rw [h.function]
    cases x with
    | none =>
      cases v with
      | none => exact hret.symm
      | some => cases hret
    | some =>
      cases v with
      | none => cases hret
      | some => exact hret.2
  rw [hx, State.leave, if_pos hty, h.callers]

theorem gives_call_declared {decl : FunctionDecl} {vs : List Value} {v : Option Value}
    {console : Console} (h : env.invoke decl vs w.console = (.ok v, console)) :
    Gives (Eval.call env (.declared decl) vs) w v { w with console := console } := by
  unfold Eval.call
  refine gives_bind.mpr ⟨w, w, gives_get.mpr ⟨rfl, rfl⟩, ?_⟩
  simp [h, Eval.answer]

theorem fails_call_declared {decl : FunctionDecl} {vs : List Value} {halt : Halt}
    {console : Console} (h : env.invoke decl vs w.console = (.error halt, console)) :
    Fails (Eval.call env (.declared decl) vs) w (.halted halt) { w with console := console } := by
  unfold Eval.call
  refine fails_bind.mpr (.inr ⟨w, w, gives_get.mpr ⟨rfl, rfl⟩, ?_⟩)
  simp [h, Eval.answer]

/-- A call of a declared function goes on, stops or takes its time as the evaluation of its body does.
-/
theorem follows_declared (hserve : Serves m env) {decl : FunctionDecl} {vs : List Value}
    {xs : List Machine.Value} {result : Option Ir.Operand} {a : Activation}
    {P : Option Value → World → State → Prop} (hdecl : env.registry.get? decl.name = some decl)
    (hxs : xs.map Value.ofMachine = vs.map some) (hvs : vs.map (·.ty) = decl.params.map (·.ty))
    (hcallers : s.callers = cs) (hconsole : s.console = w.console)
    (hstep : s.step m = ({ s with current := a } : State).call m result decl.name xs)
    (hback : ∀ x v console, Returned decl.returns.toIr x v → ∃ a',
      Caller.resume ⟨result, a⟩ x = .ok a' ∧ P v { w with console := console } ⟨a', cs, console⟩) :
    Follows m F cs (env.rounds + 1) s w (Eval.call env (.declared decl) vs) P := by
  obtain ⟨G, hG, hreturns, hinvoke⟩ := hserve.declared decl hdecl
  obtain ⟨b, hb, hstops⟩ := hinvoke xs vs hxs hvs
  simp only [State.call, hG, hb, hconsole, hcallers] at hstep
  have hstops := hstops (⟨result, a⟩ :: cs) w.console
  cases hans : env.invoke decl vs w.console with
  | mk answer console =>
    rw [hans] at hstops
    cases answer with
    | ok v =>
      obtain ⟨k, s', hk, hret⟩ := hstops
      obtain ⟨x, hx, hleave⟩ := hret.resumes
      obtain ⟨a', ha', hP⟩ := hback x v console (hreturns ▸ hx)
      rw [ha', hret.console] at hleave
      exact follows_of_gives (gives_call_declared hans)
        ⟨1 + k + 1, _, ((Steps.one hstep).trans hk).trans (.one hleave), hP⟩
    | error halt =>
      exact follows_of_fails (fails_call_declared hans)
        (Stops.after (.one hstep) (Stops.halted hstops) (by omega))

theorem gives_call_library {ext : Ir.External} {vs : List Value} {v : Value} {console : Console}
    (h : Meaning.library w.console ext.name vs = .ok (v, console)) :
    Gives (Eval.call env (.external ext) vs) w (some v) { w with console := console } := by
  unfold Eval.call
  refine gives_bind.mpr ⟨w, w, gives_get.mpr ⟨rfl, rfl⟩, ?_⟩
  simp [h, Eval.answer]

theorem fails_call_library {ext : Ir.External} {vs : List Value} {fault : Fault}
    (h : Meaning.library w.console ext.name vs = .error fault) :
    Fails (Eval.call env (.external ext) vs) w (.halted (.failed fault)) w := by
  unfold Eval.call
  refine fails_bind.mpr (.inr ⟨w, w, gives_get.mpr ⟨rfl, rfl⟩, ?_⟩)
  simp [h, Eval.fail]

theorem prototype_returns : ∀ x ∈ Ir.prototypes, x.returns ≠ .void ∧ x.returns ≠ .bool := by
  decide

/-- A call of the library goes on with the same value and the same console, or ends with the same fault.
-/
theorem follows_library (hserve : Serves m env) {name : String} {ext : Ir.External}
    {vs : List Value} {xs : List Machine.Value} {result : Option Ir.Operand} {a : Activation}
    {P : Option Value → World → State → Prop} {bound : Nat}
    (hname : env.registry.get? name = none) (hext : Ir.prototype? name = some ext)
    (hxs : xs.map Value.ofMachine = vs.map some) (hcallers : s.callers = cs)
    (hconsole : s.console = w.console)
    (hstep : s.step m = ({ s with current := a } : State).call m result ext.name xs)
    (hback : ∀ x v console, Returned ext.returns x v → ∃ a',
      Caller.resume ⟨result, a⟩ x = .ok a' ∧ P v { w with console := console } ⟨a', cs, console⟩) :
    Follows m F cs bound s w (Eval.call env (.external ext) vs) P := by
  have hmem := List.mem_of_find?_eq_some hext
  have heq : ext.name = name := by simpa using List.find?_some hext
  subst heq
  obtain ⟨routine, hroutine, hrname⟩ := Machine.routine_of_prototype hmem
  have hans := library_answers w.console hext hroutine hrname hxs
  simp only [State.call, hserve.library ext.name ext hname hext, hroutine, hconsole] at hstep
  cases hcall : routine.call w.console xs with
  | error fault =>
    cases hlib : Meaning.library w.console ext.name vs with
    | error fault' =>
      rw [hcall, hlib] at hans
      cases hans
      rw [hcall] at hstep
      refine follows_of_fails (fails_call_library hlib) ⟨0, s, .refl m s, ?_⟩
      rw [hstep, ← hconsole]
      rfl
    | ok =>
      rw [hcall, hlib] at hans
      cases hans
  | ok answer =>
    obtain ⟨x, console⟩ := answer
    cases hlib : Meaning.library w.console ext.name vs with
    | error =>
      rw [hcall, hlib] at hans
      cases hans
    | ok answer =>
      obtain ⟨v, console'⟩ := answer
      rw [hcall, hlib] at hans
      obtain ⟨hval, hty, rfl⟩ := hans
      obtain ⟨a', ha', hP⟩ := hback (some x) (some v) console ⟨hval, hty⟩
      simp only [hcall, ha', hcallers] at hstep
      exact follows_of_gives (gives_call_library hlib) ⟨1, _, .one hstep, hP⟩

/-- A call does what the language says of the callee, and its result goes where the lowering says. -/
theorem follows_call (hserve : Serves m env) (hs : Sound r g c) (hr : env.registry = r)
    {name : String} (hcallee : Callee.resolve r Ir.prototype? name = .ok callee)
    {args : List Ir.Operand} {vs : List Value} (hacc : callee.accepts args.length = true)
    (h : Gives (call callee args) c u c') (hF : Stays m F c') (hp : Point F cs c.top.builder w s)
    (hargs : BearsAll m (temps c) s args vs) (hsuit : Suited callee.params vs) :
    Follows m F cs (env.rounds + 1) s w (Eval.call env callee vs) fun v w' s' =>
      Arrived m F cs c c' s w' s' ∧ Yields m (temps c') s' u v := by
  subst hr
  obtain ⟨xs, hvalues, hxs⟩ := hargs.values
  obtain ⟨result, code, hcode, hstands, hresult⟩ := call_next hs h hF hp
  have hstep := State.step_call hcode hvalues
  have hback : ∀ x v (console : Console), Returned callee.returns.toIr x v → ∃ a',
      Caller.resume ⟨result, { s.current with code := code }⟩ x = .ok a' ∧
        Arrived m F cs c c' s { w with console := console } ⟨a', cs, console⟩ ∧
        Yields m (temps c') ⟨a', cs, console⟩ u v :=
    fun x v console hx => call_back hp hstands rfl rfl hx hresult
  unfold Callee.resolve at hcallee
  cases hdecl : env.registry.get? name with
  | some decl =>
    rw [hdecl] at hcallee
    cases hcallee
    have hname : decl.name = name := by simpa using List.find?_some hdecl
    have hlen : vs.length = (decl.params.map (·.ty)).length := by
      have hacc : args.length = decl.params.length := by simpa [Callee.accepts] using hacc
      rw [← List.Forall₂.length_eq hargs, hacc, List.length_map]
    exact follows_declared hserve (hname ▸ hdecl) hxs (hsuit.types hlen) hp.callers hp.console hstep
      hback
  | none =>
    rw [hdecl] at hcallee
    cases hext : Ir.prototype? name with
    | none =>
      rw [hext] at hcallee
      cases hcallee
    | some ext =>
      rw [hext] at hcallee
      cases hcallee
      have hbool := (prototype_returns ext (List.mem_of_find?_eq_some hext)).2
      apply follows_library hserve hdecl hext hxs hp.callers hp.console hstep
      intro x v console hx
      apply hback
      rw [show (Callee.external ext).returns.toIr = ext.returns from Ty.toIr_ofIr hbool]
      exact hx

end Simulation

end TreeLang
