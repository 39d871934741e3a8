import TreeLang.Proofs.Simulation.Functions

namespace TreeLang

def Meaning.Ending.toMachine : Meaning.Ending → Machine.Ending
  | .exit code => .returned (some (.i32 code))
  | .trap fault => .failed fault

namespace Simulation

open TreeLang.Tree (Ty FunctionDecl nestedFunctions)
open Machine (Activation State Steps Finishes Console)
open Lowering
open Meaning

variable {program : Tree.Block} {m : Ir.Module} {main : Ir.Function}

def invocation (program : Tree.Block) (n : Nat) : FunctionDecl → List Value → Console → Answer :=
  invoke (registry program) (literalsBefore program) n

/-- Calls are served if each compiled function ends as its call does. -/
theorem serves_of_stops (h : Produced program m main) (hbegun : Begun program m) {returns : Ty}
    {n : Nat} (hstops : ∀ (decl : FunctionDecl) G xs vs,
      Compiled (registry program) (literalsBefore program decl.name) decl.name decl.params decl.returns
        decl.body .value m.strings G →
      xs.map Value.ofMachine = vs.map some → vs.map (·.ty) = decl.params.map (·.ty) →
      ∃ a, Activation.start G xs = .ok a ∧ ∀ cs console, Stops m G cs n ⟨a, cs, console⟩
        (ended (invocation program n decl vs console).1) (invocation program n decl vs console).2) :
    Serves m ⟨registry program, returns, n, invocation program n⟩ where
  declared decl hdecl := by
    obtain ⟨G, hG, hcompiled⟩ := hbegun decl hdecl
    exact ⟨G, hG, hcompiled.certified.2.2.1, fun xs vs => hstops decl G xs vs hcompiled⟩
  library name ext := h.function?_prototype

/-- Calls end as the language says, whatever the bound on their depth: the callees of a function are
called with a lesser one. -/
theorem serves_invoke (h : Produced program m main) (hbegun : Begun program m) (returns : Ty)
    (n : Nat) : Serves m ⟨registry program, returns, n, invocation program n⟩ := by
  induction n generalizing returns with
  | zero =>
    apply serves_of_stops h hbegun
    intro decl G xs vs hcompiled hxs hvs
    obtain ⟨g, hg⟩ := hcompiled.sturdy
    obtain ⟨a, ha, _⟩ := Activation.start_running hg (types_of_arguments hcompiled hxs hvs)
    exact ⟨a, ha, fun cs console => ⟨0, _, Nat.le_refl 0, .refl m _⟩⟩
  | succ n ih =>
    apply serves_of_stops h hbegun
    intro decl G xs vs hcompiled hxs hvs
    exact stops_function (ih decl.returns) hcompiled .value hxs hvs

/-- A function that returns an integer and has no caller ends the program with it. -/
theorem Returning.exits {v : Option Value} {console : Console} {s : State}
    (h : Returning m main [] v console s) (hty : main.returns = .i32) :
    ∃ n, v = some (.int n) ∧ s.step m = .inr (.returned (some (.i32 n)), console) := by
  obtain ⟨x, hx, hret⟩ := h.leaves
  rw [hty] at hret
  cases x with
  | none =>
    cases v with
    | none => cases hret
    | some => exact hret.elim
  | some x =>
    cases v with
    | none => exact hret.elim
    | some v =>
      obtain ⟨n, rfl⟩ := Machine.eq_i32_of_ty hret.2
      cases hret.1
      refine ⟨n, rfl, ?_⟩
      rw [hx, State.leave, h.function, hty, h.callers, h.console]
      rfl

/-- Within a bound the tree ends as the machine does, or the machine takes more steps than that. -/
theorem run_or_steps (h : Produced program m main) (hbegun : Begun program m) {a : Activation}
    (ha : Activation.start main [] = .ok a) (bound : Nat) (console : Console) :
    (∃ e rest, Meaning.run program bound console = some (e, rest) ∧
      Finishes m ⟨a, [], console⟩ (e.toMachine, rest)) ∨
    (Meaning.run program bound console = none ∧
      ∃ k s, bound < k ∧ Steps m k ⟨a, [], console⟩ s) := by
  have hnone : ([] : List Machine.Value).map Value.ofMachine = ([] : List Value).map some := rfl
  obtain ⟨a', ha', hstops⟩ := stops_function (serves_invoke h hbegun .int bound) h.entry.2.2 (.zero rfl)
    hnone rfl
  cases ha.symm.trans ha'
  have hstops : Stops m main [] (bound + 1) ⟨a, [], console⟩
      (ended (evalEntry program bound console).1) (evalEntry program bound console).2 :=
    hstops [] console
  unfold Meaning.run
  generalize evalEntry program bound console = answer at hstops
  obtain ⟨halt | v, rest⟩ := answer
  · cases halt with
    | failed fault =>
      obtain ⟨k, s, hk, hs⟩ := hstops
      exact .inl ⟨.trap fault, rest, rfl, hk.finishes hs⟩
    | exhausted => exact .inr ⟨rfl, hstops⟩
  · obtain ⟨k, s, hk, hret⟩ := hstops
    obtain ⟨n, rfl, hs⟩ := hret.exits h.entry_signature.2.2
    exact .inl ⟨.exit n, rest, rfl, hk.finishes hs⟩

/-- The machine is done in the end just where the tree ends, and as it ends. -/
theorem finishes_iff_run (h : Produced program m main) (hbegun : Begun program m) {a : Activation}
    (ha : Activation.start main [] = .ok a) {console : Console} {done : Machine.Ending × Console} :
    Finishes m ⟨a, [], console⟩ done ↔ ∃ bound e rest,
      Meaning.run program bound console = some (e, rest) ∧ done = (e.toMachine, rest) := by
  constructor
  · intro hdone
    obtain ⟨fuel, hfuel⟩ := hdone
    -- a machine that is done within so many steps takes no more
    rcases run_or_steps h hbegun ha fuel console with ⟨e, rest, hrun, hfin⟩ | ⟨_, k, s, hk, hsteps⟩
    · exact ⟨fuel, e, rest, hrun, Finishes.unique ⟨fuel, hfuel⟩ hfin⟩
    · rw [hsteps.run_eq_none (Nat.le_of_lt hk)] at hfuel
      cases hfuel
  · intro hrun
    obtain ⟨bound, e, rest, hrun, rfl⟩ := hrun
    rcases run_or_steps h hbegun ha bound console with ⟨e', rest', hrun', hfin⟩ | ⟨hnone, _⟩
    · cases hrun.symm.trans hrun'
      exact hfin
    · rw [hrun] at hnone
      cases hnone

end Simulation

namespace Lowering

/-- Whatever program is lowered, its entry function does what the tree says. It ends just where the
tree does, with the same result, the same output and the same input left over, and goes on for ever
just where the tree does. Machine code is made of the module in single assignment. -/
theorem lower_preserves {program : Tree.Block} {name : String} {m : Ir.Module}
    (h : lower program name = .ok m) : ∃ main, m.single.function? entryName = some main ∧
      ∀ console,
        (∀ done, (∃ fuel, Machine.execute m.single fuel main console = some done) ↔
          ∃ bound e rest, Meaning.run program bound console = some (e, rest) ∧
            done = (e.toMachine, rest)) ∧
        ((∀ fuel, Machine.execute m.single fuel main console = none) ↔
          ∀ bound, Meaning.run program bound console = none) := by
  obtain ⟨main, hp⟩ := lower_produces h
  obtain ⟨hfind, hparams, _⟩ := hp.entry_signature
  obtain ⟨g, hg⟩ := hp.sturdy_of_mem hp.entry.1
  have hargs : ([] : List Machine.Value).map Machine.Value.ty = main.params.map (·.ty) := by
    rw [hparams]
    rfl
  obtain ⟨a, ha, _⟩ := Machine.Activation.start_running hg hargs
  rw [hp.single_eq_self]
  have hrun : ∀ fuel console,
      Machine.execute m fuel main console = Machine.State.run m fuel ⟨a, [], console⟩ := by
    intro fuel console
    simp [Machine.execute, hparams, ha]
  have hends : ∀ console done, (∃ fuel, Machine.execute m fuel main console = some done) ↔
      ∃ bound e rest, Meaning.run program bound console = some (e, rest) ∧
        done = (e.toMachine, rest) := by
    intro console done
    simp only [hrun]
    exact Simulation.finishes_iff_run hp (Simulation.lower_begun h) ha
  refine ⟨main, hfind, fun console => ⟨hends console, ?_⟩⟩
  constructor
  · intro hnone bound
    cases hb : Meaning.run program bound console with
    | none => rfl
    | some done =>
      obtain ⟨fuel, hfuel⟩ := (hends console _).mpr ⟨bound, done.1, done.2, hb, rfl⟩
      rw [hnone fuel] at hfuel
      cases hfuel
  · intro hnone fuel
    cases hf : Machine.execute m fuel main console with
    | none => rfl
    | some done =>
      obtain ⟨bound, e, rest, hb, _⟩ := (hends console done).mp ⟨fuel, hf⟩
      rw [hnone bound] at hb
      cases hb

/-- Adds up the numbers that a loop counts down. The name `k` is declared anew where control does not
come, so it denotes a cell behind that which is still 0. -/
def countdown : Tree.Block :=
  [.var "n" .int (some (.int 3)), .var "k" .int (some (.int 7)), .var "sum" .int none,
    .loop [] (.ident "n") [.assign "n" (.binary .sub (.ident "n") (.int 1))]
      [.expr (.assign "sum" (.binary .add (.ident "sum") (.ident "n")))],
    .ite (.int 0) [.var "k" .int (some (.int 1))] none,
    .ret (some (.binary .add (.ident "sum") (.ident "k")))]

theorem lower_preserves_countdown : ∃ m main, lower countdown "countdown" = .ok m ∧
    m.single.function? entryName = some main ∧ ∀ console, ∃ fuel,
      Machine.execute m.single fuel main console = some (.returned (some (.i32 6)), console) := by
  have hok : (lower countdown "countdown").isOk = true := by decide +kernel
  have hrun : ∀ console, Meaning.run countdown 4 console = some (.exit 6, console) := fun _ => rfl
  cases h : lower countdown "countdown" with
  | error d =>
    rw [h] at hok
    cases hok
  | ok m =>
    obtain ⟨main, hmain, hruns⟩ := lower_preserves h
    refine ⟨m, main, rfl, hmain, fun console => ?_⟩
    exact ((hruns console).1 _).mpr ⟨4, .exit 6, console, hrun console, rfl⟩

end Lowering

end TreeLang
