import TreeLang.Diagnostic
import TreeLang.Ir.Assemble
import TreeLang.Ir.Single
import TreeLang.Machine.Activation

namespace TreeLang.Machine

open Ir (Operand Module)

/-- An activation that waits for a call, and where the result of the call goes. -/
structure Caller where
  result : Option Operand
  activation : Activation
  deriving DecidableEq

namespace Caller

/-- Goes on behind the call. A result that the caller does not want is dropped. -/
def resume (c : Caller) (value : Option Value) : Except Fault Activation :=
  match c.result, value with
  | none, _ => .ok c.activation
  | some result, some v => .ok (c.activation.define result v)
  | some _, none => .error .stuck

end Caller

/-- An execution between two instructions. Each call of a defined function has an activation of its own;
those that wait for it are kept aside. -/
structure State where
  current : Activation
  callers : List Caller
  console : Console

inductive Ending where
  | returned (value : Option Value)
  | failed (fault : Fault)
  deriving DecidableEq

def Ending.exit? : Ending → Option Int32
  | .returned value => value.bind Value.low?
  | .failed _ => none

/-- The next state, or the end and what the console holds then. -/
abbrev Progress := State ⊕ Ending × Console

namespace State

def fail (s : State) (fault : Fault) : Progress := .inr (.failed fault, s.console)

def proceed (s : State) : Except Fault Activation → Progress
  | .ok a => .inl { s with current := a }
  | .error fault => s.fail fault

def call (m : Module) (s : State) (result : Option Operand) (callee : String) (args : List Value) :
    Progress :=
  match m.function? callee with
  | some f =>
    match Activation.start f args with
    | .ok a => .inl { s with current := a, callers := ⟨result, s.current⟩ :: s.callers }
    | .error fault => s.fail fault
  | none =>
    match Routine.ofName? callee with
    | none => s.fail .stuck
    | some routine =>
      match routine.call s.console args with
      | .ok (v, console) =>
        { s with console := console }.proceed (Caller.resume ⟨result, s.current⟩ (some v))
      | .error fault => s.fail fault

/-- Ends the activation at hand with a value of the type that its function returns. -/
def leave (s : State) (value : Option Value) : Progress :=
  if (value.map Value.ty).getD .void = s.current.function.returns then
    match s.callers with
    | [] => .inr (.returned value, s.console)
    | c :: cs => { s with callers := cs }.proceed (c.resume value)
  else s.fail .stuck

def terminate (m : Module) (s : State) : Ir.Terminator → Progress
  | .jump target => s.proceed (s.current.jump target)
  | .branch condition thenBlock elseBlock =>
    s.proceed <| do
      let v ← s.current.value m condition
      s.current.jump (if ← v.test then thenBlock else elseBlock)
  | .ret none => s.leave none
  | .ret (some operand) =>
    match s.current.value m operand with
    | .ok v => s.leave (some v)
    | .error fault => s.fail fault
  | .unset => s.fail .stuck

/-- Executes the next instruction, or the terminator if none is left. -/
def step (m : Module) (s : State) : Progress :=
  match s.current.code with
  | [] => s.terminate m s.current.terminator
  | .call result callee operands _ :: code =>
    let s := { s with current := { s.current with code := code } }
    match operands.mapM (s.current.value m) with
    | .ok args => s.call m result callee args
    | .error fault => s.fail fault
  | i :: code => s.proceed ({ s.current with code := code }.execute m i)

/-- Takes at most `fuel` steps; nothing if the execution goes on behind them. -/
def run (m : Module) : Nat → State → Option (Ending × Console)
  | 0, _ => none
  | fuel + 1, s =>
    match s.step m with
    | .inl next => run m fuel next
    | .inr done => some done

end State

/-- Calls a function. Its parameters, if it has any, are zero. -/
def execute (m : Module) (fuel : Nat) (f : Ir.Function) (console : Console) :
    Option (Ending × Console) :=
  match Activation.start f (f.params.filterMap fun p => Value.zero? p.ty) with
  | .ok a => State.run m fuel ⟨a, [], console⟩
  | .error fault => some (.failed fault, console)

/-- Calls the entry function of a module that machine code can be made of, in single assignment. -/
def launch (m : Module) (fuel : Nat) (console : Console) :
    Except Ir.Error (Option (Ending × Console)) := do
  m.assemble
  let m := m.single
  match m.function? entryName with
  | some f => return execute m fuel f console
  | none => throw (.unknownFunction entryName)

end TreeLang.Machine
