import TreeLang.Ir.Module
import TreeLang.Machine.Library

namespace TreeLang.Machine

open Ir (Operand Module Instruction)

/-- A function in execution: what is left of the block at hand, the values it has computed and its
slots. -/
structure Activation where
  function : Ir.Function
  code : List Instruction
  terminator : Ir.Terminator
  values : List (Operand × Value)
  slots : List (Nat × Value)
  deriving DecidableEq

/-- Sets the value of a key, in the place of its earlier value if it has one. -/
def update {α β : Type} [BEq α] (key : α) (value : β) : List (α × β) → List (α × β)
  | [] => [(key, value)]
  | b :: bs => if b.1 == key then (key, value) :: bs else b :: update key value bs

theorem lookup_update {α β : Type} [BEq α] [LawfulBEq α] (key : α) (value : β)
    (bs : List (α × β)) : (update key value bs).lookup key = some value := by
  induction bs with
  | nil => simp [update]
  | cons b bs ih =>
    obtain ⟨k, v⟩ := b
    by_cases h : k = key
    · simp [update, h]
    · have hk : (key == k) = false := by simpa using fun hk => h hk.symm
      simp [update, List.lookup_cons, h, hk, ih]

theorem lookup_update_other {α β : Type} [BEq α] [LawfulBEq α] {key other : α} (value : β)
    (bs : List (α × β)) (hne : other ≠ key) :
    (update key value bs).lookup other = bs.lookup other := by
  have hk : (other == key) = false := by simpa using hne
  induction bs with
  | nil => simp [update, List.lookup_cons, hk]
  | cons b bs ih =>
    obtain ⟨k, v⟩ := b
    by_cases h : k = key
    · simp [update, List.lookup_cons, h, hk]
    · cases hb : other == k <;> simp [update, List.lookup_cons, h, hb, ih]

namespace Activation

/-- The slot that an instruction makes, with the value that it has at first. -/
def zeroed? : Instruction → Option (Nat × Value)
  | .alloca slot ty _ => (Value.zero? ty).map (slot, ·)
  | _ => none

def zeroedSlots (f : Ir.Function) : List (Nat × Value) :=
  f.blocks.flatMap fun b => b.instructions.filterMap zeroed?

/-- A function begins with the first block that was made. -/
def start (f : Ir.Function) (args : List Value) : Except Fault Activation :=
  match f.blocks with
  | [] => .error .stuck
  | b :: _ =>
    if args.map Value.ty = f.params.map (·.ty) then
      .ok ⟨f, b.instructions, b.terminator, args.mapIdx fun i v => (.param i, v), zeroedSlots f⟩
    else .error .stuck

def value (m : Module) (a : Activation) : Operand → Except Fault Value
  | .constant c => .ok (.ofConstant c)
  | .str id =>
    match m.strings[id]? with
    | some text => .ok (.ofText id text)
    | none => .error .stuck
  | v =>
    match a.values.lookup v with
    | some x => .ok x
    | none => .error .stuck

def define (a : Activation) (result : Operand) (v : Value) : Activation :=
  { a with values := update result v a.values }

def jump (a : Activation) (target : Nat) : Except Fault Activation :=
  match a.function.block? target with
  | some b => .ok { a with code := b.instructions, terminator := b.terminator }
  | none => .error .stuck

/-- Executes an instruction that is no call. A slot takes values of one machine type, whatever type
the instruction names. -/
def execute (m : Module) (a : Activation) : Instruction → Except Fault Activation
  | .alloca slot ty _ =>
    match Value.zero? ty with
    | some v => .ok { a with slots := update slot v a.slots }
    | none => .error .stuck
  | .load result slot _ =>
    match a.slots.lookup slot with
    | some v => .ok (a.define result v)
    | none => .error .stuck
  | .store slot operand _ => do
    let v ← a.value m operand
    match a.slots.lookup slot with
    | some old =>
      if v.ty = old.ty then return { a with slots := update slot v a.slots } else throw .stuck
    | none => throw .stuck
  | .binary op result left right ty => do
    let l ← a.value m left
    let r ← a.value m right
    return a.define result (← binary op ty l r)
  | .neg result operand ty => do
    let v ← a.value m operand
    return a.define result (← negate ty v)
  | .cast result operand source target => do
    let v ← a.value m operand
    return a.define result (← cast source target v)
  | .call .. => .error .stuck

end Activation

end TreeLang.Machine
