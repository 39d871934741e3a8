import TreeLang.Proofs.Meaning.Library
import TreeLang.Proofs.Simulation.Values

namespace TreeLang.Machine

theorem Routine.call_print (c : Console) (format : Option Stored) (vs : List Value) :
    Routine.print.call c (.ptr format :: vs) =
      formatted c.host.address format vs >>= fun bytes =>
        .ok (.i32 (c.write bytes).1, (c.write bytes).2) := rfl

theorem Routine.call_println (c : Console) (format : Option Stored) (vs : List Value) :
    Routine.println.call c (.ptr format :: vs) =
      formatted c.host.address format vs >>= fun bytes =>
        .ok (.i32 (c.write (bytes ++ [0x0a])).1, (c.write (bytes ++ [0x0a])).2) := rfl

/-- A routine gives a value of the type that its prototype names. -/
theorem Routine.ty_call {routine : Routine} {c c' : Console} {vs : List Value} {x : Value}
    (h : routine.call c vs = .ok (x, c')) :
    ∃ ext, Ir.prototype? routine.name = some ext ∧ x.ty = ext.returns := by
  -- the split is on the arguments first, since each list of them suits few of the routines
  cases vs with
  | nil =>
    cases routine with
    | readi | readd | readline | pi => cases h; exact ⟨_, rfl, rfl⟩
    | _ => cases h
  | cons v vs =>
    cases v with
    | ptr format =>
      cases routine with
      | print | println =>
        simp only [call_print, call_println] at h
        cases hf : formatted c.host.address format vs with
        | error fault =>
          rw [hf] at h
          cases h
        | ok bytes =>
          rw [hf] at h
          cases h
          exact ⟨_, rfl, rfl⟩
      | _ => cases h
    | bool w => cases routine <;> cases h
    | i32 n =>
      cases vs with
      | nil =>
        cases routine with
        | printi => cases h; exact ⟨_, rfl, rfl⟩
        | _ => cases h
      | cons => cases routine <;> cases h
    | f64 y =>
      cases vs with
      | nil =>
        cases routine with
        | printd | fabs | sqrt | sin | cos => cases h; exact ⟨_, rfl, rfl⟩
        | _ => cases h
      | cons v vs =>
        cases v with
        | f64 z =>
          cases vs with
          | nil =>
            cases routine with
            | pow => cases h; exact ⟨_, rfl, rfl⟩
            | _ => cases h
          | cons => cases routine <;> cases h
        | bool | i32 | ptr => cases vs <;> cases routine <;> cases h

/-- Every prototype is that of a routine. -/
theorem routine_of_prototype {ext : Ir.External} (h : ext ∈ Ir.prototypes) :
    ∃ routine, Routine.ofName? ext.name = some routine ∧ routine.name = ext.name := by
  have hall : ∀ ext ∈ Ir.prototypes, ((Routine.ofName? ext.name).map Routine.name) =
      some ext.name := by
    decide
  exact Option.map_eq_some_iff.mp (hall ext h)

end TreeLang.Machine

namespace TreeLang.Simulation

open Machine (Console Routine Stored)
open Meaning (Value printed perform counted)

section

variable {address : Stored → UInt64}

/-- An integer that is widened with its sign is the integer modulo `2 ^ 64`. -/
theorem toUInt64_toInt64 (n : Int32) : n.toInt64.toUInt64 = UInt64.ofInt n.toInt := by
  apply UInt64.toNat_inj.mp
  have hword : n.toInt64.toUInt64.toNat = (n.toInt % 2 ^ 64).toNat := BitVec.toNat_ofInt n.toInt
  have hlt := Int.emod_lt_of_pos n.toInt (show (0 : Int) < 2 ^ 64 by decide)
  rw [hword, UInt64.ofInt, UInt64.toNat_ofNat', Nat.mod_eq_of_lt (by omega)]

/-- A trailing argument of a formatted print is passed as the same 64 bits that the tree means by it. -/
theorem cell_toMachine (v : Value) : v.toMachine.cell address = v.word address := by
  cases v with
  | int n => exact toUInt64_toInt64 n
  | double x => rfl
  | string text => cases text <;> rfl

theorem target?_toMachine (v : Value) : v.toMachine.target? = v.text? := by
  cases v <;> rfl

/-- The strings among the arguments are the same. -/
theorem targets_toMachine (vs : List Value) :
    (vs.map Value.toMachine).filterMap Machine.Value.target? = vs.filterMap Value.text? := by
  rw [List.filterMap_map]
  exact congrArg (List.filterMap · vs) (funext target?_toMachine)

theorem isText_eq (v : Value) :
    v.isText address = (v.toMachine.ty == .ptr || v.toMachine.cell address == 0) := by
  rw [cell_toMachine]
  cases v <;> rfl

theorem readable_toMachine (asked : List Bool) (vs : List Value) :
    Machine.readable address asked (vs.map Value.toMachine) =
      (asked.zip vs).all fun (asString, v) => !asString || v.isText address := by
  induction asked generalizing vs with
  | nil => rfl
  | cons asString asked ih =>
    cases vs with
    | nil => rfl
    | cons v vs =>
      simp only [List.map_cons, Machine.readable, ih, List.zip_cons_cons, List.all_cons, isText_eq,
        Bool.or_assoc]

/-- A formatted print writes on the machine what the tree says. -/
theorem formatted_toMachine (format : Option Stored) (vs : List Value) :
    Machine.formatted address format (vs.map Value.toMachine) = printed address format vs := by
  cases format with
  | none => rfl
  | some format =>
    have hcells : Machine.cells address (vs.map Value.toMachine) = vs.map (Value.word address) := by
      rw [Machine.cells, List.map_map]
      exact List.map_congr_left fun v _ => cell_toMachine v
    simp only [Machine.formatted, printed, readable_toMachine, targets_toMachine, hcells]

end

def held : Value × Console → Machine.Value × Console
  | (v, console) => (v.toMachine, console)

/-- A formatted print writes on the words of some values what it writes on the values, whatever it puts
behind the text. -/
theorem write_toMachine (console : Console) (format : Option Stored) (vs : List Value)
    (out : List UInt8 → List UInt8) :
    (Machine.formatted console.host.address format (vs.map Value.toMachine) >>= fun bytes =>
        .ok (.i32 (console.write (out bytes)).1, (console.write (out bytes)).2)) =
      ((printed console.host.address format vs).map fun bytes =>
        counted (console.write (out bytes))).map held := by
  rw [formatted_toMachine]
  cases printed console.host.address format vs with
  | error => rfl
  | ok bytes => rfl

theorem print_toMachine (console : Console) (format : Option Stored) (vs : List Value) :
    Routine.print.call console (.ptr format :: vs.map Value.toMachine) =
      (perform console .print (.string format :: vs)).map held := by
  have hperform : perform console .print (.string format :: vs) =
      (printed console.host.address format vs).map fun bytes =>
        counted (console.write bytes) := rfl
  rw [Routine.call_print, hperform]
  exact write_toMachine console format vs id

theorem println_toMachine (console : Console) (format : Option Stored) (vs : List Value) :
    Routine.println.call console (.ptr format :: vs.map Value.toMachine) =
      (perform console .println (.string format :: vs)).map held := by
  have hperform : perform console .println (.string format :: vs) =
      (printed console.host.address format vs).map fun bytes =>
        counted (console.write (bytes ++ [0x0a])) := rfl
  rw [Routine.call_println, hperform]
  exact write_toMachine console format vs (· ++ [0x0a])

/-- A routine does on words what the tree says of the values that they stand for. -/
theorem call_toMachine (routine : Routine) (console : Console) (vs : List Value) :
    routine.call console (vs.map Value.toMachine) = (perform console routine vs).map held := by
  cases vs with
  | nil => cases routine <;> rfl
  | cons v vs =>
    cases v with
    | string format =>
      cases routine with
      | print => exact print_toMachine console format vs
      | println => exact println_toMachine console format vs
      | _ => rfl
    | int n =>
      cases vs with
      | nil => cases routine <;> rfl
      | cons => cases routine <;> rfl
    | double x =>
      cases vs with
      | nil => cases routine <;> rfl
      | cons v vs =>
        -- only a power has a second operand, and nothing has a third
        cases vs <;> cases v <;> cases routine <;> rfl

/-- Words that hold values of the language are the words for these. -/
theorem eq_map_toMachine {xs : List Machine.Value} {vs : List Value}
    (h : xs.map Value.ofMachine = vs.map some) : xs = vs.map Value.toMachine := by
  induction xs generalizing vs with
  | nil =>
    cases vs with
    | nil => rfl
    | cons => cases h
  | cons x xs ih =>
    cases vs with
    | nil => cases h
    | cons v vs =>
      simp only [List.map_cons, List.cons.injEq] at h ⊢
      exact ⟨Value.ofMachine_eq_some.mp h.1, ih h.2⟩

/-- A call of the library does the same on both sides, and its value has the type of the
prototype. -/
theorem library_answers {ext : Ir.External} {routine : Routine} (console : Console)
    {xs : List Machine.Value} {vs : List Value} (hext : Ir.prototype? ext.name = some ext)
    (hr : Routine.ofName? ext.name = some routine) (hname : routine.name = ext.name)
    (h : xs.map Value.ofMachine = vs.map some) :
    Answers (fun x v => Value.ofMachine x.1 = some v.1 ∧ x.1.ty = ext.returns ∧ x.2 = v.2)
      (routine.call console xs) (Meaning.library console ext.name vs) := by
  unfold Meaning.library
  simp only [hr, eq_map_toMachine h, call_toMachine]
  cases hc : perform console routine vs with
  | error fault => rfl
  | ok result =>
    obtain ⟨v, c'⟩ := result
    have hcall : routine.call console (vs.map Value.toMachine) = .ok (v.toMachine, c') := by
      rw [call_toMachine, hc]
      rfl
    obtain ⟨ext', hext', hty⟩ := Routine.ty_call hcall
    rw [hname, hext] at hext'
    cases hext'
    exact ⟨Value.ofMachine_eq_some.mpr rfl, hty, rfl⟩

end TreeLang.Simulation
