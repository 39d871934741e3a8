import TreeLang.Lowering.Value
import TreeLang.Proofs.Meaning.Values
import TreeLang.Proofs.Typing.Rules

namespace TreeLang.Simulation

open TreeLang.Tree (Ty BinaryOp)
open Lowering (Typed)
open Machine (Fault)
open Meaning (Value)

/-- The word holds the value as the lowering says: a comparison is held as a truth value. -/
def Represents (t : Typed) (x : Machine.Value) (v : Value) : Prop :=
  v.ty = t.ty ∧
    if t.repr = .bool then ∃ b, x = .ofBool b ∧ v = .truth t.ty b else Value.ofMachine x = some v

def Answers {α β : Type} (R : α → β → Prop) : Except Fault α → Except Fault β → Prop
  | .ok x, .ok v => R x v
  | .error fault, .error fault' => fault = fault'
  | _, _ => False

theorem ofMachine_i32 {x : Machine.Value} {v : Value} (h : Value.ofMachine x = some v)
    (hty : v.ty = .int) : ∃ n, x = .i32 n ∧ v = .int n := by
  cases x with
  | i32 n => cases h; exact ⟨n, rfl, rfl⟩
  | bool | f64 | ptr => cases h <;> cases hty

theorem ofMachine_f64 {x : Machine.Value} {v : Value} (h : Value.ofMachine x = some v)
    (hty : v.ty = .double) : ∃ y, x = .f64 y ∧ v = .double y := by
  cases x with
  | f64 y => cases h; exact ⟨y, rfl, rfl⟩
  | bool | i32 | ptr => cases h <;> cases hty

/-- Only numbers are converted, and to numbers only. -/
theorem numeric_cases {ty : Ty} (h : ty.isNumeric = true) : ty = .int ∨ ty = .double := by
  cases ty with
  | int => exact .inl rfl
  | double => exact .inr rfl
  | string | void => cases h

theorem convert_self {v : Value} : v.convert v.ty = .ok v := by
  cases v <;> rfl

/-- A converted value has the type it was converted to. -/
theorem ty_convert {v u : Value} {target : Ty} (h : v.convert target = .ok u) : u.ty = target := by
  cases v <;> cases target <;> cases h <;> rfl

theorem widen_ofBool (b : Bool) :
    Machine.Value.widen (if b then 1 else 0) = if b then 1 else 0 := by
  cases b <;> rfl

/-- A truth value is widened to the number that the comparison gives. -/
theorem cast_truth {ty : Ty} (h : ty.isNumeric = true) (b : Bool) :
    ∃ y, Machine.cast .bool ty.toIr (.ofBool b) = .ok y ∧
      Value.ofMachine y = some (.truth ty b) := by
  rcases numeric_cases h with rfl | rfl
  · refine ⟨.i32 (Machine.Value.widen (if b then 1 else 0)), rfl, ?_⟩
    rw [widen_ofBool]
    rfl
  · refine ⟨.f64 (.ofInt32 (Machine.Value.widen (if b then 1 else 0))), rfl, ?_⟩
    rw [widen_ofBool]
    rfl

/-- A conversion between different numbers is the same on both sides. -/
theorem cast_convert {v : Value} {target : Ty} (hs : v.ty.isNumeric = true)
    (ht : target.isNumeric = true) (hne : v.ty ≠ target) :
    ∃ u, v.convert target = .ok u ∧ ∀ x, Value.ofMachine x = some v →
      ∃ y, Machine.cast v.ty.toIr target.toIr x = .ok y ∧ Value.ofMachine y = some u := by
  rcases numeric_cases hs with hv | hv <;> rcases numeric_cases ht with rfl | rfl
  · exact absurd hv hne
  · cases v <;> cases hv
    refine ⟨_, rfl, fun x hx => ?_⟩
    obtain ⟨n, rfl, ⟨rfl⟩⟩ := ofMachine_i32 hx rfl
    exact ⟨_, rfl, rfl⟩
  · cases v <;> cases hv
    refine ⟨_, rfl, fun x hx => ?_⟩
    obtain ⟨y, rfl, ⟨rfl⟩⟩ := ofMachine_f64 hx rfl
    exact ⟨_, rfl, rfl⟩
  · exact absurd hv hne

/-- Operations on integers fail for the same operands and agree on all others. -/
theorem onInts_represents (op : BinaryOp) (o : Ir.Operand) (a b : Int32) :
    Answers (Represents (if op.isComparison then .comparison o .int else .plain o .int))
      (Machine.onInts op.toIr a b) (Value.onInts op a b) := by
  cases op with
  | div =>
    by_cases hdiv : b = 0 ∨ (a = Int32.minValue ∧ b = -1)
    · simp only [Tree.BinaryOp.toIr, Machine.onInts, Machine.onWords, Value.onInts, if_pos hdiv]
      rfl
    · simp only [Tree.BinaryOp.toIr, Machine.onInts, Machine.onWords, Value.onInts, if_neg hdiv]
      exact ⟨rfl, rfl⟩
  | add | sub | mul => exact ⟨rfl, rfl⟩
  | eq | ne | gt | ge | lt | le => exact ⟨rfl, _, rfl, rfl⟩

theorem onDoubles_represents (op : BinaryOp) (o : Ir.Operand) (x y : Double) :
    Represents (if op.isComparison then .comparison o .double else .plain o .double)
      (Machine.onDoubles op.toIr x y) (Value.onDoubles op x y) := by
  cases op with
  | add | sub | mul | div => exact ⟨rfl, rfl⟩
  | eq | ne | gt | ge | lt | le => exact ⟨rfl, _, rfl, rfl⟩

/-- Converting both operands to the type of the expression first changes nothing. -/
theorem binary_convert {op : BinaryOp} {l r l' r' : Value} {ty : Ty}
    (hty : Typing.binaryType op l.ty r.ty = .ok ty) (hl : l.convert ty = .ok l')
    (hr : r.convert ty = .ok r') : Value.binary op l r = Value.binary op l' r' := by
  obtain ⟨hnl, hnr, rfl⟩ := Typing.binaryType_eq_ok.mp hty
  cases l with
  | string => cases hnl
  | int a => cases r <;> cases hnr <;> cases hl <;> cases hr <;> rfl
  | double x => cases r <;> cases hnr <;> cases hl <;> cases hr <;> rfl

/-- An operation of the machine on numbers of one type is that of the language. -/
theorem binary_represents (op : BinaryOp) (o : Ir.Operand) {ty : Ty} (hty : ty.isNumeric = true)
    {x y : Machine.Value} {l r : Value} (hx : Value.ofMachine x = some l)
    (hy : Value.ofMachine y = some r) (hl : l.ty = ty) (hr : r.ty = ty) :
    Answers (Represents (if op.isComparison then .comparison o ty else .plain o ty))
      (Machine.binary op.toIr ty.toIr x y) (Value.binary op l r) := by
  rcases numeric_cases hty with rfl | rfl
  · obtain ⟨a, rfl, rfl⟩ := ofMachine_i32 hx hl
    obtain ⟨b, rfl, rfl⟩ := ofMachine_i32 hy hr
    exact onInts_represents op o a b
  · obtain ⟨a, rfl, rfl⟩ := ofMachine_f64 hx hl
    obtain ⟨b, rfl, rfl⟩ := ofMachine_f64 hy hr
    exact onDoubles_represents op o a b

theorem negate_represents {v : Value} (hty : v.ty.isNumeric = true) :
    ∃ u, v.negate = .ok u ∧ u.ty = v.ty ∧ ∀ x, Value.ofMachine x = some v →
      ∃ y, Machine.negate v.ty.toIr x = .ok y ∧ Value.ofMachine y = some u := by
  rcases numeric_cases hty with hv | hv
  · cases v <;> cases hv
    refine ⟨_, rfl, rfl, fun x hx => ?_⟩
    obtain ⟨n, rfl, ⟨rfl⟩⟩ := ofMachine_i32 hx rfl
    exact ⟨_, rfl, rfl⟩
  · cases v <;> cases hv
    refine ⟨_, rfl, rfl, fun x hx => ?_⟩
    obtain ⟨y, rfl, ⟨rfl⟩⟩ := ofMachine_f64 hx rfl
    exact ⟨_, rfl, rfl⟩

/-- The number that a comparison gives is a condition that holds where the comparison does. -/
theorem isTrue_truth {ty : Ty} (h : ty.isNumeric = true) (b : Bool) :
    (Value.truth ty b).isTrue = .ok b := by
  rcases numeric_cases h with rfl | rfl
  · cases b <;> rfl
  · have hone : ((Double.ofInt32 1).lt .zero || Double.zero.lt (Double.ofInt32 1)) = true := by
      decide +kernel
    have hzero : ((Double.ofInt32 0).lt .zero || Double.zero.lt (Double.ofInt32 0)) = false := by
      decide +kernel
    cases b with
    | false => exact congrArg Except.ok hzero
    | true => exact congrArg Except.ok hone

/-- A number that is tested is compared with zero. -/
theorem isTrue_int {v : Value} (hty : v.ty = .int) :
    ∃ b, v.isTrue = .ok b ∧ ∀ x, Value.ofMachine x = some v →
      Machine.binary .ne .i32 x (.i32 0) = .ok (.ofBool b) := by
  cases v <;> cases hty
  refine ⟨_, rfl, fun x hx => ?_⟩
  obtain ⟨n, rfl, ⟨rfl⟩⟩ := ofMachine_i32 hx rfl
  rfl

theorem isTrue_double {v : Value} (hty : v.ty = .double) :
    ∃ b, v.isTrue = .ok b ∧ ∀ x, Value.ofMachine x = some v →
      Machine.binary .ne .f64 x (.f64 .zero) = .ok (.ofBool b) := by
  cases v <;> cases hty
  refine ⟨_, rfl, fun x hx => ?_⟩
  obtain ⟨y, rfl, ⟨rfl⟩⟩ := ofMachine_f64 hx rfl
  rfl

end TreeLang.Simulation
