import TreeLang.Machine.Value
import TreeLang.Typing.Rules

namespace TreeLang.Meaning

open TreeLang.Tree (Ty BinaryOp)
open Machine (Fault Stored)

/-- Values of the language as a tree means them, whatever machine type holds them. A string has its
bytes and its place in memory; a variable for strings holds none at first. -/
inductive Value where
  | int (n : Int32)
  | double (x : Double)
  | string (text : Option Stored)
  deriving DecidableEq

namespace Value

def ty : Value → Ty
  | int _ => .int
  | double _ => .double
  | string _ => .string

/-- What a cell holds before anything is assigned to it. No cell is `void`. -/
def zero : Ty → Value
  | .int | .void => int 0
  | .double => double .zero
  | .string => string none

/-- The value where one of the type is expected. A double outside the range of an integer becomes the
nearest one. -/
def convert (v : Value) (target : Ty) : Except Fault Value :=
  match v, target with
  | int n, .int => .ok (int n)
  | int n, .double => .ok (double (.ofInt32 n))
  | double x, .int => .ok (int x.toInt32)
  | double x, .double => .ok (double x)
  | string text, .string => .ok (string text)
  | _, _ => .error .stuck

/-- A comparison gives the number 1 or 0 of the type that its operands are compared in. -/
def truth (ty : Ty) (b : Bool) : Value :=
  let n : Int32 := if b then 1 else 0
  if ty = .double then double (.ofInt32 n) else int n

def isTrue : Value → Except Fault Bool
  | int n => .ok (n ≠ 0)
  | double x => .ok (x.lt .zero || Double.zero.lt x)
  | string _ => .error .stuck

def negate : Value → Except Fault Value
  | int n => .ok (int (-n))
  | double x => .ok (double x.neg)
  | string _ => .error .stuck

def onInts (op : BinaryOp) (a b : Int32) : Except Fault Value :=
  match op with
  | .add => .ok (int (a + b))
  | .sub => .ok (int (a - b))
  | .mul => .ok (int (a * b))
  | .div =>
    if b = 0 ∨ (a = Int32.minValue ∧ b = -1) then .error .division else .ok (int (a / b))
  | .eq => .ok (truth .int (a = b))
  | .ne => .ok (truth .int (a ≠ b))
  | .gt => .ok (truth .int (b < a))
  | .ge => .ok (truth .int (b ≤ a))
  | .lt => .ok (truth .int (a < b))
  | .le => .ok (truth .int (a ≤ b))

def onDoubles (op : BinaryOp) (x y : Double) : Value :=
  match op with
  | .add => double (x.add y)
  | .sub => double (x.sub y)
  | .mul => double (x.mul y)
  | .div => double (x.div y)
  | .eq => truth .double (x.eq y)
  | .ne => truth .double (x.lt y || y.lt x)
  | .gt => truth .double (y.lt x)
  | .ge => truth .double (y.le x)
  | .lt => truth .double (x.lt y)
  | .le => truth .double (x.le y)

def binary (op : BinaryOp) : Value → Value → Except Fault Value
  | int a, int b => onInts op a b
  | int a, double y => .ok (onDoubles op (.ofInt32 a) y)
  | double x, int b => .ok (onDoubles op x (.ofInt32 b))
  | double x, double y => .ok (onDoubles op x y)
  | _, _ => .error .stuck

/-- What a word of the machine stands for in its own type. -/
def ofMachine : Machine.Value → Option Value
  | .bool _ => none
  | .i32 n => some (int n)
  | .f64 x => some (double x)
  | .ptr target => some (string target)

def toMachine : Value → Machine.Value
  | int n => .i32 n
  | double x => .f64 x
  | string text => .ptr text

theorem ty_of_ofMachine {x : Machine.Value} {v : Value} (h : ofMachine x = some v) :
    x.ty = v.ty.toIr := by
  cases x with
  | bool w => cases h
  | i32 n => cases h; rfl
  | f64 x => cases h; rfl
  | ptr target => cases h; rfl

/-- Every word but a comparison stands for one value. -/
theorem ofMachine_eq_some {x : Machine.Value} {v : Value} : ofMachine x = some v ↔ x = v.toMachine := by
  cases x <;> cases v <;> simp [ofMachine, toMachine]

end Value

end TreeLang.Meaning
