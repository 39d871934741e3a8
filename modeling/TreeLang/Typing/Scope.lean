import TreeLang.Tree.Basic

namespace TreeLang.Typing

open TreeLang.Tree (Ty)

/-- The names of one function with their types, and the type that the function returns. -/
structure Table where
  bindings : List (String × Ty)
  returns : Ty
  deriving DecidableEq

namespace Table

def empty (returns : Ty) : Table := ⟨[], returns⟩

def get? (t : Table) (name : String) : Option Ty :=
  t.bindings.lookup name

/-- The later of two bindings of a name holds. -/
def insert (t : Table) (name : String) (ty : Ty) : Table :=
  if t.bindings.any (·.1 == name) then
    { t with bindings := t.bindings.map fun b => if b.1 == name then (name, ty) else b }
  else { t with bindings := t.bindings ++ [(name, ty)] }

theorem returns_insert (t : Table) (name : String) (ty : Ty) :
    (t.insert name ty).returns = t.returns := by
  unfold insert
  split <;> rfl

end Table

/-- The table of the function at hand and those of the functions around it, nearest first. Each function
has one table for all its blocks; names that it does not bind are looked for in the functions around it.
-/
structure Scopes where
  inner : Table
  outer : List Table
  deriving DecidableEq

namespace Scopes

def ofReturns (returns : Ty) : Scopes := ⟨.empty returns, []⟩

def lookup (s : Scopes) (name : String) : Option Ty :=
  (s.inner :: s.outer).findSome? (·.get? name)

def declare (s : Scopes) (name : String) (ty : Ty) : Scopes :=
  { s with inner := s.inner.insert name ty }

def returns (s : Scopes) : Ty := s.inner.returns

def depth (s : Scopes) : Nat := s.outer.length + 1

def enter (s : Scopes) (returns : Ty) : Scopes := ⟨.empty returns, s.inner :: s.outer⟩

/-- Drops the innermost table; the last one stays. -/
def leave (s : Scopes) : Scopes :=
  match s.outer with
  | [] => s
  | t :: ts => ⟨t, ts⟩

end Scopes

end TreeLang.Typing
