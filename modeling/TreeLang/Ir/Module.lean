import TreeLang.Ir.Error

namespace TreeLang.Ir.Module

def empty (name : String) : Module := ⟨name, [], [], []⟩

def function? (m : Module) (name : String) : Option Function :=
  m.functions.find? (·.name == name)

def external? (m : Module) (name : String) : Option External :=
  m.externals.find? (·.name == name)

/-- Declares an external, in the place of an earlier one of its name. A defined function stays. -/
def declare (m : Module) (e : External) : Module :=
  if m.functions.any (·.name == e.name) then m
  else if m.externals.any (·.name == e.name) then
    { m with externals := m.externals.map fun d => if d.name == e.name then e else d }
  else { m with externals := m.externals ++ [e] }

def withPrototypes (name : String) : Module :=
  prototypes.foldl declare (empty name)

/-- Adds a function, which takes the place of an external of its name. -/
def define (m : Module) (f : Function) : Except Error Module :=
  if m.functions.any (·.name == f.name) then .error (.duplicateFunction f.name)
  else
    .ok { m with
      functions := m.functions ++ [f]
      externals := m.externals.filter (·.name != f.name) }

def addString (m : Module) (text : String) : Nat × Module :=
  (m.strings.length, { m with strings := m.strings ++ [text] })

theorem externals_withPrototypes (name : String) : (withPrototypes name).externals = prototypes := by
  simp [withPrototypes, prototypes, declare, empty]

end TreeLang.Ir.Module
