import TreeLang.Listing.Style

namespace TreeLang.Listing

inductive Role where
  | keyword
  | label
  | comment
  | literal
  | symbol
  deriving DecidableEq

/-- The sequence that switches the colour of the role on. -/
def Role.opening : Role → String
  | .keyword => "\x1b[1;34m"
  | .label => "\x1b[33m"
  | .comment => "\x1b[32m"
  | .literal => "\x1b[35m"
  | .symbol => "\x1b[36m"

def closing : String := "\x1b[0m"

/-- The text with the colour switched on again wherever it switches colours off itself. -/
def reopen (opening : List Char) : List Char → List Char
  | '\x1b' :: '[' :: '0' :: 'm' :: cs =>
    '\x1b' :: '[' :: '0' :: 'm' :: (opening ++ reopen opening cs)
  | c :: cs => c :: reopen opening cs
  | [] => []

theorem reopen_eq_self {opening cs : List Char} (h : '\x1b' ∉ cs) : reopen opening cs = cs := by
  fun_induction reopen opening cs with
  | case1 cs ih => simp at h
  | case2 c cs _ ih => rw [ih fun hc => h (List.mem_cons_of_mem _ hc)]
  | case3 => rfl

def colorize (opening text : String) : String :=
  opening ++ String.ofList (reopen opening.toList text.toList) ++ closing

structure Pen where
  level : Nat
  unit : String
  colors : Bool
  deriving DecidableEq

namespace Pen

def initial : Pen := ⟨0, "    ", true⟩

def ofStyle (s : Style) : Pen := ⟨0, s.indent.unit, s.colors⟩

def indent (p : Pen) : Pen := { p with level := p.level + 1 }

/-- The outermost level stays where it is. -/
def dedent (p : Pen) : Pen := { p with level := p.level - 1 }

def margin (p : Pen) : String :=
  String.join (List.replicate p.level p.unit)

def paint (p : Pen) (role : Role) (text : String) : String :=
  if p.colors then colorize role.opening text else text

def line (p : Pen) (text : String) : String :=
  p.margin ++ text ++ "\n"

def comment (p : Pen) (text : String) : String :=
  p.line (p.paint .comment ("; " ++ text))

def annotated (p : Pen) (text : String) : Option String → String
  | none => p.line text
  | some comment => p.line (text ++ "  " ++ p.paint .comment ("; " ++ comment))

def opening (p : Pen) (header : String) : String :=
  p.line (header ++ " \x7b")

def closing (p : Pen) : String :=
  p.line "\x7d"

end Pen

end TreeLang.Listing
