
namespace TreeLang.Listing

inductive Indent where
  | spaces (count : Nat)
  | tabs
  deriving DecidableEq

def Indent.unit : Indent → String
  | .spaces count => String.ofList (List.replicate count ' ')
  | .tabs => "\t"

inductive Detail where
  | quiet
  | normal
  | verbose
  | debug
  deriving DecidableEq

namespace Detail

def all : List Detail := [quiet, normal, verbose, debug]

def rank : Detail → Nat
  | quiet => 0
  | normal => 1
  | verbose => 2
  | debug => 3

/-- Declarations, the string table, block labels, loop headers and the names of slots. -/
def annotates (d : Detail) : Bool := normal.rank ≤ d.rank

/-- Externals that nobody calls, and the predecessors of blocks. -/
def isVerbose (d : Detail) : Bool := verbose.rank ≤ d.rank

def numbers (d : Detail) : Bool := debug.rank ≤ d.rank

end Detail

structure Style where
  colors : Bool
  indent : Indent
  types : Bool
  detail : Detail
  deriving DecidableEq

def Style.default : Style := ⟨true, .spaces 4, true, .normal⟩

def Style.plain : Style := { Style.default with colors := false }

end TreeLang.Listing
