import TreeLang.Json.Member
import TreeLang.Listing.Style

namespace TreeLang

open Json (ReadError expect takeAll)

/-- Every setting has a default, so that a document needs only the members it changes. Members are taken
in the order of the text; they may also be given without their keys, as an array, which may end early.
-/
structure Settings where
  optimize : Bool
  /-- Whether the machine code of every function is shown while compiling. -/
  printCode : Bool
  /-- The object file that is written when no other is named. -/
  output : String
  listing : Listing.Style
  deriving DecidableEq

def Settings.default : Settings := ⟨false, false, "output.o", .default⟩

namespace Listing

/-- Reads a choice among named variants: the name alone, or the only member of an object, with its
value under the name. The end of the object is looked for last, so a member too many counts only
behind a choice that is good; anything else is not a value at this place. -/
def readChoice (read? : String → Option Json → Option α) : Json → Except ReadError α
  | .string name => expect (read? name none)
  | .object ((name, x) :: rest) => do
    let choice ← expect (read? name (some x))
    if rest.isEmpty then .ok choice else .error .malformed
  | _ => .error .malformed

def isUnit : Option Json → Bool
  | none | some .null => true
  | _ => false

def Indent.read? : String → Option Json → Option Indent
  | "Tabs", x => if isUnit x then some .tabs else none
  | "Spaces", some x => do
    let n ← x.int?
    if 0 ≤ n ∧ n < UInt64.size then some (.spaces n.toNat) else none
  | _, _ => none

def Indent.ofJson : Json → Except ReadError Indent :=
  readChoice Indent.read?

def Indent.toJson : Indent → Json
  | .tabs => .string "Tabs"
  | .spaces count => .object [("Spaces", .int count)]

def Detail.name : Detail → String
  | .quiet => "Quiet"
  | .normal => "Normal"
  | .verbose => "Verbose"
  | .debug => "Debug"

def Detail.read? (name : String) (x : Option Json) : Option Detail :=
  if isUnit x then all.find? (·.name == name) else none

def Detail.ofJson : Json → Except ReadError Detail :=
  readChoice Detail.read?

def Style.take (s : Style) (key : String) (x : Json) : Option (Except ReadError Style) :=
  match key with
  | "use_colors" => some ((expect x.bool?).map fun b => { s with colors := b })
  | "indent_style" => some ((Indent.ofJson x).map fun i => { s with indent := i })
  | "include_types" => some ((expect x.bool?).map fun b => { s with types := b })
  | "verbosity" => some ((Detail.ofJson x).map fun d => { s with detail := d })
  | _ => none

def Style.ofJson (j : Json) : Except ReadError Style :=
  takeAll take .default ["use_colors", "indent_style", "include_types", "verbosity"] j

def Style.toJson (s : Style) : Json :=
  .object [("use_colors", .bool s.colors), ("indent_style", s.indent.toJson),
    ("include_types", .bool s.types), ("verbosity", .string s.detail.name)]

end Listing

namespace Settings

def take (s : Settings) (key : String) (x : Json) : Option (Except ReadError Settings) :=
  match key with
  | "optimize" => some ((expect x.bool?).map fun b => { s with optimize := b })
  | "print_clif" => some ((expect x.bool?).map fun b => { s with printCode := b })
  | "output" => some ((expect x.string?).map fun path => { s with output := path })
  | "emitter" => some ((Listing.Style.ofJson x).map fun l => { s with listing := l })
  | _ => none

def ofJson (j : Json) : Except ReadError Settings :=
  takeAll take .default ["optimize", "print_clif", "output", "emitter"] j

def toJson (s : Settings) : Json :=
  .object [("optimize", .bool s.optimize), ("print_clif", .bool s.printCode),
    ("output", .string s.output), ("emitter", s.listing.toJson)]

/-- The members that the document of settings, or of the listing among them, does not have. -/
def isExtra : List String → Bool
  | [key] => (take .default key .null).isNone
  | [key, "emitter"] | [key, ""] => (Listing.Style.take .default key .null).isNone
  | _ => false

def ofText (text : String) : Except ReadError Settings :=
  Json.decodeText isExtra ofJson text

end Settings

end TreeLang
