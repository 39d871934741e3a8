import TreeLang.Machine.Console
import TreeLang.Machine.Value

namespace TreeLang.Machine

inductive Routine where
  | printi
  | printd
  | print
  | println
  | readi
  | readd
  | readline
  | pi
  | fabs
  | pow
  | sqrt
  | sin
  | cos
  deriving DecidableEq

namespace Routine

def all : List Routine :=
  [printi, printd, print, println, readi, readd, readline, pi, fabs, pow, sqrt, sin, cos]

def name : Routine → String
  | printi => "printi"
  | printd => "printd"
  | print => "print"
  | println => "println"
  | readi => "readi"
  | readd => "readd"
  | readline => "readline"
  | pi => "pi"
  | fabs => "fabs"
  | pow => "pow"
  | sqrt => "sqrt"
  | sin => "sin"
  | cos => "cos"

def ofName? (name : String) : Option Routine :=
  all.find? (·.name == name)

end Routine

/-- The cell of an argument: a truth value is widened to 64 bits without a sign, an integer with one, a
double keeps its bits, and a string is known by its address, 0 being the address of none. -/
def Value.cell (address : Stored → UInt64) : Value → UInt64
  | .bool w => w.toUInt8.toUInt64
  | .i32 w => w.toInt64.toUInt64
  | .f64 x => x.bits
  | .ptr none => 0
  | .ptr (some text) => address text

def cells (address : Stored → UInt64) (args : List Value) : List UInt64 :=
  args.map (Value.cell address)

def Value.target? : Value → Option Stored
  | .ptr target => target
  | .bool _ | .i32 _ | .f64 _ => none

/-- The bytes at an address where one of the strings lies; 0 is the address of none. -/
def textAt (address : Stored → UInt64) (texts : List Stored) (a : UInt64) : List UInt8 :=
  if a = 0 then Text.bytes "(null)"
  else ((texts.find? fun text => address text == a).map (·.bytes)).getD []

/-- Where strings lie apart, an address leads back to the string that lies there. -/
theorem textAt_address {address : Stored → UInt64} {texts : List Stored} {text : Stored}
    (hm : text ∈ texts) (hne : address text ≠ 0)
    (hapart : ∀ other ∈ texts, address other = address text → other = text) :
    textAt address texts (address text) = text.bytes := by
  rw [textAt, if_neg hne]
  cases hf : texts.find? fun other => address other == address text with
  | none => simpa using List.find?_eq_none.mp hf text hm
  | some other =>
    have hat : address other = address text := by simpa using List.find?_some hf
    rw [hapart other (List.mem_of_find?_eq_some hf) hat]
    rfl

/-- Whether every argument that is taken as a string is one, or is the address of none. -/
def readable (address : Stored → UInt64) : List Bool → List Value → Bool
  | asString :: bs, v :: vs =>
    (!asString || v.ty == .ptr || v.cell address == 0) && readable address bs vs
  | _, _ => true

def formatted (address : Stored → UInt64) (format : Option Stored) (args : List Value) :
    Except Fault (List UInt8) :=
  match format with
  | none => .ok []
  | some format =>
    if readable address (Format.stringArguments (Format.pieces format.bytes)) args then
      .ok (Format.render (textAt address (args.filterMap Value.target?)) format.bytes
        (cells address args))
    else .error .wildAddress

namespace Console

def printInt (c : Console) (n : Int32) : Int32 × Console :=
  c.write (Text.bytes (toString n.toInt ++ "\n"))

def printDouble (c : Console) (x : Double) : Int32 × Console :=
  c.write (Format.render (fun _ => []) (Text.bytes "%f\n") [x.bits])

/-- The line as a string at a place of its own. A NUL inside it leaves nothing. -/
def readText (c : Console) : Stored × Console :=
  let (line, next) := c.readLine
  (⟨.line c.lines, if '\x00' ∈ line then [] else Text.encode line⟩, next)

end Console

def Routine.call (c : Console) : Routine → List Value → Except Fault (Value × Console)
  | .printi, [.i32 n] =>
    let (count, c) := c.printInt n
    .ok (.i32 count, c)
  | .printd, [.f64 x] =>
    let (count, c) := c.printDouble x
    .ok (.i32 count, c)
  | .print, .ptr format :: args => do
    let (count, c) := c.write (← formatted c.host.address format args)
    return (.i32 count, c)
  | .println, .ptr format :: args => do
    let (count, c) := c.write ((← formatted c.host.address format args) ++ [0x0a])
    return (.i32 count, c)
  | .readi, [] =>
    let (line, c) := c.readLine
    .ok (.i32 (Scan.int32 line), c)
  | .readd, [] =>
    let (line, c) := c.readLine
    .ok (.f64 (Scan.double line), c)
  | .readline, [] =>
    let (text, c) := c.readText
    .ok (.ptr (some text), c)
  | .pi, [] => .ok (.f64 .pi, c)
  | .fabs, [.f64 x] => .ok (.f64 x.abs, c)
  | .pow, [.f64 x, .f64 y] => .ok (.f64 (x.pow y), c)
  | .sqrt, [.f64 x] => .ok (.f64 x.sqrt, c)
  | .sin, [.f64 x] => .ok (.f64 x.sin, c)
  | .cos, [.f64 x] => .ok (.f64 x.cos, c)
  | _, _ => .error .stuck

end TreeLang.Machine
