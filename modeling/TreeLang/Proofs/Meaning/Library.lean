import TreeLang.Machine.Library
import TreeLang.Proofs.Meaning.Values

namespace TreeLang.Meaning

open Machine (Fault Console Routine Stored textAt)

namespace Value

/-- What a formatted print gets of the value, in 64 bits: an integer modulo `2 ^ 64`, the pattern of a
double, or the address of a string, which is 0 for none. -/
def word (address : Stored → UInt64) : Value → UInt64
  | int n => .ofInt n.toInt
  | double x => x.bits
  | string text => (text.map address).getD 0

def text? : Value → Option Stored
  | string text => text
  | int _ | double _ => none

/-- Whether the value is read where a string is asked for: a string is, and so is a number without a
bit set, as the address of none. -/
def isText (address : Stored → UInt64) (v : Value) : Bool :=
  v.ty == .string || v.word address == 0

end Value

def printed (address : Stored → UInt64) (format : Option Stored) (args : List Value) :
    Except Fault (List UInt8) :=
  match format with
  | none => .ok []
  | some format =>
    let asked := (Format.stringArguments (Format.pieces format.bytes)).zip args
    if asked.all fun (asString, v) => !asString || v.isText address then
      .ok (Format.render (textAt address (args.filterMap Value.text?)) format.bytes
        (args.map (Value.word address)))
    else .error .wildAddress

def counted : Int32 × Console → Value × Console
  | (n, console) => (.int n, console)

/-- Performs a function of the library on its arguments. -/
def perform (console : Console) : Routine → List Value → Except Fault (Value × Console)
  | .printi, [.int n] => .ok (counted (console.printInt n))
  | .printd, [.double x] => .ok (counted (console.printDouble x))
  | .print, .string format :: args =>
    (printed console.host.address format args).map fun bytes => counted (console.write bytes)
  | .println, .string format :: args =>
    (printed console.host.address format args).map fun bytes =>
      counted (console.write (bytes ++ [0x0a]))
  | .readi, [] => .ok (.int (Scan.int32 console.readLine.1), console.readLine.2)
  | .readd, [] => .ok (.double (Scan.double console.readLine.1), console.readLine.2)
  | .readline, [] => .ok (.string (some console.readText.1), console.readText.2)
  | .pi, [] => .ok (.double .pi, console)
  | .fabs, [.double x] => .ok (.double x.abs, console)
  | .pow, [.double x, .double y] => .ok (.double (x.pow y), console)
  | .sqrt, [.double x] => .ok (.double x.sqrt, console)
  | .sin, [.double x] => .ok (.double x.sin, console)
  | .cos, [.double x] => .ok (.double x.cos, console)
  | _, _ => .error .stuck

def library (console : Console) (name : String) (args : List Value) :
    Except Fault (Value × Console) :=
  match Routine.ofName? name with
  | none => .error .stuck
  | some routine => perform console routine args

end TreeLang.Meaning
