import TreeLang.Listing.Style

namespace TreeLang.Command

inductive Switch where
  | config
  | verbose
  | printCode
  | output
  | optimize
  | showCode
  | noColor
  | detail
  deriving DecidableEq

namespace Switch

def all : List Switch := [config, verbose, printCode, output, optimize, showCode, noColor, detail]

def long : Switch → String
  | config => "config"
  | verbose => "verbose"
  | printCode => "print-clif"
  | output => "output"
  | optimize => "optimize"
  | showCode => "clif"
  | noColor => "no-color"
  | detail => "detail"

def ofShort? : Char → Option Switch
  | 'v' => some verbose
  | 'o' => some output
  | 'O' => some optimize
  | _ => none

def ofLong? (name : String) : Option Switch :=
  all.find? (·.long == name)

def takesValue : Switch → Bool
  | config | output | detail => true
  | verbose | printCode | optimize | showCode | noColor => false

/-- Whether the switch may be given more than once on one side of the action. -/
def repeats (s : Switch) : Bool := s == verbose

end Switch

inductive Action where
  | check
  | run
  | build
  | emitIr
  | ast
  deriving DecidableEq

namespace Action

def ofName? : String → Option Action
  | "check" => some check
  | "run" => some run
  | "build" => some build
  | "emit-ir" => some emitIr
  | "ast" => some ast
  | _ => none

def admits : Action → Switch → Bool
  | _, .config | _, .verbose => true
  | .run, .printCode | .build, .printCode => true
  | .build, .output | .build, .optimize => true
  | .emitIr, .showCode | .emitIr, .noColor | .emitIr, .detail => true
  | _, _ => false

end Action

structure Draft where
  action : Option Action
  input : Option String
  /-- The switches behind the action and their values, the last one first. -/
  switches : List (Switch × String)
  /-- Those before the action, which give way to the others. -/
  early : List (Switch × String)
  /-- A switch whose value is the next word. -/
  pending : Option Switch
  /-- Whether the switches have been ended. -/
  ended : Bool

namespace Draft

def empty : Draft := ⟨none, none, [], [], none, false⟩

/-- Before the action is known only the switches of every action may stand. -/
def admits (d : Draft) (s : Switch) : Bool :=
  match d.action with
  | some a => a.admits s
  | none => s == .config || s == .verbose

def add (d : Draft) (s : Switch) (value : String) : Option Draft :=
  if d.admits s && (s.repeats || (d.switches.lookup s).isNone) then
    some { d with switches := (s, value) :: d.switches, pending := none }
  else none

/-- A switch whose value, if it takes one, is still to come. -/
def addName (d : Draft) (s : Switch) : Option Draft :=
  if s.takesValue then some { d with pending := some s } else d.add s ""

/-- Single-letter switches in one word; the value of one may be the rest of the word. -/
def addLetters (d : Draft) : List Char → Option Draft
  | [] => some d
  | c :: cs => do
    let s ← Switch.ofShort? c
    if s.takesValue then
      match cs with
      | [] => d.addName s
      | '=' :: value => d.add s (String.ofList value)
      | value => d.add s (String.ofList value)
    else (← d.add s "").addLetters cs

def addLong (d : Draft) (cs : List Char) : Option Draft := do
  let s ← Switch.ofLong? (String.ofList (cs.takeWhile (· != '=')))
  match cs.dropWhile (· != '=') with
  | [] => d.addName s
  | _ :: value => if s.takesValue then d.add s (String.ofList value) else none

def addPositional (d : Draft) (word : String) : Option Draft :=
  match d.action, d.input with
  | none, _ =>
    (Action.ofName? word).map fun a =>
      { d with action := some a, switches := [], early := d.switches }
  | some _, none => some { d with input := some word }
  | some _, some _ => none

def addWord (d : Draft) (word : String) : Option Draft :=
  match d.pending, d.ended, word.toList with
  | some s, _, cs => if cs.head? = some '-' ∧ cs ≠ ['-'] then none else d.add s word
  | none, true, _ => d.addPositional word
  | none, false, ['-', '-'] => some { d with ended := true }
  | none, false, '-' :: '-' :: cs => d.addLong cs
  | none, false, '-' :: c :: cs => d.addLetters (c :: cs)
  | none, false, _ => d.addPositional word

end Draft

/-- The words of a command line: the name of an action, the file it works on, and switches, which may
stand anywhere among them. Two dashes alone end the switches. -/
structure Invocation where
  action : Action
  input : String
  config : Option String
  output : Option String
  optimize : Bool
  printCode : Bool
  noColor : Bool
  detail : Option Listing.Detail
  deriving DecidableEq

def detailOfName? : String → Option Listing.Detail
  | "quiet" => some .quiet
  | "normal" => some .normal
  | "verbose" => some .verbose
  | "debug" => some .debug
  | _ => none

def Draft.finish (d : Draft) : Option Invocation := do
  if d.pending.isSome then failure
  let given (s : Switch) : Bool := (d.switches.lookup s).isSome
  let config := (d.switches.lookup .config).or (d.early.lookup .config)
  let detail ←
    match d.switches.lookup .detail with
    | none => some none
    | some name => (detailOfName? name).map some
  return {
    action := ← d.action
    input := ← d.input
    config := config
    output := d.switches.lookup .output
    optimize := given .optimize
    printCode := given .printCode
    noColor := given .noColor
    detail := detail }

def Invocation.ofWords (words : List String) : Option Invocation := do
  (← words.foldlM Draft.addWord .empty).finish

end TreeLang.Command
