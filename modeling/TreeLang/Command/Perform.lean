import TreeLang.Command.Arguments
import TreeLang.Compile
import TreeLang.Listing.Module
import TreeLang.Settings

namespace TreeLang.Command

structure Report where
  /-- Nothing if the program was killed. -/
  code : Option Nat
  stdout : String
  stderr : String
  /-- The file that was written. -/
  written : Option String
  deriving DecidableEq

namespace Report

def success (stdout : String) : Report := ⟨some 0, stdout, "", none⟩

def failure (stderr : String) : Report := ⟨some 1, "", stderr, none⟩

end Report

/-- The name of an outcome, in bold and bright if there are colours. -/
def outcomeText (color : Bool) (opening name : String) : String :=
  if color then Listing.colorize opening name else name

def green : String := "\x1b[1;92m"

def red : String := "\x1b[1;91m"

/-- The diagnostics of a failure, one per line, or else its message. -/
def failureText (color : Bool) (f : Failure) : String :=
  match f.diagnostics with
  | [] => "Error: " ++ f.message ++ "\n"
  | ds => String.join (ds.map fun d => outcomeText color red "error:" ++ " " ++ d.text ++ "\n")

def fileText (files : Files) (path : String) : Except Failure String :=
  (files.read path).mapError (.file path)

def settings (files : Files) (i : Invocation) : Except Failure Settings :=
  match i.config with
  | none => .ok .default
  | some path => do (Settings.ofText (← fileText files path)).mapError (.settings path)

/-- Switches win over the settings of the file. -/
def merge (i : Invocation) (s : Settings) : Settings where
  optimize := i.optimize || s.optimize
  printCode := i.printCode || s.printCode
  output := i.output.getD s.output
  listing := { s.listing with
    colors := s.listing.colors && !i.noColor
    detail := i.detail.getD s.listing.detail }

def load (files : Files) (i : Invocation) : Except Failure Tree.Block := do
  parse (← fileText files i.input)

def checkReport (color : Bool) (i : Invocation) (program : Tree.Block) : Report :=
  match typeCheck program with
  | .ok _ => .success (outcomeText color green "VALID" ++ " " ++ i.input ++ "\n")
  | .error f =>
    { Report.failure (failureText color f) with
      stdout := outcomeText color red "INVALID" ++ " " ++ i.input ++ "\n" }

/-- The exit code is the low byte of what the entry function returns. -/
def runReport (m : Ir.Module) (fuel : Nat) (console : Machine.Console) :
    Except Failure Report := do
  match ← execute m fuel console with
  | some (ending, console) =>
    return ⟨ending.exit?.map fun n => (n.toInt % 256).toNat, console.text, "", none⟩
  | none => return ⟨none, "", "", none⟩

def buildReport (files : Files) (color : Bool) (s : Settings) (m : Ir.Module) :
    Except Failure Report := do
  assemble m
  (files.write s.output).mapError (.file s.output)
  return { Report.success (outcomeText color green "SUCCESS:" ++ " wrote " ++ s.output ++ "\n") with
    written := some s.output }

def listingReport (color : Bool) (s : Settings) (m : Ir.Module) : Report :=
  .success (Listing.moduleText { s.listing with colors := s.listing.colors && color } m)

/-- Does what the command line asks for. `color` is whether the terminal shows colours, and a program
is run for at most `fuel` steps. -/
def perform (files : Files) (color : Bool) (console : Machine.Console) (fuel : Nat)
    (i : Invocation) : Report :=
  match settings files i with
  | .error f => .failure (failureText color f)
  | .ok s =>
    let s := merge i s
    match load files i with
    | .error _ => .failure ("Error: failed to load " ++ i.input ++ "\n")
    | .ok program =>
      let compiled (use : Ir.Module → Except Failure Report) : Report :=
        match compile program (pathStem i.input) >>= use with
        | .ok r => r
        | .error f => .failure (failureText color f)
      match i.action with
      | .check => checkReport color i program
      | .run => compiled fun m => runReport m fuel console
      | .build => compiled (buildReport files color s)
      | .emitIr => compiled fun m => .ok (listingReport color s m)
      | .ast => .success (Tree.programSource program)

end TreeLang.Command
