
namespace TreeLang

inductive FileFault where
  | missing
  /-- A step leads through a file. -/
  | notFolder
  /-- A folder stands where a file is wanted. -/
  | folder
  | longName
  | nulByte
  | other (message : String)
  deriving DecidableEq

def FileFault.message : FileFault → String
  | missing => "No such file or directory (os error 2)"
  | notFolder => "Not a directory (os error 20)"
  | folder => "Is a directory (os error 21)"
  | longName => "File name too long (os error 36)"
  | nulByte => "file name contained an unexpected NUL byte"
  | other message => message

structure Files where
  read : String → Except FileFault String
  /-- Whether the file can be written. -/
  write : String → Except FileFault Unit

/-- The steps of a path. Slashes that follow each other count as one. -/
def pathSteps (path : String) : List String :=
  (path.splitOn "/").filter (· != "")

/-- The name of the file without its last extension; a leading dot begins no extension. -/
def pathStem (path : String) : String :=
  match ((pathSteps path).filter (· != ".")).getLast? with
  | none | some ".." => "main"
  | some name =>
    match (name.splitOn ".").dropLast with
    | [] | [""] => name
    | parts => String.intercalate "." parts

/-- A step has at most 255 bytes. -/
def checkStep (name : String) : Except FileFault Unit :=
  if 255 < name.utf8ByteSize then .error .longName else .ok ()

/-- Where a path leads: below the directory that it begins in, below the root of all folders, or to
the folders between, of which nothing is known. -/
inductive Spot where
  | inside (steps : List String)
  | outside (steps : List String)
  | between
  deriving DecidableEq

namespace Spot

def child (spot : Spot) (name : String) : Spot :=
  match spot with
  | inside steps => inside (steps ++ [name])
  | outside steps => outside (steps ++ [name])
  | between => between

def parent : Spot → Spot
  | inside [] | between => between
  | inside steps => inside steps.dropLast
  | outside steps => outside steps.dropLast

end Spot

/-- The files below the directory at hand, and those that are known below the root. -/
structure Directory where
  inner : List (List String × String)
  outer : List (List String × String)

namespace Directory

/-- Besides the files given there is the empty file that swallows what is written to it. -/
def ofFiles (files : List (String × String)) : Directory where
  inner := files.map fun f => ((pathSteps f.1).filter (· != "."), f.2)
  outer := [(["dev", "null"], "")]

def content? (d : Directory) : Spot → Option String
  | .inside steps => d.inner.lookup steps
  | .outside steps => d.outer.lookup steps
  | .between => none

/-- All that leads to a file is a folder. -/
def leadsOn (files : List (List String × String)) (steps : List String) : Bool :=
  files.any fun f => steps.isPrefixOf f.1 && steps.length < f.1.length

def isFolder (d : Directory) : Spot → Bool
  | .inside steps => steps.isEmpty || leadsOn d.inner steps
  | .outside steps => steps.isEmpty || leadsOn d.outer steps
  | .between => false

def enter (d : Directory) (spot : Spot) (name : String) : Except FileFault Spot :=
  match name with
  | "." => .ok spot
  | ".." => .ok spot.parent
  | name => do
    checkStep name
    let next := spot.child name
    if d.isFolder next then return next
    else if (d.content? next).isSome then throw .notFolder
    else throw .missing

/-- The folder that a path leads into, and the name behind it, if it is one. -/
def approach (d : Directory) (path : String) : Except FileFault (Spot × Option String) := do
  if '\x00' ∈ path.toList then throw .nulByte
  if path.isEmpty then throw .missing
  if 4096 ≤ path.utf8ByteSize then throw .longName
  let start := if path.startsWith "/" then Spot.outside [] else .inside []
  let spot ← (pathSteps path).dropLast.foldlM d.enter start
  match (pathSteps path).getLast? with
  | none | some "." | some ".." => return (spot, none)
  | some name => return (spot, some name)

/-- A slash behind the name of a file asks for a folder. -/
def read (d : Directory) (path : String) : Except FileFault String := do
  match ← d.approach path with
  | (_, none) => throw .folder
  | (spot, some name) =>
    checkStep name
    let spot := spot.child name
    if d.isFolder spot then throw .folder
    match d.content? spot with
    | none => throw .missing
    | some text => if path.endsWith "/" then throw .notFolder else return text

/-- Where a file is written to. The file itself need not be there. -/
def place (d : Directory) (path : String) : Except FileFault Spot := do
  match ← d.approach path with
  | (_, none) => throw .folder
  | (spot, some name) =>
    if path.endsWith "/" then throw .folder
    checkStep name
    let spot := spot.child name
    if d.isFolder spot then throw .folder else return spot

/-- The file that writing to the path adds to the directory at hand. -/
def added? (d : Directory) (path : String) : Option String :=
  match d.place path with
  | .ok (.inside steps) =>
    if (d.inner.lookup steps).isSome then none else some (String.intercalate "/" steps)
  | _ => none

def access (d : Directory) : Files where
  read := d.read
  write path := (d.place path).map fun _ => ()

end Directory

end TreeLang
