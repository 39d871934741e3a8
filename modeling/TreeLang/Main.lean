import TreeLang.Command.Perform

namespace TreeLang.Command

def faultOf : IO.Error → FileFault
  | .noFileOrDirectory .. => .missing
  | .inappropriateType _ code _ => if code = 20 then .notFolder else .folder
  | e => .other (toString e)

def attempt {α : Type} (action : IO α) : IO (Except FileFault α) := do
  try
    return .ok (← action)
  catch e => return .error (faultOf e)

/-- The files that are asked for, as they are read beforehand. -/
def readFiles (paths : List String) : IO (String → Except FileFault String) := do
  let contents ← paths.mapM fun (path : String) => do
    return (path, ← attempt (IO.FS.readFile path))
  return fun path => (contents.lookup path).getD (.error .missing)

def readBytes (stream : IO.FS.Stream) : IO (List UInt8) := do
  let mut bytes := ByteArray.empty
  repeat
    let piece ← stream.read 0x1000
    if piece.isEmpty then break
    bytes := bytes ++ piece
  return bytes.toList

def printReport (r : Report) : IO UInt32 := do
  IO.print r.stdout
  IO.eprint r.stderr
  return UInt32.ofNat (r.code.getD 136)

/-- The text that stands in for the object of a program. -/
def objectText (files : Files) (i : Invocation) : String :=
  (perform files false (.ofBytes []) 0
    { i with action := .emitIr, noColor := true, detail := some .debug }).stdout

/-- More steps than any run takes. -/
def stepLimit : Nat := 0x4000000000000000

end TreeLang.Command

open TreeLang.Command in
def main (words : List String) : IO UInt32 := do
  match Invocation.ofWords words with
  | none =>
    IO.eprintln "error: usage: <check|run|build|emit-ir|ast> [switches] <input>"
    return 2
  | some i =>
    let read ← readFiles (i.input :: i.config.toList)
    let console := .ofBytes (← if i.action = .run then readBytes (← IO.getStdin) else pure [])
    let files : TreeLang.Files := ⟨read, fun _ => .ok ()⟩
    let r := perform files false console stepLimit i
    match r.written with
    | none => printReport r
    | some path =>
      match ← attempt (IO.FS.writeFile path (objectText files i)) with
      | .ok () => printReport r
      | .error fault => printReport (perform ⟨read, fun _ => .error fault⟩ false console stepLimit i)
