import TreeLang.Ir.Graph
import TreeLang.Ir.Text
import TreeLang.Listing.Pen
import TreeLang.Text.Quoted

namespace TreeLang.Listing

open Ir

def calledNames (m : Ir.Module) : List String :=
  (m.functions.flatMap (·.blocks)).flatMap (·.instructions) |>.filterMap fun
    | .call _ callee _ _ => some callee
    | _ => none

def externalLine (p : Pen) (e : External) : String :=
  p.line (p.paint .keyword "declare" ++ " " ++ p.paint .symbol ("@" ++ e.name) ++
    signatureText e.params e.returns e.variadic)

def stringLine (p : Pen) (id : Nat) (text : String) : String :=
  p.line (p.paint .keyword "data" ++ " " ++ p.paint .symbol (stringText id) ++ " = " ++
    p.paint .literal (Text.quote text))

def declarations (s : Style) (p : Pen) (m : Ir.Module) : String :=
  let called := calledNames m
  let shown := m.externals.filter fun e => s.detail.isVerbose || called.contains e.name
  String.join (shown.map (externalLine p)) ++
    String.join (m.strings.zipIdx.map fun (text, id) => stringLine p id text)

/-- The label, whether the block heads a loop, and its predecessors, as far as the detail goes. -/
def blockComment (s : Style) (g : Graph) (header : Bool) (b : Block) : Option String :=
  let names := if s.detail.annotates then b.label :: if header then ["loop header"] else [] else []
  let sources := g.predecessors b.id
  let parts :=
    if s.detail.isVerbose && !sources.isEmpty then
      names ++ ["preds: " ++ " ".intercalate ((sources.mergeSort (· ≤ ·)).map blockText)]
    else names
  if parts.isEmpty then none else some (", ".intercalate parts)

def instructionLine (s : Style) (p : Pen) (position : Nat) (i : Instruction) : String :=
  let text := i.text s.types
  let text := if s.detail.numbers then "[" ++ toString position ++ "] " ++ text else text
  let comment := match i with
    | .alloca _ _ name => if s.detail.annotates then some name else none
    | _ => none
  p.annotated text comment

def blockLines (s : Style) (p : Pen) (g : Graph) (headers : List Nat) (b : Block) : String :=
  let body := p.indent
  p.annotated (p.paint .label (blockText b.id ++ ":")) (blockComment s g (headers.contains b.id) b) ++
    String.join (b.instructions.zipIdx.map fun (i, position) => instructionLine s body position i) ++
    body.line b.terminator.text

def functionHeader (p : Pen) (f : Function) : String :=
  p.paint .keyword "function" ++ " " ++ p.paint .symbol ("@" ++ f.name) ++ "(" ++
    ", ".intercalate (f.params.zipIdx.map fun (q, i) => paramText i ++ ": " ++ q.ty.text) ++ ") -> " ++
    f.returns.text

def functionLines (s : Style) (p : Pen) (f : Function) : String :=
  let g := f.graph
  let headers := g.loopHeaders
  p.opening (functionHeader p f) ++ String.join (f.blocks.map (blockLines s p g headers)) ++ p.closing

/-- The listing of a module: the externals it calls, its strings, then each function block by block. -/
def moduleText (s : Style) (m : Ir.Module) : String :=
  let p := Pen.ofStyle s
  p.comment ("module " ++ m.name) ++
    (if s.detail.annotates then declarations s p m else "") ++
    String.join (m.functions.map fun f => "\n" ++ functionLines s p f)

end TreeLang.Listing
