import TreeLang.Proofs.Labels
import TreeLang.Proofs.Listing.Characters

namespace TreeLang.Listing

open Ir Text

/-- Styles that leave nothing out of a function. Without indentation the rows of a block would not
differ from the row of its label. -/
structure Style.Complete (s : Style) : Prop where
  colors : s.colors = false
  types : s.types = true
  annotates : s.detail.annotates = true
  indent : s.indent.unit ≠ ""

instance (s : Style) : Decidable s.Complete :=
  decidable_of_iff
    (s.colors = false ∧ s.types = true ∧ s.detail.annotates = true ∧ s.indent.unit ≠ "")
    ⟨fun ⟨h₁, h₂, h₃, h₄⟩ => ⟨h₁, h₂, h₃, h₄⟩, fun ⟨h₁, h₂, h₃, h₄⟩ => ⟨h₁, h₂, h₃, h₄⟩⟩

def externalRow (e : External) : String :=
  "declare" ++ " " ++ ("@" ++ e.name) ++ signatureText e.params e.returns e.variadic

def stringRow (id : Nat) (text : String) : String :=
  "data" ++ " " ++ stringText id ++ " = " ++ quote text

def notes (s : Style) (g : Graph) (header : Bool) (b : Block) : List String :=
  (if header then ["loop header"] else []) ++
    if s.detail.isVerbose && !(g.predecessors b.id).isEmpty then
      ["preds: " ++ " ".intercalate (((g.predecessors b.id).mergeSort (· ≤ ·)).map blockText)]
    else []

def labelRow (s : Style) (g : Graph) (header : Bool) (b : Block) : String :=
  blockText b.id ++ ":" ++ "  " ++ ("; " ++ ", ".intercalate (b.label :: notes s g header b))

def instructionRow (s : Style) (position : Nat) (i : Instruction) : String :=
  s.indent.unit ++ (if s.detail.numbers then "[" ++ toString position ++ "] " else "") ++ i.annotated

def bodyRows (s : Style) (b : Block) : List String :=
  b.instructions.zipIdx.map (fun (i, position) => instructionRow s position i) ++
    [s.indent.unit ++ b.terminator.text]

def blockRows (s : Style) (g : Graph) (headers : List Nat) (b : Block) : List String :=
  labelRow s g (headers.contains b.id) b :: bodyRows s b

def parameterTexts (ps : List Param) : List String :=
  ps.zipIdx.map fun (q, i) => paramText i ++ ": " ++ q.ty.text

def headerRow (f : Function) : String :=
  "function" ++ " " ++ ("@" ++ f.name) ++ "(" ++ ", ".intercalate (parameterTexts f.params) ++
    ") -> " ++ f.returns.text ++ " \x7b"

/-- An empty row stands in front of each function. -/
def functionRows (s : Style) (f : Function) : List String :=
  "" :: headerRow f :: (f.blocks.flatMap (blockRows s f.graph f.graph.loopHeaders) ++ ["\x7d"])

def externalRows (s : Style) (m : Ir.Module) : List String :=
  (m.externals.filter fun e => s.detail.isVerbose || (calledNames m).contains e.name).map externalRow

def stringRows (m : Ir.Module) : List String :=
  m.strings.zipIdx.map fun (text, id) => stringRow id text

def moduleRows (s : Style) (m : Ir.Module) : List String :=
  ("; " ++ ("module " ++ m.name)) ::
    (externalRows s m ++ stringRows m ++ m.functions.flatMap (functionRows s))

variable {s : Style}

theorem Pen.line_ofStyle (s : Style) (text : String) : (ofStyle s).line text = text ++ "\n" := rfl

theorem Pen.line_indent_ofStyle (s : Style) (text : String) :
    (ofStyle s).indent.line text = s.indent.unit ++ text ++ "\n" := by
  simp [line, margin, indent, ofStyle]

namespace Style.Complete

variable (h : s.Complete)

include h

theorem paint (role : Role) (text : String) : (Pen.ofStyle s).paint role text = text := by
  simp [Pen.paint, Pen.ofStyle, h.colors]

theorem paint_indent (role : Role) (text : String) :
    (Pen.ofStyle s).indent.paint role text = text :=
  h.paint role text

theorem externalLine_eq (e : External) :
    externalLine (Pen.ofStyle s) e = externalRow e ++ "\n" := by
  rw [externalLine, Pen.line_ofStyle, h.paint, h.paint, externalRow]

theorem stringLine_eq (id : Nat) (text : String) :
    stringLine (Pen.ofStyle s) id text = stringRow id text ++ "\n" := by
  rw [stringLine, Pen.line_ofStyle, h.paint, h.paint, h.paint, stringRow]

theorem declarations_eq (m : Ir.Module) :
    declarations s (Pen.ofStyle s) m = unlines (externalRows s m ++ stringRows m) := by
  rw [unlines_append, externalRows, stringRows, unlines_map, unlines_map, declarations,
    funext h.externalLine_eq]
  simp only [h.stringLine_eq]

theorem blockComment_eq (g : Graph) (header : Bool) (b : Block) :
    blockComment s g header b = some (", ".intercalate (b.label :: notes s g header b)) := by
  rw [blockComment, notes]
  simp only [h.annotates, if_true]
  cases header <;> split <;> rfl

theorem labelLine_eq (g : Graph) (header : Bool) (b : Block) :
    (Pen.ofStyle s).annotated ((Pen.ofStyle s).paint .label (blockText b.id ++ ":"))
      (blockComment s g header b) = labelRow s g header b ++ "\n" := by
  rw [h.blockComment_eq, Pen.annotated, Pen.line_ofStyle, h.paint, h.paint, labelRow]

theorem instructionLine_eq (position : Nat) (i : Instruction) :
    instructionLine s (Pen.ofStyle s).indent position i = instructionRow s position i ++ "\n" := by
  have hgap : ("  ; " : String) = "  " ++ "; " := rfl
  rw [instructionRow]
  cases hnumbers : s.detail.numbers <;> cases i <;>
    simp only [instructionLine, hnumbers, h.types, h.annotates, if_true, Bool.false_eq_true, if_false,
      Pen.annotated, Pen.line_indent_ofStyle, h.paint_indent, Instruction.annotated, hgap,
      String.append_assoc, String.empty_append]

/-- Without colours the lines of a block are its rows. -/
theorem blockLines_eq (g : Graph) (headers : List Nat) (b : Block) :
    blockLines s (Pen.ofStyle s) g headers b = unlines (blockRows s g headers b) := by
  rw [blockRows, bodyRows, unlines_cons, unlines_append, unlines_map, unlines_cons, unlines_nil,
    String.append_empty, ← h.labelLine_eq, ← Pen.line_indent_ofStyle, ← String.append_assoc]
  simp only [blockLines, h.instructionLine_eq]

/-- Without colours the lines of a function, with the empty line in front, are its rows. -/
theorem functionLines_eq (f : Function) :
    "\n" ++ functionLines s (Pen.ofStyle s) f = unlines (functionRows s f) := by
  rw [functionRows, unlines_cons, unlines_cons, unlines_append, unlines_flatMap, unlines_cons,
    unlines_nil, String.append_empty, String.empty_append, ← String.append_assoc,
    ← String.append_assoc, functionLines, funext (h.blockLines_eq f.graph f.graph.loopHeaders)]
  simp only [Pen.opening, Pen.closing, Pen.line_ofStyle, functionHeader, h.paint,
    headerRow, parameterTexts, String.append_assoc]

theorem moduleText_eq (m : Ir.Module) : moduleText s m = unlines (moduleRows s m) := by
  rw [moduleRows, unlines_cons, unlines_append, unlines_flatMap, ← h.declarations_eq, moduleText]
  simp only [h.annotates, if_true, h.functionLines_eq, Pen.comment, Pen.line_ofStyle, h.paint,
    String.append_assoc]

end Style.Complete

end TreeLang.Listing

namespace TreeLang

namespace Ir

open Text

structure Block.Shown (k : Block) : Prop where
  label : k.label ∈ Lowering.blockLabels
  instructions : ∀ i ∈ k.instructions, i.Shown
  terminator : ∀ o ∈ k.terminator.operands, o.Finite

structure Function.Shown (F : Function) : Prop where
  name : IsName F.name
  blocks : ∀ k ∈ F.blocks, k.Shown

theorem isRow_append {s t : String} : IsRow (s ++ t) ↔ IsRow s ∧ IsRow t := lacks_append

theorem isRow_name {name : String} (h : IsName name) : IsRow name :=
  lacks_of_forall (by decide) h

theorem Instruction.Shown.isRow {i : Instruction} (h : i.Shown) : IsRow i.annotated := by
  have hnames : ∀ name ∈ i.names, IsRow name := by
    cases i with
    | alloca slot ty name => exact List.forall_mem_singleton.mpr (isRow_name (h.slot rfl))
    | call result callee args returns =>
      exact List.forall_mem_singleton.mpr (isRow_name (h.callee rfl).1)
    | _ => exact List.forall_mem_nil _
  have htext : IsRow (i.text true) := i.lacks_text (by decide) hnames true
  cases i with
  | alloca slot ty name =>
    exact isRow_append.mpr ⟨isRow_append.mpr ⟨htext, by decide⟩, hnames name List.mem_cons_self⟩
  | _ => exact htext

end Ir

namespace Listing

open Ir Text

variable {s : Style} {g : Graph} {headers : List Nat} {header : Bool} {k : Block} {F : Function}
  {m : Ir.Module}

theorem isRow_unit (s : Style) : IsRow s.indent.unit :=
  lacks_unit (by decide) (by decide) s.indent

theorem isRow_labelRow (h : k.Shown) : IsRow (labelRow s g header k) := by
  have hlabel : ∀ label ∈ Lowering.blockLabels, IsRow label := by decide
  have hnotes : IsRow (", ".intercalate (k.label :: notes s g header k)) := by
    refine lacks_intercalate (by decide) (List.forall_mem_cons.mpr ⟨hlabel _ h.label, ?_⟩)
    refine List.forall_mem_append.mpr ⟨?_, ?_⟩
    · cases header <;> decide
    · split
      · exact List.forall_mem_singleton.mpr
          (lacks_append.mpr ⟨by decide, lacks_blockTexts (by decide) _⟩)
      · exact List.forall_mem_nil _
  have hid : IsRow (blockText k.id) := lacks_blockText (by decide) k.id
  simp only [labelRow, isRow_append, hid, hnotes]
  decide

theorem isRow_instructionRow (position : Nat) {i : Instruction} (h : i.Shown) :
    IsRow (instructionRow s position i) := by
  have hposition : IsRow (toString position) := lacks_toString (by decide) position
  have hnumber : IsRow (if s.detail.numbers then "[" ++ toString position ++ "] " else "") := by
    split
    · exact isRow_append.mpr ⟨isRow_append.mpr ⟨by decide, hposition⟩, by decide⟩
    · decide
  exact isRow_append.mpr ⟨isRow_append.mpr ⟨isRow_unit s, hnumber⟩, h.isRow⟩

theorem isRow_blockRows (h : k.Shown) : ∀ row ∈ blockRows s g headers k, IsRow row := by
  have hterminator : IsRow k.terminator.text := k.terminator.lacks_text (by decide)
  refine List.forall_mem_cons.mpr ⟨isRow_labelRow h, List.forall_mem_append.mpr ⟨?_, ?_⟩⟩
  · intro row hrow
    obtain ⟨⟨i, position⟩, hi, rfl⟩ := List.mem_map.mp hrow
    exact isRow_instructionRow position (h.instructions i (List.fst_mem_of_mem_zipIdx hi))
  · exact List.forall_mem_singleton.mpr (isRow_append.mpr ⟨isRow_unit s, hterminator⟩)

theorem isRow_headerRow (h : IsName F.name) : IsRow (headerRow F) := by
  have hparams : IsRow (", ".intercalate (parameterTexts F.params)) :=
    lacks_parameters (by decide) F.params
  have hreturns : IsRow F.returns.text := lacks_ty (by decide) F.returns
  simp only [headerRow, isRow_append, isRow_name h, hparams, hreturns]
  decide

theorem isRow_functionRows (h : F.Shown) : ∀ row ∈ functionRows s F, IsRow row := by
  refine List.forall_mem_cons.mpr ⟨by decide, List.forall_mem_cons.mpr ⟨isRow_headerRow h.name,
    List.forall_mem_append.mpr ⟨fun row hrow => ?_, by decide⟩⟩⟩
  obtain ⟨k, hk, hrow⟩ := List.mem_flatMap.mp hrow
  exact isRow_blockRows (h.blocks k hk) row hrow

theorem isRow_externalRow {e : External} (h : IsRow e.name) : IsRow (externalRow e) := by
  have hsignature : IsRow (signatureText e.params e.returns e.variadic) :=
    lacks_signatureText (by decide) e.params e.returns e.variadic
  simp only [externalRow, isRow_append, h, hsignature]
  decide

theorem isRow_stringRow (id : Nat) (text : String) : IsRow (stringRow id text) := by
  have hid : IsRow (stringText id) := lacks_stringText (by decide) id
  have hquote : IsRow (quote text) := lacks_quote (by decide) text
  simp only [stringRow, isRow_append, hid, hquote]
  decide

/-- No row of a listing has a line feed inside, so the text is cut into its rows again. -/
theorem isRow_moduleRows (hname : IsName m.name) (hexternals : m.externals ⊆ Ir.prototypes)
    (hfunctions : ∀ F ∈ m.functions, F.Shown) : ∀ row ∈ moduleRows s m, IsRow row := by
  have hprototypes : ∀ e ∈ Ir.prototypes, IsRow e.name := by decide
  refine List.forall_mem_cons.mpr ⟨?_, List.forall_mem_append.mpr
    ⟨List.forall_mem_append.mpr ⟨?_, ?_⟩, ?_⟩⟩
  · simp only [isRow_append, isRow_name hname]
    decide
  · intro row hrow
    obtain ⟨e, he, rfl⟩ := List.mem_map.mp hrow
    exact isRow_externalRow (hprototypes e (hexternals (List.mem_filter.mp he).1))
  · intro row hrow
    obtain ⟨⟨text, id⟩, -, rfl⟩ := List.mem_map.mp hrow
    exact isRow_stringRow id text
  · intro row hrow
    obtain ⟨F, hF, hrow⟩ := List.mem_flatMap.mp hrow
    exact isRow_functionRows (hfunctions F hF) row hrow

end Listing

end TreeLang
