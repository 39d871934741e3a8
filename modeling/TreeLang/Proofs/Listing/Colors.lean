import TreeLang.Proofs.Listing.Characters

namespace TreeLang.Listing

open Ir Text

/-- The characters between the bracket and the final letter of a colour sequence. -/
def isCode (c : Char) : Bool := c.isDigit || c = ';'

/-- What stands behind the colour sequence at the front, if there is one. -/
def behindSequence? : List Char → Option (List Char)
  | '\x1b' :: '[' :: cs =>
    match cs.dropWhile isCode with
    | 'm' :: rest => some rest
    | _ => none
  | _ => none

theorem length_behindSequence? {cs rest : List Char} (h : behindSequence? cs = some rest) :
    rest.length < cs.length := by
  unfold behindSequence? at h
  split at h
  · rename_i cs
    have hle := (List.dropWhile_sublist isCode (l := cs)).length_le
    split at h
    · rename_i heq
      cases h
      rw [heq, List.length_cons] at hle
      simp only [List.length_cons]
      omega
    · cases h
  · cases h

def dropSequences : List Char → List Char
  | [] => []
  | c :: cs =>
    match _ : behindSequence? (c :: cs) with
    | some rest => dropSequences rest
    | none => c :: dropSequences cs
termination_by cs => cs.length
decreasing_by
  · exact length_behindSequence? ‹_›
  · exact Nat.lt_succ_self cs.length

def uncolored (text : String) : String :=
  String.ofList (dropSequences text.toList)

theorem dropSequences_of_behind {cs rest : List Char} (h : behindSequence? cs = some rest) :
    dropSequences cs = dropSequences rest := by
  cases cs with
  | nil => cases h
  | cons c cs =>
    rw [dropSequences]
    split
    · rename_i heq
      rw [h] at heq
      rw [Option.some.inj heq]
    · rename_i heq
      rw [h] at heq
      cases heq

theorem dropSequences_cons {c : Char} (hc : c ≠ '\x1b') (cs : List Char) :
    dropSequences (c :: cs) = c :: dropSequences cs := by
  have hnone : behindSequence? (c :: cs) = none := by
    unfold behindSequence?
    split
    · rename_i heq
      exact absurd (List.cons_eq_cons.mp heq).1 hc
    · rfl
  rw [dropSequences]
  split
  · rename_i heq
    rw [hnone] at heq
    cases heq
  · rfl

/-- The second text has no sequences, and it is what is left of the first one in front of any text. -/
structure Decorates (colored text : String) : Prop where
  drop : ∀ rest, dropSequences (colored.toList ++ rest) = text.toList ++ dropSequences rest
  lacks : Lacks '\x1b' text

namespace Decorates

variable {colored colored' text text' : String}

/-- In front of the empty text, what is left is the plain text. -/
theorem uncolored_eq (h : Decorates colored text) : uncolored colored = text := by
  have hall := h.drop []
  rw [List.append_nil, dropSequences, List.append_nil] at hall
  rw [uncolored, hall, String.ofList_toList]

theorem of_lacks (h : Lacks '\x1b' text) : Decorates text text := by
  have hchars : ∀ {cs : List Char}, '\x1b' ∉ cs → ∀ rest,
      dropSequences (cs ++ rest) = cs ++ dropSequences rest := by
    intro cs hcs rest
    induction cs with
    | nil => rfl
    | cons c cs ih =>
      have hc : c ≠ '\x1b' := (List.ne_of_not_mem_cons hcs).symm
      rw [List.cons_append, dropSequences_cons hc, ih (List.not_mem_of_not_mem_cons hcs),
        List.cons_append]
  exact ⟨hchars h, h⟩

/-- Decorations stand one behind the other: the first plain text ends in no open sequence. -/
theorem append (h : Decorates colored text) (h' : Decorates colored' text') :
    Decorates (colored ++ colored') (text ++ text') where
  drop rest := by
    rw [String.toList_append, String.toList_append, List.append_assoc, h.drop, h'.drop,
      List.append_assoc]
  lacks := lacks_append.mpr ⟨h.lacks, h'.lacks⟩

theorem join {α : Type} {xs : List α} {f g : α → String} (h : ∀ x ∈ xs, Decorates (f x) (g x)) :
    Decorates (String.join (xs.map f)) (String.join (xs.map g)) := by
  induction xs with
  | nil =>
    have hnone : Decorates "" "" := of_lacks (by decide)
    exact hnone
  | cons x xs ih =>
    obtain ⟨hx, hxs⟩ := List.forall_mem_cons.mp h
    rw [List.map_cons, List.map_cons, String.join_cons, String.join_cons]
    exact hx.append (ih hxs)

end Decorates

theorem decorates_opening (role : Role) : Decorates role.opening "" where
  drop rest := by cases role <;> exact dropSequences_of_behind rfl
  lacks := by decide

theorem decorates_closing : Decorates closing "" where
  drop _ := dropSequences_of_behind rfl
  lacks := by decide

/-- A painted text without an escape is the text between two sequences. -/
theorem colorize_eq {opening text : String} (h : Lacks '\x1b' text) :
    colorize opening text = opening ++ text ++ closing := by
  rw [colorize, reopen_eq_self h, String.ofList_toList]

def Pen.colorless (p : Pen) : Pen := { p with colors := false }

def Style.colorless (s : Style) : Style := { s with colors := false }

/-- Painted text is the text between two sequences. -/
theorem decorates_paint (p : Pen) (role : Role) {text : String} (h : Lacks '\x1b' text) :
    Decorates (p.paint role text) (p.colorless.paint role text) := by
  change Decorates (if p.colors then colorize role.opening text else text) text
  split
  · have hpainted := ((decorates_opening role).append (.of_lacks h)).append decorates_closing
    rw [String.empty_append, String.append_empty] at hpainted
    rwa [colorize_eq h]
  · exact .of_lacks h

section Lines

variable {p : Pen} (hp : Lacks '\x1b' p.unit) {colored text : String}

include hp

theorem decorates_line (h : Decorates colored text) :
    Decorates (p.line colored) (p.colorless.line text) := by
  have hmargin : Lacks '\x1b' p.margin := lacks_join fun unit hunit => by
    rwa [List.eq_of_mem_replicate hunit]
  exact ((Decorates.of_lacks hmargin).append h).append (.of_lacks (by decide))

theorem decorates_comment (h : Lacks '\x1b' text) :
    Decorates (p.comment text) (p.colorless.comment text) :=
  decorates_line hp (decorates_paint p .comment (lacks_append.mpr ⟨by decide, h⟩))

theorem decorates_annotated (h : Decorates colored text) {comment : Option String}
    (hcomment : ∀ note ∈ comment, Lacks '\x1b' note) :
    Decorates (p.annotated colored comment) (p.colorless.annotated text comment) := by
  cases comment with
  | none => exact decorates_line hp h
  | some note =>
    have hnote : Lacks '\x1b' ("; " ++ note) := lacks_append.mpr ⟨by decide, hcomment note rfl⟩
    exact decorates_line hp
      ((h.append (.of_lacks (by decide))).append (decorates_paint p .comment hnote))

theorem decorates_externalLine {e : External} (h : Lacks '\x1b' e.name) :
    Decorates (externalLine p e) (externalLine p.colorless e) := by
  have hname : Lacks '\x1b' ("@" ++ e.name) := lacks_append.mpr ⟨by decide, h⟩
  refine decorates_line hp (.append (.append (.append ?_ ?_) ?_) ?_)
  · exact decorates_paint p .keyword (by decide)
  · exact .of_lacks (by decide)
  · exact decorates_paint p .symbol hname
  · exact .of_lacks (lacks_signatureText (by decide) e.params e.returns e.variadic)

theorem decorates_stringLine (id : Nat) (text : String) :
    Decorates (stringLine p id text) (stringLine p.colorless id text) := by
  refine decorates_line hp (.append (.append (.append (.append ?_ ?_) ?_) ?_) ?_)
  · exact decorates_paint p .keyword (by decide)
  · exact .of_lacks (by decide)
  · exact decorates_paint p .symbol (lacks_stringText (by decide) id)
  · exact .of_lacks (by decide)
  · exact decorates_paint p .literal (lacks_quote (by decide) text)

theorem decorates_declarations (s : Style) {m : Ir.Module}
    (h : ∀ e ∈ m.externals, Lacks '\x1b' e.name) :
    Decorates (declarations s p m) (declarations s.colorless p.colorless m) := by
  refine .append (.join fun e he => ?_) (.join fun literal _ => ?_)
  · exact decorates_externalLine hp (h e (List.mem_filter.mp he).1)
  · exact decorates_stringLine hp literal.2 literal.1

theorem decorates_instructionLine (s : Style) (position : Nat) {i : Instruction}
    (h : ∀ name ∈ i.names, Lacks '\x1b' name) :
    Decorates (instructionLine s p position i)
      (instructionLine s.colorless p.colorless position i) := by
  have htext : Lacks '\x1b' (i.text s.types) := i.lacks_text (by decide) h s.types
  refine decorates_annotated hp (.of_lacks ?_) ?_
  · have hposition : Lacks '\x1b' (toString position) := lacks_toString (by decide) position
    change Lacks '\x1b' (if s.detail.numbers then _ else _)
    split
    · simp only [lacks_append, hposition, htext]
      decide
    · exact htext
  · intro note hnote
    split at hnote
    · split at hnote
      · cases hnote
        exact h _ List.mem_cons_self
      · cases hnote
    · cases hnote

/-- The lines of a block lose their colours, if none of its names has an escape character. -/
theorem decorates_blockLines (s : Style) (g : Graph) (headers : List Nat) {b : Block}
    (h : ∀ name ∈ b.names, Lacks '\x1b' name) :
    Decorates (blockLines s p g headers b) (blockLines s.colorless p.colorless g headers b) := by
  obtain ⟨hlabel, hnames⟩ := List.forall_mem_cons.mp h
  have hid : Lacks '\x1b' (blockText b.id ++ ":") :=
    lacks_append.mpr ⟨lacks_blockText (by decide) b.id, by decide⟩
  have hbody : Lacks '\x1b' p.indent.unit := hp
  refine .append (.append ?_ (.join fun pair hpair => ?_)) ?_
  · exact decorates_annotated hp (decorates_paint p .label hid)
      (lacks_blockComment (by decide) hlabel s g (headers.contains b.id))
  · refine decorates_instructionLine hbody s pair.2 fun name hname => hnames name ?_
    exact List.mem_flatMap_of_mem (List.fst_mem_of_mem_zipIdx hpair) hname
  · exact decorates_line hbody (.of_lacks (b.terminator.lacks_text (by decide)))

omit hp in
theorem decorates_functionHeader (p : Pen) {f : Function} (h : Lacks '\x1b' f.name) :
    Decorates (functionHeader p f) (functionHeader p.colorless f) := by
  have hname : Lacks '\x1b' ("@" ++ f.name) := lacks_append.mpr ⟨by decide, h⟩
  refine .append (.append (.append (.append (.append (.append ?_ ?_) ?_) ?_) ?_) ?_) ?_
  · exact decorates_paint p .keyword (by decide)
  · exact .of_lacks (by decide)
  · exact decorates_paint p .symbol hname
  · exact .of_lacks (by decide)
  · exact .of_lacks (lacks_parameters (by decide) f.params)
  · exact .of_lacks (by decide)
  · exact .of_lacks (lacks_ty (by decide) f.returns)

theorem decorates_functionLines (s : Style) {f : Function}
    (h : ∀ name ∈ f.names, Lacks '\x1b' name) :
    Decorates (functionLines s p f) (functionLines s.colorless p.colorless f) := by
  obtain ⟨hname, hnames⟩ := List.forall_mem_cons.mp h
  refine .append (.append ?_ (.join fun b hb => ?_)) ?_
  · exact decorates_line hp ((decorates_functionHeader p hname).append (.of_lacks (by decide)))
  · exact decorates_blockLines hp s f.graph f.graph.loopHeaders fun name hname =>
      hnames name (List.mem_flatMap_of_mem hb hname)
  · exact decorates_line hp (.of_lacks (by decide))

end Lines

/-- The whole listing loses its colours, if none of the names of the module has an escape character. -/
theorem decorates_moduleText (s : Style) {m : Ir.Module} (h : ∀ name ∈ m.names, Lacks '\x1b' name) :
    Decorates (moduleText s m) (moduleText s.colorless m) := by
  obtain ⟨hname, hrest⟩ := List.forall_mem_cons.mp h
  obtain ⟨hexternals, hfunctions⟩ := List.forall_mem_append.mp hrest
  have hunit : Lacks '\x1b' (Pen.ofStyle s).unit := lacks_unit (by decide) (by decide) s.indent
  refine .append (.append ?_ ?_) (.join fun f hf => ?_)
  · exact decorates_comment hunit (lacks_append.mpr ⟨by decide, hname⟩)
  · change Decorates (if s.detail.annotates then _ else _) (if s.detail.annotates then _ else _)
    split
    · exact decorates_declarations hunit s (List.forall_mem_map.mp hexternals)
    · exact .of_lacks (by decide)
  · refine .append (.of_lacks (by decide)) (decorates_functionLines hunit s fun name hname => ?_)
    exact hfunctions name (List.mem_flatMap_of_mem hf hname)

theorem not_lacks_moduleText {s : Style} (h : s.colors = true) (m : Ir.Module) :
    ¬ Lacks '\x1b' (moduleText s m) := by
  have hopening : ¬ Lacks '\x1b' Role.comment.opening := by decide
  intro hlacks
  simp [moduleText, Pen.comment, Pen.line, Pen.paint, Pen.ofStyle, h, colorize, lacks_append,
    hopening] at hlacks

/-- Taking the colour sequences from a listing gives the listing in the same style without colours,
which has no escape character. With colours there is one. -/
theorem uncolored_moduleText (s : Style) {m : Ir.Module} (h : ∀ name ∈ m.names, Lacks '\x1b' name) :
    uncolored (moduleText s m) = moduleText { s with colors := false } m ∧
      (Lacks '\x1b' (moduleText s m) ↔ s.colors = false) := by
  refine ⟨(decorates_moduleText s h).uncolored_eq, fun hlacks => ?_, fun hcolors => ?_⟩
  · exact Bool.eq_false_iff.mpr fun hcolors => not_lacks_moduleText hcolors m hlacks
  · have hsame : s.colorless = s := by rw [Style.colorless, ← hcolors]
    rw [← hsame]
    exact (decorates_moduleText s h).lacks

/-- The sequences of a string are quoted, and so they stay. -/
theorem uncolored_moduleText_loop :
    let main : Function := ⟨"main", [⟨"n", .f64⟩], .i32, 0,
      [⟨0, "entry", [.alloca 0 .f64 "n", .store 0 (.param 0) .f64], .jump 1⟩,
        ⟨1, "loop", [.call (some (.temp 0)) "print" [.str 0] .i32], .jump 1⟩], [⟨"n", .f64⟩], 2, 1⟩
    let m : Ir.Module := ⟨"demo", [main], [⟨"print", [.ptr], .i32, true⟩], ["\x1b[1mhi"]⟩
    (∀ name ∈ m.names, Lacks '\x1b' name) ∧
    uncolored (moduleText ⟨true, .tabs, true, .normal⟩ m) = unlines
      ["; module demo", "declare @print(ptr, ...) -> i32", "data @_str0 = \"\\u\x7b1b\x7d[1mhi\"", "",
       "function @main(p0: f64) -> i32 \x7b", "block0:  ; entry", "\tslot0 = alloca f64  ; n",
       "\tstore.f64 slot0, p0", "\tjump block1", "block1:  ; loop, loop header",
       "\tt0 = call.i32 @print(@_str0)", "\tjump block1", "\x7d"] ∧
    ¬ Lacks '\x1b' (moduleText ⟨true, .tabs, true, .normal⟩ m) := by
  intro main m
  have hnames : ∀ name ∈ m.names, Lacks '\x1b' name := by decide
  have hlisting := uncolored_moduleText ⟨true, .tabs, true, .normal⟩ hnames
  refine ⟨hnames, hlisting.1.trans (by decide +kernel), fun hlacks => ?_⟩
  cases hlisting.2.mp hlacks

end TreeLang.Listing
