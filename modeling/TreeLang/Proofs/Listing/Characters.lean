import TreeLang.Listing.Module
import TreeLang.Proofs.Listing.Instructions
import TreeLang.Proofs.Text.Cutting
import TreeLang.Proofs.Text.Quoting

namespace TreeLang

open Text

namespace Text

variable {x : Char} (hx : x.toNat < 0x20)

include hx

theorem lacks_fixed {text : String} (h : ∀ c ∈ text.toList, 0x20 ≤ c.toNat) : Lacks x text :=
  fun hm => absurd hx (Nat.not_lt.mpr (h x hm))

/-- A string is quoted with its control characters escaped. -/
theorem lacks_quote (text : String) : Lacks x (quote text) := by
  rw [Lacks, toList_quote]
  intro hm
  have hshown := shown_quoteChars _ x hm
  simp [isHidden, hx] at hshown

end Text

namespace Ir

/-- The names that the text of an instruction gives, or the comment behind it. -/
def Instruction.names : Instruction → List String
  | .alloca _ _ name => [name]
  | .call _ callee _ _ => [callee]
  | _ => []

def Block.names (b : Block) : List String :=
  b.label :: b.instructions.flatMap (·.names)

def Function.names (f : Function) : List String :=
  f.name :: f.blocks.flatMap (·.names)

def Module.names (m : Module) : List String :=
  m.name :: (m.externals.map (·.name) ++ m.functions.flatMap (·.names))

section Pieces

variable {x : Char} (hx : x.toNat < 0x20)

include hx

theorem not_isAtom : isAtom x = false := by
  have hall : ∀ n < 0x20, isAtom (Char.ofNat n) = false := by decide
  rw [← Char.ofNat_toNat x]
  exact hall x.toNat hx

theorem lacks_operand (o : Operand) : Lacks x o.text :=
  lacks_of_forall (not_isAtom hx) (isAtom_text o)

theorem lacks_toString (n : Nat) : Lacks x (toString n) :=
  lacks_of_forall (not_isAtom hx) (isAtom_toString n)

theorem lacks_ty (ty : Ty) : Lacks x ty.text := by
  cases ty <;> exact lacks_fixed hx (by decide)

theorem lacks_mnemonic (op : BinOp) : Lacks x op.mnemonic := by
  cases op <;> exact lacks_fixed hx (by decide)

theorem lacks_slotText (slot : Nat) : Lacks x (slotText slot) :=
  lacks_append.mpr ⟨lacks_fixed hx (by decide), lacks_toString hx slot⟩

theorem lacks_blockText (id : Nat) : Lacks x (blockText id) :=
  lacks_append.mpr ⟨lacks_fixed hx (by decide), lacks_toString hx id⟩

theorem lacks_paramText (index : Nat) : Lacks x (paramText index) :=
  lacks_operand hx (.param index)

theorem lacks_stringText (id : Nat) : Lacks x (stringText id) :=
  lacks_operand hx (.str id)

theorem lacks_suffix (types : Bool) (ty : Ty) : Lacks x (suffix types ty) := by
  rw [suffix]
  split
  · exact lacks_append.mpr ⟨lacks_fixed hx (by decide), lacks_ty hx ty⟩
  · exact lacks_fixed hx (by decide)

theorem lacks_operandsText (os : List Operand) : Lacks x (operandsText os) := by
  refine lacks_intercalate (lacks_fixed hx (by decide)) fun text htext => ?_
  obtain ⟨o, -, rfl⟩ := List.mem_map.mp htext
  exact lacks_operand hx o

theorem lacks_signatureText (params : List Ty) (returns : Ty) (variadic : Bool) :
    Lacks x (signatureText params returns variadic) := by
  have hparams : Lacks x
      (", ".intercalate (params.map Ty.text ++ if variadic then ["..."] else [])) := by
    refine lacks_intercalate (lacks_fixed hx (by decide)) fun text htext => ?_
    rcases List.mem_append.mp htext with htext | htext
    · obtain ⟨ty, -, rfl⟩ := List.mem_map.mp htext
      exact lacks_ty hx ty
    · cases variadic
      · cases htext
      · rw [List.mem_singleton.mp htext]
        exact lacks_fixed hx (by decide)
  simp (disch := decide) only [signatureText, lacks_append, lacks_fixed hx, hparams, lacks_ty hx,
    and_self]

/-- Only the names that an instruction gives can bring a control character into its text. -/
theorem Instruction.lacks_text {i : Instruction} (h : ∀ name ∈ i.names, Lacks x name) (types : Bool) :
    Lacks x (i.text types) := by
  cases i with
  | call result callee =>
    have hcallee : Lacks x callee := h callee List.mem_cons_self
    cases result <;>
      simp (disch := decide) only [text, lacks_append, lacks_fixed hx, lacks_operand hx,
        lacks_operandsText hx, lacks_suffix hx, hcallee, and_self]
  | _ =>
    simp (disch := decide) only [text, lacks_append, lacks_fixed hx, lacks_operand hx, lacks_slotText hx,
      lacks_ty hx, lacks_suffix hx, lacks_mnemonic hx, and_self]

theorem Terminator.lacks_text (t : Terminator) : Lacks x t.text := by
  match t with
  | .ret none | .unset => exact lacks_fixed hx (by decide)
  | .ret (some _) | .jump _ | .branch .. =>
    simp (disch := decide) only [text, lacks_append, lacks_fixed hx, lacks_operand hx,
      lacks_blockText hx, and_self]

end Pieces

end Ir

namespace Listing

open Ir

variable {x : Char} (hx : x.toNat < 0x20)

include hx

theorem lacks_unit (htab : x ≠ '\t') (i : Indent) : Lacks x i.unit := by
  cases i with
  | tabs => exact fun hm => htab (List.mem_singleton.mp hm)
  | spaces count =>
    have hspace : x ≠ ' ' := fun he => by
      rw [he] at hx
      contradiction
    rw [Indent.unit, Lacks, String.toList_ofList]
    exact fun hm => hspace (List.eq_of_mem_replicate hm)

/-- The parameters of a function are listed by their positions and types. -/
theorem lacks_parameters (ps : List Param) :
    Lacks x (", ".intercalate (ps.zipIdx.map fun (q, i) => paramText i ++ ": " ++ q.ty.text)) := by
  refine lacks_intercalate (lacks_fixed hx (by decide)) fun text htext => ?_
  obtain ⟨⟨q, i⟩, -, rfl⟩ := List.mem_map.mp htext
  simp (disch := decide) only [lacks_append, lacks_fixed hx, lacks_paramText hx, lacks_ty hx, and_self]

theorem lacks_blockTexts (ids : List Nat) : Lacks x (" ".intercalate (ids.map blockText)) := by
  refine lacks_intercalate (lacks_fixed hx (by decide)) fun text htext => ?_
  obtain ⟨id, -, rfl⟩ := List.mem_map.mp htext
  exact lacks_blockText hx id

/-- What stands behind the label of a block is put together from parts. -/
theorem lacks_joined {parts : List String} (h : ∀ part ∈ parts, Lacks x part) :
    ∀ comment ∈ (if parts.isEmpty then none else some (", ".intercalate parts)), Lacks x comment := by
  split
  · exact fun _ hc => nomatch hc
  · rintro _ ⟨⟩
    exact lacks_intercalate (lacks_fixed hx (by decide)) h

/-- The comment behind a label holds the label and, apart from it, fixed words and numbers. -/
theorem lacks_blockComment {b : Block} (h : Lacks x b.label) (s : Style) (g : Graph) (header : Bool) :
    ∀ comment ∈ blockComment s g header b, Lacks x comment := by
  have hloop : Lacks x "loop header" := lacks_fixed hx (by decide)
  have hnames : ∀ name ∈ (if s.detail.annotates then
      b.label :: if header then ["loop header"] else [] else []), Lacks x name := by
    cases s.detail.annotates <;> cases header <;> simp [h, hloop]
  refine lacks_joined hx ?_
  split
  · exact List.forall_mem_append.mpr ⟨hnames, List.forall_mem_singleton.mpr
      (lacks_append.mpr ⟨lacks_fixed hx (by decide), lacks_blockTexts hx _⟩)⟩
  · exact hnames

end Listing

end TreeLang
