import TreeLang.Proofs.Listing.Rows
import TreeLang.Proofs.Lowered

namespace TreeLang

open Text

namespace Ir

/-- Names consist of letters, digits and underscores, and double constants are finite numbers. -/
structure Module.Plain (m : Module) : Prop where
  name : IsName m.name
  functions : ∀ F ∈ m.functions, IsName F.name
  slots : ∀ F ∈ m.functions, ∀ v ∈ F.slots, IsName v.name
  operands : ∀ F ∈ m.functions, ∀ k ∈ F.blocks,
    (∀ i ∈ k.instructions, ∀ o ∈ i.operands, o.Finite) ∧ ∀ o ∈ k.terminator.operands, o.Finite

instance (m : Module) : Decidable m.Plain :=
  decidable_of_iff (IsName m.name ∧ (∀ F ∈ m.functions, IsName F.name) ∧
    (∀ F ∈ m.functions, ∀ v ∈ F.slots, IsName v.name) ∧ ∀ F ∈ m.functions, ∀ k ∈ F.blocks,
      (∀ i ∈ k.instructions, ∀ o ∈ i.operands, o.Finite) ∧ ∀ o ∈ k.terminator.operands, o.Finite)
    ⟨fun ⟨h₁, h₂, h₃, h₄⟩ => ⟨h₁, h₂, h₃, h₄⟩, fun ⟨h₁, h₂, h₃, h₄⟩ => ⟨h₁, h₂, h₃, h₄⟩⟩

theorem Function.Hoisted.slot_mem {F : Function} (h : F.Hoisted) {id : Nat} {k : Block}
    (hk : F.block? id = some k) {slot : Nat} {ty : Ty} {name : String}
    (hi : .alloca slot ty name ∈ k.instructions) : ⟨name, ty⟩ ∈ F.slots := by
  have hbody : Instruction.alloca slot ty name ∉ k.body := fun hm =>
    Bool.noConfusion (Block.not_alloca_of_mem_body hm)
  by_cases hid : id = F.entry
  · subst hid
    rw [h.entry k hk] at hi
    obtain ⟨n, hn, heq⟩ := List.mem_mapIdx.mp ((List.mem_append.mp hi).resolve_right hbody)
    cases heq
    exact List.getElem_mem hn
  · exact absurd (h.others id k hk hid ▸ hi) hbody

end Ir

namespace Listing

open Ir

variable {s : Style} {g g' : Graph} {headers headers' : List Nat} {header header' : Bool}
  {k k' : Block} {F F' : Function} {m m' : Ir.Module}

def readLabel (cs : List Char) : Option (Nat × List Char) :=
  (readNumbered "block" cs).bind fun (id, cs) => (skip ":  ; " cs).map (id, ·)

/-- The row of a label gives back the identifier of the block and all that stands behind it. -/
theorem readLabel_labelRow :
    readLabel (labelRow s g header k).toList =
      some (k.id, k.label.toList ++ (notes s g header k).flatMap fun t => ", ".toList ++ t.toList) := by
  have hgap : ":".toList ++ ("  ".toList ++ ("; ".toList ++
      (", ".intercalate (k.label :: notes s g header k)).toList)) =
      ":  ; ".toList ++ (", ".intercalate (k.label :: notes s g header k)).toList := rfl
  rw [labelRow, blockText, readLabel]
  simp only [String.toList_append, List.append_assoc, hgap]
  rw [← List.append_assoc "block".toList, ← String.toList_append,
    readNumbered_append "block" k.id (until_text (by decide) _), Option.bind_some, skip_append,
    Option.map_some, toList_intercalate_cons]

/-- The row of a label determines the number and the label of its block. -/
theorem labelRow_injective (h : k.Shown) (h' : k'.Shown)
    (heq : labelRow s g header k = labelRow s g' header' k') : k.id = k'.id ∧ k.label = k'.label := by
  have hread : readLabel (labelRow s g header k).toList = readLabel (labelRow s g' header' k').toList := by
    rw [heq]
  rw [readLabel_labelRow, readLabel_labelRow] at hread
  obtain ⟨hid, hchars⟩ := Prod.mk.inj (Option.some.inj hread)
  have hlabels : ∀ label ∈ Lowering.blockLabels, ∀ c ∈ label.toList, (c == ',') = false := by decide
  have hnotes : ∀ ts : List String,
      ∀ c ∈ (ts.flatMap fun t => ", ".toList ++ t.toList).head?, (c == ',') = true := by
    intro ts c hc
    cases ts with
    | nil => cases hc
    | cons t ts =>
      cases hc
      rfl
  have hlabel := (append_inj_of_mark (hlabels _ h.label) (hlabels _ h'.label) (hnotes _) (hnotes _)
    hchars).1
  exact ⟨hid, String.toList_inj.mp hlabel⟩

/-- The rows of a block determine it: the first gives its label, the others its instructions in order.
-/
theorem blockRows_injective (h : k.Shown) (h' : k'.Shown)
    (heq : blockRows s g headers k = blockRows s g' headers' k') : k = k' := by
  obtain ⟨hhead, htail⟩ := List.cons_eq_cons.mp heq
  obtain ⟨hid, hlabel⟩ := labelRow_injective h h' hhead
  obtain ⟨hinstructions, hterminator⟩ := List.append_inj' htail rfl
  have hlist : List.Forall₂ (· = ·) k.instructions k'.instructions :=
    forall₂_of_map_zipIdx_eq (fun i hi j hj position hij =>
      Instruction.annotated_injective (h.instructions i hi) (h'.instructions j hj)
        ((String.append_right_inj _).mp hij)) hinstructions
  have hend : k.terminator = k'.terminator :=
    Terminator.text_injective h.terminator h'.terminator
      ((String.append_right_inj _).mp (List.singleton_inj.mp hterminator))
  rw [List.forall₂_eq_eq_eq] at hlist
  obtain ⟨id, label, instructions, terminator⟩ := k
  cases hid
  cases hlabel
  cases hlist
  cases hend
  rfl

theorem head?_indent (h : s.indent.unit ≠ "") (text : String) :
    (s.indent.unit ++ text).toList.head? = some ' ' ∨
      (s.indent.unit ++ text).toList.head? = some '\t' := by
  rw [String.toList_append]
  cases hi : s.indent with
  | tabs => exact .inr rfl
  | spaces count =>
    cases count with
    | zero =>
      rw [hi] at h
      exact absurd rfl h
    | succ count =>
      rw [Indent.unit, String.toList_ofList, List.replicate_succ]
      exact .inl rfl

def isLabel (row : String) : Bool :=
  row.toList.head? = some 'b'

theorem isLabel_labelRow : isLabel (labelRow s g header k) = true := by
  rw [labelRow, blockText, isLabel]
  simp only [String.toList_append, List.append_assoc]
  rfl

/-- An indented row is no label, so the rows of one block end where the next label stands. -/
theorem isLabel_indent (h : s.indent.unit ≠ "") (text : String) :
    isLabel (s.indent.unit ++ text) = false := by
  rw [isLabel]
  rcases head?_indent h text with hc | hc <;> rw [hc] <;> rfl

theorem indented_of_mem_bodyRows {row : String} (h : row ∈ bodyRows s k) :
    ∃ text, row = s.indent.unit ++ text := by
  rcases List.mem_append.mp h with hrow | hrow
  · obtain ⟨⟨i, position⟩, -, rfl⟩ := List.mem_map.mp hrow
    exact ⟨_, String.append_assoc⟩
  · exact ⟨_, List.mem_singleton.mp hrow⟩

theorem marked_blockRows (h : s.indent.unit ≠ "") : Marked isLabel (blockRows s g headers k) := by
  refine ⟨_, _, rfl, isLabel_labelRow, fun row hrow => ?_⟩
  obtain ⟨text, rfl⟩ := indented_of_mem_bodyRows hrow
  exact isLabel_indent h text

def isParameter (c : Char) : Bool :=
  isAtom c || c = ':' || c = ' '

theorem parameterTexts_spec (ps : List Param) :
    ∀ t ∈ parameterTexts ps, t ≠ "" ∧ ∀ c ∈ t.toList, isParameter c = true := by
  intro t ht
  obtain ⟨⟨q, i⟩, -, rfl⟩ := List.mem_map.mp ht
  have hatom : ∀ {text : String}, (∀ c ∈ text.toList, isAtom c = true) →
      ∀ c ∈ text.toList, isParameter c = true := fun h c hc => by simp [isParameter, h c hc]
  have hty : ∀ c ∈ q.ty.text.toList, isAtom c = true := by cases q.ty <;> decide
  refine ⟨fun he => ?_, ?_⟩
  · have hnil := congrArg String.toList he
    simp [paramText] at hnil
  · simp only [paramText, String.toList_append, List.forall_mem_append]
    exact ⟨⟨⟨by decide, hatom (isAtom_toString i)⟩, by decide⟩, hatom hty⟩

/-- The types of the parameters are read off the header, their names are not. -/
theorem parameterTexts_injective {ps ps' : List Param}
    (h : ", ".intercalate (parameterTexts ps) = ", ".intercalate (parameterTexts ps')) :
    ps.map (·.ty) = ps'.map (·.ty) := by
  have htexts : ∀ qs : List Param, ∀ t ∈ parameterTexts qs, t ≠ "" ∧ ',' ∉ t.toList :=
    fun qs t ht => ⟨(parameterTexts_spec qs t ht).1,
      fun hm => Bool.false_ne_true ((parameterTexts_spec qs t ht).2 ',' hm)⟩
  have heq : parameterTexts ps = parameterTexts ps' :=
    intercalate_injective rfl (by decide) (htexts ps) (htexts ps') h
  refine map_eq_of_forall₂ (forall₂_of_map_zipIdx_eq (fun q _ q' _ i hqq' => ?_) heq)
  exact Ty.text_injective ((String.append_right_inj _).mp hqq')

theorem readWord_header (h : IsName F.name) : (skip "function @" (headerRow F).toList).map readWord =
    some (F.name, "(".toList ++ ((", ".intercalate (parameterTexts F.params)).toList ++
      (") -> " ++ F.returns.text ++ " \x7b").toList)) := by
  have hgap : ∀ cs, "function".toList ++ (" ".toList ++ ("@".toList ++ cs)) = "function @".toList ++ cs :=
    fun _ => rfl
  simp only [headerRow, String.toList_append, List.append_assoc, hgap, skip_append, Option.map_some]
  rw [readWord_append h (until_text (by decide) _)]

/-- The header of a function determines all of the function but its blocks. -/
theorem headerRow_injective (h : IsName F.name) (h' : IsName F'.name)
    (heq : headerRow F = headerRow F') : F.name = F'.name ∧
      F.params.map (·.ty) = F'.params.map (·.ty) ∧ F.returns = F'.returns := by
  have hread := readWord_header h
  rw [heq, readWord_header h'] at hread
  obtain ⟨hname, hrest⟩ := Prod.mk.inj (Option.some.inj hread)
  have hparams : ∀ qs : List Param,
      ∀ c ∈ (", ".intercalate (parameterTexts qs)).toList, (c == ')') = false := by
    refine fun qs => forall_mem_intercalate (by decide) fun t ht c hc => ?_
    have hc := (parameterTexts_spec qs t ht).2 c hc
    refine beq_eq_false_iff_ne.mpr fun he => ?_
    rw [he] at hc
    cases hc
  have hclose : ∀ ty : Ty, ∀ c ∈ (") -> " ++ ty.text ++ " \x7b").toList.head?, (c == ')') = true :=
    fun ty => by cases ty <;> decide
  obtain ⟨htypes, hreturns⟩ := append_inj_of_mark (hparams _) (hparams _) (hclose _) (hclose _)
    (List.append_cancel_left hrest)
  have hty := (String.append_left_inj _).mp (String.toList_inj.mp hreturns)
  exact ⟨hname.symm, (parameterTexts_injective (String.toList_inj.mp htypes)).symm,
    (Ty.text_injective ((String.append_right_inj _).mp hty)).symm⟩

theorem isEmpty_eq_false {row : String} {c : Char} (h : row.toList.head? = some c) :
    row.isEmpty = false := by
  refine Bool.eq_false_iff.mpr fun he => ?_
  rw [String.isEmpty_iff.mp he] at h
  cases h

theorem marked_functionRows (hs : s.indent.unit ≠ "") : Marked String.isEmpty (functionRows s F) := by
  have hheader : (headerRow F).toList.head? = some 'f' := by
    simp only [headerRow, String.toList_append, List.append_assoc]
    rfl
  refine ⟨_, _, rfl, rfl, List.forall_mem_cons.mpr ⟨isEmpty_eq_false hheader,
    List.forall_mem_append.mpr ⟨fun row hrow => ?_, by decide⟩⟩⟩
  obtain ⟨k, -, hrow⟩ := List.mem_flatMap.mp hrow
  rcases List.mem_cons.mp hrow with rfl | hrow
  · exact isEmpty_eq_false (of_decide_eq_true isLabel_labelRow)
  · obtain ⟨text, rfl⟩ := indented_of_mem_bodyRows hrow
    exact (head?_indent hs text).elim isEmpty_eq_false isEmpty_eq_false

/-- What a listing shows of a function: all but the names of its parameters. -/
structure Alike (F F' : Function) : Prop where
  name : F.name = F'.name
  params : F.params.map (·.ty) = F'.params.map (·.ty)
  returns : F.returns = F'.returns
  blocks : F.blocks = F'.blocks

/-- The rows of a function determine all of it but the names of its parameters. -/
theorem functionRows_injective (hs : s.indent.unit ≠ "") (h : F.Shown) (h' : F'.Shown)
    (heq : functionRows s F = functionRows s F') : Alike F F' := by
  have hrows := (List.cons_eq_cons.mp heq).2
  obtain ⟨hheader, hbody⟩ := List.cons_eq_cons.mp hrows
  obtain ⟨hname, hparams, hreturns⟩ := headerRow_injective h.name h'.name hheader
  have hblocks : List.Forall₂ (· = ·) F.blocks F'.blocks :=
    forall₂_of_flatMap_eq (fun k _ => marked_blockRows hs) (fun k _ => marked_blockRows hs)
      (fun k hk k' hk' => blockRows_injective (h.blocks k hk) (h'.blocks k' hk'))
      (List.append_cancel_right hbody)
  rw [List.forall₂_eq_eq_eq] at hblocks
  exact ⟨hname, hparams, hreturns, hblocks⟩

def isData (row : String) : Bool :=
  (skip "data" row.toList).isSome

theorem isData_externalRow (e : External) : isData (externalRow e) = false := by
  simp only [isData, externalRow, String.toList_append, List.append_assoc]
  rfl

/-- Strings are told from external functions by the front of their rows. -/
theorem isData_stringRow (id : Nat) (text : String) : isData (stringRow id text) = true := by
  simp only [isData, stringRow, String.toList_append, List.append_assoc, skip_append, Option.isSome_some]

theorem stringRow_injective {id : Nat} {text text' : String}
    (h : stringRow id text = stringRow id text') : text = text' :=
  quote_injective ((String.append_right_inj _).mp h)

/-- The declarations determine the strings. -/
theorem strings_eq (h : externalRows s m ++ stringRows m = externalRows s m' ++ stringRows m') :
    m.strings = m'.strings := by
  have hexternal : ∀ m : Ir.Module, ∀ row ∈ externalRows s m, isData row = false := by
    intro m row hrow
    obtain ⟨e, -, rfl⟩ := List.mem_map.mp hrow
    exact isData_externalRow e
  have hstring : ∀ m : Ir.Module, ∀ row ∈ (stringRows m).head?, isData row = true := by
    intro m row hrow
    obtain ⟨⟨text, id⟩, -, rfl⟩ := List.mem_map.mp (List.mem_of_mem_head? hrow)
    exact isData_stringRow id text
  obtain ⟨-, hrows⟩ :=
    append_inj_of_mark (hexternal m) (hexternal m') (hstring m) (hstring m') h
  have hstrings : List.Forall₂ (· = ·) m.strings m'.strings :=
    forall₂_of_map_zipIdx_eq (fun _ _ _ _ _ => stringRow_injective) hrows
  rwa [List.forall₂_eq_eq_eq] at hstrings

theorem isEmpty_of_mem_declarations {row : String} (h : row ∈ externalRows s m ++ stringRows m) :
    row.isEmpty = false := by
  have hhead : row.toList.head? = some 'd' := by
    rcases List.mem_append.mp h with h | h
    · obtain ⟨e, -, rfl⟩ := List.mem_map.mp h
      simp only [externalRow, String.toList_append, List.append_assoc]
      rfl
    · obtain ⟨⟨text, id⟩, -, rfl⟩ := List.mem_map.mp h
      simp only [stringRow, String.toList_append, List.append_assoc]
      rfl
  exact isEmpty_eq_false hhead

/-- The rows of a listing determine the name, the strings and the functions in order. -/
theorem moduleRows_injective (hs : s.indent.unit ≠ "") (h : ∀ F ∈ m.functions, F.Shown)
    (h' : ∀ F ∈ m'.functions, F.Shown) (heq : moduleRows s m = moduleRows s m') :
    m.name = m'.name ∧ m.strings = m'.strings ∧ List.Forall₂ Alike m.functions m'.functions := by
  obtain ⟨hname, hrest⟩ := List.cons_eq_cons.mp heq
  have hdeclared : ∀ m : Ir.Module, ∀ row ∈ externalRows s m ++ stringRows m, row.isEmpty = false :=
    fun _ _ => isEmpty_of_mem_declarations
  have hmarked : ∀ m : Ir.Module, ∀ F ∈ m.functions, Marked String.isEmpty (functionRows s F) :=
    fun _ _ _ => marked_functionRows hs
  obtain ⟨hdeclarations, hfunctions⟩ := append_inj_of_mark (hdeclared m) (hdeclared m')
    (head?_flatMap_marked (hmarked m)) (head?_flatMap_marked (hmarked m')) hrest
  refine ⟨?_, strings_eq hdeclarations, forall₂_of_flatMap_eq (hmarked m) (hmarked m')
    (fun F hF F' hF' => functionRows_injective hs (h F hF) (h' F' hF')) hfunctions⟩
  exact (String.append_right_inj _).mp ((String.append_right_inj _).mp hname)

end Listing

namespace Lowering

variable {program program' : Tree.Block} {m m' : Ir.Module} {main : Ir.Function}

namespace Produced

variable (h : Produced program m main)

include h

/-- The functions that a lowered module calls have names like those that it defines. -/
theorem isName_callee (hm : m.Plain) {name : String} {x : Ir.External}
    (hx : callees (registry program) name = some x) : IsName name := by
  have hprototypes : ∀ e ∈ Ir.prototypes, IsName e.name := by decide
  unfold callees at hx
  split at hx
  · rename_i d hd
    obtain ⟨F, hF, hname, -⟩ := h.found d (List.mem_of_find?_eq_some hd)
    have hd : d.name = name := by simpa using List.find?_some hd
    exact hd ▸ hname ▸ hm.functions F hF
  · have he : x.name = name := by simpa using List.find?_some hx
    exact he ▸ hprototypes x (List.mem_of_find?_eq_some hx)

theorem shown_instruction (hm : m.Plain) {F : Ir.Function} (hF : F ∈ m.functions) {k : Ir.Block}
    (hk : k ∈ F.blocks) {i : Ir.Instruction} (hi : i ∈ k.instructions) : i.Shown := by
  obtain ⟨g, hg⟩ := h.sturdy_of_mem hF
  have hfind := Ir.Function.block?_of_mem hg.nodup hk
  refine ⟨fun o ho => ?_, ((hm.operands F hF k hk).1 i hi), fun hslot => ?_, fun hcall => ?_⟩
  · obtain ⟨x, rfl⟩ := hg.certified.results k.id k hfind i (Ir.Block.mem_body_of_result? hi ho) o ho
    trivial
  · subst hslot
    exact hm.slots F hF _ (hg.hoisted.slot_mem hfind hi)
  · subst hcall
    have hbody : Ir.Instruction.call _ _ _ _ ∈ k.body := List.mem_filter.mpr ⟨hi, rfl⟩
    obtain ⟨pre, post, hsplit⟩ := List.append_of_mem hbody
    have hcode := hg.certified.code k.id k hfind
    rw [hsplit] at hcode
    obtain ⟨x, hx, -, -, hvoid, -⟩ := hcode.at
    exact ⟨h.isName_callee hm hx, hvoid.mp⟩

/-- What the functions of such a module show is all they are. -/
theorem shown (hm : m.Plain) : ∀ F ∈ m.functions, F.Shown := fun F hF =>
  ⟨hm.functions F hF, fun k hk => ⟨h.label_mem hF k hk, fun _ hi => h.shown_instruction hm hF hk hi,
    (hm.operands F hF k hk).2⟩⟩

end Produced

/-- The listing of a lowered module determines the name of the module, its strings and its functions,
in every style that leaves nothing out. -/
theorem moduleText_determines {name name' : String} {s : Listing.Style} (hs : s.Complete)
    (h : lower program name = .ok m) (h' : lower program' name' = .ok m') (hm : m.Plain)
    (hm' : m'.Plain) (htext : Listing.moduleText s m = Listing.moduleText s m') :
    m.name = m'.name ∧ m.strings = m'.strings ∧
      List.Forall₂ Listing.Alike m.functions m'.functions := by
  obtain ⟨main, hp⟩ := lower_produces h
  obtain ⟨main', hp'⟩ := lower_produces h'
  rw [hs.moduleText_eq, hs.moduleText_eq] at htext
  have hrows := unlines_injective
    (Listing.isRow_moduleRows hm.name hp.prototypes (hp.shown hm))
    (Listing.isRow_moduleRows hm'.name hp'.prototypes (hp'.shown hm')) htext
  exact Listing.moduleRows_injective hs.indent (hp.shown hm) (hp'.shown hm') hrows

/-- Two programs that differ behind a return: their modules differ, but not in what is listed. -/
theorem moduleText_determines_unreachable :
    let program : Tree.Block :=
      [.var "x" .double (some (.double ⟨0x3FF8000000000000⟩)), .ret (some (.int 0))]
    let program' : Tree.Block := program ++ [.expr (.call "readi" [])]
    ∃ m m', lower program "demo" = .ok m ∧ lower program' "demo" = .ok m' ∧ m ≠ m' ∧
      m.name = m'.name ∧ m.strings = m'.strings ∧
      List.Forall₂ Listing.Alike m.functions m'.functions := by
  intro program program'
  have hall : (lower program "demo").toOption.any (fun m =>
      (lower program' "demo").toOption.any fun m' => m ≠ m' ∧ m.Plain ∧ m'.Plain ∧
        Listing.moduleText .plain m = Listing.moduleText .plain m') = true := by decide +kernel
  cases h : lower program "demo" with
  | error d =>
    rw [h] at hall
    cases hall
  | ok m =>
    cases h' : lower program' "demo" with
    | error d =>
      rw [h, h'] at hall
      cases hall
    | ok m' =>
      rw [h, h'] at hall
      obtain ⟨hne, hplain, hplain', htext⟩ := of_decide_eq_true hall
      exact ⟨m, m', rfl, rfl, hne, moduleText_determines (by decide) h h' hplain hplain' htext⟩

end Lowering

end TreeLang
