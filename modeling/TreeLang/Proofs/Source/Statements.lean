import TreeLang.Proofs.Source.Expressions

namespace TreeLang.Tree

open Text

variable {fuel depth : Nat} {cs rest : List Char}

theorem readStmt_eq_none (h : ∀ c ∈ cs.head?, c ∈ [' ', '\x7d']) : readStmt fuel cs = none := by
  have hall : ∀ c ∈ [' ', '\x7d'], isWord c = false ∧ c ∈ [')', ';', ' ', '\x7d'] := by decide
  cases fuel with
  | zero => rfl
  | succ fuel =>
    rw [readStmt, readWord_eq_empty fun c hc => (hall c (h c hc)).1]
    change (readExpr fuel cs).bind _ = none
    rw [readExpr_eq_none fun c hc => (hall c (h c hc)).2]
    rfl

/-- The statement is read from its text, up to the end of the line. -/
def Stmt.ReadBack (s : Stmt) : Prop :=
  ∀ fuel depth rest, 6 * sizeOf s ≤ fuel →
    readStmt fuel ((s.sourceAt depth).toList ++ '\n' :: rest) = some (s.normal, '\n' :: rest)

/-- The statements are read from their lines, up to where no statement begins. -/
def BlockReadBack (ss : List Stmt) : Prop :=
  ∀ fuel depth rest, 6 * sizeOf ss ≤ fuel → (∀ c ∈ (skipIndentation rest).head?, c = '\x7d') →
    readLines fuel ((linesAt depth ss).toList ++ rest) = (normalBlock ss, skipIndentation rest)

theorem skipIndentation_append (depth : Nat) (cs : List Char) :
    skipIndentation ((indentation depth).toList ++ cs) = skipIndentation cs := by
  rw [indentation, String.toList_ofList]
  exact List.dropWhile_append_of_pos fun c hc => by simp [(List.mem_replicate.mp hc).2]

theorem Stmt.ReadBack.skipIndentation {s : Stmt} (h : s.ReadBack) (depth : Nat) (rest : List Char) :
    skipIndentation ((s.sourceAt depth).toList ++ '\n' :: rest) =
      (s.sourceAt depth).toList ++ '\n' :: rest := by
  have hread := h _ depth rest (Nat.le_refl _)
  cases hcs : (s.sourceAt depth).toList ++ '\n' :: rest with
  | nil => rfl
  | cons c cs =>
    by_cases hc : c = ' '
    · subst hc
      rw [hcs, readStmt_eq_none (by simp)] at hread
      cases hread
    · simp [Tree.skipIndentation, hc]

theorem readBack_empty : BlockReadBack [] := by
  intro fuel depth rest hfuel hrest
  obtain ⟨fuel, rfl⟩ : ∃ f, fuel = f + 1 := ⟨fuel - 1, by simp at hfuel; omega⟩
  have hnone : readStmt fuel (skipIndentation rest) = none :=
    readStmt_eq_none fun c hc => by simp [hrest c hc]
  change readLines (fuel + 1) rest = _
  rw [readLines, hnone]
  rfl

/-- A statement is read up to the end of its line, and the rest from the next line on. -/
theorem readBack_line {s : Stmt} {ss : List Stmt} (hs : s.ReadBack) (hss : BlockReadBack ss) :
    BlockReadBack (s :: ss) := by
  intro fuel depth rest hfuel hrest
  simp only [List.cons.sizeOf_spec] at hfuel
  obtain ⟨fuel, rfl⟩ : ∃ f, fuel = f + 1 := ⟨fuel - 1, by omega⟩
  have hline : "\n".toList ++ ((linesAt depth ss).toList ++ rest) =
      '\n' :: ((linesAt depth ss).toList ++ rest) := rfl
  simp only [linesAt, String.toList_append, List.append_assoc, hline]
  rw [readLines, skipIndentation_append, hs.skipIndentation, hs fuel depth _ (by omega)]
  simp only [hss fuel depth rest (by omega) hrest, normalBlock]

/-- A block is read with its braces, at whatever depth it stands. -/
theorem BlockReadBack.braced {ss : List Stmt} (h : BlockReadBack ss) (fuel depth : Nat)
    (rest : List Char) (hfuel : 6 * sizeOf ss < fuel) :
    readBlock fuel ((braced depth ss.isEmpty (linesAt (depth + 1) ss)).toList ++ rest) =
      some (normalBlock ss, rest) := by
  obtain ⟨fuel, rfl⟩ : ∃ f, fuel = f + 1 := ⟨fuel - 1, by omega⟩
  match ss with
  | [] =>
    change readBlock (fuel + 1) ("\x7b \x7d".toList ++ rest) = _
    rw [readBlock, skip_append]
    rfl
  | s :: ss =>
    have hclose : skipIndentation ((indentation depth).toList ++ ("\x7d".toList ++ rest)) =
        "\x7d".toList ++ rest := skipIndentation_append depth _
    have hlines := h fuel (depth + 1) ((indentation depth).toList ++ ("\x7d".toList ++ rest)) (by omega)
      (by rw [hclose]; rintro c ⟨⟩; rfl)
    have hopen : ∀ cs, skip "\x7b \x7d" ("\x7b\n".toList ++ cs) = none := fun _ => rfl
    rw [Tree.braced, List.isEmpty_cons, if_neg (by decide), String.toList_append, String.toList_append,
      String.toList_append, List.append_assoc, List.append_assoc, List.append_assoc, readBlock, hopen]
    simp only [skip_append, Option.bind_eq_bind, Option.bind_some, hlines, hclose, Option.pure_def]

/-- A brace begins a block. -/
theorem readOperand_brace {ss : List Stmt}
    (h : readBlock fuel ('\x7b' :: cs) = some (ss, rest)) :
    readOperand (fuel + 1) ('\x7b' :: cs) = some (.block ss, rest) := by
  rw [readOperand, h]
  rfl

theorem readBack_block {ss : List Stmt} (h : BlockReadBack ss) : (Expr.block ss).ReadBack := by
  refine .of_bare rfl fun fuel depth rest hfuel hrest => ?_
  simp only [Expr.block.sizeOf_spec] at hfuel
  obtain ⟨fuel, rfl⟩ : ∃ f, fuel = f + 1 := ⟨fuel - 1, by omega⟩
  have hblock := h.braced fuel depth rest (by omega)
  obtain ⟨cs, hcs⟩ : ∃ cs, (braced depth ss.isEmpty (linesAt (depth + 1) ss)).toList ++ rest =
      '\x7b' :: cs := by
    unfold braced
    split
    · exact ⟨_, rfl⟩
    · simp only [String.toList_append, List.append_assoc]
      exact ⟨_, rfl⟩
  rw [hcs] at hblock
  rw [Expr.sourceAt, hcs, readOperand_brace hblock, Expr.normal]

theorem word_notMem_reserved (h : ∀ c ∈ cs.head?, isWord c = true → c.isDigit = true) :
    (readWord cs).1 ∉ reserved := by
  have hall : ∀ w ∈ reserved, ∃ c ∈ w.toList.head?, isWord c = true ∧ c.isDigit = false := by decide
  intro hw
  obtain ⟨c, hc, hword, hdigit⟩ := hall _ hw
  rw [readWord, readWhile, String.toList_ofList] at hc
  have hhead : c ∈ cs.head? := by
    cases cs with
    | nil => cases hc
    | cons d ds =>
      rw [List.takeWhile_cons] at hc
      split at hc
      · exact hc
      · cases hc
  rw [h c hhead hword] at hdigit
  cases hdigit

theorem word_name {name : String} (h : IsIdentifier name) (hrest : Until isWord rest) :
    (readWord (name.toList ++ rest)).1 ∉ reserved := by
  rw [readWord_append h.word hrest]
  exact h.reserved

/-- No expression begins with a keyword. -/
theorem Expr.word_notMem : ∀ (e : Expr) (depth : Nat) {rest : List Char}, e.Finite →
    (∀ name ∈ e.names, IsIdentifier name) → Until isWord rest →
    (readWord ((e.sourceAt depth).toList ++ rest)).1 ∉ reserved
  | .int n, _, rest, _, _, _ => by
    refine word_notMem_reserved fun c hc hword => ?_
    rw [Expr.sourceAt, int32Text, toList_toString_int] at hc
    split at hc
    · cases hc
      cases hword
    · rw [List.nil_append, List.head?_append_of_ne_nil _ Nat.toDigits_ne_nil] at hc
      exact isDigit_toDigits (List.mem_of_head? hc)
  | .double x, _, rest, hx, _, _ => by
    refine word_notMem_reserved fun c hc hword => ?_
    obtain ⟨d, ds, hds, hd⟩ := (Decimal.regular_spelling .literal x.shortest).head
    rw [Expr.sourceAt, Double.literal_of_finite hx, hds] at hc
    split at hc
    · cases hc
      cases hword
    · cases hc
      exact hd
  | .str s, _, rest, _, _, _ => by
    refine word_notMem_reserved fun c hc hword => ?_
    rw [Expr.sourceAt, toList_quote] at hc
    cases hc
    cases hword
  | .ident name, _, _, _, hnames, hrest => word_name (hnames name List.mem_cons_self) hrest
  | .neg operand, _, rest, _, _, _ => by
    refine word_notMem_reserved fun c hc hword => ?_
    rw [Expr.sourceAt, String.toList_append] at hc
    cases hc
    cases hword
  | .binary op lhs rhs, depth, rest, hfinite, hnames, _ => by
    simp only [Expr.sourceAt, String.toList_append, List.append_assoc, parenthesize]
    split
    · refine word_notMem_reserved fun c hc hword => ?_
      simp only [String.toList_append, List.append_assoc] at hc
      cases hc
      cases hword
    · exact lhs.word_notMem depth hfinite.1 (List.forall_mem_append.mp hnames).1
        (closes_space _).noWord
  | .assign target value, _, rest, _, hnames, _ => by
    simp only [Expr.sourceAt, String.toList_append, List.append_assoc]
    exact word_name (hnames target List.mem_cons_self) (closes_space _).noWord
  | .call callee args, _, rest, _, hnames, _ => by
    simp only [Expr.sourceAt, String.toList_append, List.append_assoc]
    exact word_name (hnames callee List.mem_cons_self) (by rintro c ⟨⟩; decide)
  | .block ss, depth, rest, _, _, _ => by
    refine word_notMem_reserved fun c hc hword => ?_
    rw [Expr.sourceAt, braced] at hc
    split at hc
    · cases hc
      cases hword
    · simp only [String.toList_append, List.append_assoc] at hc
      cases hc
      cases hword

theorem ofWord?_eq_none {w : String} (h : w ∉ reserved) : ofWord? w = none := by
  refine List.find?_eq_none.mpr fun ty hty => ?_
  have hall : ∀ ty ∈ [Ty.int, .double, .string, .void], ty.text ∈ reserved := by decide
  exact fun heq => h (beq_iff_eq.mp heq ▸ hall ty hty)

/-- A statement whose first word is not reserved is an expression. -/
theorem readStmt_expr {e : Expr} (hword : (readWord cs).1 ∉ reserved)
    (h : readExpr fuel cs = some (e, ";".toList ++ rest)) :
    readStmt (fuel + 1) cs = some (.expr e, rest) := by
  have hreturn : (readWord cs).1 ≠ "return" := fun heq => hword (heq ▸ by decide)
  have hif : (readWord cs).1 ≠ "if" := fun heq => hword (heq ▸ by decide)
  have hfor : (readWord cs).1 ≠ "for" := fun heq => hword (heq ▸ by decide)
  simp only [readStmt, hreturn, hif, hfor, if_false, ofWord?_eq_none hword, h, Option.bind_eq_bind,
    Option.bind_some, skip_append, Option.pure_def]

theorem readStmt_return (h : Until isWord cs) :
    readStmt (fuel + 1) ("return".toList ++ cs) = readReturn fuel cs := by
  rw [readStmt, readWord_append (by decide) h]
  rfl

theorem readStmt_if (h : Until isWord cs) :
    readStmt (fuel + 1) ("if".toList ++ cs) = readConditional fuel cs := by
  rw [readStmt, readWord_append (by decide) h]
  rfl

theorem readStmt_for (h : Until isWord cs) :
    readStmt (fuel + 1) ("for".toList ++ cs) = readLoop fuel cs := by
  rw [readStmt, readWord_append (by decide) h]
  rfl

theorem readStmt_ty (ty : Ty) (h : Until isWord cs) :
    readStmt (fuel + 1) (ty.text.toList ++ cs) = readDeclaration fuel ty cs := by
  have hword : ∀ c ∈ ty.text.toList, isWord c = true := by cases ty <;> decide
  rw [readStmt, readWord_append hword h]
  cases ty <;> rfl

theorem readBack_expr {e : Expr} (hfinite : e.Finite) (hnames : ∀ name ∈ e.names, IsIdentifier name)
    (h : e.ReadBack) : (Stmt.expr e).ReadBack := by
  intro fuel depth rest hfuel
  simp only [Stmt.expr.sizeOf_spec] at hfuel
  obtain ⟨fuel, rfl⟩ : ∃ f, fuel = f + 1 := ⟨fuel - 1, by omega⟩
  have hends := (shuts_semicolon ('\n' :: rest)).ends
  rw [Stmt.sourceAt, String.toList_append, List.append_assoc]
  exact readStmt_expr (e.word_notMem depth hfinite hnames hends.closes.noWord)
    (h.expr fuel depth _ (by omega) hends)

theorem readBack_return : (Stmt.ret none).ReadBack := by
  intro fuel depth rest hfuel
  simp only [Stmt.ret.sizeOf_spec] at hfuel
  obtain ⟨fuel, rfl⟩ : ∃ f, fuel = f + 2 := ⟨fuel - 2, by omega⟩
  have hkeyword : ∀ cs, "return;".toList ++ cs = "return".toList ++ (";".toList ++ cs) := fun _ => rfl
  have hspace : skip " " (";".toList ++ '\n' :: rest) = none := (shuts_semicolon _).ends.skip
  rw [Stmt.sourceAt, hkeyword, readStmt_return (shuts_semicolon _).ends.closes.noWord, readReturn, hspace]
  simp only [skip_append, Option.bind_eq_bind, Option.bind_some, Option.pure_def, Stmt.normal]

theorem readBack_returnValue {value : Expr} (h : value.ReadBack) : (Stmt.ret (some value)).ReadBack := by
  intro fuel depth rest hfuel
  simp only [Stmt.ret.sizeOf_spec, Option.some.sizeOf_spec] at hfuel
  obtain ⟨fuel, rfl⟩ : ∃ f, fuel = f + 2 := ⟨fuel - 2, by omega⟩
  have hvalue := h.expr fuel depth (";".toList ++ '\n' :: rest) (by omega) (shuts_semicolon _).ends
  have hkeyword : ∀ cs, "return ".toList ++ cs = "return".toList ++ (" ".toList ++ cs) := fun _ => rfl
  simp only [Stmt.sourceAt, String.toList_append, List.append_assoc, hkeyword]
  rw [readStmt_return (closes_space _).noWord, readReturn]
  simp only [skip_append, hvalue, Option.bind_eq_bind, Option.bind_some, Option.pure_def, Stmt.normal]

theorem readBack_conditional {cond : Expr} {thenBlock : List Stmt} (hcond : cond.ReadBack)
    (hthen : BlockReadBack thenBlock) : (Stmt.ite cond thenBlock none).ReadBack := by
  intro fuel depth rest hfuel
  simp only [Stmt.ite.sizeOf_spec] at hfuel
  obtain ⟨fuel, rfl⟩ : ∃ f, fuel = f + 2 := ⟨fuel - 2, by omega⟩
  have hblock := hthen.braced fuel depth ('\n' :: rest) (by omega)
  have helse : skip " else " ('\n' :: rest) = none := rfl
  have hkeyword : ∀ cs, "if (".toList ++ cs = "if".toList ++ (" (".toList ++ cs) := fun _ => rfl
  have hclose : ∀ cs, Shuts (") ".toList ++ cs) := fun cs => shuts_parenthesis (" ".toList ++ cs)
  simp only [Stmt.sourceAt, String.toList_append, List.append_assoc, hkeyword]
  rw [readStmt_if (by rintro c ⟨⟩; decide), readConditional]
  simp only [skip_append, Option.bind_eq_bind, Option.bind_some]
  rw [hcond.expr fuel depth _ (by omega) (hclose _).ends]
  simp only [skip_append, hblock, helse, Option.bind_some, Option.pure_def, Stmt.normal]

theorem readBack_alternative {cond : Expr} {thenBlock elseBlock : List Stmt} (hcond : cond.ReadBack)
    (hthen : BlockReadBack thenBlock) (helse : BlockReadBack elseBlock) :
    (Stmt.ite cond thenBlock (some elseBlock)).ReadBack := by
  intro fuel depth rest hfuel
  simp only [Stmt.ite.sizeOf_spec, Option.some.sizeOf_spec] at hfuel
  obtain ⟨fuel, rfl⟩ : ∃ f, fuel = f + 2 := ⟨fuel - 2, by omega⟩
  have hlast := helse.braced fuel depth ('\n' :: rest) (by omega)
  have hkeyword : ∀ cs, "if (".toList ++ cs = "if".toList ++ (" (".toList ++ cs) := fun _ => rfl
  have hclose : ∀ cs, Shuts (") ".toList ++ cs) := fun cs => shuts_parenthesis (" ".toList ++ cs)
  simp only [Stmt.sourceAt, String.toList_append, List.append_assoc, hkeyword]
  rw [readStmt_if (by rintro c ⟨⟩; decide), readConditional]
  simp only [skip_append, Option.bind_eq_bind, Option.bind_some]
  rw [hcond.expr fuel depth _ (by omega) (hclose _).ends]
  simp only [skip_append, hthen.braced fuel depth _ (show 6 * sizeOf thenBlock < fuel by omega), hlast,
    Option.bind_some, Option.pure_def, Stmt.normal]

/-- The three parts of the header are told by the semicolons between them. -/
theorem readBack_loop {init post : List Expr} {cond : Expr} {body : List Stmt}
    (hinit : ExprsReadBack init) (hcond : cond.ReadBack) (hpost : ExprsReadBack post)
    (hbody : BlockReadBack body) : (Stmt.loop init cond post body).ReadBack := by
  intro fuel depth rest hfuel
  simp only [Stmt.loop.sizeOf_spec] at hfuel
  obtain ⟨fuel, rfl⟩ : ∃ f, fuel = f + 2 := ⟨fuel - 2, by omega⟩
  have hlast := hbody.braced fuel depth ('\n' :: rest) (by omega)
  have hkeyword : ∀ cs, "for (".toList ++ cs = "for".toList ++ (" (".toList ++ cs) := fun _ => rfl
  have hpart : ∀ cs, Shuts ("; ".toList ++ cs) := fun cs => shuts_semicolon (" ".toList ++ cs)
  have hclose : ∀ cs, Shuts (") ".toList ++ cs) := fun cs => shuts_parenthesis (" ".toList ++ cs)
  simp only [Stmt.sourceAt, String.toList_append, List.append_assoc, hkeyword]
  rw [readStmt_for (by rintro c ⟨⟩; decide), readLoop]
  simp only [skip_append, Option.bind_eq_bind, Option.bind_some]
  rw [hinit fuel _ (by omega) (hpart _)]
  simp only [skip_append, Option.bind_some]
  rw [hcond.expr fuel depth _ (by omega) (hpart _).ends]
  simp only [skip_append, Option.bind_some]
  rw [hpost fuel _ (by omega) (hclose _)]
  simp only [skip_append, hlast, Option.bind_some, Option.pure_def, Stmt.normal]

theorem readBack_var (ty : Ty) {name : String} (hname : IsIdentifier name) :
    (Stmt.var name ty none).ReadBack := by
  intro fuel depth rest hfuel
  simp only [Stmt.var.sizeOf_spec] at hfuel
  obtain ⟨fuel, rfl⟩ : ∃ f, fuel = f + 2 := ⟨fuel - 2, by omega⟩
  have hends := (shuts_semicolon ('\n' :: rest)).ends
  have hequals : skip " = " (";".toList ++ '\n' :: rest) = none := rfl
  simp only [Stmt.sourceAt, String.toList_append, List.append_assoc]
  rw [readStmt_ty ty (closes_space _).noWord, readDeclaration]
  simp only [skip_append, Option.bind_eq_bind, Option.bind_some]
  rw [readWord_append hname.word hends.closes.noWord]
  simp only [hends.closes.skip, hequals, skip_append, Option.bind_some, Option.pure_def, Stmt.normal]

theorem readBack_init (ty : Ty) {name : String} {init : Expr} (hname : IsIdentifier name)
    (h : init.ReadBack) : (Stmt.var name ty (some init)).ReadBack := by
  intro fuel depth rest hfuel
  simp only [Stmt.var.sizeOf_spec, Option.some.sizeOf_spec] at hfuel
  obtain ⟨fuel, rfl⟩ : ∃ f, fuel = f + 2 := ⟨fuel - 2, by omega⟩
  have hvalue := h.expr fuel depth (";".toList ++ '\n' :: rest) (by omega) (shuts_semicolon _).ends
  have hequals : ∀ cs, Closes (" = ".toList ++ cs) := fun cs => closes_space ("= ".toList ++ cs)
  simp only [Stmt.sourceAt, String.toList_append, List.append_assoc]
  rw [readStmt_ty ty (closes_space _).noWord, readDeclaration]
  simp only [skip_append, Option.bind_eq_bind, Option.bind_some]
  rw [readWord_append hname.word (hequals _).noWord]
  simp only [(hequals _).skip, skip_append, hvalue, Option.bind_some, Option.pure_def, Stmt.normal]

theorem ofWord?_text (ty : Ty) : ofWord? ty.text = some ty := by
  cases ty <;> rfl

theorem readParams_text : ∀ (params : List Param) (fuel : Nat) (rest : List Char),
    (∀ name ∈ params.map (·.name), IsIdentifier name) → 6 * sizeOf params ≤ fuel →
    readParams fuel ((", ".intercalate (params.map fun p => p.ty.text ++ " " ++ p.name)).toList ++
      (")".toList ++ rest)) = (params, ")".toList ++ rest)
  | [], fuel, rest, _, _ => by
    have hword := readWord_eq_empty (shuts_parenthesis rest).ends.closes.noWord
    change readParams fuel (")".toList ++ rest) = _
    cases fuel with
    | zero => rfl
    | succ fuel =>
      rw [readParams, hword]
      rfl
  | [p], fuel, rest, hnames, hfuel => by
    simp only [List.cons.sizeOf_spec] at hfuel
    obtain ⟨fuel, rfl⟩ : ∃ f, fuel = f + 1 := ⟨fuel - 1, by omega⟩
    have hname := hnames p.name List.mem_cons_self
    have hty : ∀ c ∈ p.ty.text.toList, isWord c = true := by cases p.ty <;> decide
    have hcomma : skip ", " (")".toList ++ rest) = none := rfl
    simp only [List.map_cons, List.map_nil, String.intercalate_singleton, String.toList_append,
      List.append_assoc]
    rw [readParams, readWord_append hty (closes_space _).noWord]
    simp only [ofWord?_text, skip_append]
    rw [readWord_append hname.word (shuts_parenthesis rest).ends.closes.noWord]
    simp only [hcomma]
  | p :: q :: params, fuel, rest, hnames, hfuel => by
    simp only [List.cons.sizeOf_spec] at hfuel
    obtain ⟨fuel, rfl⟩ : ∃ f, fuel = f + 1 := ⟨fuel - 1, by omega⟩
    have hname := hnames p.name List.mem_cons_self
    have hty : ∀ c ∈ p.ty.text.toList, isWord c = true := by cases p.ty <;> decide
    have htail := readParams_text (q :: params) fuel rest
      (fun name h => hnames name (List.mem_cons_of_mem _ h))
      (by simp only [List.cons.sizeOf_spec]; omega)
    simp only [List.map_cons, String.intercalate_cons_cons, String.toList_append, List.append_assoc]
      at htail ⊢
    rw [readParams, readWord_append hty (closes_space _).noWord]
    simp only [ofWord?_text, skip_append]
    rw [readWord_append hname.word (ends_comma _).closes.noWord]
    simp only [skip_append, htail]

/-- A function is told from a variable by the parenthesis behind its name. -/
theorem readBack_function {name : String} {params : List Param} (returns : Ty) {body : List Stmt}
    (hname : IsIdentifier name) (hparams : ∀ name ∈ params.map (·.name), IsIdentifier name)
    (hbody : BlockReadBack body) : (Stmt.function ⟨name, params, returns, body⟩).ReadBack := by
  intro fuel depth rest hfuel
  simp only [Stmt.function.sizeOf_spec, FunctionDecl.mk.sizeOf_spec] at hfuel
  obtain ⟨fuel, rfl⟩ : ∃ f, fuel = f + 2 := ⟨fuel - 2, by omega⟩
  have hlast := hbody.braced fuel depth ('\n' :: rest) (by omega)
  have hclose : ∀ cs, skip ") " (")".toList ++ (" ".toList ++ cs)) = some cs := fun cs =>
    skip_append ") " cs
  simp only [Stmt.sourceAt, FunctionDecl.sourceAt, FunctionDecl.header, String.toList_append,
    List.append_assoc]
  rw [readStmt_ty returns (closes_space _).noWord, readDeclaration]
  simp only [skip_append, Option.bind_eq_bind, Option.bind_some]
  rw [readWord_append hname.word (by rintro c ⟨⟩; decide)]
  simp only [skip_append]
  rw [readParams_text params fuel _ hparams (by omega)]
  simp only [hclose, hlast, Option.bind_some, Option.pure_def, Stmt.normal, FunctionDecl.normal]

end TreeLang.Tree
