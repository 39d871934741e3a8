import TreeLang.Proofs.Text.Literals
import TreeLang.Proofs.Text.Quoting
import TreeLang.Tree.Source

namespace TreeLang.Tree

open Text

mutual

/-- Every name a tree writes: variables, assigned targets, callees, declared functions and their
parameters. -/
def Expr.names : Expr → List String
  | .int _ | .double _ | .str _ => []
  | .ident name => [name]
  | .neg operand => operand.names
  | .binary _ lhs rhs => lhs.names ++ rhs.names
  | .assign target value => target :: value.names
  | .call callee args => callee :: namesOfExprs args
  | .block stmts => namesOfBlock stmts

def namesOfExprs : List Expr → List String
  | [] => []
  | e :: es => e.names ++ namesOfExprs es

@[inherit_doc Expr.names]
def Stmt.names : Stmt → List String
  | .expr e => e.names
  | .var name _ none => [name]
  | .var name _ (some init) => name :: init.names
  | .function decl => decl.names
  | .ret none => []
  | .ret (some value) => value.names
  | .ite cond thenBlock none => cond.names ++ namesOfBlock thenBlock
  | .ite cond thenBlock (some elseBlock) =>
    cond.names ++ (namesOfBlock thenBlock ++ namesOfBlock elseBlock)
  | .loop init cond post body =>
    namesOfExprs init ++ (cond.names ++ (namesOfExprs post ++ namesOfBlock body))

def FunctionDecl.names : FunctionDecl → List String
  | ⟨name, params, _, body⟩ => name :: (params.map (·.name) ++ namesOfBlock body)

def namesOfBlock : List Stmt → List String
  | [] => []
  | s :: ss => s.names ++ namesOfBlock ss

end

mutual

/-- Whether a block with statements stands in the expression, outside of other blocks. -/
def Expr.holdsBlock : Expr → Bool
  | .int _ | .double _ | .str _ | .ident _ => false
  | .neg operand => operand.holdsBlock
  | .binary _ lhs rhs => lhs.holdsBlock || rhs.holdsBlock
  | .assign _ value => value.holdsBlock
  | .call _ args => exprsHoldBlock args
  | .block stmts => !stmts.isEmpty

def exprsHoldBlock : List Expr → Bool
  | [] => false
  | e :: es => e.holdsBlock || exprsHoldBlock es

end

theorem unbroken_of_isNumeric {cs : List Char} (h : ∀ c ∈ cs, isNumeric c = true) : Unbroken cs := by
  intro c hc
  have hnumeric := h c hc
  cases hbreak : isBreak c with
  | false => rfl
  | true =>
    simp only [isBreak, Bool.or_eq_true, decide_eq_true_eq] at hbreak
    obtain (((((rfl | rfl) | rfl) | rfl) | rfl) | rfl) | rfl := hbreak <;> cases hnumeric

theorem unbroken_intercalate {sep : String} (hsep : Unbroken sep.toList) :
    ∀ ss : List String, Unbroken (sep.intercalate ss).toList ↔ ∀ s ∈ ss, Unbroken s.toList
  | [] => by simp [unbroken_nil]
  | [s] => by simp
  | s :: t :: ss => by
    simp only [String.intercalate_cons_cons, String.toList_append, unbroken_append, hsep, and_true,
      unbroken_intercalate hsep (t :: ss), List.forall_mem_cons]

/-- Parentheses break no line. -/
theorem unbroken_parenthesize (compound : Bool) (text : String) :
    Unbroken (parenthesize compound text).toList ↔ Unbroken text.toList := by
  have hopen : Unbroken "(".toList := by decide
  have hclose : Unbroken ")".toList := by decide
  unfold parenthesize
  split
  · simp only [String.toList_append, unbroken_append, hopen, hclose, true_and, and_true]
  · rfl

theorem not_unbroken_braced (depth : Nat) (lines : String) :
    ¬ Unbroken (braced depth false lines).toList := by
  intro h
  simp only [braced, Bool.false_eq_true, if_false, String.toList_append, unbroken_append] at h
  exact absurd h.1.1.1 (by decide)

theorem unbroken_symbol (op : BinaryOp) : Unbroken op.symbol.toList := by
  cases op <;> decide

theorem unbroken_ty (ty : Ty) : Unbroken ty.text.toList := by
  cases ty <;> decide

mutual

/-- An expression is on one line iff it holds no block with statements. -/
theorem Expr.unbroken_sourceAt : ∀ (e : Expr) (depth : Nat),
    (∀ name ∈ e.names, Unbroken name.toList) →
    (Unbroken (e.sourceAt depth).toList ↔ e.holdsBlock = false)
  | .int value, _, _ => iff_of_true (unbroken_of_isNumeric (isNumeric_toString _)) rfl
  | .double value, _, _ => iff_of_true (unbroken_of_isNumeric value.isNumeric_literal) rfl
  | .str value, _, _ => by
    rw [Expr.sourceAt, toList_quote]
    exact iff_of_true (unbroken_quoteChars _) rfl
  | .ident name, _, hnames => iff_of_true (hnames name List.mem_cons_self) rfl
  | .neg operand, depth, hnames => by
    rw [Expr.sourceAt, String.toList_append, unbroken_append, unbroken_parenthesize,
      operand.unbroken_sourceAt depth hnames, Expr.holdsBlock]
    exact and_iff_right (by decide)
  | .binary op lhs rhs, depth, hnames => by
    obtain ⟨hlhs, hrhs⟩ := List.forall_mem_append.mp hnames
    have hspace : Unbroken " ".toList := by decide
    simp only [Expr.sourceAt, String.toList_append, unbroken_append, unbroken_parenthesize,
      lhs.unbroken_sourceAt depth hlhs, rhs.unbroken_sourceAt depth hrhs, hspace, unbroken_symbol,
      and_true, Expr.holdsBlock, Bool.or_eq_false_iff]
  | .assign target value, depth, hnames => by
    obtain ⟨htarget, hvalue⟩ := List.forall_mem_cons.mp hnames
    rw [Expr.sourceAt, String.toList_append, String.toList_append, unbroken_append, unbroken_append,
      value.unbroken_sourceAt depth hvalue, Expr.holdsBlock]
    exact and_iff_right ⟨htarget, by decide⟩
  | .call callee args, _, hnames => by
    obtain ⟨hcallee, hargs⟩ := List.forall_mem_cons.mp hnames
    have hopen : Unbroken "(".toList := by decide
    have hclose : Unbroken ")".toList := by decide
    simp only [Expr.sourceAt, String.toList_append, unbroken_append, hcallee, hopen, hclose, true_and,
      and_true, unbroken_sourcesOfExprs args hargs, Expr.holdsBlock]
  | .block [], _, _ => iff_of_true (show Unbroken "\x7b \x7d".toList by decide) rfl
  | .block (s :: ss), depth, _ =>
    iff_of_false (not_unbroken_braced depth (linesAt (depth + 1) (s :: ss))) Bool.noConfusion

theorem unbroken_sourcesOfExprs : ∀ es : List Expr,
    (∀ name ∈ namesOfExprs es, Unbroken name.toList) →
    (Unbroken (", ".intercalate (sourcesOfExprs es)).toList ↔ exprsHoldBlock es = false)
  | [], _ => iff_of_true (by decide) rfl
  | e :: es, hnames => by
    obtain ⟨he, hes⟩ := List.forall_mem_append.mp hnames
    have hsep : Unbroken ", ".toList := by decide
    rw [unbroken_intercalate hsep, sourcesOfExprs, List.forall_mem_cons, e.unbroken_sourceAt 0 he,
      ← unbroken_intercalate hsep, unbroken_sourcesOfExprs es hes, exprsHoldBlock,
      Bool.or_eq_false_iff]

end

/-- Whether a block with statements stands in what the summary shows. -/
def Stmt.showsBlock : Stmt → Bool
  | .expr e => e.holdsBlock
  | .var _ _ (some init) => init.holdsBlock
  | .ret (some value) => value.holdsBlock
  | .ite cond _ _ => cond.holdsBlock
  | .loop init cond post _ => exprsHoldBlock init || cond.holdsBlock || exprsHoldBlock post
  | .var _ _ none | .ret none | .function _ => false

theorem FunctionDecl.unbroken_header (d : FunctionDecl)
    (hnames : ∀ name ∈ d.names, Unbroken name.toList) : Unbroken d.header.toList := by
  obtain ⟨name, params, returns, body⟩ := d
  obtain ⟨hname, hrest⟩ := List.forall_mem_cons.mp hnames
  have hparams : ∀ s ∈ params.map (fun p : Param => p.ty.text ++ " " ++ p.name), Unbroken s.toList := by
    refine List.forall_mem_map.mpr fun p hp => ?_
    have hp' := hrest p.name (List.mem_append_left _ (List.mem_map_of_mem hp))
    simp only [String.toList_append, unbroken_append]
    exact ⟨⟨unbroken_ty p.ty, by decide⟩, hp'⟩
  simp only [FunctionDecl.header, String.toList_append, unbroken_append]
  exact ⟨⟨⟨⟨⟨unbroken_ty returns, by decide⟩, hname⟩, by decide⟩,
    (unbroken_intercalate (by decide) _).mpr hparams⟩, by decide⟩

/-- A summary is on one line unless it shows a block with statements. -/
theorem Stmt.unbroken_summary_iff (s : Stmt) (hnames : ∀ name ∈ s.names, Unbroken name.toList) :
    Unbroken s.summary.toList ↔ s.showsBlock = false := by
  have hspace : Unbroken " ".toList := by decide
  have hsemicolon : Unbroken ";".toList := by decide
  have hclose : Unbroken ")".toList := by decide
  match s with
  | .expr e =>
    simp only [summary, source, sourceAt, String.toList_append, unbroken_append,
      e.unbroken_sourceAt 0 hnames, hsemicolon, and_true, showsBlock]
  | .var name ty none =>
    have hname := hnames name List.mem_cons_self
    simp only [summary, source, sourceAt, String.toList_append, unbroken_append, unbroken_ty, hspace,
      hname, hsemicolon, and_true, showsBlock]
  | .var name ty (some init) =>
    obtain ⟨hname, hinit⟩ := List.forall_mem_cons.mp hnames
    have hequals : Unbroken " = ".toList := by decide
    simp only [summary, source, sourceAt, String.toList_append, unbroken_append, unbroken_ty, hspace,
      hname, hequals, init.unbroken_sourceAt 0 hinit, hsemicolon, and_true, true_and, showsBlock]
  | .function decl => exact iff_of_true (decl.unbroken_header hnames) rfl
  | .ret none => exact iff_of_true (by decide) rfl
  | .ret (some value) =>
    have hreturn : Unbroken "return ".toList := by decide
    simp only [summary, source, sourceAt, String.toList_append, unbroken_append, hreturn,
      value.unbroken_sourceAt 0 hnames, hsemicolon, and_true, true_and, showsBlock]
  | .ite cond thenBlock elseBlock =>
    have hcond : ∀ name ∈ cond.names, Unbroken name.toList := by
      cases elseBlock with
      | none => exact (List.forall_mem_append.mp hnames).1
      | some => exact (List.forall_mem_append.mp hnames).1
    have hif : Unbroken "if (".toList := by decide
    simp only [summary, Expr.source, String.toList_append, unbroken_append, hif,
      cond.unbroken_sourceAt 0 hcond, hclose, and_true, true_and, showsBlock]
  | .loop init cond post body =>
    obtain ⟨hinit, hrest⟩ := List.forall_mem_append.mp hnames
    obtain ⟨hcond, hrest⟩ := List.forall_mem_append.mp hrest
    obtain ⟨hpost, -⟩ := List.forall_mem_append.mp hrest
    have hfor : Unbroken "for (".toList := by decide
    have hpart : Unbroken "; ".toList := by decide
    simp only [summary, Expr.source, String.toList_append, unbroken_append, hfor,
      unbroken_sourcesOfExprs init hinit, cond.unbroken_sourceAt 0 hcond,
      unbroken_sourcesOfExprs post hpost, hpart, hclose, and_true, true_and, showsBlock,
      Bool.or_eq_false_iff]

/-- Two statements that differ in what stands in a block; only one of them has a summary of one line. -/
theorem Stmt.unbroken_summary_iff_blocks :
    Unbroken (Stmt.expr (.neg (.block []))).summary.toList ∧
      ¬ Unbroken (Stmt.expr (.neg (.block [.expr (.ident "a")]))).summary.toList := by
  have hnone : ∀ name ∈ (Stmt.expr (.neg (.block []))).names, Unbroken name.toList :=
    List.forall_mem_nil _
  have hsome : ∀ name ∈ (Stmt.expr (.neg (.block [.expr (.ident "a")]))).names,
      Unbroken name.toList := by decide
  refine ⟨(Stmt.unbroken_summary_iff _ hnone).mpr rfl, fun h => ?_⟩
  cases (Stmt.unbroken_summary_iff _ hsome).mp h

end TreeLang.Tree
