import TreeLang.Proofs.Source.Statements

namespace TreeLang.Tree

mutual

/-- Every expression whose names are identifiers is read from its text. -/
theorem Expr.readBack : ∀ e : Expr, e.Finite → (∀ name ∈ e.names, IsIdentifier name) → e.ReadBack
  | .int n, _, _ => readBack_int n
  | .double _, hx, _ => readBack_double hx
  | .str s, _, _ => readBack_str s
  | .ident name, _, hnames => readBack_ident (hnames name List.mem_cons_self)
  | .neg operand, h, hnames => readBack_neg (operand.readBack h hnames)
  | .binary op lhs rhs, h, hnames =>
    have ⟨hlhs, hrhs⟩ := List.forall_mem_append.mp hnames
    readBack_binary op (lhs.readBack h.1 hlhs) (rhs.readBack h.2 hrhs)
  | .assign _ value, h, hnames =>
    have ⟨htarget, hvalue⟩ := List.forall_mem_cons.mp hnames
    readBack_assign htarget (value.readBack h hvalue)
  | .call _ args, h, hnames =>
    have ⟨hcallee, hargs⟩ := List.forall_mem_cons.mp hnames
    readBack_call hcallee (exprs_readBack args h hargs)
  | .block ss, h, hnames => readBack_block (block_readBack ss h hnames)

theorem exprs_readBack : ∀ es : List Expr, ExprsFinite es →
    (∀ name ∈ namesOfExprs es, IsIdentifier name) → ExprsReadBack es
  | [], _, _ => readBack_nil
  | e :: es, h, hnames =>
    have ⟨he, hes⟩ := List.forall_mem_append.mp hnames
    readBack_cons (e.readBack h.1 he) (exprs_readBack es h.2 hes)

/-- Every statement whose names are identifiers is read from its text. -/
theorem Stmt.readBack : ∀ s : Stmt, s.Finite → (∀ name ∈ s.names, IsIdentifier name) → s.ReadBack
  | .expr e, h, hnames => readBack_expr h hnames (e.readBack h hnames)
  | .var name ty none, _, hnames => readBack_var ty (hnames name List.mem_cons_self)
  | .var _ ty (some init), h, hnames =>
    have ⟨hname, hinit⟩ := List.forall_mem_cons.mp hnames
    readBack_init ty hname (init.readBack h hinit)
  | .function ⟨_, _, returns, body⟩, h, hnames =>
    have ⟨hname, hrest⟩ := List.forall_mem_cons.mp hnames
    have ⟨hparams, hbody⟩ := List.forall_mem_append.mp hrest
    readBack_function returns hname hparams (block_readBack body h hbody)
  | .ret none, _, _ => readBack_return
  | .ret (some value), h, hnames => readBack_returnValue (value.readBack h hnames)
  | .ite cond thenBlock none, h, hnames =>
    have ⟨hcond, hthen⟩ := List.forall_mem_append.mp hnames
    readBack_conditional (cond.readBack h.1 hcond) (block_readBack thenBlock h.2 hthen)
  | .ite cond thenBlock (some elseBlock), h, hnames =>
    have ⟨hcond, hrest⟩ := List.forall_mem_append.mp hnames
    have ⟨hthen, helse⟩ := List.forall_mem_append.mp hrest
    readBack_alternative (cond.readBack h.1 hcond) (block_readBack thenBlock h.2.1 hthen)
      (block_readBack elseBlock h.2.2 helse)
  | .loop init cond post body, h, hnames =>
    have ⟨hinit, hrest⟩ := List.forall_mem_append.mp hnames
    have ⟨hcond, hrest⟩ := List.forall_mem_append.mp hrest
    have ⟨hpost, hbody⟩ := List.forall_mem_append.mp hrest
    readBack_loop (exprs_readBack init h.1 hinit) (cond.readBack h.2.1 hcond)
      (exprs_readBack post h.2.2.1 hpost) (block_readBack body h.2.2.2 hbody)

theorem block_readBack : ∀ ss : List Stmt, StmtsFinite ss →
    (∀ name ∈ namesOfBlock ss, IsIdentifier name) → BlockReadBack ss
  | [], _, _ => readBack_empty
  | s :: ss, h, hnames =>
    have ⟨hs, hss⟩ := List.forall_mem_append.mp hnames
    readBack_line (s.readBack h.1 hs) (block_readBack ss h.2 hss)

end

/-- A program is read from its text. -/
theorem readLines_programSource {p : Block} {fuel : Nat} (hfinite : StmtsFinite p)
    (hnames : ∀ name ∈ namesOfBlock p, IsIdentifier name) (hfuel : 6 * sizeOf p ≤ fuel) :
    readLines fuel (programSource p).toList = (normalBlock p, []) := by
  have hread := block_readBack p hfinite hnames fuel 0 [] hfuel (by rintro c ⟨⟩)
  rwa [List.append_nil] at hread

/-- Two programs have the same text exactly when they are the same up to the reading of literals with a
minus sign. -/
theorem programSource_eq_iff {p q : Block} (hp : StmtsFinite p) (hq : StmtsFinite q)
    (hpNames : ∀ name ∈ namesOfBlock p, IsIdentifier name)
    (hqNames : ∀ name ∈ namesOfBlock q, IsIdentifier name) :
    programSource p = programSource q ↔ normalBlock p = normalBlock q := by
  constructor
  · intro h
    have hpRead := readLines_programSource hp hpNames (Nat.le_max_left (6 * sizeOf p) (6 * sizeOf q))
    have hqRead := readLines_programSource hq hqNames (Nat.le_max_right (6 * sizeOf p) (6 * sizeOf q))
    rw [h, hqRead] at hpRead
    exact (congrArg Prod.fst hpRead).symm
  · intro h
    calc programSource p = programSource (normalBlock p) := (linesAt_normal p 0 hp).symm
      _ = programSource (normalBlock q) := by rw [h]
      _ = programSource q := linesAt_normal q 0 hq

/-- A sign in front of a sum and one in front of its first operand are told apart; one that belongs to
a literal and one that negates it are not. -/
theorem programSource_eq_iff_signs :
    programSource [.expr (.neg (.binary .add (.ident "a") (.int 1)))] ≠
        programSource [.expr (.binary .add (.neg (.ident "a")) (.int 1))] ∧
      programSource [.expr (.assign "a" (.double ⟨0x8000000000000000⟩))] =
        programSource [.expr (.assign "a" (.neg (.double ⟨0⟩)))] := by
  have hname : ∀ name ∈ ["a"], IsIdentifier name := by
    intro name h
    rw [List.mem_singleton.mp h]
    exact ⟨by decide, by decide, by decide, by decide⟩
  have hsum : StmtsFinite [.expr (.neg (.binary .add (.ident "a") (.int 1)))] :=
    ⟨⟨trivial, trivial⟩, trivial⟩
  have hterm : StmtsFinite [.expr (.binary .add (.neg (.ident "a")) (.int 1))] :=
    ⟨⟨trivial, trivial⟩, trivial⟩
  have hzero : StmtsFinite [.expr (.assign "a" (.double ⟨0x8000000000000000⟩))] := ⟨rfl, trivial⟩
  have hnegated : StmtsFinite [.expr (.assign "a" (.neg (.double ⟨0⟩)))] := ⟨rfl, trivial⟩
  constructor
  · intro h
    cases (programSource_eq_iff hsum hterm hname hname).mp h
  · exact (programSource_eq_iff hzero hnegated hname hname).mpr rfl

end TreeLang.Tree
