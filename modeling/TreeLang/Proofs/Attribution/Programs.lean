import Mathlib.Data.List.Nodup
import TreeLang.Proofs.Attribution.Lowering
import TreeLang.Proofs.Typing.Reports

namespace TreeLang

open TreeLang.Tree (Ty Expr Stmt FunctionDecl nestedOfExprs nestedFunctions)

namespace Typing

open Check

/-- A visit ends behind those of the functions in its body that are not passed over. -/
def Account.InnerFirst (a : Account) : Prop :=
  ∀ before d after, a.visited = before ++ d :: after → nestedFunctions d.body ⊆ before ++ a.missed

namespace Account

variable {a b : Account}

/-- The order is kept by every way of putting accounts together. -/
theorem innerFirst_none : none.InnerFirst := by
  intro before d after he
  simp [none, visited] at he

theorem innerFirst_passOver (ds : List FunctionDecl) : (passOver ds).InnerFirst := by
  intro before d after he
  simp [passOver, visited] at he

theorem InnerFirst.append (ha : a.InnerFirst) (hb : b.InnerFirst) : (a ++ b).InnerFirst := by
  intro before d after he
  rw [visited_append] at he
  rw [missed_append]
  rcases List.append_eq_append_iff.mp he with ⟨more, rfl, hmore⟩ | ⟨more, hvisited, hafter⟩
  · intro inner hinner
    rcases List.mem_append.mp (hb more d after hmore hinner) with hmem | hmem
    · exact List.mem_append_left _ (List.mem_append_right _ hmem)
    · exact List.mem_append_right _ (List.mem_append_right _ hmem)
  · cases more with
    | nil =>
      intro inner hinner
      have hmem := hb [] d after hafter.symm hinner
      simp only [List.nil_append] at hmem
      exact List.mem_append_right _ (List.mem_append_right _ hmem)
    | cons x more =>
      obtain ⟨rfl, _⟩ := List.cons_eq_cons.mp hafter
      intro inner hinner
      rcases List.mem_append.mp (ha before d more hvisited hinner) with hmem | hmem
      · exact List.mem_append_left _ hmem
      · exact List.mem_append_right _ (List.mem_append_left _ hmem)

theorem InnerFirst.andThen {ε α : Type} {ended : Except ε α × Checker}
    {next failed : Checker → Account} (ha : a.InnerFirst) (hn : ∀ k, (next k).InnerFirst)
    (hf : ∀ k, (failed k).InnerFirst) : (a.andThen ended next failed).InnerFirst := by
  obtain ⟨_ | _, k⟩ := ended
  · exact ha.append (hf k)
  · exact ha.append (hn k)

/-- The visit of a function behind the account of its body. -/
theorem InnerFirst.visit {decl : FunctionDecl} (ha : a.InnerFirst)
    (hbody : a.declared.Perm (nestedFunctions decl.body)) (k : Checker) :
    (a ++ Account.visit decl k).InnerFirst := by
  intro before d after he
  rw [visited_append] at he
  rw [missed_append, missed_visit, List.append_nil]
  change a.visited ++ [decl] = before ++ d :: after at he
  rcases List.eq_nil_or_concat after with rfl | ⟨after, x, rfl⟩
  · obtain ⟨rfl, hlast⟩ := List.append_inj' he rfl
    obtain ⟨rfl, _⟩ := List.cons_eq_cons.mp hlast
    exact fun inner hinner => hbody.mem_iff.mpr hinner
  · rw [List.concat_eq_append, ← List.cons_append, ← List.append_assoc] at he
    exact ha before d after (List.append_inj' he rfl).1

end Account

mutual

/-- By induction on the tree: the function that is visited comes behind all visits in its body. -/
theorem accountExpr_innerFirst (r : Registry) :
    ∀ (e : Expr) (k : Checker), (accountExpr r e k).InnerFirst
  | .int _, _ => Account.innerFirst_none
  | .double _, _ => Account.innerFirst_none
  | .str _, _ => Account.innerFirst_none
  | .ident _, _ => Account.innerFirst_none
  | .neg operand, k => accountExpr_innerFirst r operand k
  | .binary _ lhs rhs, k =>
    (accountExpr_innerFirst r lhs k).andThen (accountExpr_innerFirst r rhs)
      fun _ => Account.innerFirst_passOver _
  | .assign _ value, _ =>
    Account.innerFirst_none.andThen (accountExpr_innerFirst r value)
      fun _ => Account.innerFirst_passOver _
  | .call name args, k => by
    rw [accountExpr]
    split
    · split
      · exact accountArgs_innerFirst r _ 0 args k
      · exact Account.innerFirst_passOver _
    · exact Account.innerFirst_passOver _
  | .block stmts, k => accountStmts_innerFirst r stmts k

theorem accountArgs_innerFirst (r : Registry) (callee : Callee) (index : Nat) :
    ∀ (es : List Expr) (k : Checker), (accountArgs r callee index es k).InnerFirst
  | [], _ => Account.innerFirst_none
  | e :: es, k =>
    (accountExpr_innerFirst r e k).andThen (accountArgs_innerFirst r callee (index + 1) es)
      fun _ => Account.innerFirst_passOver _

theorem accountEach_innerFirst (r : Registry) :
    ∀ (es : List Expr) (k : Checker), (accountEach r es k).InnerFirst
  | [], _ => Account.innerFirst_none
  | e :: es, k =>
    (accountExpr_innerFirst r e k).andThen (accountEach_innerFirst r es)
      fun _ => Account.innerFirst_passOver _

theorem accountStmts_innerFirst (r : Registry) :
    ∀ (ss : List Stmt) (k : Checker), (accountStmts r ss k).InnerFirst
  | [], _ => Account.innerFirst_none
  | s :: ss, k =>
    (accountStmt_innerFirst r s k).andThen (accountStmts_innerFirst r ss)
      (accountFunctionsIn_innerFirst r ss)

theorem accountStmt_innerFirst (r : Registry) :
    ∀ (s : Stmt) (k : Checker), (accountStmt r s k).InnerFirst
  | .expr e, k => accountExpr_innerFirst r e k
  | .var _ _ none, _ => Account.innerFirst_none
  | .var _ ty (some init), k => by
    rw [accountStmt]
    split
    · exact Account.innerFirst_passOver _
    · exact accountExpr_innerFirst r init k
  | .function decl, k => accountFunction_innerFirst r decl k
  | .ret none, _ => Account.innerFirst_none
  | .ret (some value), k => accountExpr_innerFirst r value k
  | .ite cond thenBlock none, k =>
    (accountExpr_innerFirst r cond k).andThen (accountStmts_innerFirst r thenBlock)
      (accountFunctionsIn_innerFirst r thenBlock)
  | .ite cond thenBlock (some elseBlock), k => by
    rw [accountStmt]
    apply (accountExpr_innerFirst r cond k).andThen
    · intro k₁
      exact (accountStmts_innerFirst r thenBlock k₁).andThen (accountStmts_innerFirst r elseBlock)
        (accountFunctionsIn_innerFirst r elseBlock)
    · intro k₁
      exact (accountFunctionsIn_innerFirst r thenBlock k₁).append
        (accountFunctionsIn_innerFirst r elseBlock _)
  | .loop init cond post body, k => by
    rw [accountStmt]
    apply Account.InnerFirst.andThen
    · exact (accountEach_innerFirst r init k).andThen (accountExpr_innerFirst r cond)
        fun _ => Account.innerFirst_passOver _
    · intro k₁
      exact (accountStmts_innerFirst r body k₁).andThen (accountEach_innerFirst r post)
        fun _ => Account.innerFirst_passOver _
    · intro k₁
      exact (accountFunctionsIn_innerFirst r body k₁).append (Account.innerFirst_passOver _)

theorem accountFunction_innerFirst (r : Registry) :
    ∀ (decl : FunctionDecl) (k : Checker), (accountFunction r decl k).InnerFirst
  | ⟨name, params, returns, body⟩, k => by
    rw [accountFunction]
    refine Account.InnerFirst.visit ?_ ?_ k
    · exact Account.innerFirst_none.andThen (accountStmts_innerFirst r body)
        fun _ => Account.innerFirst_passOver _
    · exact Account.perm_none_andThen (accountStmts_declared r body) fun _ => .rfl

theorem accountFunctionsIn_innerFirst (r : Registry) :
    ∀ (ss : List Stmt) (k : Checker), (accountFunctionsIn r ss k).InnerFirst
  | [], _ => Account.innerFirst_none
  | s :: ss, k =>
    (accountFunctionsInStmt_innerFirst r s k).append (accountFunctionsIn_innerFirst r ss _)

theorem accountFunctionsInStmt_innerFirst (r : Registry) :
    ∀ (s : Stmt) (k : Checker), (accountFunctionsInStmt r s k).InnerFirst
  | .expr e, k => accountFunctionsInExpr_innerFirst r e k
  | .var _ _ none, _ => Account.innerFirst_none
  | .var _ _ (some init), k => accountFunctionsInExpr_innerFirst r init k
  | .function decl, k => accountFunction_innerFirst r decl k
  | .ret none, _ => Account.innerFirst_none
  | .ret (some value), k => accountFunctionsInExpr_innerFirst r value k
  | .ite cond thenBlock none, k =>
    (accountFunctionsInExpr_innerFirst r cond k).append (accountFunctionsIn_innerFirst r thenBlock _)
  | .ite cond thenBlock (some elseBlock), k =>
    (accountFunctionsInExpr_innerFirst r cond k).append
      ((accountFunctionsIn_innerFirst r thenBlock _).append
        (accountFunctionsIn_innerFirst r elseBlock _))
  | .loop init cond post body, k =>
    (accountFunctionsInExprs_innerFirst r init k).append
      ((accountFunctionsInExpr_innerFirst r cond _).append
        ((accountFunctionsInExprs_innerFirst r post _).append
          (accountFunctionsIn_innerFirst r body _)))

theorem accountFunctionsInExpr_innerFirst (r : Registry) :
    ∀ (e : Expr) (k : Checker), (accountFunctionsInExpr r e k).InnerFirst
  | .int _, _ => Account.innerFirst_none
  | .double _, _ => Account.innerFirst_none
  | .str _, _ => Account.innerFirst_none
  | .ident _, _ => Account.innerFirst_none
  | .neg operand, k => accountFunctionsInExpr_innerFirst r operand k
  | .binary _ lhs rhs, k =>
    (accountFunctionsInExpr_innerFirst r lhs k).append (accountFunctionsInExpr_innerFirst r rhs _)
  | .assign _ value, k => accountFunctionsInExpr_innerFirst r value k
  | .call _ args, k => accountFunctionsInExprs_innerFirst r args k
  | .block stmts, k => accountFunctionsIn_innerFirst r stmts k

theorem accountFunctionsInExprs_innerFirst (r : Registry) :
    ∀ (es : List Expr) (k : Checker), (accountFunctionsInExprs r es k).InnerFirst
  | [], _ => Account.innerFirst_none
  | e :: es, k =>
    (accountFunctionsInExpr_innerFirst r e k).append (accountFunctionsInExprs_innerFirst r es _)

end

/-- By the end of a visit the functions in the body have all been declared. -/
theorem Account.InnerFirst.body_subset {a : Account} {v : Visit} (h : a.InnerFirst)
    (hv : v ∈ a.visits) : nestedFunctions v.decl.body ⊆ a.declared := by
  have hmem : v.decl ∈ a.visited := List.mem_map_of_mem hv
  obtain ⟨before, after, he⟩ := List.append_of_mem hmem
  intro inner hinner
  rw [Account.declared, he]
  rcases List.mem_append.mp (h before v.decl after he hinner) with hin | hin
  · exact List.mem_append_left _ (List.mem_append_left _ hin)
  · exact List.mem_append_right _ hin

/-- A relation holds along a list if it holds of each element and those behind it. -/
theorem pairwise_of_split {α : Type} {R : α → α → Prop} {xs : List α}
    (h : ∀ before x after, xs = before ++ x :: after → ∀ y ∈ after, R x y) : xs.Pairwise R := by
  induction xs with
  | nil => exact .nil
  | cons x xs ih =>
    refine .cons (h [] x xs rfl) (ih fun before y after he => ?_)
    exact h (x :: before) y after (by rw [he, List.cons_append])

/-- Where names are distinct, a function is visited once, and none behind it stands in its body. -/
theorem Account.InnerFirst.pairwise {a : Account} (h : a.InnerFirst)
    (hnames : (a.declared.map (·.name)).Nodup) :
    a.visits.Pairwise fun v v' => v.decl.name ≠ v'.decl.name ∧
      ∀ inner ∈ nestedFunctions v.decl.body, inner.name ≠ v'.decl.name := by
  have hpair : a.visited.Pairwise fun d d' => d.name ≠ d'.name ∧
      ∀ inner ∈ nestedFunctions d.body, inner.name ≠ d'.name := by
    refine pairwise_of_split fun before d after he d' hd' => ?_
    have hdistinct : ∀ x ∈ before ++ d :: a.missed, x.name ≠ d'.name := by
      rw [Account.declared, he] at hnames
      have hperm : (before ++ d :: after ++ a.missed).Perm ((before ++ d :: a.missed) ++ after) := by
        simp only [List.append_assoc, List.cons_append]
        exact ((List.perm_append_comm.cons d).append_left before)
      rw [(hperm.map _).nodup_iff, List.map_append, List.nodup_append] at hnames
      intro x hx
      exact hnames.2.2 _ (List.mem_map_of_mem hx) _ (List.mem_map_of_mem hd')
    refine ⟨hdistinct d (by simp), fun inner hinner => hdistinct inner ?_⟩
    rcases List.mem_append.mp (h before d after he hinner) with hmem | hmem
    · exact List.mem_append_left _ hmem
    · exact List.mem_append_right _ (List.mem_cons_of_mem _ hmem)
  exact List.pairwise_map.mp hpair

/-- A visit that fails is one of a function at fault, in the state in which it was entered. -/
theorem Visit.faulty {r : Registry} {v : Visit} {d : Diagnostic} (h : v.failure? r = some d) :
    FaultyFunction r v.entry v.decl d := by
  unfold Visit.failure? at h
  rcases gives_or_fails (checkBody r v.decl) (v.entry.enter v.decl.name v.decl.returns)
    with ⟨u, k, hg⟩ | ⟨e, k, hf⟩
  · rw [hg] at h
    cases h
  · rw [hf] at h
    cases h
    exact checkBody_faulty hf

/-- A program is collected if no two of its functions share a name and none is called like the entry
function. -/
theorem collect_eq_ok {program : Tree.Block} {r : Registry} :
    Registry.collect program = .ok r ↔
      r = Lowering.registry program ∧ Registry.duplicates [] (nestedFunctions program) = [] := by
  unfold Registry.collect
  simp only
  split
  · rename_i hdup
    rw [Except.ok.injEq]
    exact ⟨fun h => ⟨h.symm, hdup⟩, fun h => h.1.symm⟩
  · rename_i hdup
    exact ⟨nofun, fun h => absurd h.2 hdup⟩

/-- The reports are what one pass over the program leaves behind. -/
theorem check_eq_error {program : Tree.Block} {r : Registry} {ds : List Diagnostic}
    (h : Registry.collect program = .ok r) (hcheck : check program = .error ds) :
    ds = ((checkProgram r program).run (.start (.ofReturns .int))).2.diagnostics := by
  simp only [check, h, bind, Except.bind] at hcheck
  revert hcheck
  rcases (checkProgram r program).run (.start (.ofReturns .int)) with ⟨_, k⟩
  cases hd : k.diagnostics with
  | nil => simp [hd, pure, Except.pure]
  | cons d ds' =>
    simp only [hd, throw, throwThe, MonadExceptOf.throw, Except.error.injEq]
    exact fun h => h.symm

/-- What one check of a program whose functions have names of their own may report. -/
structure Reported (r : Registry) (program : Tree.Block) (ds : List Diagnostic) : Prop where
  /-- A function is reported once. -/
  distinct : (ds.map (·.function)).Nodup
  unpinned : ∀ d ∈ ds, d.cause.isLocated = false
  /-- Each failure is one of the statements of the program, or of a function from where the pass has
  come to it. -/
  attributed : ∀ d ∈ ds,
    d.function = entryName ∧ FaultyStmts r entryName (.start (.ofReturns .int)) program d ∨
    ∃ visit ∈ (accountStmts r program (.start (.ofReturns .int))).visits,
      visit.decl ∈ nestedFunctions program ∧ d.function = visit.decl.name ∧
      FaultyFunction r visit.entry visit.decl d
  /-- Nothing stands behind the failure of the statements of the program, nor a function behind one
  around it. -/
  inward : ds.Pairwise fun d d' => d.function ≠ entryName ∧
    ∀ outer ∈ nestedFunctions program, outer.name = d.function →
      ∀ inner ∈ nestedFunctions outer.body, inner.name ≠ d'.function

/-- The statements of a program fail at one of them. -/
theorem faulty_entry {program : Tree.Block} {r : Registry} {k : Checker} {d : Diagnostic}
    (h : failure? (outcome (typeOfStmts r .void program) k) = some d) :
    FaultyStmts r k.function k program d := by
  rcases gives_or_fails (typeOfStmts r .void program) k with ⟨u, k', hg⟩ | ⟨e, k', hf⟩
  · rw [hg] at h
    cases h
  · rw [hf] at h
    cases h
    exact typeOfStmts_faulty r .void program hf

/-- What fails on a visit is a function of the program. -/
theorem failures_faulty {program : Tree.Block} {r : Registry} {k : Checker} {d : Diagnostic}
    (hd : d ∈ (accountStmts r program k).failures r) :
    ∃ v ∈ (accountStmts r program k).visits, v.decl ∈ nestedFunctions program ∧
      d.function = v.decl.name ∧ FaultyFunction r v.entry v.decl d := by
  obtain ⟨v, hv, hfail⟩ := List.mem_filterMap.mp hd
  have hfault := Visit.faulty hfail
  have hdecl : v.decl ∈ (accountStmts r program k).declared :=
    List.mem_append_left _ (List.mem_map_of_mem hv)
  exact ⟨v, hv, (accountStmts_declared r program k).mem_iff.mp hdecl, hfault.pinned.1, hfault⟩

/-- No function fails twice, and none behind one around it. -/
theorem failures_inward {program : Tree.Block} (r : Registry) (k : Checker)
    (hnames : ((nestedFunctions program).map (·.name)).Nodup) :
    ((accountStmts r program k).failures r).Pairwise fun d d' => d.function ≠ d'.function ∧
      ∀ outer ∈ nestedFunctions program, outer.name = d.function →
        ∀ inner ∈ nestedFunctions outer.body, inner.name ≠ d'.function := by
  have hperm := accountStmts_declared r program k
  have hvisits := (accountStmts_innerFirst r program k).pairwise
    ((hperm.map _).nodup_iff.mpr hnames)
  refine List.pairwise_filterMap.mpr (hvisits.imp_of_mem ?_)
  intro v v' hv hv' hvv' d hd d' hd'
  rw [(Visit.faulty hd).pinned.1, (Visit.faulty hd').pinned.1]
  refine ⟨hvv'.1, fun outer houter hname => ?_⟩
  have hdecl := hperm.mem_iff.mp (List.mem_append_left _ (List.mem_map_of_mem hv))
  rw [List.inj_on_of_nodup_map hnames houter hdecl hname]
  exact hvv'.2

/-- The functions in the body of one that fails are functions of the program. -/
theorem nested_of_failure {program : Tree.Block} {r : Registry} {k : Checker} {d : Diagnostic}
    (hnames : ((nestedFunctions program).map (·.name)).Nodup)
    (hd : d ∈ (accountStmts r program k).failures r) {outer : FunctionDecl}
    (houter : outer ∈ nestedFunctions program) (hname : outer.name = d.function) :
    nestedFunctions outer.body ⊆ nestedFunctions program := by
  obtain ⟨v, hv, hdecl, hfunction, -⟩ := failures_faulty hd
  rw [List.inj_on_of_nodup_map hnames houter hdecl (hname.trans hfunction)]
  exact fun inner hinner => (accountStmts_declared r program k).mem_iff.mp
    ((accountStmts_innerFirst r program k).body_subset hv hinner)

/-- One diagnostic at most for each function, inner functions before those around them and the
statements of the program last. -/
theorem check_reported {program : Tree.Block} {r : Registry} {ds : List Diagnostic}
    (h : Registry.collect program = .ok r) (hcheck : check program = .error ds) :
    Reported r program ds := by
  obtain ⟨-, hdup⟩ := collect_eq_ok.mp h
  obtain ⟨hnames, hnodup⟩ := Lowering.duplicates_eq_nil.mp hdup
  let start := Checker.start (.ofReturns .int)
  let account := accountStmts r program start
  have hds : ds = account.failures r ++
      (failure? (outcome (typeOfStmts r .void program) start)).toList := by
    rw [check_eq_error h hcheck, checkProgram_failures]
    rfl
  have hattributed : ∀ d ∈ ds, d.function = entryName ∧ FaultyStmts r entryName start program d ∨
      ∃ visit ∈ account.visits, visit.decl ∈ nestedFunctions program ∧
        d.function = visit.decl.name ∧ FaultyFunction r visit.entry visit.decl d := by
    intro d hd
    rw [hds] at hd
    rcases List.mem_append.mp hd with hd | hd
    · exact .inr (failures_faulty hd)
    · have hfault := faulty_entry (Option.mem_toList.mp hd)
      exact .inl ⟨hfault.pinned.1, hfault⟩
  have hentry : ∀ d ∈ account.failures r, d.function ≠ entryName := by
    intro d hd
    obtain ⟨v, -, hdecl, hfunction, -⟩ := failures_faulty hd
    rw [hfunction]
    exact (hnames v.decl hdecl).1
  have hpair : ds.Pairwise fun d d' => d.function ≠ d'.function ∧ d.function ≠ entryName ∧
      ∀ outer ∈ nestedFunctions program, outer.name = d.function →
        ∀ inner ∈ nestedFunctions outer.body, inner.name ≠ d'.function := by
    rw [hds]
    refine List.pairwise_append.mpr ⟨?_, ?_, fun d hd d' hd' => ?_⟩
    · refine (failures_inward r start hnodup).imp_of_mem fun {d d'} hd _ hdd' => ?_
      exact ⟨hdd'.1, hentry d hd, hdd'.2⟩
    · cases failure? (outcome (typeOfStmts r .void program) start) <;> simp
    · -- the statements of the program are reported under the entry function
      have hlast : d'.function = entryName := (faulty_entry (Option.mem_toList.mp hd')).pinned.1
      rw [hlast]
      refine ⟨hentry d hd, hentry d hd, fun outer houter hname inner hinner => ?_⟩
      exact (hnames inner (nested_of_failure hnodup hd houter hname hinner)).1
  exact {
    distinct := List.pairwise_map.mpr (hpair.imp And.left)
    unpinned := by
      intro d hd
      rcases hattributed d hd with ⟨_, hfault⟩ | ⟨_, _, _, _, hfault⟩
      · exact hfault.pinned.2
      · exact hfault.pinned.2
    attributed := hattributed
    inward := hpair.imp And.right }

end Typing

namespace Lowering

open Typing (Registry)
open Lower

/-- The one diagnostic of a lowering is a fault of the statements of the program. -/
theorem lower_faulty {program : Tree.Block} {name : String} {d : Diagnostic}
    (hdup : Registry.duplicates [] (nestedFunctions program) = [])
    (h : lower program name = .error d) :
    FaultyStmts (registry program) entryName ((Context.start name).enter (.start entryName [] .int))
      program d := by
  obtain ⟨c', hf⟩ := lower_eq_error hdup h
  have hi := lowerEntry_blameless hdup hf
  rw [lowerEntry_eq] at hf
  rcases blamed_define hf hi with ⟨before, param, after, hps, _⟩ |
    ⟨c₁, henter, ⟨c₂, hbody⟩ | ⟨ending, c₂, cause, c₃, hbody, hclose, rfl⟩⟩
  · simp at hps
  · obtain ⟨-, rfl⟩ := gives_pure.mp (gives_enterFunction.mp henter)
    rcases fails_bind.mp hbody with hstmts | ⟨_, _, _, hno⟩
    · have hfault := lowerStmts_faulty _ none program hstmts hi
      rwa [function_enterFunction henter] at hfault
    · exact absurd hno fails_pure
  · obtain ⟨_, _, _, hpure⟩ := gives_bind.mp hbody
    obtain ⟨rfl, rfl⟩ := gives_pure.mp hpure
    have hinternal := internal_close_zero _ _ _ hclose
    rw [Locus.blame, Diagnostic.internal, hinternal] at hi
    cases hi

end Lowering

/-- What the check and the lowering of a program report names the function and the statement of the
failure. -/
theorem diagnostics_attributed {program : Tree.Block} {r : Typing.Registry}
    (h : Typing.Registry.collect program = .ok r) :
    (∀ ds, Typing.check program = .error ds → Typing.Reported r program ds) ∧
    ∀ name d, Lowering.lower program name = .error d → d.cause.isLocated = false ∧
      Lowering.FaultyStmts r entryName
        ((Lowering.Context.start name).enter (.start entryName [] .int)) program d := by
  refine ⟨fun ds => Typing.check_reported h, fun name d hd => ?_⟩
  obtain ⟨rfl, hdup⟩ := Typing.collect_eq_ok.mp h
  have hfault := Lowering.lower_faulty hdup hd
  exact ⟨hfault.unpinned, hfault⟩

/-- A function inside of a function, each with an unbound name, in a program with another. -/
theorem diagnostics_attributed_nested :
    let g : FunctionDecl := ⟨"g", [], .int, [.ret (some (.ident "z"))]⟩
    let f : FunctionDecl := ⟨"f", [], .int, [.function g, .ret (some (.ident "y"))]⟩
    let program : Tree.Block := [.function f, .expr (.ident "x")]
    (∃ ds, Typing.check program = .error ds ∧ ds.map (·.function) = ["g", "f", "main"] ∧
      Typing.Reported ⟨[f, g]⟩ program ds) ∧
    ∃ d, Lowering.lower program "m" = .error d ∧ d.function = "g" ∧ d.cause.isLocated = false := by
  intro g f program
  have hcollect : Typing.Registry.collect program = .ok ⟨[f, g]⟩ := rfl
  have h := diagnostics_attributed hcollect
  constructor
  · exact ⟨_, rfl, rfl, h.1 _ rfl⟩
  · have hfunction : (match Lowering.lower program "m" with
        | .ok _ => none
        | .error d => some d.function) = some "g" := by
      decide +kernel
    cases hd : Lowering.lower program "m" with
    | ok m =>
      rw [hd] at hfunction
      cases hfunction
    | error d =>
      rw [hd] at hfunction
      exact ⟨d, rfl, Option.some.inj hfunction, (h.2 "m" d hd).1⟩

end TreeLang
