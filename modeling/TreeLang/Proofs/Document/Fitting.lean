import TreeLang.Proofs.Document.Decoding
import TreeLang.Proofs.Json.Admitted

namespace TreeLang.Tree

open Json

variable {ms : List (String × Json)} {key : String} {x : Json}

theorem mem_of_member? (h : member? ms key = some (some x)) : (key, x) ∈ ms := by
  unfold member? at h
  split at h
  · cases h
  · rename_i k y hfilter
    cases h
    have hmem : (k, x) ∈ ms.filter (·.1 == key) := by rw [hfilter]; exact List.mem_singleton_self _
    obtain ⟨hmem, hkey⟩ := List.mem_filter.mp hmem
    rwa [← eq_of_beq hkey]
  · cases h

theorem mem_of_required? (h : required? ms key = some x) : (key, x) ∈ ms := by
  unfold required? at h
  exact mem_of_member? (Option.join_eq_some_iff.mp h)

/-- What a member that may be missing was read from. -/
theorem optional?_eq_some {α : Type} {read : Json → Option α} {a : α}
    (h : optional? ms key read = some (some a)) : ∃ x, (key, x) ∈ ms ∧ read x = some a := by
  unfold optional? at h
  obtain ⟨y, hy, h⟩ := Option.bind_eq_some_iff.mp h
  split at h
  · cases h
  · cases h
  · rename_i x _
    obtain ⟨b, hb, ⟨⟩⟩ := Option.map_eq_some_iff.mp h
    exact ⟨x, mem_of_member? hy, hb⟩

/-- A list that is left out is empty; any other one is an array. -/
theorem list?_eq_some {α : Type} {read : Json → Option α} {as : List α}
    (h : list? ms key read = some as) :
    as = [] ∨ ∃ xs, (key, .array xs) ∈ ms ∧ xs.mapM read = some as := by
  unfold list? at h
  obtain ⟨y, hy, h⟩ := Option.bind_eq_some_iff.mp h
  split at h
  · cases h
    exact .inl rfl
  · exact .inr ⟨_, mem_of_member? hy, h⟩
  · cases h

section

variable {α : Type} {take : α → String → Json → Option (Except ReadError α)} {start a : α}

/-- What is taken last decides, and no key is taken twice. -/
theorem takeMembers_cases {seen : List String} (h : takeMembers take start seen ms = .ok a) :
    a = start ∨ ∃ b key x, take b key x = some (.ok a) ∧ (key, x) ∈ ms := by
  induction ms generalizing start seen with
  | nil =>
    cases h
    exact .inl rfl
  | cons m ms ih =>
    obtain ⟨key, x⟩ := m
    have later : ∀ {start : α} {seen : List String}, takeMembers take start seen ms = .ok a →
        a = start ∨ ∃ b key' y, take b key' y = some (.ok a) ∧ (key', y) ∈ (key, x) :: ms := by
      intro start seen h
      rcases ih h with rfl | ⟨b, key', y, htake, hmem⟩
      · exact .inl rfl
      · exact .inr ⟨b, key', y, htake, List.mem_cons_of_mem _ hmem⟩
    simp only [takeMembers] at h
    split at h
    · exact later h
    · rename_i result htake
      split at h
      · cases h
      · split at h
        · cases h
        · rename_i next
          rcases later h with rfl | hfrom
          · exact .inr ⟨start, key, x, htake, List.mem_cons_self⟩
          · exact .inr hfrom

theorem takeElements_cases {keys : List String} {xs : List Json}
    (h : takeElements take start keys xs = .ok a) :
    a = start ∨ ∃ b key x, take b key x = some (.ok a) ∧ x ∈ xs := by
  induction xs generalizing start keys with
  | nil =>
    simp only [takeElements, Except.ok.injEq] at h
    exact .inl h.symm
  | cons x xs ih =>
    cases keys with
    | nil => cases h
    | cons key keys =>
      simp only [takeElements] at h
      split at h
      · cases h
      · cases h
      · rename_i next htake
        rcases ih h with rfl | ⟨b, key', y, htake', hmem⟩
        · exact .inr ⟨start, key, x, htake, List.mem_cons_self⟩
        · exact .inr ⟨b, key', y, htake', List.mem_cons_of_mem x hmem⟩

/-- What a record that is read as the text goes gives comes from one of its fields, if from any. -/
theorem takeAll_cases {keys : List String} {j : Json} (h : takeAll take start keys j = .ok a) :
    a = start ∨ ∃ b key x, take b key x = some (.ok a) ∧
      ((∃ ms, j = .object ms ∧ (key, x) ∈ ms) ∨ ∃ xs, j = .array xs ∧ x ∈ xs) := by
  unfold takeAll at h
  split at h
  · rename_i ms
    rcases takeMembers_cases h with rfl | ⟨b, key, x, htake, hmem⟩
    · exact .inl rfl
    · exact .inr ⟨b, key, x, htake, .inl ⟨ms, rfl, hmem⟩⟩
  · rename_i xs
    rcases takeElements_cases h with rfl | ⟨b, key, x, htake, hmem⟩
    · exact .inl rfl
    · exact .inr ⟨b, key, x, htake, .inr ⟨xs, rfl, hmem⟩⟩
  · cases h

end

/-- A record is an object or an array itself, so what its fields hold may open one bracket less. -/
theorem admitted_members {keys : List String} {j : Json} {d : Nat} (hj : j.Admitted d)
    (h : members? keys j = some ms) : ∃ d', d = d' + 1 ∧ ∀ m ∈ ms, m.2.Admitted d' := by
  unfold members? at h
  split at h
  · cases h
    obtain ⟨d, rfl⟩ := hj.depth_pos (Nat.zero_lt_succ _)
    exact ⟨d, rfl, admitted_object.mp hj⟩
  · split at h
    · cases h
      obtain ⟨d, rfl⟩ := hj.depth_pos (Nat.zero_lt_succ _)
      exact ⟨d, rfl, fun m hm => admitted_array.mp hj _ (List.of_mem_zip hm).2⟩
    · cases h
  · cases h

/-- The fields of a node open one bracket less than the node, whether it is an object or an array. -/
theorem admitted_node {kinds : List (String × List String)} {kind : String} {j : Json} {d : Nat}
    (hj : j.Admitted d) (h : node? kinds j = some (kind, ms)) :
    ∃ d', d = d' + 1 ∧ ∀ m ∈ ms, m.2.Admitted d' := by
  unfold node? at h
  obtain ⟨tag, htag, h⟩ := Option.bind_eq_some_iff.mp h
  obtain ⟨kind', hkind, h⟩ := Option.bind_eq_some_iff.mp h
  split at h
  · cases h
    exact admitted_members hj (show members? [] (.object ms) = some ms from rfl)
  · obtain ⟨keys, hkeys, h⟩ := Option.bind_eq_some_iff.mp h
    obtain ⟨ms', hms, h⟩ := Option.bind_eq_some_iff.mp h
    cases h
    obtain ⟨d, rfl⟩ := hj.depth_pos (Nat.zero_lt_succ _)
    exact admitted_members (admitted_array.mpr fun x hx =>
      admitted_array.mp hj x (List.mem_of_mem_tail hx)) hms
  · cases h

theorem expect_eq_ok {α : Type} {o : Option α} {a : α} : expect o = .ok a ↔ o = some a := by
  cases o <;> simp [expect]

/-- A number that counts was refused where it did not lie in the range of binary64. -/
theorem double?_eq_some {d : Double} (hx : x.InRange) (h : x.double? = some d) :
    d.isFinite = true := by
  cases x <;> simp only [double?] at h <;> cases h
  exact hx

/-- The node has finite literals and is written with no more brackets than that. -/
structure Expr.Fits (depth : Nat) (e : Expr) : Prop where
  finite : e.Finite
  shallow : e.toJson.depth ≤ depth

structure ExprsFit (depth : Nat) (es : List Expr) : Prop where
  finite : ExprsFinite es
  shallow : elementDepth (exprsToJson es) ≤ depth

structure Stmt.Fits (depth : Nat) (s : Stmt) : Prop where
  finite : s.Finite
  shallow : s.toJson.depth ≤ depth

structure FunctionDecl.Fits (depth : Nat) (decl : FunctionDecl) : Prop where
  finite : decl.Finite
  shallow : memberDepth decl.toMembers ≤ depth

structure StmtsFit (depth : Nat) (ss : List Stmt) : Prop where
  finite : StmtsFinite ss
  shallow : elementDepth (stmtsToJson ss) ≤ depth

/-- A node is written with one bracket more than it was read from, where it left out a list. -/
structure Decodes (fuel : Nat) : Prop where
  expr : ∀ {j e d}, j.Admitted d → Expr.ofJson? fuel j = some e → e.Fits (d + 1)
  stmt : ∀ {j s d}, j.Admitted d → Stmt.ofJson? fuel j = some s → s.Fits (d + 1)
  function : ∀ {ms decl d}, (∀ m ∈ ms, m.2.Admitted d) →
    FunctionDecl.ofMembers? fuel ms = some decl → decl.Fits (d + 1)
  block : ∀ {j b d}, j.Admitted d → blockOfJson? fuel j = some b →
    StmtsFinite b ∧ elementDepth (stmtsToJson b) + 1 ≤ d

variable {fuel d : Nat}

/-- Each element may need one bracket more, so the list may. -/
theorem Decodes.exprs (h : Decodes fuel) : ∀ {xs : List Json} {es : List Expr},
    (∀ x ∈ xs, x.Admitted d) → xs.mapM (Expr.ofJson? fuel) = some es → ExprsFit (d + 1) es := by
  intro xs
  induction xs with
  | nil =>
    rintro es _ ⟨⟩
    exact ⟨trivial, Nat.zero_le _⟩
  | cons x xs ih =>
    intro es hxs hread
    simp only [List.mapM_cons, Option.bind_eq_bind, Option.bind_eq_some_iff, Option.pure_def,
      Option.some.injEq] at hread
    obtain ⟨e, he, es, hes, rfl⟩ := hread
    have he := h.expr (hxs x List.mem_cons_self) he
    have hes := ih (fun y hy => hxs y (List.mem_cons_of_mem x hy)) hes
    exact ⟨⟨he.finite, hes.finite⟩, Nat.max_le.mpr ⟨he.shallow, hes.shallow⟩⟩

theorem Decodes.stmts (h : Decodes fuel) : ∀ {xs : List Json} {ss : List Stmt},
    (∀ x ∈ xs, x.Admitted d) → xs.mapM (Stmt.ofJson? fuel) = some ss → StmtsFit (d + 1) ss := by
  intro xs
  induction xs with
  | nil =>
    rintro ss _ ⟨⟩
    exact ⟨trivial, Nat.zero_le _⟩
  | cons x xs ih =>
    intro ss hxs hread
    simp only [List.mapM_cons, Option.bind_eq_bind, Option.bind_eq_some_iff, Option.pure_def,
      Option.some.injEq] at hread
    obtain ⟨s, hs, ss, hss, rfl⟩ := hread
    have hs := h.stmt (hxs x List.mem_cons_self) hs
    have hss := ih (fun y hy => hxs y (List.mem_cons_of_mem x hy)) hss
    exact ⟨⟨hs.finite, hss.finite⟩, Nat.max_le.mpr ⟨hs.shallow, hss.shallow⟩⟩

/-- An array that is there opens a bracket itself, and one that was left out holds nothing. -/
theorem Decodes.exprList (h : Decodes fuel) {es : List Expr} (hms : ∀ m ∈ ms, m.2.Admitted d)
    (hread : list? ms key (Expr.ofJson? fuel) = some es) : ExprsFit d es := by
  rcases list?_eq_some hread with rfl | ⟨xs, hmem, hxs⟩
  · exact ⟨trivial, Nat.zero_le _⟩
  · have hx := hms _ hmem
    obtain ⟨d, rfl⟩ := hx.depth_pos (Nat.zero_lt_succ _)
    exact h.exprs (admitted_array.mp hx) hxs

/-- A list of statements that is there has opened a bracket, which pays for the one that a statement may
need. -/
theorem Decodes.stmtList (h : Decodes fuel) {ss : List Stmt}
    (hms : ∀ m ∈ ms, m.2.Admitted d)
    (hread : list? ms key (Stmt.ofJson? fuel) = some ss) : StmtsFit d ss := by
  rcases list?_eq_some hread with rfl | ⟨xs, hmem, hxs⟩
  · exact ⟨trivial, Nat.zero_le _⟩
  · have hx := hms _ hmem
    obtain ⟨d, rfl⟩ := hx.depth_pos (Nat.zero_lt_succ _)
    exact h.stmts (admitted_array.mp hx) hxs

/-- A node opens a bracket itself. What it leaves out is a list or null, and an empty list takes one
bracket inside of it. -/
theorem Decodes.expr_succ (h : Decodes fuel) {j : Json} {e : Expr} (hj : j.Admitted d)
    (hread : Expr.ofJson? (fuel + 1) j = some e) : e.Fits (d + 1) := by
  rw [Expr.ofJson?] at hread
  obtain ⟨⟨kind, ms⟩, hnode, hread⟩ := Option.bind_eq_some_iff.mp hread
  obtain ⟨d, rfl, hms⟩ := admitted_node hj hnode
  simp only [Option.bind_eq_bind, Option.pure_def] at hread
  split at hread <;>
    simp only [Option.bind_eq_some_iff, Option.some.injEq, reduceCtorEq] at hread
  · obtain ⟨_, _, _, _, rfl⟩ := hread
    exact ⟨trivial, Nat.le_add_left 1 _⟩
  · obtain ⟨x, hx, v, hv, rfl⟩ := hread
    have hv := double?_eq_some (hms _ (mem_of_required? hx)).inRange hv
    exact ⟨hv, by simp [Expr.toJson, Json.double, hv, depth, memberDepth]⟩
  · obtain ⟨_, _, _, _, rfl⟩ := hread
    exact ⟨trivial, Nat.le_add_left 1 _⟩
  · obtain ⟨_, _, _, _, rfl⟩ := hread
    exact ⟨trivial, Nat.le_add_left 1 _⟩
  · obtain ⟨_, _, _, _, x, hx, operand, hoperand, hread⟩ := hread
    split at hread
    · cases hread
      obtain ⟨hfinite, hdepth⟩ := h.expr (hms _ (mem_of_required? hx)) hoperand
      exact ⟨hfinite, by simp only [Expr.toJson, depth, memberDepth]; omega⟩
    · cases hread
  · obtain ⟨_, _, _, _, _, _, x, hx, lhs, hlhs, y, hy, rhs, hrhs, rfl⟩ := hread
    obtain ⟨hlhs, hlhsDepth⟩ := h.expr (hms _ (mem_of_required? hx)) hlhs
    obtain ⟨hrhs, hrhsDepth⟩ := h.expr (hms _ (mem_of_required? hy)) hrhs
    exact ⟨⟨hlhs, hrhs⟩, by simp only [Expr.toJson, depth, memberDepth]; omega⟩
  · obtain ⟨_, _, _, _, x, hx, value, hvalue, rfl⟩ := hread
    obtain ⟨hfinite, hdepth⟩ := h.expr (hms _ (mem_of_required? hx)) hvalue
    exact ⟨hfinite, by simp only [Expr.toJson, depth, memberDepth]; omega⟩
  · obtain ⟨_, _, _, _, args, hargs, rfl⟩ := hread
    obtain ⟨hfinite, hdepth⟩ := h.exprList hms hargs
    exact ⟨hfinite, by simp only [Expr.toJson, depth, memberDepth]; omega⟩
  · obtain ⟨stmts, hstmts, rfl⟩ := hread
    obtain ⟨hfinite, hdepth⟩ := h.stmtList hms hstmts
    exact ⟨hfinite, by simp only [Expr.toJson, depth, memberDepth]; omega⟩

/-- A statement leaves out parts like an expression does. -/
theorem Decodes.stmt_succ (h : Decodes fuel) {j : Json} {s : Stmt} (hj : j.Admitted d)
    (hread : Stmt.ofJson? (fuel + 1) j = some s) : s.Fits (d + 1) := by
  rw [Stmt.ofJson?] at hread
  obtain ⟨⟨kind, ms⟩, hnode, hread⟩ := Option.bind_eq_some_iff.mp hread
  obtain ⟨d, rfl, hms⟩ := admitted_node hj hnode
  simp only [Option.bind_eq_bind, Option.pure_def] at hread
  split at hread <;>
    simp only [Option.bind_eq_some_iff, Option.some.injEq, reduceCtorEq] at hread
  · obtain ⟨x, hx, e, he, rfl⟩ := hread
    obtain ⟨hfinite, hdepth⟩ := h.expr (hms _ (mem_of_required? hx)) he
    exact ⟨hfinite, by simp only [Stmt.toJson, depth, memberDepth]; omega⟩
  · obtain ⟨_, _, _, _, _, _, _, _, init, hinit, rfl⟩ := hread
    cases init with
    | none => exact ⟨trivial, Nat.le_add_left 1 _⟩
    | some init =>
      obtain ⟨x, hx, hinit⟩ := optional?_eq_some hinit
      obtain ⟨hfinite, hdepth⟩ := h.expr (hms _ hx) hinit
      exact ⟨hfinite, by simp only [Stmt.toJson, depth, memberDepth]; omega⟩
  · obtain ⟨decl, hdecl, rfl⟩ := hread
    obtain ⟨hfinite, hdepth⟩ := h.function hms hdecl
    exact ⟨hfinite, by simp only [Stmt.toJson, depth, memberDepth]; omega⟩
  · obtain ⟨value, hvalue, rfl⟩ := hread
    cases value with
    | none => exact ⟨trivial, Nat.le_add_left 1 _⟩
    | some value =>
      obtain ⟨x, hx, hvalue⟩ := optional?_eq_some hvalue
      obtain ⟨hfinite, hdepth⟩ := h.expr (hms _ hx) hvalue
      exact ⟨hfinite, by simp only [Stmt.toJson, depth, memberDepth]; omega⟩
  · obtain ⟨x, hx, cond, hcond, y, hy, thenBlock, hthen, elseBlock, helse, rfl⟩ := hread
    obtain ⟨hcond, hcondDepth⟩ := h.expr (hms _ (mem_of_required? hx)) hcond
    obtain ⟨hthen, hthenDepth⟩ := h.block (hms _ (mem_of_required? hy)) hthen
    cases elseBlock with
    | none =>
      exact ⟨⟨hcond, hthen⟩, by simp only [Stmt.toJson, depth, memberDepth]; omega⟩
    | some elseBlock =>
      obtain ⟨z, hz, helse⟩ := optional?_eq_some helse
      obtain ⟨helse, helseDepth⟩ := h.block (hms _ hz) helse
      exact ⟨⟨hcond, hthen, helse⟩, by simp only [Stmt.toJson, depth, memberDepth]; omega⟩
  · obtain ⟨init, hinit, x, hx, cond, hcond, post, hpost, y, hy, body, hbody, rfl⟩ := hread
    obtain ⟨hinit, hinitDepth⟩ := h.exprList hms hinit
    obtain ⟨hcond, hcondDepth⟩ := h.expr (hms _ (mem_of_required? hx)) hcond
    obtain ⟨hpost, hpostDepth⟩ := h.exprList hms hpost
    obtain ⟨hbody, hbodyDepth⟩ := h.block (hms _ (mem_of_required? hy)) hbody
    exact ⟨⟨hinit, hcond, hpost, hbody⟩, by simp only [Stmt.toJson, depth, memberDepth]; omega⟩

theorem elementDepth_params (ps : List Param) : elementDepth (ps.map Param.toJson) ≤ 1 := by
  induction ps with
  | nil => exact Nat.zero_le 1
  | cons p ps ih => exact Nat.max_le.mpr ⟨Nat.le_refl 1, ih⟩

theorem Decodes.function_succ (h : Decodes fuel) {decl : FunctionDecl}
    (hms : ∀ m ∈ ms, m.2.Admitted d)
    (hread : FunctionDecl.ofMembers? (fuel + 1) ms = some decl) : decl.Fits (d + 1) := by
  simp only [FunctionDecl.ofMembers?, Option.bind_eq_bind, Option.pure_def, Option.bind_eq_some_iff,
    Option.some.injEq] at hread
  obtain ⟨_, _, name, _, params, _, _, _, returns, _, x, hx, body, hbody, rfl⟩ := hread
  obtain ⟨hbody, hdepth⟩ := h.block (hms _ (mem_of_required? hx)) hbody
  have hparams := elementDepth_params params
  exact ⟨hbody, by simp only [FunctionDecl.toMembers, depth, memberDepth]; omega⟩

/-- A block without its list is written as an object around an empty one. -/
theorem Decodes.block_succ (h : Decodes fuel) {j : Json} {b : Block} (hj : j.Admitted d)
    (hread : blockOfJson? (fuel + 1) j = some b) :
    StmtsFinite b ∧ elementDepth (stmtsToJson b) + 1 ≤ d := by
  rw [blockOfJson?] at hread
  obtain ⟨ms, hms, hread⟩ := Option.bind_eq_some_iff.mp hread
  obtain ⟨d, rfl, hms⟩ := admitted_members hj hms
  obtain ⟨hfinite, hdepth⟩ := h.stmtList hms hread
  exact ⟨hfinite, by omega⟩

/-- By induction on the nesting of nodes. -/
theorem decodes (fuel : Nat) : Decodes fuel := by
  induction fuel with
  | zero =>
    constructor
    · intro j e d _ hread
      simp [Expr.ofJson?] at hread
    · intro j s d _ hread
      simp [Stmt.ofJson?] at hread
    · intro ms decl d _ hread
      simp [FunctionDecl.ofMembers?] at hread
    · intro j b d _ hread
      simp [blockOfJson?] at hread
  | succ fuel ih => exact ⟨ih.expr_succ, ih.stmt_succ, ih.function_succ, ih.block_succ⟩

theorem mapM_of_outermost {xs : List Json} {ss : List Stmt}
    (h : xs.mapM Stmt.outermost? = some ss) : xs.mapM (Stmt.ofJson? nodeDepth) = some ss := by
  induction xs generalizing ss with
  | nil => exact h
  | cons x xs ih =>
    simp only [List.mapM_cons, Option.bind_eq_bind, Option.bind_eq_some_iff, Option.pure_def,
      Option.some.injEq] at h
    obtain ⟨s, hs, ss, hss, rfl⟩ := h
    simp only [Stmt.outermost?, Option.bind_eq_bind, Option.bind_eq_some_iff] at hs
    obtain ⟨_, _, _, _, hs⟩ := hs
    rw [List.mapM_cons, hs, ih hss]
    rfl

/-- The statements of a program lie in an array that counts. -/
theorem fit_statements {x : Json} {p : Block} (hx : x.Admitted d)
    (hread : programOfJson.statements? x = some p) : StmtsFit d p := by
  cases x with
  | array xs =>
    obtain ⟨d, rfl⟩ := hx.depth_pos (Nat.zero_lt_succ _)
    exact (decodes nodeDepth).stmts (admitted_array.mp hx) (mapM_of_outermost hread)
  | _ => cases hread

end TreeLang.Tree
