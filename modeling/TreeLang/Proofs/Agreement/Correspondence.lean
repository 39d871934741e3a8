import TreeLang.Proofs.Agreement.InStep

namespace TreeLang

namespace Tree

mutual

def Expr.compares : Expr → Bool
  | .binary op _ _ => op.isComparison
  | .block stmts => comparesAtEnd false stmts
  | _ => false

/-- The same of the last statement, `last` if there is none. -/
def comparesAtEnd (last : Bool) : List Stmt → Bool
  | [] => last
  | s :: ss => comparesAtEnd s.compares ss

def Stmt.compares : Stmt → Bool
  | .expr e => e.compares
  | _ => false

end

end Tree

theorem Typing.Scopes.lookup_declare (s : Scopes) (name other : String) (ty : Tree.Ty) :
    (s.declare name ty).lookup other = if other = name then some ty else s.lookup other := by
  unfold lookup declare
  rw [List.findSome?_cons, List.findSome?_cons, Table.get?_insert]
  by_cases ho : other = name
  · rw [if_pos ho, if_pos ho]
  · rw [if_neg ho, if_neg ho]

namespace Lowering

open TreeLang.Tree (Ty Expr Stmt FunctionDecl comparesAtEnd)
open Typing (Registry Callee Scopes Table Checker coercible typeOf checkArgs checkEach typeOfStmts
  typeOfStmt typeOfBlock checkStmt)
open Lower

/-- The names in force in a check and in a lowering. The tables of the functions in progress are the
same; lowering may keep more of them below. Each name of the function at hand has a slot of its type,
and a slot is never of another type than its name. -/
structure Corresponds (below : List Table) (s : Scopes) (c : Context) : Prop where
  inner : c.scopes.inner = s.inner
  outer : c.scopes.outer = s.outer ++ below
  backed : ∀ name ty, s.inner.get? name = some ty → ∃ st, c.top.storage? name = some st ∧ st.ty = ty
  stored : c.top.Stored
  typed : ∀ name st ty, c.top.storage? name = some st → s.lookup name = some ty → st.ty = ty
  /-- A module declares prototypes only. -/
  externals : c.module.externals ⊆ Ir.prototypes

variable {r : Registry} {below : List Table} {c c' : Context} {s : Scopes}

/-- A new slot is the last one, and no name leads to it yet. -/
theorem rebuilt_alloca {name : String} {ty : Ir.Ty} {slot : Nat}
    (h : Gives (build (·.alloca name ty)) c slot c') :
    c'.scopes = c.scopes ∧ c'.module = c.module ∧ c'.top.storage? = c.top.storage? ∧
      c'.top.builder.function.slots = c.top.builder.function.slots ++ [⟨name, ty⟩] ∧
      slot = c.top.builder.function.slots.length := by
  obtain ⟨f, rest, hc, _, rfl, rfl⟩ := gives_alloca.mp h
  have hne : c.frames ≠ [] := by simp [hc]
  obtain rfl := Context.top_eq hc
  refine ⟨rfl, rfl, ?_, ?_, rfl⟩
  · rw [Context.top_withBuilder hne]
    rfl
  · rw [Context.top_withBuilder hne]
    rfl

namespace Corresponds

theorem rebuilt (h : Corresponds below s c) (hr : Rebuilt c c') : Corresponds below s c' where
  inner := by rw [hr.scopes, h.inner]
  outer := by rw [hr.scopes, h.outer]
  backed := by rw [hr.storage?]; exact h.backed
  stored := h.stored.mono hr.storage? (hr.slots ▸ List.prefix_rfl)
  typed := by rw [hr.storage?]; exact h.typed
  externals := by rw [hr.module]; exact h.externals

/-- Where only the module has grown the two states still correspond. -/
theorem apart (h : Corresponds below s c) (ha : Apart c c') : Corresponds below s c' where
  inner := by rw [ha.scopes, h.inner]
  outer := by rw [ha.scopes, h.outer]
  backed := by rw [ha.top]; exact h.backed
  stored := by rw [ha.top]; exact h.stored
  typed := by rw [ha.top]; exact h.typed
  externals := fun _ he => h.externals (ha.module.externals he)

theorem addString (h : Corresponds below s c) (strings : List String) :
    Corresponds below s { c with module := { c.module with strings := strings } } :=
  ⟨h.inner, h.outer, h.backed, h.stored, h.typed, h.externals⟩

/-- A name that is declared gets a slot of its own, on both sides it hides what it was before. -/
theorem declareVar (h : Corresponds below s c) {name : String} {ty : Ty} {st : Storage}
    (hty : ty ≠ .void) (hg : Gives (declareVar name ty) c st c') :
    Corresponds below (s.declare name ty) c' := by
  obtain ⟨slot, d, f, rest, ha, hd, rfl, rfl⟩ := gives_declareVar.mp hg
  obtain ⟨hscopes, hmodule, hstorage, hslots, hslot⟩ := rebuilt_alloca ha
  obtain rfl := Context.top_eq hd
  have hlookup : ∀ other, (((name, (⟨slot, ty⟩ : Storage)) :: d.top.locals).lookup other).or
      (d.top.params.lookup other) =
      if other = name then some ⟨slot, ty⟩ else c.top.storage? other := by
    intro other
    rw [List.lookup_cons, ← hstorage]
    by_cases ho : other = name
    · simp [ho]
    · simp [beq_eq_false_iff_ne.mpr ho, ho, Frame.storage?]
  refine ⟨?_, ?_, ?_, ?_, ?_, ?_⟩
  · change d.scopes.inner.insert name ty = s.inner.insert name ty
    rw [hscopes, h.inner]
  · change d.scopes.outer = s.outer ++ below
    rw [hscopes, h.outer]
  · intro other ty' hget
    change (s.inner.insert name ty).get? other = some ty' at hget
    change ∃ st, (((name, (⟨slot, ty⟩ : Storage)) :: d.top.locals).lookup other).or
      (d.top.params.lookup other) = some st ∧ st.ty = ty'
    rw [Table.get?_insert] at hget
    rw [hlookup]
    split at hget
    · rename_i ho
      cases hget
      exact ⟨⟨slot, ty⟩, if_pos ho, rfl⟩
    · rename_i ho
      obtain ⟨st, hst, hty⟩ := h.backed other ty' hget
      exact ⟨st, (if_neg ho).trans hst, hty⟩
  · intro other st hst
    change (((name, (⟨slot, ty⟩ : Storage)) :: d.top.locals).lookup other).or
      (d.top.params.lookup other) = some st at hst
    change st.ty ≠ .void ∧ (d.top.builder.function.slots.map (·.ty))[st.slot]? = some st.ty.toIr
    rw [hlookup] at hst
    rw [hslots]
    split at hst
    · cases hst
      exact ⟨hty, by simp [hslot]⟩
    · obtain ⟨hne, hslot'⟩ := h.stored other st hst
      exact ⟨hne, Ir.getElem?_of_extended ((List.prefix_append _ _).map _) hslot'⟩
  · intro other st ty' hst hlook
    change (((name, (⟨slot, ty⟩ : Storage)) :: d.top.locals).lookup other).or
      (d.top.params.lookup other) = some st at hst
    rw [hlookup] at hst
    rw [Scopes.lookup_declare] at hlook
    split at hst
    · rename_i ho
      rw [if_pos ho] at hlook
      cases hst
      exact Option.some.inj hlook
    · rename_i ho
      rw [if_neg ho] at hlook
      exact h.typed other st ty' hst hlook
  · change d.module.externals ⊆ Ir.prototypes
    rw [hmodule]
    exact h.externals

end Corresponds

/-- Both sides declare a name at the same places of a tree. They compute types on their own, the check
from its tables and the lowering from the slots of the function at hand, so it is the names that have to
stay in step. -/
theorem InStep.corresponds (below : List Table) : InStep (Corresponds below) where
  unmoved _ _ _ hr hc := hc.rebuilt hr
  addString _ _ _ hc := hc.addString _
  declareVar _ _ _ hty _ _ _ hd hc := hc.declareVar hty hd
  apart _ _ _ ha hc := hc.apart ha

/-- What a tree of a type leaves behind: nothing for `void`, else a value of the type in the machine
type for it, or in a `bool` for the outcome of a comparison. -/
structure Leaves (compares : Bool) (ty : Ty) (v : Option Typed) : Prop where
  none_iff : v = none ↔ ty = .void
  value : ∀ t, v = some t → t.ty = ty ∧ t.repr = if compares then .bool else ty.toIr

theorem leaves_none (compares : Bool) : Leaves compares .void none :=
  ⟨⟨fun _ => rfl, fun _ => rfl⟩, fun _ h => nomatch h⟩

theorem leaves_plain {ty : Ty} (x : Ir.Operand) (hty : ty ≠ .void) :
    Leaves false ty (some (.plain x ty)) := by
  refine ⟨⟨nofun, fun h => absurd h hty⟩, fun t ht => ?_⟩
  cases ht
  exact ⟨rfl, rfl⟩

/-- A negated value keeps its type, and is no comparison any more. -/
theorem leaves_negate {compares : Bool} {t u : Typed} {ty : Ty} (ht : Leaves compares ty (some t))
    (h : Gives (negate t) c u c') : Leaves false ty (some u) := by
  obtain ⟨hn, _, _, x, _, _, rfl⟩ := gives_negate.mp h
  rw [(ht.value t rfl).1] at hn ⊢
  refine leaves_plain x ?_
  rintro rfl
  cases hn

/-- Of the binary operators those that compare leave a truth value. -/
theorem leaves_combine {op : Tree.BinaryOp} {left right u : Typed} {ty : Ty}
    (h : Gives (combine op left right) c u c')
    (hty : Typing.binaryType op left.ty right.ty = .ok ty) :
    Leaves op.isComparison ty (some u) := by
  obtain ⟨ty', _, _, _, _, x, hty', _, _, _, rfl⟩ := gives_combine.mp h
  obtain rfl := Except.ok.inj (hty'.symm.trans hty)
  have hne : ty' ≠ .void := by
    obtain ⟨_, _, rfl⟩ := Typing.binaryType_eq_ok.mp hty
    split <;> simp
  cases op.isComparison with
  | true => exact ⟨⟨nofun, fun h => absurd h hne⟩, fun t ht => by cases ht; exact ⟨rfl, rfl⟩⟩
  | false => exact leaves_plain x hne

theorem leaves_call {callee : Callee} {args : List Ir.Operand} {v : Option Typed}
    (h : Gives (call callee args) c v c') : Leaves false callee.returns v := by
  rcases gives_call.mp h with ⟨hvoid, rfl, _⟩ | ⟨hne, x, rfl, _⟩
  · rw [hvoid]
    exact leaves_none false
  · exact leaves_plain x hne

/-- What a module that declares prototypes only finds is what the check finds. -/
theorem resolve_prototype (h : c.module.externals ⊆ Ir.prototypes) {name : String} {callee : Callee}
    (hres : Callee.resolve r c.module.external? name = .ok callee) :
    Callee.resolve r Ir.prototype? name = .ok callee := by
  have hunique : ∀ x ∈ Ir.prototypes, Ir.prototype? x.name = some x := by decide
  unfold Callee.resolve at hres ⊢
  cases hr : r.get? name with
  | some decl =>
    rw [hr] at hres
    exact hres
  | none =>
    rw [hr] at hres
    cases hx : c.module.external? name with
    | none =>
      rw [hx] at hres
      cases hres
    | some x =>
      rw [hx] at hres
      have hname : x.name = name := by simpa using List.find?_some hx
      have hproto := hunique x (h (List.mem_of_find?_eq_some hx))
      rw [hname] at hproto
      simp only [hproto]
      exact hres

mutual

/-- What an expression leaves has the type that the check gives it, and is absent exactly where that
type is the one of nothing. -/
theorem lowerExpr_leaves (r : Registry) (below : List Table) : ∀ (e : Expr) {c c' : Context}
    {v : Option Typed} {k k' : Checker} {ty : Ty}, Corresponds below k.scopes c →
    Gives (typeOf r e) k ty k' → Gives (lowerExpr r e) c v c' → Leaves e.compares ty v
  | .int _, c, c', v, k, k', ty, _, hk, h => by
    obtain ⟨rfl, _⟩ := Typing.check_int.mp hk
    obtain ⟨rfl, _⟩ := lower_int.mp h
    exact leaves_plain _ nofun
  | .double _, c, c', v, k, k', ty, _, hk, h => by
    obtain ⟨rfl, _⟩ := Typing.check_double.mp hk
    obtain ⟨rfl, _⟩ := lower_double.mp h
    exact leaves_plain _ nofun
  | .str _, c, c', v, k, k', ty, _, hk, h => by
    obtain ⟨rfl, _⟩ := Typing.check_str.mp hk
    obtain ⟨rfl, _⟩ := lower_str.mp h
    exact leaves_plain _ nofun
  | .ident name, c, c', v, k, k', ty, hc, hk, h => by
    obtain ⟨hlook, _⟩ := Typing.check_ident.mp hk
    obtain ⟨t, ht, rfl⟩ := lower_ident.mp h
    obtain ⟨f, rest, st, x, hf, hst, _, rfl⟩ := gives_readName.mp ht
    obtain rfl := Context.top_eq hf
    obtain rfl := hc.typed name st ty hst hlook
    exact leaves_plain x (hc.stored name st hst).1
  | .neg e, c, c', v, k, k', ty, hc, hk, h => by
    obtain ⟨hke, _⟩ := Typing.check_neg.mp hk
    obtain ⟨t, d, u, he, hn, rfl⟩ := lower_neg.mp h
    exact leaves_negate (lowerExpr_leaves r below e hc hke he) hn
  | .binary op lhs rhs, c, c', v, k, k', ty, hc, hk, h => by
    obtain ⟨left, k₁, right, hkl, hkr, hty⟩ := Typing.check_binary.mp hk
    obtain ⟨t, d, t', d', u, hl, hr, hcomb, rfl⟩ := lower_binary.mp h
    have hd := lowerExpr_inStep (.corresponds below) r lhs hkl c (some t) d hl hc
    have hleft := lowerExpr_leaves r below lhs hc hkl hl
    have hright := lowerExpr_leaves r below rhs hd hkr hr
    rw [← (hleft.value t rfl).1, ← (hright.value t' rfl).1] at hty
    exact leaves_combine hcomb hty
  | .assign _ _, c, c', v, k, k', ty, _, hk, h => by
    obtain ⟨_, _, _, _, _, rfl⟩ := Typing.check_assign.mp hk
    obtain ⟨_, _, _, _, _, _, _, _, _, rfl⟩ := lower_assign.mp h
    exact leaves_none _
  | .call _ _, c, c', v, k, k', ty, hc, hk, h => by
    obtain ⟨callee, hres, _, _, rfl⟩ := Typing.check_call.mp hk
    obtain ⟨callee', values, d, hres', _, _, hcall⟩ := lower_call.mp h
    obtain rfl := Except.ok.inj (hres.symm.trans (resolve_prototype hc.externals hres'))
    exact leaves_call hcall
  | .block stmts, c, c', v, k, k', ty, hc, hk, h =>
    lowerStmts_leaves r below stmts hc (leaves_none false) (Typing.check_block.mp hk)
      (lower_block.mp h)

/-- The value of a block is that of its last statement, also where this is a block itself. -/
theorem lowerStmts_leaves (r : Registry) (below : List Table) : ∀ (ss : List Stmt)
    {c c' : Context} {last v : Option Typed} {k k' : Checker} {lastTy ty : Ty} {compares : Bool},
    Corresponds below k.scopes c → Leaves compares lastTy last →
    Gives (typeOfStmts r lastTy ss) k ty k' → Gives (lowerStmts r last ss) c v c' →
    Leaves (comparesAtEnd compares ss) ty v
  | [], c, c', last, v, k, k', lastTy, ty, compares, _, hl, hk, h => by
    obtain ⟨rfl, _⟩ := Typing.typeOfStmts_nil.mp hk
    obtain ⟨rfl, _⟩ := lowerStmts_nil.mp h
    exact hl
  | s :: ss, c, c', last, v, k, k', lastTy, ty, compares, hc, _, hk, h => by
    obtain ⟨found, k₁, hks, hkss⟩ := Typing.typeOfStmts_cons.mp hk
    obtain ⟨w, d, hw, hss⟩ := lowerStmts_cons.mp h
    have hd := lowerStmtValue_inStep (.corresponds below) r s hks c w d hw hc
    have hl := lowerStmtValue_leaves r below s hc hks hw
    exact lowerStmts_leaves r below ss hd hl hkss hss

/-- A statement other than an expression has no value. -/
theorem lowerStmtValue_leaves (r : Registry) (below : List Table) : ∀ (s : Stmt)
    {c c' : Context} {v : Option Typed} {k k' : Checker} {ty : Ty}, Corresponds below k.scopes c →
    Gives (typeOfStmt r s) k ty k' → Gives (lowerStmtValue r s) c v c' → Leaves s.compares ty v
  | .expr e, c, c', v, k, k', ty, hc, hk, h =>
    lowerExpr_leaves r below e hc (Typing.check_expr.mp hk) (lower_expr.mp h)
  | .var _ _ none, c, c', v, k, k', ty, _, hk, h => by
    obtain ⟨_, _, rfl⟩ := Typing.check_var.mp hk
    obtain ⟨_, _, rfl⟩ := lower_var.mp h
    exact leaves_none _
  | .var _ _ (some _), c, c', v, k, k', ty, _, hk, h => by
    obtain ⟨_, _, _, _, _, _, rfl⟩ := Typing.check_var_init.mp hk
    obtain ⟨_, _, _, _, _, _, _, _, rfl⟩ := lower_var_init.mp h
    exact leaves_none _
  | .function _, c, c', v, k, k', ty, _, hk, h => by
    obtain ⟨_, rfl⟩ := Typing.check_function.mp hk
    obtain ⟨_, rfl⟩ := lower_function.mp h
    exact leaves_none _
  | .ret _, c, c', v, k, k', ty, _, hk, h => by
    obtain ⟨_, _, _, rfl⟩ := Typing.check_ret.mp hk
    obtain ⟨_, _, _, _, rfl⟩ := lower_ret.mp h
    exact leaves_none _
  | .ite _ _ _, c, c', v, k, k', ty, _, hk, h => by
    obtain ⟨_, _, _, _, _, _, _, _, rfl⟩ := Typing.check_ite.mp hk
    obtain ⟨_, _, _, _, _, _, _, rfl⟩ := lower_ite.mp h
    exact leaves_none _
  | .loop _ _ _ _, c, c', v, k, k', ty, _, hk, h => by
    obtain ⟨_, _, _, _, _, _, _, _, _, _, rfl⟩ := Typing.check_loop.mp hk
    obtain ⟨_, _, _, rfl⟩ := lower_loop.mp h
    exact leaves_none _

end

/-- Two passes over one tree, from states that correspond, give it the same type. -/
theorem same_types (r : Registry) {below : List Table} {k : Checker} {c : Context}
    (hc : Corresponds below k.scopes c) :
    (∀ (e : Expr) (ty : Ty) (k' : Checker) (v : Option Typed) (c' : Context),
      Gives (typeOf r e) k ty k' → Gives (lowerExpr r e) c v c' →
      Leaves e.compares ty v ∧ Corresponds below k'.scopes c') ∧
    (∀ (s : Stmt) (ty : Ty) (k' : Checker) (v : Option Typed) (c' : Context),
      Gives (checkStmt r s) k ty k' → Gives (lowerStmt r s) c v c' →
      Leaves s.compares ty v ∧ Corresponds below k'.scopes c') ∧
    ∀ (block : Tree.Block) (ty : Ty) (k' : Checker) (v : Option Typed) (c' : Context),
      Gives (typeOfBlock r block) k ty k' → Gives (lowerBlock r block) c v c' →
      Leaves (comparesAtEnd false block) ty v ∧ Corresponds below k'.scopes c' := by
  have hstep := InStep.corresponds below
  refine ⟨fun e _ _ v c' hk h => ?_, fun s _ _ v c' hk h => ?_, fun block _ _ v c' hk h => ?_⟩
  · exact ⟨lowerExpr_leaves r below e hc hk h, lowerExpr_inStep hstep r e hk c v c' h hc⟩
  · have hs : Gives (typeOfStmt r s) k _ _ := Typing.gives_pinned.mp hk
    simp only [lowerStmt, pinned, gives_bind, gives_get, gives_adapt] at h
    obtain ⟨_, _, ⟨rfl, rfl⟩, h⟩ := h
    exact ⟨lowerStmtValue_leaves r below s hc hs h, lowerStmtValue_inStep hstep r s hs _ v c' h hc⟩
  · exact ⟨lowerStmts_leaves r below block hc (leaves_none false) hk h,
      lowerStmts_inStep hstep r none block hk c v c' h hc⟩

/-- Where the statements of a program begin, the states correspond. -/
theorem corresponds_start (name : String) :
    Corresponds [.empty .int] (Checker.start (.ofReturns .int)).scopes
      ((Context.start name).enter (.start entryName [] .int)) where
  inner := rfl
  outer := rfl
  backed := nofun
  stored := nofun
  typed := nofun
  externals := by
    change (Ir.Module.withPrototypes name).externals ⊆ Ir.prototypes
    rw [Ir.Module.externals_withPrototypes]
    exact List.Subset.refl _

/-- A variable is declared again with another type, behind a function with a parameter of the same
name, and compared. -/
theorem same_types_redeclared :
    let block : Tree.Block :=
      [.var "x" .int (some (.int 1)),
        .function ⟨"f", [⟨"x", .string⟩, ⟨"x", .int⟩], .int, [.expr (.ident "x")]⟩,
        .var "x" .double (some (.ident "x")),
        .expr (.binary .lt (.ident "x") (.call "f" [.str "a", .int 2]))]
    let r : Registry := ⟨Tree.nestedFunctions block⟩
    ∃ k' v c', Gives (typeOfBlock r block) (.start (.ofReturns .int)) .double k' ∧
      Gives (lowerBlock r block) ((Context.start "m").enter (.start entryName [] .int)) v c' ∧
      Leaves true .double v ∧ Corresponds [.empty .int] k'.scopes c' := by
  intro block r
  have hk := gives_of_some (m := typeOfBlock r block) (s := .start (.ofReturns .int)) (a := .double)
    (by decide +kernel)
  have h := gives_of_some (m := lowerBlock r block)
    (s := (Context.start "m").enter (.start entryName [] .int))
    (a := some (.comparison (.temp 5) .double)) (by decide +kernel)
  exact ⟨_, _, _, hk, h, (same_types r (corresponds_start "m")).2.2 block .double _ _ _ hk h⟩

end Lowering

end TreeLang
