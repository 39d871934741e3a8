import TreeLang.Proofs.Lowering.Sound

namespace TreeLang.Tree

mutual

/-- The values of the `return` statements, in the order in which these are lowered. Those of a
function that is declared on the way are its own. -/
def Expr.returnValues : Expr → List (Option Expr)
  | .int _ | .double _ | .str _ | .ident _ => []
  | .neg operand => operand.returnValues
  | .binary _ lhs rhs => lhs.returnValues ++ rhs.returnValues
  | .assign _ value => value.returnValues
  | .call _ args => returnValuesOfExprs args
  | .block stmts => returnValues stmts

def returnValuesOfExprs : List Expr → List (Option Expr)
  | [] => []
  | e :: es => e.returnValues ++ returnValuesOfExprs es

def Stmt.returnValues : Stmt → List (Option Expr)
  | .expr e => e.returnValues
  | .var _ _ none => []
  | .var _ _ (some init) => init.returnValues
  | .function _ => []
  | .ret none => [none]
  | .ret (some value) => value.returnValues ++ [some value]
  | .ite cond thenBlock none => cond.returnValues ++ returnValues thenBlock
  | .ite cond thenBlock (some elseBlock) =>
    cond.returnValues ++ (returnValues thenBlock ++ returnValues elseBlock)
  | .loop init cond post body =>
    returnValuesOfExprs init ++
      (cond.returnValues ++ (returnValues body ++ returnValuesOfExprs post))

def returnValues : List Stmt → List (Option Expr)
  | [] => []
  | s :: ss => s.returnValues ++ returnValues ss

end

end TreeLang.Tree

namespace TreeLang.Lowering

open TreeLang.Tree (Ty Expr Stmt FunctionDecl returnValues returnValuesOfExprs)
open Typing (Registry Callee coercible)
open Lower

variable {r : Registry} {c c' d : Context}

inductive Straight (c : Context) : Context → Prop
  | refl : Straight c c
  | define {d c' : Context} {i : Ir.Operand → Ir.Instruction} {v : Ir.Operand} (h : Straight c d)
    (plain : ∀ v, (i v).isAlloca = false) (gives : Gives (build (·.define i)) d v c') : Straight c c'
  | append {d c' : Context} {i : Ir.Instruction} (h : Straight c d) (plain : i.isAlloca = false)
    (gives : Gives (emit (·.append i)) d () c') : Straight c c'

namespace Straight

theorem materialize {t : Typed} {v : Ir.Operand} (h : Straight c d)
    (hg : Gives (materialize t) d v c') : Straight c c' := by
  rcases gives_materialize.mp hg with ⟨_, _, rfl⟩ | ⟨_, _, hcast⟩
  · exact h
  · exact h.define (fun _ => rfl) hcast

/-- A conversion only adds instructions. -/
theorem coerce {t : Typed} {target : Ty} {v : Ir.Operand} (h : Straight c d)
    (hg : Gives (coerce t target) d v c') : Straight c c' := by
  obtain ⟨w, d', hm, ⟨_, _, rfl⟩ | ⟨_, _, _, hcast⟩⟩ := gives_coerce.mp hg
  · exact h.materialize hm
  · exact (h.materialize hm).define (fun _ => rfl) hcast

theorem negate {t u : Typed} (h : Straight c d) (hg : Gives (negate t) d u c') : Straight c c' := by
  obtain ⟨_, w, d', x, hm, hneg, _⟩ := gives_negate.mp hg
  exact (h.materialize hm).define (fun _ => rfl) hneg

theorem combine {op : Tree.BinaryOp} {left right u : Typed} (h : Straight c d)
    (hg : Gives (combine op left right) d u c') : Straight c c' := by
  obtain ⟨ty, x, d₁, y, d₂, z, _, hl, hr, hop, _⟩ := gives_combine.mp hg
  exact ((h.coerce hl).coerce hr).define (fun _ => rfl) hop

theorem readName {name : String} {u : Typed} (h : Straight c d) (hg : Gives (readName name) d u c') :
    Straight c c' := by
  obtain ⟨f, rest, s, x, _, _, hload, _⟩ := gives_readName.mp hg
  exact h.define (fun _ => rfl) hload

theorem storeInto {name : String} {s : Storage} {t : Typed} {u : Unit} (h : Straight c d)
    (hg : Gives (storeInto name s t) d u c') : Straight c c' := by
  obtain ⟨_, v, d', hco, hstore⟩ := gives_storeInto.mp hg
  exact (h.coerce hco).append rfl hstore

theorem argument {callee : Callee} {index : Nat} {t : Typed} {v : Ir.Operand} (h : Straight c d)
    (hg : Gives (argument callee index t) d v c') : Straight c c' := by
  rcases gives_argument.mp hg with ⟨_, _, _, hco⟩ | ⟨_, hm⟩
  · exact h.coerce hco
  · exact h.materialize hm

theorem call {callee : Callee} {args : List Ir.Operand} {u : Option Typed} (h : Straight c d)
    (hg : Gives (call callee args) d u c') : Straight c c' := by
  rcases gives_call.mp hg with ⟨_, _, hcall⟩ | ⟨_, x, _, hcall⟩
  · exact h.append rfl hcall
  · exact h.define (fun _ => rfl) hcall

theorem test {role : String} {t : Typed} {v : Ir.Operand} (h : Straight c d)
    (hg : Gives (test role t) d v c') : Straight c c' := by
  rcases gives_test.mp hg with ⟨_, _, rfl⟩ | ⟨_, _, hne⟩ | ⟨_, _, hne⟩
  · exact h
  · exact h.define (fun _ => rfl) hne
  · exact h.define (fun _ => rfl) hne

theorem current (h : Straight c d) : d.top.builder.current = c.top.builder.current := by
  induction h with
  | refl => rfl
  | define _ _ hg ih =>
    obtain ⟨f, rest, id, hf, _, _, rfl⟩ := gives_define.mp hg
    rw [Context.top_withBuilder (by simp [hf]), ← ih, Context.top_eq hf]
  | append _ _ hg ih =>
    obtain ⟨f, rest, id, hf, _, rfl⟩ := gives_append.mp hg
    rw [Context.top_withBuilder (by simp [hf]), ← ih, Context.top_eq hf]

end Straight

/-- A `return` statement that was lowered: its value in the tree, the block that it ended, and what
that block returns. -/
structure Return where
  value : Option Expr
  block : Nat
  operand : Option Ir.Operand

/-- The `return` of what the value `t` was lowered to ended the block at hand as `x` says. -/
structure Returned (t : Option Typed) (x : Return) (c c' : Context) : Prop where
  gives : Gives (returnFrom t) c () c'
  current : c.top.builder.current = some x.block
  ended : ∃ k, c'.top.builder.function.block? x.block = some k ∧ k.terminator = .ret x.operand

/-- The steps of a `return`: its value is converted, the block at hand ends, and a new one begins. -/
theorem returnFrom_steps {t : Option Typed} (h : Gives (returnFrom t) c () c') :
    ∃ block operand d d₁ d₂ next, Straight c d ∧
      Gives (emit (·.terminate (.ret operand))) d () d₁ ∧
      Gives (createBlock "after.return") d₁ next d₂ ∧ Gives (switchTo next) d₂ () c' ∧
      c.top.builder.current = some block ∧
      ∃ k, c'.top.builder.function.block? block = some k ∧ k.terminator = .ret operand := by
  obtain ⟨f, rest, operand, d, d₁, next, d₂, hf, hval, hret, hcreate, hswitch⟩ :=
    gives_returnFrom.mp h
  have hd : Straight c d := by
    rcases hval with ⟨_, _, _, _, _, _, hco⟩ | ⟨_, _, _, rfl⟩
    · exact .coerce .refl hco
    · exact .refl
  refine ⟨d.top.builder.current.getD 0, operand, d, d₁, d₂, next, hd, hret, hcreate, hswitch, ?_⟩
  obtain ⟨g, _, block, k, hg, hblock, hk, _, rfl⟩ := gives_terminate.mp hret
  obtain ⟨g₁, _, hg₁, _, rfl⟩ := gives_createBlock.mp hcreate
  obtain ⟨g₂, _, hg₂, _, rfl⟩ := gives_switchTo.mp hswitch
  obtain rfl := Context.top_eq hg
  obtain rfl := Context.top_eq hg₁
  obtain rfl := Context.top_eq hg₂
  have hne : d.frames ≠ [] := by simp [hg]
  have hne₁ := Context.frames_withBuilder_ne hne
  rw [hblock, Option.getD_some, ← hd.current, hblock,
    Context.top_withBuilder (Context.frames_withBuilder_ne (hne₁ _) _),
    Context.top_withBuilder (hne₁ _), Context.top_withBuilder hne]
  exact ⟨rfl, k.finish (.ret operand),
    Ir.Function.block?_extend_of_some (Ir.Function.block?_finish_self hk _) _, rfl⟩

/-- The steps that close a function: none where its end cannot be reached, and else the value that it
returns there is converted, and the block at hand ends. -/
theorem close_steps {ending : Ending} (h : Gives (close ending) c u c') :
    c' = c ∨ ∃ d value, Straight c d ∧ Gives (emit (·.terminate (.ret value))) d u c' := by
  obtain ⟨f, rest, -, ⟨-, rfl⟩ | ⟨id, value, d, -, -, -, hval, hret⟩⟩ := gives_close h
  · exact .inl rfl
  refine .inr ⟨d, value, ?_, hret⟩
  rcases hval with ⟨_, _, rfl⟩ | ⟨_, v, _, ⟨t, _, hco⟩ | ⟨_, _, _, _, rfl⟩⟩
  · exact .refl
  · exact .coerce .refl hco
  · exact .refl

/-- A `return` ended a block with some operand, whatever tree its value came from. -/
theorem returned_of_gives {t : Option Typed} (h : Gives (returnFrom t) c () c') :
    ∃ block operand, ∀ value, Returned t ⟨value, block, operand⟩ c c' := by
  obtain ⟨block, operand, _, _, _, _, _, _, _, _, hcur, hend⟩ := returnFrom_steps h
  exact ⟨block, operand, fun value => ⟨h, hcur, hend⟩⟩

theorem Returned.steps {t : Option Typed} {x : Return} (h : Returned t x c c') :
    ∃ d d₁ d₂ next, Straight c d ∧ Gives (emit (·.terminate (.ret x.operand))) d () d₁ ∧
      Gives (createBlock "after.return") d₁ next d₂ ∧ Gives (switchTo next) d₂ () c' := by
  obtain ⟨block, operand, d, d₁, d₂, next, hd, hret, hcreate, hswitch, hcur, k, hk, hend⟩ :=
    returnFrom_steps h.gives
  obtain ⟨k', hk', hend'⟩ := h.ended
  cases hcur.symm.trans h.current
  cases hk.symm.trans hk'
  cases hend.symm.trans hend'
  exact ⟨d, d₁, d₂, next, hd, hret, hcreate, hswitch⟩

/-- Three blocks are made, the block at hand ends in `t`, and work goes on in the first of them. -/
def Opens (c : Context) (first second third : Nat) (t : Ir.Terminator) (c' : Context) : Prop :=
  ∃ l₁ l₂ l₃ c₁ c₂ c₃ c₄, Gives (createBlock l₁) c first c₁ ∧ Gives (createBlock l₂) c₁ second c₂ ∧
    Gives (createBlock l₃) c₂ third c₃ ∧ Gives (emit (·.terminate t)) c₃ () c₄ ∧
    Gives (switchTo first) c₄ () c'

/-- The block at hand ends in `t`, and work goes on in the block `next`. -/
def Turns (c : Context) (t : Ir.Terminator) (next : Nat) (c' : Context) : Prop :=
  ∃ d, Gives (emit (·.terminate t)) c () d ∧ Gives (switchTo next) d () c'

/-- The block at hand is left for `target`, and work goes on in the block `next`. -/
def Falls (c : Context) (target next : Nat) (c' : Context) : Prop :=
  ∃ d, Gives (fallThrough target) c () d ∧ Gives (switchTo next) d () c'

/-- The steps of a lowering that went from one point to another, with the `return` statements that
were lowered on the way. -/
inductive Traced (r : Registry) : List Return → Context → Context → Prop
  | refl (c : Context) : Traced r [] c c
  | trans {xs ys : List Return} {c d c' : Context} (first : Traced r xs c d)
    (second : Traced r ys d c') : Traced r (xs ++ ys) c c'
  | straight {c c' : Context} (h : Straight c c') : Traced r [] c c'
  | text {text : String} {v : Option Typed} {c c' : Context}
    (gives : Gives (lowerExpr r (.str text)) c v c') : Traced r [] c c'
  | declare {name : String} {ty : Ty} {s : Storage} {c c' : Context}
    (gives : Gives (declareVar name ty) c s c') : Traced r [] c c'
  | function {decl : FunctionDecl} {c c' : Context} (gives : Gives (lowerFunction r decl) c () c') :
    Traced r [] c c'
  | bare {x : Return} {c c' : Context} (value : x.value = none) (returned : Returned none x c c') :
    Traced r [x] c c'
  | ret {xs : List Return} {x : Return} {e : Expr} {t : Typed} {c d c' : Context}
    (value : x.value = some e) (gives : Gives (lowerExpr r e) c (some t) d)
    (lowered : Traced r xs c d) (returned : Returned (some t) x d c') : Traced r (xs ++ [x]) c c'
  | conditional {xs ys : List Return} {thenId elseId mergeId : Nat} {o : Ir.Operand}
    {c c₁ c₂ c₃ c₄ c' : Context} (opens : Opens c thenId elseId mergeId (.branch o thenId elseId) c₁)
    (thenPart : Traced r xs c₁ c₂) (falls : Falls c₂ mergeId elseId c₃)
    (elsePart : Traced r ys c₃ c₄) (joins : Falls c₄ mergeId mergeId c') : Traced r (xs ++ ys) c c'
  | repeated {xs ys : List Return} {condId bodyId exitId : Nat} {o : Ir.Operand}
    {c c₁ c₂ c₃ c₄ c' : Context} (opens : Opens c condId bodyId exitId (.jump condId) c₁)
    (test : Traced r xs c₁ c₂) (turns : Turns c₂ (.branch o bodyId exitId) bodyId c₃)
    (round : Traced r ys c₃ c₄) (repeats : Falls c₄ condId exitId c') : Traced r (xs ++ ys) c c'

def Traces (r : Registry) (values : List (Option Expr)) (c c' : Context) : Prop :=
  ∃ xs, Traced r xs c c' ∧ xs.map (·.value) = values

namespace Traces

variable {values values' : List (Option Expr)}

theorem refl (c : Context) : Traces r [] c c := ⟨[], .refl c, rfl⟩

/-- The `return` statements of two works come one after the other. -/
theorem trans (h : Traces r values c d) (h' : Traces r values' d c') :
    Traces r (values ++ values') c c' := by
  obtain ⟨xs, hx, rfl⟩ := h
  obtain ⟨ys, hy, rfl⟩ := h'
  exact ⟨xs ++ ys, hx.trans hy, List.map_append⟩

theorem of_straight (h : Straight c c') : Traces r [] c c' := ⟨[], .straight h, rfl⟩

/-- Instructions behind other work return nothing. -/
theorem straight (h : Traces r values c d) (h' : Straight d c') : Traces r values c c' := by
  have ht := h.trans (of_straight h')
  rwa [List.append_nil] at ht

theorem declare {name : String} {ty : Ty} {s : Storage} (h : Traces r values c d)
    (hg : Gives (declareVar name ty) d s c') : Traces r values c c' := by
  have ht : Traces r (values ++ []) c c' := h.trans ⟨[], .declare hg, rfl⟩
  rwa [List.append_nil] at ht

theorem branch {block : List Stmt}
    (h : ∀ c c' v, Gives (lowerStmts r none block) c v c' → Traces r values c c') :
    ∀ c c', Gives (lowerBranch r (some block)) c () c' → Traces r values c c' := by
  intro c c' hb
  obtain ⟨v, hb⟩ := lowerBranch_some.mp hb
  exact h c c' v hb

/-- The trace of a conditional goes through its two parts. -/
theorem conditional {o : Ir.Operand} {thenPart elsePart : Lower Cause Unit}
    (hthen : ∀ c c', Gives thenPart c () c' → Traces r values c c')
    (helse : ∀ c c', Gives elsePart c () c' → Traces r values' c c')
    (h : Gives (conditional o thenPart elsePart) c () c') : Traces r (values ++ values') c c' := by
  obtain ⟨thenId, elseId, mergeId, c₁, c₂, c₃, c₄, c₅, c₆, c₇, c₈, c₉, c₁₀, h₁, h₂, h₃, h₄, h₅, h₆,
    h₇, h₈, h₉, h₁₀, h₁₁⟩ := gives_conditional h
  obtain ⟨xs, hx, rfl⟩ := hthen c₅ c₆ h₆
  obtain ⟨ys, hy, rfl⟩ := helse c₈ c₉ h₉
  exact ⟨xs ++ ys, .conditional ⟨_, _, _, c₁, c₂, c₃, c₄, h₁, h₂, h₃, h₄, h₅⟩ hx ⟨c₇, h₇, h₈⟩ hy
    ⟨c₁₀, h₁₀, h₁₁⟩, List.map_append⟩

/-- The trace of a loop goes through its condition and its rounds. -/
theorem repeated {test : Lower Cause Ir.Operand} {round : Lower Cause Unit}
    (htest : ∀ c o c', Gives test c o c' → Traces r values c c')
    (hround : ∀ c c', Gives round c () c' → Traces r values' c c')
    (h : Gives (repeated test round) c () c') : Traces r (values ++ values') c c' := by
  obtain ⟨condId, bodyId, exitId, o, c₁, c₂, c₃, c₄, c₅, c₆, c₇, c₈, c₉, c₁₀, h₁, h₂, h₃, h₄, h₅, h₆,
    h₇, h₈, h₉, h₁₀, h₁₁⟩ := gives_repeated h
  obtain ⟨xs, hx, rfl⟩ := htest c₅ o c₆ h₆
  obtain ⟨ys, hy, rfl⟩ := hround c₈ c₉ h₉
  exact ⟨xs ++ ys, .repeated ⟨_, _, _, c₁, c₂, c₃, c₄, h₁, h₂, h₃, h₄, h₅⟩ hx ⟨c₇, h₇, h₈⟩ hy
    ⟨c₁₀, h₁₀, h₁₁⟩, List.map_append⟩

end Traces

mutual

/-- The lowering of an expression has a trace with the `return` statements of its nested blocks. -/
theorem lowerExpr_traced (r : Registry) : ∀ (e : Expr) {c c' : Context} {v : Option Typed},
    Gives (lowerExpr r e) c v c' → Traces r e.returnValues c c'
  | .int _, c, c', v, h => by
    obtain ⟨_, rfl⟩ := lower_int.mp h
    exact .refl _
  | .double _, c, c', v, h => by
    obtain ⟨_, rfl⟩ := lower_double.mp h
    exact .refl _
  | .str text, c, c', v, h => ⟨[], .text h, rfl⟩
  | .ident name, c, c', v, h => by
    obtain ⟨t, hread, _⟩ := lower_ident.mp h
    exact .of_straight (.readName .refl hread)
  | .neg operand, c, c', v, h => by
    obtain ⟨t, d, u, he, hneg, _⟩ := lower_neg.mp h
    exact (lowerExpr_traced r operand he).straight (.negate .refl hneg)
  | .binary op lhs rhs, c, c', v, h => by
    obtain ⟨t, d, t', d', u, hl, hr, hop, _⟩ := lower_binary.mp h
    exact ((lowerExpr_traced r lhs hl).trans (lowerExpr_traced r rhs hr)).straight
      (.combine .refl hop)
  | .assign target value, c, c', v, h => by
    obtain ⟨f, rest, s, t, d, _, _, he, hstore, _⟩ := lower_assign.mp h
    exact (lowerExpr_traced r value he).straight (.storeInto .refl hstore)
  | .call name args, c, c', v, h => by
    obtain ⟨callee, values, d, _, _, hargs, hcall⟩ := lower_call.mp h
    exact (lowerArgs_traced r callee 0 args hargs).straight (.call .refl hcall)
  | .block stmts, c, c', v, h => lowerStmts_traced r none stmts (lower_block.mp h)

theorem lowerArgs_traced (r : Registry) (callee : Callee) (index : Nat) :
    ∀ (es : List Expr) {c c' : Context} {values : List Ir.Operand},
      Gives (lowerArgs r callee index es) c values c' → Traces r (returnValuesOfExprs es) c c'
  | [], c, c', values, h => by
    obtain ⟨_, rfl⟩ := lowerArgs_nil.mp h
    exact .refl _
  | e :: es, c, c', values, h => by
    obtain ⟨t, d, value, d', rest, he, harg, hes, _⟩ := lowerArgs_cons.mp h
    exact ((lowerExpr_traced r e he).straight (.argument .refl harg)).trans
      (lowerArgs_traced r callee (index + 1) es hes)

theorem lowerEach_traced (r : Registry) : ∀ (es : List Expr) {c c' : Context} {u : Unit},
    Gives (lowerEach r es) c u c' → Traces r (returnValuesOfExprs es) c c'
  | [], c, c', u, h => by
    obtain rfl := lowerEach_nil.mp h
    exact .refl _
  | e :: es, c, c', u, h => by
    obtain ⟨v, d, he, hes⟩ := lowerEach_cons.mp h
    exact (lowerExpr_traced r e he).trans (lowerEach_traced r es hes)

theorem lowerStmts_traced (r : Registry) (last : Option Typed) :
    ∀ (ss : List Stmt) {c c' : Context} {v : Option Typed},
      Gives (lowerStmts r last ss) c v c' → Traces r (returnValues ss) c c'
  | [], c, c', v, h => by
    obtain ⟨_, rfl⟩ := lowerStmts_nil.mp h
    exact .refl _
  | s :: ss, c, c', v, h => by
    obtain ⟨w, d, hs, hss⟩ := lowerStmts_cons.mp h
    exact (lowerStmtValue_traced r s hs).trans (lowerStmts_traced r w ss hss)

/-- The lowering of a statement has a trace with its `return` statements. A function declared in it has
none on this trace. -/
theorem lowerStmtValue_traced (r : Registry) : ∀ (s : Stmt) {c c' : Context} {v : Option Typed},
    Gives (lowerStmtValue r s) c v c' → Traces r s.returnValues c c'
  | .expr e, c, c', v, h => lowerExpr_traced r e (lower_expr.mp h)
  | .var name ty none, c, c', v, h => by
    obtain ⟨_, ⟨s, hs⟩, _⟩ := lower_var.mp h
    exact (Traces.refl c).declare hs
  | .var name ty (some init), c, c', v, h => by
    obtain ⟨_, t, d, s, d', he, hs, hstore, _⟩ := lower_var_init.mp h
    exact ((lowerExpr_traced r init he).declare hs).straight (.storeInto .refl hstore)
  | .function decl, c, c', v, h => ⟨[], .function (lower_function.mp h).1, rfl⟩
  | .ret none, c, c', v, h => by
    obtain ⟨t, d, ⟨_, rfl, rfl⟩ | ⟨_, _, hnone, _⟩, hret, _⟩ := lower_ret.mp h
    · obtain ⟨block, operand, hx⟩ := returned_of_gives hret
      exact ⟨_, .bare rfl (hx none), rfl⟩
    · cases hnone
  | .ret (some e), c, c', v, h => by
    obtain ⟨t, d, ⟨hsome, _⟩ | ⟨_, u, ⟨rfl⟩, rfl, _, he⟩, hret, _⟩ := lower_ret.mp h
    · cases hsome
    · obtain ⟨block, operand, hx⟩ := returned_of_gives hret
      obtain ⟨xs, hxs, hvalues⟩ := lowerExpr_traced r e he
      refine ⟨_, .ret rfl he hxs (hx (some e)), ?_⟩
      rw [List.map_append, hvalues]
      rfl
  | .ite cond thenBlock none, c, c', v, h => by
    obtain ⟨t, d, o, d', he, htest, hcond, _⟩ := lower_ite.mp h
    have hthen := Traces.branch fun _ _ _ => lowerStmts_traced r none thenBlock
    have helse : ∀ c c', Gives (lowerBranch r none) c () c' → Traces r [] c c' := by
      intro c c' hb
      obtain rfl := lowerBranch_none.mp hb
      exact .refl _
    have hparts := Traces.conditional hthen helse hcond
    rw [List.append_nil] at hparts
    exact ((lowerExpr_traced r cond he).straight (.test .refl htest)).trans hparts
  | .ite cond thenBlock (some elseBlock), c, c', v, h => by
    obtain ⟨t, d, o, d', he, htest, hcond, _⟩ := lower_ite.mp h
    have hthen := Traces.branch fun _ _ _ => lowerStmts_traced r none thenBlock
    have helse := Traces.branch fun _ _ _ => lowerStmts_traced r none elseBlock
    exact ((lowerExpr_traced r cond he).straight (.test .refl htest)).trans
      (Traces.conditional hthen helse hcond)
  | .loop init cond post body, c, c', v, h => by
    obtain ⟨d, hinit, hloop, _⟩ := lower_loop.mp h
    have htest : ∀ c o c', Gives (lowerTest r cond) c o c' → Traces r cond.returnValues c c' := by
      intro c o c' ht
      obtain ⟨t, d, he, ht⟩ := gives_lowerTest.mp ht
      exact (lowerExpr_traced r cond he).straight (.test .refl ht)
    have hround : ∀ c c', Gives (lowerRound r body post) c () c' →
        Traces r (returnValues body ++ returnValuesOfExprs post) c c' := by
      intro c c' hr
      obtain ⟨v, d, hb, hp⟩ := gives_lowerRound.mp hr
      exact (lowerStmts_traced r none body hb).trans (lowerEach_traced r post hp)
    exact (lowerEach_traced r init hinit).trans (Traces.repeated htest hround hloop)

end

end TreeLang.Lowering
