import TreeLang.Proofs.Lowering.Trace

namespace TreeLang.Tree

structure Loop where
  cond : Expr
  post : List Expr
  body : List Stmt

mutual

/-- The loops of a tree, in the order in which they are begun. Those of a function that is declared on
the way are its own. -/
def Expr.loops : Expr → List Loop
  | .int _ | .double _ | .str _ | .ident _ => []
  | .neg operand => operand.loops
  | .binary _ lhs rhs => lhs.loops ++ rhs.loops
  | .assign _ value => value.loops
  | .call _ args => loopsOfExprs args
  | .block stmts => loops stmts

def loopsOfExprs : List Expr → List Loop
  | [] => []
  | e :: es => e.loops ++ loopsOfExprs es

def Stmt.loops : Stmt → List Loop
  | .expr e => e.loops
  | .var _ _ none => []
  | .var _ _ (some init) => init.loops
  | .function _ => []
  | .ret none => []
  | .ret (some value) => value.loops
  | .ite cond thenBlock none => cond.loops ++ loops thenBlock
  | .ite cond thenBlock (some elseBlock) => cond.loops ++ (loops thenBlock ++ loops elseBlock)
  | .loop init cond post body =>
    loopsOfExprs init ++ ⟨cond, post, body⟩ :: (cond.loops ++ (loops body ++ loopsOfExprs post))

def loops : List Stmt → List Loop
  | [] => []
  | s :: ss => s.loops ++ loops ss

end

end TreeLang.Tree

namespace TreeLang.Lowering

open TreeLang.Tree (Ty Expr Stmt FunctionDecl loops loopsOfExprs)
open Typing (Registry Callee)
open Lower

variable {r : Registry} {c c' d : Context}

/-- A loop that was laid out: the block `head`, where each round begins with the condition, and the
block `back`, where the work on the body and the expressions behind it ended. -/
structure Loop where
  source : Tree.Loop
  head : Nat
  back : Nat

def OpensAs (l₁ l₂ l₃ : String) (c : Context) (first second third : Nat) (t : Ir.Terminator)
    (c' : Context) : Prop :=
  ∃ c₁ c₂ c₃ c₄, Gives (createBlock l₁) c first c₁ ∧ Gives (createBlock l₂) c₁ second c₂ ∧
    Gives (createBlock l₃) c₂ third c₃ ∧ Gives (emit (·.terminate t)) c₃ () c₄ ∧
    Gives (switchTo first) c₄ () c'

theorem OpensAs.opens {l₁ l₂ l₃ : String} {first second third : Nat} {t : Ir.Terminator}
    (h : OpensAs l₁ l₂ l₃ c first second third t c') : Opens c first second third t c' := by
  obtain ⟨c₁, c₂, c₃, c₄, h⟩ := h
  exact ⟨l₁, l₂, l₃, c₁, c₂, c₃, c₄, h⟩

/-- The steps of a lowering that went from one point to another, with the loops that were laid out on
the way. -/
inductive Looped (r : Registry) : List Loop → Context → Context → Prop
  | refl (c : Context) : Looped r [] c c
  | trans {ls ms : List Loop} {c d c' : Context} (first : Looped r ls c d)
    (second : Looped r ms d c') : Looped r (ls ++ ms) c c'
  | straight {c c' : Context} (h : Straight c c') : Looped r [] c c'
  | text {text : String} {v : Option Typed} {c c' : Context}
    (gives : Gives (lowerExpr r (.str text)) c v c') : Looped r [] c c'
  | declare {name : String} {ty : Ty} {s : Storage} {c c' : Context}
    (gives : Gives (declareVar name ty) c s c') : Looped r [] c c'
  | function {decl : FunctionDecl} {c c' : Context} (gives : Gives (lowerFunction r decl) c () c') :
    Looped r [] c c'
  | bare {x : Return} {c c' : Context} (value : x.value = none) (returned : Returned none x c c') :
    Looped r [] c c'
  | ret {ls : List Loop} {x : Return} {e : Expr} {t : Typed} {c d c' : Context}
    (value : x.value = some e) (gives : Gives (lowerExpr r e) c (some t) d)
    (lowered : Looped r ls c d) (returned : Returned (some t) x d c') : Looped r ls c c'
  | conditional {ls ms : List Loop} {thenId elseId mergeId : Nat} {o : Ir.Operand}
    {c c₁ c₂ c₃ c₄ c' : Context}
    (opens : OpensAs "then" "else" "ifcont" c thenId elseId mergeId (.branch o thenId elseId) c₁)
    (thenPart : Looped r ls c₁ c₂) (falls : Falls c₂ mergeId elseId c₃)
    (elsePart : Looped r ms c₃ c₄) (joins : Falls c₄ mergeId mergeId c') : Looped r (ls ++ ms) c c'
  | repeated {l : Loop} {ls ms : List Loop} {bodyId exitId : Nat} {o : Ir.Operand}
    {c c₁ c₂ c₃ c₄ c' : Context}
    (opens : OpensAs "loop.cond" "loop.body" "loop.exit" c l.head bodyId exitId (.jump l.head) c₁)
    (tests : Gives (lowerTest r l.source.cond) c₁ o c₂) (test : Looped r ls c₁ c₂)
    (turns : Turns c₂ (.branch o bodyId exitId) bodyId c₃)
    (goesRound : Gives (lowerRound r l.source.body l.source.post) c₃ () c₄)
    (round : Looped r ms c₃ c₄) (ends : c₄.top.builder.current = some l.back)
    (repeats : Falls c₄ l.head exitId c') : Looped r (l :: (ls ++ ms)) c c'

theorem Looped.traced {ls : List Loop} (h : Looped r ls c c') : ∃ xs, Traced r xs c c' := by
  induction h with
  | refl c => exact ⟨_, .refl c⟩
  | trans _ _ ih ih' =>
    obtain ⟨xs, hx⟩ := ih
    obtain ⟨ys, hy⟩ := ih'
    exact ⟨_, hx.trans hy⟩
  | straight h => exact ⟨_, .straight h⟩
  | text hg => exact ⟨_, .text hg⟩
  | declare hg => exact ⟨_, .declare hg⟩
  | function hg => exact ⟨_, .function hg⟩
  | bare hv hx => exact ⟨_, .bare hv hx⟩
  | ret hv hg _ hx ih =>
    obtain ⟨xs, hxs⟩ := ih
    exact ⟨_, .ret hv hg hxs hx⟩
  | conditional opens _ falls _ joins ih ih' =>
    obtain ⟨xs, hx⟩ := ih
    obtain ⟨ys, hy⟩ := ih'
    exact ⟨_, .conditional opens.opens hx falls hy joins⟩
  | repeated opens _ _ turns _ _ _ repeats ih ih' =>
    obtain ⟨xs, hx⟩ := ih
    obtain ⟨ys, hy⟩ := ih'
    exact ⟨_, .repeated opens.opens hx turns hy repeats⟩

def Loops (r : Registry) (sources : List Tree.Loop) (c c' : Context) : Prop :=
  ∃ ls, Looped r ls c c' ∧ ls.map (·.source) = sources

namespace Loops

variable {sources sources' : List Tree.Loop}

theorem refl (c : Context) : Loops r [] c c := ⟨[], .refl c, rfl⟩

/-- Two works lay out the loops of the first and then those of the second. -/
theorem trans (h : Loops r sources c d) (h' : Loops r sources' d c') :
    Loops r (sources ++ sources') c c' := by
  obtain ⟨ls, hl, rfl⟩ := h
  obtain ⟨ms, hm, rfl⟩ := h'
  exact ⟨ls ++ ms, hl.trans hm, List.map_append⟩

theorem of_straight (h : Straight c c') : Loops r [] c c' := ⟨[], .straight h, rfl⟩

theorem straight (h : Loops r sources c d) (h' : Straight d c') : Loops r sources c c' := by
  have ht := h.trans (of_straight h')
  rwa [List.append_nil] at ht

theorem declare {name : String} {ty : Ty} {s : Storage} (h : Loops r sources c d)
    (hg : Gives (declareVar name ty) d s c') : Loops r sources c c' := by
  have ht : Loops r (sources ++ []) c c' := h.trans ⟨[], .declare hg, rfl⟩
  rwa [List.append_nil] at ht

theorem branch {block : List Stmt}
    (h : ∀ c c' v, Gives (lowerStmts r none block) c v c' → Loops r sources c c') :
    ∀ c c', Gives (lowerBranch r (some block)) c () c' → Loops r sources c c' := by
  intro c c' hb
  obtain ⟨v, hb⟩ := lowerBranch_some.mp hb
  exact h c c' v hb

/-- A conditional lays out the loops of its two parts. -/
theorem conditional {o : Ir.Operand} {thenPart elsePart : Lower Cause Unit}
    (hthen : ∀ c c', Gives thenPart c () c' → Loops r sources c c')
    (helse : ∀ c c', Gives elsePart c () c' → Loops r sources' c c')
    (h : Gives (conditional o thenPart elsePart) c () c') : Loops r (sources ++ sources') c c' := by
  obtain ⟨thenId, elseId, mergeId, c₁, c₂, c₃, c₄, c₅, c₆, c₇, c₈, c₉, c₁₀, h₁, h₂, h₃, h₄, h₅, h₆,
    h₇, h₈, h₉, h₁₀, h₁₁⟩ := gives_conditional h
  obtain ⟨ls, hl, rfl⟩ := hthen c₅ c₆ h₆
  obtain ⟨ms, hm, rfl⟩ := helse c₈ c₉ h₉
  exact ⟨ls ++ ms, .conditional ⟨c₁, c₂, c₃, c₄, h₁, h₂, h₃, h₄, h₅⟩ hl ⟨c₇, h₇, h₈⟩ hm
    ⟨c₁₀, h₁₀, h₁₁⟩, List.map_append⟩

theorem current_of_fallThrough {id : Nat} {u : Unit} (h : Gives (fallThrough id) c u c') :
    ∃ back, c.top.builder.current = some back := by
  obtain ⟨f, rest, hf, ⟨hend, -⟩ | ⟨-, hjump⟩⟩ := gives_fallThrough.mp h
  · rw [Context.top_eq hf]
    cases hc : f.builder.current with
    | none => simp [Ir.Builder.isTerminated, hc] at hend
    | some back => exact ⟨back, rfl⟩
  · obtain ⟨f, rest, id, _, hf, hid, _⟩ := gives_terminate.mp hjump
    exact ⟨id, Context.top_eq hf ▸ hid⟩

/-- A loop lays out itself and then the loops in its condition and in its rounds. -/
theorem repeated {cond : Expr} {body : List Stmt} {post : List Expr}
    (htest : ∀ c o c', Gives (lowerTest r cond) c o c' → Loops r sources c c')
    (hround : ∀ c c', Gives (lowerRound r body post) c () c' → Loops r sources' c c')
    (h : Gives (repeated (lowerTest r cond) (lowerRound r body post)) c () c') :
    Loops r (⟨cond, post, body⟩ :: (sources ++ sources')) c c' := by
  obtain ⟨condId, bodyId, exitId, o, c₁, c₂, c₃, c₄, c₅, c₆, c₇, c₈, c₉, c₁₀, h₁, h₂, h₃, h₄, h₅, h₆,
    h₇, h₈, h₉, h₁₀, h₁₁⟩ := gives_repeated h
  obtain ⟨ls, hl, rfl⟩ := htest c₅ o c₆ h₆
  obtain ⟨ms, hm, rfl⟩ := hround c₈ c₉ h₉
  obtain ⟨back, hback⟩ := current_of_fallThrough h₁₀
  refine ⟨⟨⟨cond, post, body⟩, condId, back⟩ :: (ls ++ ms), ?_, by simp⟩
  exact .repeated ⟨c₁, c₂, c₃, c₄, h₁, h₂, h₃, h₄, h₅⟩ h₆ hl ⟨c₇, h₇, h₈⟩ h₉ hm hback
    ⟨c₁₀, h₁₀, h₁₁⟩

end Loops

mutual

/-- An expression lays out the loops of its nested blocks, in the order in which they are begun. -/
theorem lowerExpr_looped (r : Registry) : ∀ (e : Expr) {c c' : Context} {v : Option Typed},
    Gives (lowerExpr r e) c v c' → Loops r e.loops c c'
  | .int _, c, c', v, h => by
    obtain ⟨_, rfl⟩ := lower_int.mp h
    exact .refl _
  | .double _, c, c', v, h => by
    obtain ⟨_, rfl⟩ := lower_double.mp h
    exact .refl _
  | .str text, c, c', v, h => ⟨[], .text h, rfl⟩
  | .ident name, c, c', v, h => by
    obtain ⟨t, hread, _⟩ := lower_ident.mp h
    exact .of_straight (.readName .refl hread)
  | .neg operand, c, c', v, h => by
    obtain ⟨t, d, u, he, hneg, _⟩ := lower_neg.mp h
    exact (lowerExpr_looped r operand he).straight (.negate .refl hneg)
  | .binary op lhs rhs, c, c', v, h => by
    obtain ⟨t, d, t', d', u, hl, hr, hop, _⟩ := lower_binary.mp h
    exact ((lowerExpr_looped r lhs hl).trans (lowerExpr_looped r rhs hr)).straight
      (.combine .refl hop)
  | .assign target value, c, c', v, h => by
    obtain ⟨f, rest, s, t, d, _, _, he, hstore, _⟩ := lower_assign.mp h
    exact (lowerExpr_looped r value he).straight (.storeInto .refl hstore)
  | .call name args, c, c', v, h => by
    obtain ⟨callee, values, d, _, _, hargs, hcall⟩ := lower_call.mp h
    exact (lowerArgs_looped r callee 0 args hargs).straight (.call .refl hcall)
  | .block stmts, c, c', v, h => lowerStmts_looped r none stmts (lower_block.mp h)

theorem lowerArgs_looped (r : Registry) (callee : Callee) (index : Nat) :
    ∀ (es : List Expr) {c c' : Context} {values : List Ir.Operand},
      Gives (lowerArgs r callee index es) c values c' → Loops r (loopsOfExprs es) c c'
  | [], c, c', values, h => by
    obtain ⟨_, rfl⟩ := lowerArgs_nil.mp h
    exact .refl _
  | e :: es, c, c', values, h => by
    obtain ⟨t, d, value, d', rest, he, harg, hes, _⟩ := lowerArgs_cons.mp h
    exact ((lowerExpr_looped r e he).straight (.argument .refl harg)).trans
      (lowerArgs_looped r callee (index + 1) es hes)

theorem lowerEach_looped (r : Registry) : ∀ (es : List Expr) {c c' : Context} {u : Unit},
    Gives (lowerEach r es) c u c' → Loops r (loopsOfExprs es) c c'
  | [], c, c', u, h => by
    obtain rfl := lowerEach_nil.mp h
    exact .refl _
  | e :: es, c, c', u, h => by
    obtain ⟨v, d, he, hes⟩ := lowerEach_cons.mp h
    exact (lowerExpr_looped r e he).trans (lowerEach_looped r es hes)

theorem lowerStmts_looped (r : Registry) (last : Option Typed) :
    ∀ (ss : List Stmt) {c c' : Context} {v : Option Typed},
      Gives (lowerStmts r last ss) c v c' → Loops r (loops ss) c c'
  | [], c, c', v, h => by
    obtain ⟨_, rfl⟩ := lowerStmts_nil.mp h
    exact .refl _
  | s :: ss, c, c', v, h => by
    obtain ⟨w, d, hs, hss⟩ := lowerStmts_cons.mp h
    exact (lowerStmtValue_looped r s hs).trans (lowerStmts_looped r w ss hss)

/-- A statement lays out the loops in it. Those of a function declared in it belong to the code of that
function. -/
theorem lowerStmtValue_looped (r : Registry) : ∀ (s : Stmt) {c c' : Context} {v : Option Typed},
    Gives (lowerStmtValue r s) c v c' → Loops r s.loops c c'
  | .expr e, c, c', v, h => lowerExpr_looped r e (lower_expr.mp h)
  | .var name ty none, c, c', v, h => by
    obtain ⟨_, ⟨s, hs⟩, _⟩ := lower_var.mp h
    exact (Loops.refl c).declare hs
  | .var name ty (some init), c, c', v, h => by
    obtain ⟨_, t, d, s, d', he, hs, hstore, _⟩ := lower_var_init.mp h
    exact ((lowerExpr_looped r init he).declare hs).straight (.storeInto .refl hstore)
  | .function decl, c, c', v, h => ⟨[], .function (lower_function.mp h).1, rfl⟩
  | .ret none, c, c', v, h => by
    obtain ⟨t, d, ⟨_, rfl, rfl⟩ | ⟨_, _, hnone, _⟩, hret, _⟩ := lower_ret.mp h
    · obtain ⟨block, operand, hx⟩ := returned_of_gives hret
      exact ⟨_, .bare rfl (hx none), rfl⟩
    · cases hnone
  | .ret (some e), c, c', v, h => by
    obtain ⟨t, d, ⟨hsome, _⟩ | ⟨_, u, ⟨rfl⟩, rfl, _, he⟩, hret, _⟩ := lower_ret.mp h
    · cases hsome
    · obtain ⟨block, operand, hx⟩ := returned_of_gives hret
      obtain ⟨ls, hl, hsources⟩ := lowerExpr_looped r e he
      exact ⟨_, .ret rfl he hl (hx (some e)), hsources⟩
  | .ite cond thenBlock none, c, c', v, h => by
    obtain ⟨t, d, o, d', he, htest, hcond, _⟩ := lower_ite.mp h
    have hthen := Loops.branch fun _ _ _ => lowerStmts_looped r none thenBlock
    have helse : ∀ c c', Gives (lowerBranch r none) c () c' → Loops r [] c c' := by
      intro c c' hb
      obtain rfl := lowerBranch_none.mp hb
      exact .refl _
    have hparts := Loops.conditional hthen helse hcond
    rw [List.append_nil] at hparts
    exact ((lowerExpr_looped r cond he).straight (.test .refl htest)).trans hparts
  | .ite cond thenBlock (some elseBlock), c, c', v, h => by
    obtain ⟨t, d, o, d', he, htest, hcond, _⟩ := lower_ite.mp h
    have hthen := Loops.branch fun _ _ _ => lowerStmts_looped r none thenBlock
    have helse := Loops.branch fun _ _ _ => lowerStmts_looped r none elseBlock
    exact ((lowerExpr_looped r cond he).straight (.test .refl htest)).trans
      (Loops.conditional hthen helse hcond)
  | .loop init cond post body, c, c', v, h => by
    obtain ⟨d, hinit, hloop, _⟩ := lower_loop.mp h
    have htest : ∀ c o c', Gives (lowerTest r cond) c o c' → Loops r cond.loops c c' := by
      intro c o c' ht
      obtain ⟨t, d, he, ht⟩ := gives_lowerTest.mp ht
      exact (lowerExpr_looped r cond he).straight (.test .refl ht)
    have hround : ∀ c c', Gives (lowerRound r body post) c () c' →
        Loops r (loops body ++ loopsOfExprs post) c c' := by
      intro c c' hr
      obtain ⟨v, d, hb, hp⟩ := gives_lowerRound.mp hr
      exact (lowerStmts_looped r none body hb).trans (lowerEach_looped r post hp)
    exact (lowerEach_looped r init hinit).trans (Loops.repeated htest hround hloop)

end

end TreeLang.Lowering
