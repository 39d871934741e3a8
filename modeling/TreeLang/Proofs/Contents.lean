import Mathlib.Data.List.Basic
import TreeLang.Proofs.Lowering.Rules
import TreeLang.Proofs.Strict
import TreeLang.Proofs.Typing.Judgement

namespace TreeLang.Tree

mutual

/-- The string literals, in the order in which they are lowered. -/
def Expr.literals : Expr → List String
  | .int _ | .double _ | .ident _ => []
  | .str value => [value]
  | .neg operand => operand.literals
  | .binary _ lhs rhs => lhs.literals ++ rhs.literals
  | .assign _ value => value.literals
  | .call _ args => literalsOfExprs args
  | .block stmts => literals stmts

def literalsOfExprs : List Expr → List String
  | [] => []
  | e :: es => e.literals ++ literalsOfExprs es

/-- The body of a loop comes before the last part of its header. -/
def Stmt.literals : Stmt → List String
  | .expr e => e.literals
  | .var _ _ none => []
  | .var _ _ (some init) => init.literals
  | .function decl => decl.literals
  | .ret none => []
  | .ret (some value) => value.literals
  | .ite cond thenBlock none => cond.literals ++ literals thenBlock
  | .ite cond thenBlock (some elseBlock) =>
    cond.literals ++ literals thenBlock ++ literals elseBlock
  | .loop init cond post body =>
    literalsOfExprs init ++ cond.literals ++ literals body ++ literalsOfExprs post

def FunctionDecl.literals : FunctionDecl → List String
  | ⟨_, _, _, body⟩ => Tree.literals body

def literals : List Stmt → List String
  | [] => []
  | s :: ss => s.literals ++ literals ss

end

mutual

def Expr.finished : Expr → List FunctionDecl
  | .int _ | .double _ | .str _ | .ident _ => []
  | .neg operand => operand.finished
  | .binary _ lhs rhs => lhs.finished ++ rhs.finished
  | .assign _ value => value.finished
  | .call _ args => finishedOfExprs args
  | .block stmts => finished stmts

def finishedOfExprs : List Expr → List FunctionDecl
  | [] => []
  | e :: es => e.finished ++ finishedOfExprs es

def Stmt.finished : Stmt → List FunctionDecl
  | .expr e => e.finished
  | .var _ _ none => []
  | .var _ _ (some init) => init.finished
  | .function decl => decl.finished
  | .ret none => []
  | .ret (some value) => value.finished
  | .ite cond thenBlock none => cond.finished ++ finished thenBlock
  | .ite cond thenBlock (some elseBlock) =>
    cond.finished ++ finished thenBlock ++ finished elseBlock
  | .loop init cond post body =>
    finishedOfExprs init ++ cond.finished ++ finished body ++ finishedOfExprs post

def FunctionDecl.finished : FunctionDecl → List FunctionDecl
  | ⟨name, params, returns, body⟩ => Tree.finished body ++ [⟨name, params, returns, body⟩]

def finished : List Stmt → List FunctionDecl
  | [] => []
  | s :: ss => s.finished ++ finished ss

end

/-- A declaration leaves what its body leaves, and the function itself behind it. -/
theorem FunctionDecl.literals_eq (d : FunctionDecl) : d.literals = Tree.literals d.body := by
  cases d
  rfl

theorem FunctionDecl.finished_eq (d : FunctionDecl) : d.finished = Tree.finished d.body ++ [d] := by
  cases d
  rfl

mutual

/-- The functions are finished in another order than they are declared, but they are the same functions.
-/
theorem Expr.finished_perm : ∀ e : Expr, e.finished.Perm e.nestedFunctions
  | .int _ => .nil
  | .double _ => .nil
  | .str _ => .nil
  | .ident _ => .nil
  | .neg operand => operand.finished_perm
  | .binary _ lhs rhs => .append lhs.finished_perm rhs.finished_perm
  | .assign _ value => value.finished_perm
  | .call _ args => finishedOfExprs_perm args
  | .block stmts => finished_perm stmts

theorem finishedOfExprs_perm : ∀ es : List Expr, (finishedOfExprs es).Perm (nestedOfExprs es)
  | [] => .nil
  | e :: es => .append e.finished_perm (finishedOfExprs_perm es)

theorem Stmt.finished_perm : ∀ s : Stmt, s.finished.Perm s.nestedFunctions
  | .expr e => e.finished_perm
  | .var _ _ none => .nil
  | .var _ _ (some init) => init.finished_perm
  | .function decl => decl.finished_perm
  | .ret none => .nil
  | .ret (some value) => value.finished_perm
  | .ite cond thenBlock none => .append cond.finished_perm (finished_perm thenBlock)
  | .ite cond thenBlock (some elseBlock) =>
    .append (.append cond.finished_perm (finished_perm thenBlock)) (finished_perm elseBlock)
  | .loop init cond post body => by
    rw [Stmt.finished, Stmt.nestedFunctions, List.append_assoc, List.append_assoc (nestedOfExprs _ ++ _)]
    have hheader := (finishedOfExprs_perm init).append cond.finished_perm
    -- the walk meets the last part of the header before the body
    exact hheader.append (List.perm_append_comm.trans
      ((finishedOfExprs_perm post).append (finished_perm body)))

theorem FunctionDecl.finished_perm : ∀ d : FunctionDecl, d.finished.Perm d.withNested
  | ⟨name, params, returns, body⟩ => by
    rw [FunctionDecl.finished, FunctionDecl.withNested]
    exact List.perm_append_comm.trans (.cons _ (Tree.finished_perm body))

theorem finished_perm : ∀ ss : List Stmt, (finished ss).Perm (nestedFunctions ss)
  | [] => .nil
  | s :: ss => .append s.finished_perm (finished_perm ss)

end

def InnerFirst (ds : List FunctionDecl) : Prop :=
  ∀ before d after, ds = before ++ d :: after → nestedFunctions d.body ⊆ before

theorem innerFirst_nil : InnerFirst [] := by
  intro before d after he
  simp at he

theorem InnerFirst.append {ds ds' : List FunctionDecl} (h : InnerFirst ds) (h' : InnerFirst ds') :
    InnerFirst (ds ++ ds') := by
  intro before d after he
  rcases List.append_eq_append_iff.mp he with ⟨more, rfl, hds'⟩ | ⟨more, hds, hafter⟩
  · exact fun e hm => List.mem_append_right ds (h' more d after hds' hm)
  · cases more with
    | nil => exact fun e hm => absurd (h' [] d after hafter.symm hm) List.not_mem_nil
    | cons x more =>
      obtain ⟨rfl, _⟩ := List.cons_eq_cons.mp hafter
      exact h before d more hds

/-- A declaration comes behind those in its body. -/
theorem InnerFirst.concat {ds : List FunctionDecl} (h : InnerFirst ds) {d : FunctionDecl}
    (hd : nestedFunctions d.body ⊆ ds) : InnerFirst (ds ++ [d]) := by
  intro before d' after he
  rcases List.eq_nil_or_concat after with rfl | ⟨after, x, rfl⟩
  · obtain ⟨rfl, hlast⟩ := List.append_inj' he rfl
    rw [← (List.cons_eq_cons.mp hlast).1]
    exact hd
  · rw [List.concat_eq_append, ← List.cons_append, ← List.append_assoc] at he
    exact h before d' after (List.append_inj' he rfl).1

mutual

/-- By induction on the tree. -/
theorem Expr.finished_innerFirst : ∀ e : Expr, InnerFirst e.finished
  | .int _ => innerFirst_nil
  | .double _ => innerFirst_nil
  | .str _ => innerFirst_nil
  | .ident _ => innerFirst_nil
  | .neg operand => operand.finished_innerFirst
  | .binary _ lhs rhs => lhs.finished_innerFirst.append rhs.finished_innerFirst
  | .assign _ value => value.finished_innerFirst
  | .call _ args => finishedOfExprs_innerFirst args
  | .block stmts => finished_innerFirst stmts

theorem finishedOfExprs_innerFirst : ∀ es : List Expr, InnerFirst (finishedOfExprs es)
  | [] => innerFirst_nil
  | e :: es => e.finished_innerFirst.append (finishedOfExprs_innerFirst es)

theorem Stmt.finished_innerFirst : ∀ s : Stmt, InnerFirst s.finished
  | .expr e => e.finished_innerFirst
  | .var _ _ none => innerFirst_nil
  | .var _ _ (some init) => init.finished_innerFirst
  | .function decl => decl.finished_innerFirst
  | .ret none => innerFirst_nil
  | .ret (some value) => value.finished_innerFirst
  | .ite cond thenBlock none => cond.finished_innerFirst.append (finished_innerFirst thenBlock)
  | .ite cond thenBlock (some elseBlock) =>
    (cond.finished_innerFirst.append (finished_innerFirst thenBlock)).append
      (finished_innerFirst elseBlock)
  | .loop init cond post body =>
    (((finishedOfExprs_innerFirst init).append cond.finished_innerFirst).append
      (finished_innerFirst body)).append (finishedOfExprs_innerFirst post)

theorem FunctionDecl.finished_innerFirst : ∀ d : FunctionDecl, InnerFirst d.finished
  | ⟨_, _, _, body⟩ =>
    (Tree.finished_innerFirst body).concat fun _ hd => (Tree.finished_perm body).mem_iff.mpr hd

theorem finished_innerFirst : ∀ ss : List Stmt, InnerFirst (finished ss)
  | [] => innerFirst_nil
  | s :: ss => s.finished_innerFirst.append (finished_innerFirst ss)

end

end TreeLang.Tree

namespace TreeLang

structure Ir.Outline where
  name : String
  params : List Ir.Param
  returns : Ir.Ty
  slots : List Ir.Slot
  deriving DecidableEq

def Ir.Function.outline (F : Ir.Function) : Ir.Outline :=
  ⟨F.name, F.params, F.returns, F.slots⟩

def Tree.Param.slot (p : Tree.Param) : Ir.Slot := ⟨p.name, p.ty.toIr⟩

/-- What the function of a declaration has to look like. -/
def Tree.FunctionDecl.outline (d : Tree.FunctionDecl) : Ir.Outline :=
  ⟨d.name, d.params.map fun p => ⟨p.name, p.ty.toIr⟩, d.returns.toIr,
    (d.params ++ Tree.locals d.body).map (·.slot)⟩

namespace Lowering

open TreeLang.Tree (Ty Expr Stmt FunctionDecl Param nestedOfExprs nestedFunctions literals
  literalsOfExprs finished finishedOfExprs locals localsOfExprs InnerFirst)
open Typing (Registry Callee)
open Ir (Knowledge)
open Lower

variable {r : Registry} {g : Knowledge} {c c' : Context} {u : Unit}

structure Contents where
  strings : List String
  functions : List Ir.Outline
  externals : List Ir.External
  slots : List Ir.Slot

namespace Contents

def add (k : Contents) (texts : List String) (ds : List FunctionDecl) (vs : List Param) :
    Contents where
  strings := k.strings ++ texts
  functions := k.functions ++ ds.map (·.outline)
  externals := k.externals.filter fun x => x.name ∉ ds.map (·.name)
  slots := k.slots ++ vs.map (·.slot)

@[simp] theorem add_nil (k : Contents) : k.add [] [] [] = k := by
  simp [add]

/-- What two parts leave, the first one before the second. -/
@[simp] theorem add_add (k : Contents) (texts texts' : List String) (ds ds' : List FunctionDecl)
    (vs vs' : List Param) : (k.add texts ds vs).add texts' ds' vs' =
      k.add (texts ++ texts') (ds ++ ds') (vs ++ vs') := by
  unfold add
  simp only [List.append_assoc, List.map_append, List.filter_filter, mk.injEq, true_and, and_true]
  refine congrArg (List.filter · k.externals) (funext fun x => ?_)
  rw [Bool.eq_iff_iff]
  simp [not_or, and_comm]

end Contents

def Context.contents (c : Context) : Contents :=
  ⟨c.module.strings, c.module.functions.map (·.outline), c.module.externals,
    c.top.builder.function.slots⟩

def Holding (k : Contents) (c : Context) : Prop := c.contents = k

namespace Holding

variable {k : Contents}

/-- Code may be laid out without any trace in the contents. -/
theorem unmoved (k : Contents) : Unmoved (Holding k) := by
  intro c c' hr h
  unfold Holding Context.contents
  rw [hr.module, hr.slots]
  exact h

theorem join {texts texts' : List String} {ds ds' : List FunctionDecl} {vs vs' : List Param}
    (h : Holding ((k.add texts ds vs).add texts' ds' vs') c) :
    Holding (k.add (texts ++ texts') (ds ++ ds') (vs ++ vs')) c := by
  rwa [Contents.add_add] at h

/-- A slot is made for each variable, at the end of those of the function at hand. -/
theorem alloca (h : Holding k c) (hc : c.frames ≠ []) {p : Param} {slot : Nat}
    (hg : Gives (build (·.alloca p.name p.ty.toIr)) c slot c') : Holding (k.add [] [] [p]) c' := by
  obtain ⟨f, rest, hf, _, rfl, rfl⟩ := gives_alloca.mp hg
  obtain rfl := Context.top_eq hf
  subst h
  unfold Holding Context.contents
  rw [Context.top_withBuilder hc]
  simp [Contents.add, Ir.Function.reserve, Ir.Function.updateBlock, Tree.Param.slot]

end Holding

structure Stocked (r : Registry) (k : Contents) (c : Context) : Prop where
  orderly : Orderly r c.module
  holding : Holding k c

namespace Stocked

variable {k : Contents}

theorem unmoved (r : Registry) (k : Contents) : Unmoved (Stocked r k) :=
  fun c c' hr h => ⟨hr.module ▸ h.orderly, Holding.unmoved k c c' hr h.holding⟩

theorem nothing (h : Stocked r k c) : Stocked r (k.add [] [] []) c := by
  rwa [Contents.add_nil]

/-- A literal goes behind those before it, even if the same text is among them. -/
theorem addString {text : String} (h : Stocked r k c) : Stocked r (k.add [text] [] [])
    { c with module := { c.module with strings := c.module.strings ++ [text] } } where
  orderly := ⟨h.orderly.names, h.orderly.externals, h.orderly.prototypes⟩
  holding := by
    have hk : c.contents = k := h.holding
    subst hk
    simp [Holding, Contents.add, Context.contents, Context.top]

theorem join {texts texts' : List String} {ds ds' : List FunctionDecl} {vs vs' : List Param}
    (h : Stocked r ((k.add texts ds vs).add texts' ds' vs') c) :
    Stocked r (k.add (texts ++ texts') (ds ++ ds') (vs ++ vs')) c :=
  ⟨h.orderly, h.holding.join⟩

theorem declareVar (h : Stocked r k c) {p : Param} {s : Storage}
    (hg : Gives (declareVar p.name p.ty) c s c') : Stocked r (k.add [] [] [p]) c' := by
  obtain ⟨slot, d, f, rest, ha, hd, rfl, rfl⟩ := gives_declareVar.mp hg
  obtain ⟨f', rest', hf', _, _, hd'⟩ := gives_alloca.mp ha
  have hmodule : d.module = c.module := by rw [hd']; rfl
  obtain rfl := Context.top_eq hd
  have hk := h.holding.alloca (by simp [hf']) ha
  exact ⟨hmodule ▸ h.orderly, hk⟩

end Stocked

/-- The parameters get their slots in their order, before any variable of the body. -/
theorem storeParams_contents {ps : List Param} {index : Nat} {k : Contents} (hc : c.frames ≠ [])
    (hk : Holding k c) (h : Gives (storeParams index ps) c u c') : Holding (k.add [] [] ps) c' := by
  induction ps generalizing index c k with
  | nil =>
    obtain ⟨_, rfl⟩ := gives_pure.mp h
    rwa [Contents.add_nil]
  | cons p ps ih =>
    obtain ⟨_, slot, d, d', ha, hst, h⟩ := storeParams_cons h
    have hd' := Holding.unmoved _ d d' (tame_append _ d () d' hst) (hk.alloca hc ha)
    have hbound : Holding (k.add [] [] [p]) (d'.bindParam p slot) := hd'
    exact (ih (List.cons_ne_nil _ _) hbound h).join

/-- A body that has been lowered in a frame of its own is one function of the module, behind those
that it declares. -/
theorem define_contents {d : FunctionDecl} (ending : Option Typed → Ending)
    {v : Option Typed} {e e' e'' : Context} {f : Frame} {rest : List Frame} {m : Ir.Module}
    (ho : Orderly r c.module) (hreg : Registered r (nestedFunctions d.body))
    (hproto : r.get? d.name = none → Ir.prototype? d.name = none)
    (hending : ∀ {g c}, (∀ t ∈ v, t.Fits r g c) → (ending v).Fits r g c)
    (hbody : ∀ k, Carries (Stocked r k)
      (Stocked r (k.add (literals d.body) (finished d.body) (locals d.body)))
      (lowerStmts r none d.body))
    (henter : Gives (enterFunction d.name d.params d.returns) c () e)
    (hlower : Gives (lowerStmts r none d.body) e v e') (hclose : Gives (close (ending v)) e' () e'')
    (hf : e''.frames = f :: rest)
    (hm : (f.builder.prune.build >>= e''.module.define) = .ok m) :
    Stocked r (c.contents.add d.literals d.finished [])
      { e'' with module := m, scopes := e''.scopes.leave, frames := rest } := by
  have s₀ := sound_enter ho d.name d.params d.returns
  have l₁ := sound_enterFunction ho henter
  have s₁ := l₁.sound s₀
  obtain ⟨g', l₂, hfit⟩ := lowerStmts_sound r none d.body hreg s₁ (by simp) hlower
  have w₃ := sound_close s₀ (l₁.trans l₂).toWorking l₂.isOpen (ending v) (hending hfit) hclose
  obtain rfl := Context.top_eq hf
  obtain ⟨F, hF, hnew, _, rfl⟩ := define_eq_ok hm
  obtain ⟨_, rfl⟩ := Ir.Builder.build_eq_ok.mp hF
  have hrest : rest = c.frames := by
    have ht := w₃.tail
    rw [hf] at ht
    exact ht
  -- the slots of the frame begin with none
  have h₀ : Holding ⟨c.contents.strings, c.contents.functions, c.contents.externals, []⟩
      (c.enter (.start d.name d.params d.returns)) := rfl
  have h₁ := storeParams_contents s₀.frames h₀ (gives_enterFunction.mp henter)
  have h₂ := hbody _ e v e' hlower ⟨s₁.orderly, h₁⟩
  obtain ⟨ho₃, h₃⟩ := Stocked.unmoved _ _ e' e'' (tame_close (ending v) e' () e'' hclose) h₂
  rw [Contents.add_add, List.nil_append, List.nil_append] at h₃
  have hname : e''.top.builder.function.name = d.name := w₃.laid.name
  have hparams : e''.top.builder.function.params = d.params.map fun p => ⟨p.name, p.ty.toIr⟩ :=
    w₃.laid.params
  have hreturns : e''.top.builder.function.returns = d.returns.toIr := w₃.laid.returns
  obtain ⟨hstrings, hfunctions, hexternals, hslots⟩ := Contents.mk.inj h₃
  have houtline : e''.top.builder.prune.function.outline = d.outline := by
    change e''.top.builder.function.outline = d.outline
    unfold Ir.Function.outline
    rw [hname, hparams, hreturns, hslots]
    rfl
  have hpruned : e''.top.builder.prune.function.name = d.name := hname
  refine ⟨ho₃.define hnew (hpruned ▸ hproto), ?_⟩
  rw [d.literals_eq, d.finished_eq, hpruned]
  unfold Holding Context.contents Contents.add
  simp only [List.map_append, hfunctions, hstrings, hexternals, List.filter_filter, Contents.mk.injEq]
  refine ⟨rfl, ?_, ?_, ?_⟩
  · simp [houtline]
    rfl
  · refine congrArg (List.filter · c.module.externals) (funext fun x => ?_)
    rw [Bool.eq_iff_iff]
    simp [and_comm]
  · simp [Context.top, hrest]

mutual

/-- What lowering leaves behind is read off the tree, part by part in the order in which the parts are
lowered. -/
theorem lowerExpr_contents (r : Registry) : ∀ (e : Expr) {k : Contents},
    Registered r e.nestedFunctions →
    Carries (Stocked r k) (Stocked r (k.add e.literals e.finished e.locals)) (lowerExpr r e)
  | .int _, _, _ => carries_int.mono fun _ => Stocked.nothing
  | .double _, _, _ => carries_double.mono fun _ => Stocked.nothing
  | .str _, _, _ => carries_str fun _ => Stocked.addString
  | .ident _, _, _ => carries_ident (Stocked.unmoved _ _) fun _ _ _ => Stocked.nothing
  | .neg e, _, hreg => carries_neg (Stocked.unmoved _ _) (lowerExpr_contents r e hreg)
  | .binary _ lhs rhs, _, hreg =>
    (carries_binary (Stocked.unmoved _ _) (lowerExpr_contents r lhs hreg.left)
      (lowerExpr_contents r rhs hreg.right)).mono fun _ => Stocked.join
  | .assign _ value, _, hreg =>
    carries_assign (Stocked.unmoved _ _) (fun _ _ _ hk => hk) (lowerExpr_contents r value hreg)
  | .call _ args, _, hreg =>
    carries_call (Stocked.unmoved _ _) fun callee => lowerArgs_contents r callee 0 args hreg
  | .block stmts, _, hreg => carries_expr_block (lowerStmts_contents r none stmts hreg)

theorem lowerArgs_contents (r : Registry) (callee : Callee) (index : Nat) : ∀ (es : List Expr)
    {k : Contents}, Registered r (nestedOfExprs es) → Carries (Stocked r k)
      (Stocked r (k.add (literalsOfExprs es) (finishedOfExprs es) (localsOfExprs es)))
      (lowerArgs r callee index es)
  | [], _, _ => carries_args_nil.mono fun _ => Stocked.nothing
  | e :: es, _, hreg =>
    (carries_args_cons (Stocked.unmoved _ _) (lowerExpr_contents r e hreg.left)
      (lowerArgs_contents r callee (index + 1) es hreg.right)).mono fun _ => Stocked.join

theorem lowerEach_contents (r : Registry) : ∀ (es : List Expr) {k : Contents},
    Registered r (nestedOfExprs es) → Carries (Stocked r k)
      (Stocked r (k.add (literalsOfExprs es) (finishedOfExprs es) (localsOfExprs es)))
      (lowerEach r es)
  | [], _, _ => carries_each_nil.mono fun _ => Stocked.nothing
  | e :: es, _, hreg =>
    (carries_each_cons (lowerExpr_contents r e hreg.left)
      (lowerEach_contents r es hreg.right)).mono fun _ => Stocked.join

/-- The statements leave their literals, functions and variables one behind the other. -/
theorem lowerStmts_contents (r : Registry) (last : Option Typed) : ∀ (ss : List Stmt) {k : Contents},
    Registered r (nestedFunctions ss) →
    Carries (Stocked r k) (Stocked r (k.add (literals ss) (finished ss) (locals ss)))
      (lowerStmts r last ss)
  | [], _, _ => carries_stmts_nil.mono fun _ => Stocked.nothing
  | s :: ss, _, hreg =>
    (carries_stmts_cons (lowerStmtValue_contents r s hreg.left) fun w =>
      lowerStmts_contents r w ss hreg.right).mono fun _ => Stocked.join

theorem lowerStmtValue_contents (r : Registry) : ∀ (s : Stmt) {k : Contents},
    Registered r s.nestedFunctions →
    Carries (Stocked r k) (Stocked r (k.add s.literals s.finished s.locals)) (lowerStmtValue r s)
  | .expr e, _, hreg => carries_stmt_expr (lowerExpr_contents r e hreg)
  | .var name ty none, _, _ =>
    carries_var fun _ _ _ _ hd hk => hk.declareVar (p := ⟨name, ty⟩) hd
  | .var name ty (some init), _, hreg =>
    carries_var_init (Stocked.unmoved _ _) (lowerExpr_contents r init hreg) fun _ _ _ _ hd hk => by
      have hk' := (hk.declareVar (p := ⟨name, ty⟩) hd).join
      rwa [List.append_nil, List.append_nil] at hk'
  | .function ⟨name, params, returns, body⟩, k, hreg => by
    intro c v c' h hk
    obtain ⟨hf, rfl⟩ := lower_function.mp h
    obtain ⟨v, d, d', d'', f, rest, m, henter, hlower, hclose, hframes, hm, rfl⟩ :=
      gives_lowerFunction.mp hf
    have hbody : Registered r (nestedFunctions body) := Registered.tail hreg
    have hknown : r.get? name = some ⟨name, params, returns, body⟩ := hreg _ List.mem_cons_self
    obtain ⟨ho, rfl⟩ := hk
    exact define_contents (d := ⟨name, params, returns, body⟩) .value ho hbody
      (fun hnone => nomatch hknown.symm.trans hnone) id
      (fun _ => lowerStmts_contents r none body hbody) henter hlower hclose hframes hm
  | .ret none, _, _ =>
    (carries_ret_none (Stocked.unmoved _ _)).mono fun _ => Stocked.nothing
  | .ret (some e), _, hreg => carries_ret (Stocked.unmoved _ _) (lowerExpr_contents r e hreg)
  | .ite cond thenBlock none, _, hreg =>
    (carries_ite (Stocked.unmoved _ _) (Stocked.unmoved _ _) (lowerExpr_contents r cond hreg.left)
      (lowerStmts_contents r none thenBlock hreg.right)).mono fun _ => Stocked.join
  | .ite cond thenBlock (some elseBlock), _, hreg =>
    (carries_ite_else (Stocked.unmoved _ _) (Stocked.unmoved _ _) (Stocked.unmoved _ _)
      (lowerExpr_contents r cond hreg.left.left)
      (lowerStmts_contents r none thenBlock hreg.left.right)
      (lowerStmts_contents r none elseBlock hreg.right)).mono fun _ hk => by
        simp only [Contents.add_add] at hk
        exact hk
  | .loop init cond post body, _, hreg =>
    (carries_loop (Stocked.unmoved _ _) (Stocked.unmoved _ _) (Stocked.unmoved _ _)
      (lowerEach_contents r init hreg.left.left.left)
      (lowerExpr_contents r cond hreg.left.left.right)
      (lowerStmts_contents r none body hreg.right)
      (lowerEach_contents r post hreg.left.right)).mono fun _ hk => by
        simp only [Contents.add_add] at hk
        exact hk

end

/-- At first a module holds the prototypes and nothing else. -/
theorem contents_start (name : String) :
    (Context.start name).contents = ⟨[], [], Ir.prototypes, []⟩ := by
  simp [Context.contents, Context.start, Context.top, Ir.Module.withPrototypes, Ir.prototypes,
    Ir.Module.declare, Ir.Module.empty, Frame.start, Ir.Builder.start, Ir.Function.empty]

/-- A module holds all of the program it was lowered from, and nothing else: a function for each
declaration, behind those in its body, and the entry function last; the literals; and the prototypes
that no declaration hides. -/
theorem lower_contents {program : Tree.Block} {name : String} {m : Ir.Module}
    (h : lower program name = .ok m) :
    m.functions.map (·.outline) =
        (finished program).map (·.outline) ++ [FunctionDecl.outline ⟨entryName, [], .int, program⟩] ∧
      (finished program).Perm (nestedFunctions program) ∧ InnerFirst (finished program) ∧
      (∀ F ∈ m.functions, m.function? F.name = some F) ∧
      m.strings = literals program ∧
      m.externals =
        Ir.prototypes.filter fun x => x.name ∉ (nestedFunctions program).map (·.name) := by
  obtain ⟨main, hm⟩ := lower_produces h
  obtain ⟨_, c', hentry, rfl⟩ := lower_eq_ok.mp h
  obtain ⟨v, d, d', d'', f, rest, m, henter, hlower, hclose, hf, hdefine, rfl⟩ :=
    gives_lowerEntry.mp hentry
  have hproto : Ir.prototype? entryName = none := by decide
  obtain ⟨_, hk⟩ := define_contents (d := ⟨entryName, [], .int, program⟩) (fun _ => .zero)
    (orderly_start (registry program) name) hm.registered (fun _ => hproto) (fun _ => trivial)
    (fun _ => lowerStmts_contents _ none program hm.registered) henter hlower hclose hf hdefine
  rw [contents_start] at hk
  obtain ⟨hstrings, hfunctions, hexternals, _⟩ := Contents.mk.inj hk
  have hperm := Tree.finished_perm program
  rw [FunctionDecl.finished_eq] at hfunctions hexternals
  refine ⟨hfunctions.trans (by simp), hperm, Tree.finished_innerFirst program, ?_, hstrings, ?_⟩
  · exact fun F hF => function?_of_mem hm.names hF
  · refine hexternals.trans (List.filter_congr fun x hx => ?_)
    have hmain : x.name ≠ entryName := by
      have hall : ∀ x ∈ Ir.prototypes, x.name ≠ entryName := by decide
      exact hall x hx
    rw [decide_eq_decide, ← (hperm.map (·.name)).mem_iff, List.map_append, List.mem_append, not_or]
    simp [hmain]

/-- A declaration behind a `return` is lowered too, and hides the prototype of its name. The last part
of a loop's header comes after the body. -/
theorem lower_contents_hidden :
    let program : Tree.Block :=
      [.function ⟨"outer", [⟨"a", .int⟩], .int,
        [.function ⟨"inner", [], .void, [.expr (.call "print" [.str "in"])]⟩,
         .ret (some (.ident "a")),
         .function ⟨"sin", [⟨"x", .double⟩], .double, [.ret (some (.ident "x"))]⟩]⟩,
       .loop [] (.int 0) [.call "print" [.str "post"]]
        [.var "n" .int none, .expr (.call "print" [.str "body"])]]
    ∃ m, lower program "hidden" = .ok m ∧ m.functions.map (·.outline) =
        [⟨"inner", [], .void, []⟩, ⟨"sin", [⟨"x", .f64⟩], .f64, [⟨"x", .f64⟩]⟩,
         ⟨"outer", [⟨"a", .i32⟩], .i32, [⟨"a", .i32⟩]⟩, ⟨"main", [], .i32, [⟨"n", .i32⟩]⟩] ∧
      m.strings = ["in", "body", "post"] ∧ m.external? "sin" = none := by
  intro program
  have hok : (lower program "hidden").isOk = true := by decide +kernel
  cases hm : lower program "hidden" with
  | error d =>
    rw [hm] at hok
    cases hok
  | ok m =>
    obtain ⟨hfunctions, _, _, _, hstrings, hexternals⟩ := lower_contents hm
    refine ⟨m, rfl, hfunctions, hstrings, ?_⟩
    unfold Ir.Module.external?
    rw [hexternals]
    decide +kernel

end Lowering

end TreeLang
