import Mathlib.Data.List.Forall2
import TreeLang.Proofs.Simulation.Names
import TreeLang.Proofs.Strict

namespace TreeLang.Simulation

open TreeLang.Tree (Ty Expr Stmt FunctionDecl nestedOfExprs nestedFunctions)
open Typing (Registry Callee)
open Ir (Knowledge)
open Lowering
open Lower
open Meaning (Names literalsBefore)

variable {r : Registry} {g : Knowledge} {c c' : Context} {names : Names}

/-- The function came of the declaration of that name, behind so many strings. -/
def Made (r : Registry) (strings : List String) (body : String × Nat) (F : Ir.Function) : Prop :=
  F.name = body.1 ∧ ∃ d : FunctionDecl, d.name = body.1 ∧ r.get? d.name = some d ∧
    Compiled r body.2 d.name d.params d.returns d.body .value strings F

theorem Made.mono {strings strings' : List String} (hs : strings <+: strings')
    {body : String × Nat} {F : Ir.Function} (h : Made r strings body F) : Made r strings' body F := by
  obtain ⟨hname, d, hd, hget, hc⟩ := h
  exact ⟨hname, d, hd, hget, hc.mono hs⟩

/-- The walk has come to where the lowering is, and has met the bodies of the functions that are in
the module besides `old`. -/
structure Numbered (r : Registry) (old : List Ir.Function) (names : Names)
    (bodies : List (String × Nat)) (c : Context) : Prop extends Matches names c where
  orderly : Orderly r c.module
  made : ∃ new, c.module.functions = old ++ new ∧
    List.Forall₂ (Made r c.module.strings) bodies new

namespace Numbered

variable {old : List Ir.Function} {bodies : List (String × Nat)}

/-- Whatever functions are there already, the walk has met no bodies at first. -/
theorem begin (ho : Orderly r c.module) (hm : Matches names c) :
    Numbered r c.module.functions names [] c :=
  ⟨hm, ho, [], (List.append_nil _).symm, .nil⟩

theorem unmoved : Unmoved (Numbered r old names bodies) :=
  fun c c' hr h => ⟨Matches.unmoved names c c' hr h.toMatches, hr.module ▸ h.orderly,
    hr.module ▸ h.made⟩

theorem nothing (h : Numbered r old names bodies c) : Numbered r old names (bodies ++ []) c := by
  rwa [List.append_nil]

theorem join {more more' : List (String × Nat)}
    (h : Numbered r old names (bodies ++ more ++ more') c) :
    Numbered r old names (bodies ++ (more ++ more')) c := by
  rwa [List.append_assoc] at h

/-- A literal that the walk counts is a string of the module. -/
theorem addString {text : String} (h : Numbered r old names bodies c) :
    Numbered r old { names with literals := names.literals + 1 } (bodies ++ [])
      { c with module := { c.module with strings := c.module.strings ++ [text] } } := by
  obtain ⟨new, hnew, hmade⟩ := h.made
  refine (Numbered.mk (h.toMatches.addString text)
    ⟨h.orderly.names, h.orderly.externals, h.orderly.prototypes⟩ ⟨new, hnew, ?_⟩).nothing
  exact hmade.imp fun _ _ => Made.mono (List.prefix_append _ _)

theorem declareVar (h : Numbered r old names bodies c) {name : String} {ty : Ty} {s : Storage}
    (hg : Gives (declareVar name ty) c s c') :
    Numbered r old (names.declare name ty) bodies c' := by
  obtain ⟨slot, d, f, rest, ha, hd, rfl, rfl⟩ := gives_declareVar.mp hg
  obtain ⟨f', rest', hf', _, _, hd'⟩ := gives_alloca.mp ha
  have hmodule : d.module = c.module := by rw [hd']; rfl
  exact ⟨(h.toMatches.declareVar hg).1, hmodule ▸ h.orderly, hmodule ▸ h.made⟩

end Numbered

/-- A function that is begun and ended beside the one at hand comes to the module behind those that
its body declares. -/
theorem numbered_function {old : List Ir.Function} {bodies : List (String × Nat)} (d : FunctionDecl)
    (hreg : Registered r (d :: nestedFunctions d.body))
    (hbody : ∀ {names bodies}, Lowering.Carries (Numbered r old names bodies)
      (Numbered r old (names.afterStmts d.body) (bodies ++ names.bodies d.body))
      (lowerStmts r none d.body))
    (h : Gives (lowerFunction r d) c () c') (hn : Numbered r old names bodies c) :
    Numbered r old (names.afterFunction d) (bodies ++ names.bodiesOfFunction d) c' := by
  obtain ⟨name, params, returns, body⟩ := d
  have htop := (Apart.of_gives h).top
  obtain ⟨v, e, e', e'', f, rest, m, henter, hlower, hclose, hf, hm, rfl⟩ :=
    gives_lowerFunction.mp h
  have s₀ := sound_enter hn.orderly name params returns
  have l₁ := sound_enterFunction hn.orderly henter
  have s₁ := l₁.sound s₀
  obtain ⟨g', l₂, hfit⟩ := lowerStmts_sound r none body hreg.tail s₁ (by simp) hlower
  have w₃ := sound_close s₀ (l₁.trans l₂).toWorking l₂.isOpen (.value v) hfit hclose
  obtain rfl := Context.top_eq hf
  obtain ⟨F, hF, hnew, hname, rfl⟩ := define_eq_ok hm
  have hname : F.name = name := hname.trans w₃.laid.name
  have hknown := hreg _ List.mem_cons_self
  -- the body is walked in names of its own
  have hmodule := module_storeParams (gives_enterFunction.mp henter)
  have n₁ : Numbered r old (.enter names.literals params) bodies e :=
    ⟨hn.literals ▸ storeParams_names s₀.frames rfl (.enter c name params returns)
      (gives_enterFunction.mp henter), hmodule ▸ hn.orderly, hmodule ▸ hn.made⟩
  have n₃ := Numbered.unmoved _ _ (tame_close (.value v) e' () e'' hclose)
    (hbody e v e' hlower n₁)
  obtain ⟨new, hfunctions, hmade⟩ := n₃.made
  have hcompiled := Compiled.intro hn.literals.symm henter s₁ hlower (l₂.sound s₁) hclose w₃.laid hF
    List.prefix_rfl hreg.tail
  refine ⟨⟨htop ▸ hn.cells, htop ▸ hn.bound, n₃.literals⟩, n₃.orderly.define hnew ?_, new ++ [F], ?_, ?_⟩
  · rw [hname, hknown]
    exact fun hnone => absurd hnone (Option.some_ne_none _)
  · rw [← List.append_assoc, ← hfunctions]
  · rw [Names.bodiesOfFunction, ← List.append_assoc]
    exact List.rel_append hmade (.cons ⟨hname, _, rfl, hknown, hcompiled⟩ .nil)

mutual

/-- The walk of an expression counts as many literals as its lowering adds strings, and meets the
functions it adds. -/
theorem lowerExpr_numbered (r : Registry) (old : List Ir.Function) : ∀ (e : Expr) {names : Names}
    {bodies : List (String × Nat)}, Registered r e.nestedFunctions →
    Lowering.Carries (Numbered r old names bodies)
      (Numbered r old (names.afterExpr e) (bodies ++ names.bodiesOfExpr e)) (lowerExpr r e)
  | .int _, _, _, _ => carries_int.mono fun _ => Numbered.nothing
  | .double _, _, _, _ => carries_double.mono fun _ => Numbered.nothing
  | .str _, _, _, _ => carries_str fun _ => Numbered.addString
  | .ident _, _, _, _ => carries_ident Numbered.unmoved fun _ _ _ => Numbered.nothing
  | .neg e, _, _, hreg => carries_neg Numbered.unmoved (lowerExpr_numbered r old e hreg)
  | .binary _ lhs rhs, _, _, hreg =>
    (carries_binary Numbered.unmoved (lowerExpr_numbered r old lhs hreg.left)
      (lowerExpr_numbered r old rhs hreg.right)).mono fun _ => Numbered.join
  | .assign _ value, _, _, hreg =>
    carries_assign Numbered.unmoved (fun _ _ _ hn => hn) (lowerExpr_numbered r old value hreg)
  | .call _ args, _, _, hreg =>
    carries_call Numbered.unmoved fun callee => lowerArgs_numbered r old callee 0 args hreg
  | .block stmts, _, _, hreg => carries_expr_block (lowerStmts_numbered r old none stmts hreg)

theorem lowerArgs_numbered (r : Registry) (old : List Ir.Function) (callee : Callee) (index : Nat) :
    ∀ (es : List Expr) {names : Names} {bodies : List (String × Nat)},
    Registered r (nestedOfExprs es) → Lowering.Carries (Numbered r old names bodies)
      (Numbered r old (names.afterExprs es) (bodies ++ names.bodiesOfExprs es))
      (lowerArgs r callee index es)
  | [], _, _, _ => carries_args_nil.mono fun _ => Numbered.nothing
  | e :: es, _, _, hreg =>
    (carries_args_cons Numbered.unmoved (lowerExpr_numbered r old e hreg.left)
      (lowerArgs_numbered r old callee (index + 1) es hreg.right)).mono fun _ => Numbered.join

theorem lowerEach_numbered (r : Registry) (old : List Ir.Function) : ∀ (es : List Expr)
    {names : Names} {bodies : List (String × Nat)}, Registered r (nestedOfExprs es) →
    Lowering.Carries (Numbered r old names bodies)
      (Numbered r old (names.afterExprs es) (bodies ++ names.bodiesOfExprs es)) (lowerEach r es)
  | [], _, _, _ => carries_each_nil.mono fun _ => Numbered.nothing
  | e :: es, _, _, hreg =>
    (carries_each_cons (lowerExpr_numbered r old e hreg.left)
      (lowerEach_numbered r old es hreg.right)).mono fun _ => Numbered.join

theorem lowerStmts_numbered (r : Registry) (old : List Ir.Function) (last : Option Typed) :
    ∀ (ss : List Stmt) {names : Names} {bodies : List (String × Nat)},
    Registered r (nestedFunctions ss) → Lowering.Carries (Numbered r old names bodies)
      (Numbered r old (names.afterStmts ss) (bodies ++ names.bodies ss)) (lowerStmts r last ss)
  | [], _, _, _ => carries_stmts_nil.mono fun _ => Numbered.nothing
  | s :: ss, _, _, hreg =>
    (carries_stmts_cons (lowerStmtValue_numbered r old s hreg.left) fun w =>
      lowerStmts_numbered r old w ss hreg.right).mono fun _ => Numbered.join

theorem lowerStmtValue_numbered (r : Registry) (old : List Ir.Function) : ∀ (s : Stmt)
    {names : Names} {bodies : List (String × Nat)}, Registered r s.nestedFunctions →
    Lowering.Carries (Numbered r old names bodies)
      (Numbered r old (names.afterStmt s) (bodies ++ names.bodiesOfStmt s)) (lowerStmtValue r s)
  | .expr e, _, _, hreg => carries_stmt_expr (lowerExpr_numbered r old e hreg)
  | .var _ _ none, _, _, _ => carries_var fun _ _ _ _ hd hn => (hn.declareVar hd).nothing
  | .var _ _ (some init), _, _, hreg =>
    carries_var_init Numbered.unmoved (lowerExpr_numbered r old init hreg)
      fun _ _ _ _ hd hn => hn.declareVar hd
  | .function ⟨name, params, returns, body⟩, _, _, hreg => by
    intro c v c' h hn
    obtain ⟨hf, rfl⟩ := lower_function.mp h
    exact numbered_function ⟨name, params, returns, body⟩ hreg
      (lowerStmts_numbered r old none body hreg.tail) hf hn
  | .ret none, _, _, _ => (carries_ret_none Numbered.unmoved).mono fun _ => Numbered.nothing
  | .ret (some e), _, _, hreg => carries_ret Numbered.unmoved (lowerExpr_numbered r old e hreg)
  | .ite cond thenBlock none, _, _, hreg =>
    (carries_ite Numbered.unmoved Numbered.unmoved
      (lowerExpr_numbered r old cond hreg.left)
      (lowerStmts_numbered r old none thenBlock hreg.right)).mono fun _ => Numbered.join
  | .ite cond thenBlock (some elseBlock), _, _, hreg =>
    (carries_ite_else Numbered.unmoved Numbered.unmoved Numbered.unmoved
      (lowerExpr_numbered r old cond hreg.left.left)
      (lowerStmts_numbered r old none thenBlock hreg.left.right)
      (lowerStmts_numbered r old none elseBlock hreg.right)).mono fun _ hn => by
        simp only [List.append_assoc] at hn
        exact hn
  | .loop init cond post body, _, _, hreg =>
    (carries_loop Numbered.unmoved Numbered.unmoved Numbered.unmoved
      (lowerEach_numbered r old init hreg.left.left.left)
      (lowerExpr_numbered r old cond hreg.left.left.right)
      (lowerStmts_numbered r old none body hreg.right)
      (lowerEach_numbered r old post hreg.left.right)).mono fun _ hn => by
        simp only [List.append_assoc] at hn
        exact hn

end

/-- A function is found in the order of the bodies under its name. -/
theorem lookup_of_made {strings : List String} {bodies : List (String × Nat)}
    {new : List Ir.Function} (h : List.Forall₂ (Made r strings) bodies new)
    (hnodup : (new.map (·.name)).Nodup) {F : Ir.Function} (hF : F ∈ new) :
    ∃ n, bodies.lookup F.name = some n ∧ Made r strings (F.name, n) F := by
  induction h with
  | nil => cases hF
  | @cons body G bodies new hmade _ ih =>
    obtain ⟨hnot, hnodup⟩ := List.nodup_cons.mp hnodup
    obtain ⟨name, n⟩ := body
    obtain rfl : G.name = name := hmade.1
    rw [List.lookup_cons]
    rcases List.mem_cons.mp hF with rfl | hF
    · exact ⟨n, by simp, hmade⟩
    · obtain ⟨k, hk, hmade⟩ := ih hnodup hF
      have hne : (F.name == G.name) = false :=
        beq_eq_false_iff_ne.mpr fun he => hnot (List.mem_map.mpr ⟨F, hF, he⟩)
      exact ⟨k, by rw [hne]; exact hk, hmade⟩

/-- The functions of a module come in the order in which their bodies end, the entry function last. -/
theorem lower_made {program : Tree.Block} {name : String} {m : Ir.Module}
    (h : lower program name = .ok m) : ∃ new main, m.functions = new ++ [main] ∧
      main.name = entryName ∧
      List.Forall₂ (Made (registry program) m.strings) ((Names.enter 0 []).bodies program) new := by
  obtain ⟨_, hp⟩ := lower_produces h
  obtain ⟨_, c', hentry, rfl⟩ := lower_eq_ok.mp h
  have ho := orderly_start (registry program) name
  have hempty : (Context.start name).module.functions = [] ∧ (Context.start name).module.strings = [] :=
    ⟨functions_start name, strings_start name⟩
  generalize Context.start name = c at hentry ho hempty
  obtain ⟨v, e, e', e'', f, rest, m, henter, hlower, hclose, hf, hm, rfl⟩ :=
    gives_lowerEntry.mp hentry
  have s₀ := sound_enter ho entryName [] .int
  have l₁ := sound_enterFunction ho henter
  have s₁ := l₁.sound s₀
  obtain ⟨g', l₂, -⟩ := lowerStmts_sound _ none program hp.registered s₁ (by simp) hlower
  have w₃ := sound_close s₀ (l₁.trans l₂).toWorking l₂.isOpen .zero trivial hclose
  obtain rfl := Context.top_eq hf
  obtain ⟨F, _, _, hname, rfl⟩ := define_eq_ok hm
  have hmodule : e.module = c.module :=
    (module_storeParams (gives_enterFunction.mp henter)).trans rfl
  have n₁ : Numbered (registry program) [] (.enter 0 []) [] e := by
    refine ⟨?_, s₁.orderly, [], ?_, .nil⟩
    · have hmatches := storeParams_names s₀.frames rfl
        (.enter c entryName [] .int) (gives_enterFunction.mp henter)
      rwa [hempty.2] at hmatches
    · rw [hmodule, hempty.1, List.append_nil]
  have n₃ := Numbered.unmoved _ _ (tame_close .zero e' () e'' hclose)
    (lowerStmts_numbered _ _ none program hp.registered e v e' hlower n₁)
  obtain ⟨new, hfunctions, hmade⟩ := n₃.made
  exact ⟨new, F, congrArg (· ++ [F]) hfunctions, hname.trans w₃.laid.name, hmade⟩

/-- The module has the function of each declaration, begun behind as many strings as there are
literals before its body. -/
def Begun (program : Tree.Block) (m : Ir.Module) : Prop :=
  ∀ d : FunctionDecl, (registry program).get? d.name = some d → ∃ F, m.function? d.name = some F ∧
    Compiled (registry program) (literalsBefore program d.name) d.name d.params d.returns d.body .value
      m.strings F

/-- In a lowered module every function was begun where the walk met its declaration. -/
theorem lower_begun {program : Tree.Block} {name : String} {m : Ir.Module}
    (h : lower program name = .ok m) : Begun program m := by
  intro d hd
  obtain ⟨_, hp⟩ := lower_produces h
  obtain ⟨new, main, hfunctions, hmain, hmade⟩ := lower_made h
  have hdecl : d ∈ nestedFunctions program := List.mem_of_find?_eq_some hd
  obtain ⟨F, hF, hname, -⟩ := hp.found d hdecl
  have hnodup := hp.names
  rw [hfunctions, List.map_append] at hnodup
  have hnew : F ∈ new := by
    rw [hfunctions] at hF
    rcases List.mem_append.mp hF with hF | hF
    · exact hF
    · rw [List.mem_singleton.mp hF] at hname
      exact absurd (hname.symm.trans hmain) (hp.unreserved d hdecl)
  obtain ⟨n, hn, -, d', hd', hget, hcompiled⟩ := lookup_of_made hmade (List.nodup_append.mp hnodup).1 hnew
  rw [hname] at hn hd'
  rw [hd', hd] at hget
  cases hget
  refine ⟨F, hname ▸ function?_of_mem hp.names hF, ?_⟩
  rw [literalsBefore, hn]
  exact hcompiled

end TreeLang.Simulation
