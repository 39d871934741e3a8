import TreeLang.Proofs.Lowering.Functions
import TreeLang.Proofs.Lowering.Steady

namespace TreeLang

namespace Ir.Module

/-- The module with more strings and more functions. An external gives way to a function of its
name. -/
def add (m : Module) (texts : List String) (fs : List Function) : Module :=
  { m with
    strings := m.strings ++ texts
    functions := m.functions ++ fs
    externals := m.externals.filter fun e => fs.all (·.name != e.name) }

/-- A module grows by strings and functions, and by nothing else. -/
theorem Grown.eq_add {m m' : Module} (h : Grown m m') : ∃ texts fs, m' = m.add texts fs := by
  obtain ⟨texts, htexts⟩ := h.strings
  obtain ⟨fs, hfs, hext⟩ := h.functions
  refine ⟨texts, fs, ?_⟩
  obtain ⟨name, functions, externals, strings⟩ := m'
  have hname : name = m.name := h.name
  subst hname
  have hstrings : m.strings ++ texts = strings := htexts
  subst hstrings
  have hfunctions : functions = m.functions ++ fs := hfs
  subst hfunctions
  have hexternals : externals = m.externals.filter fun e => fs.all (·.name != e.name) := hext
  subst hexternals
  rfl

end Ir.Module

namespace Lowering

open TreeLang.Tree (FunctionDecl)
open Typing (Registry)
open Lower

variable {r : Registry} {decl : FunctionDecl} {c c' : Context}

/-- A function that was lowered is the last one of the module, behind those of its body. -/
theorem lowerFunction_last (h : Gives (lowerFunction r decl) c () c') :
    ∃ fs F, c'.module.functions = c.module.functions ++ fs ++ [F] ∧ F.name = decl.name := by
  obtain ⟨v, d, d', d'', f, rest, m, henter, hbody, hclose, hf, hm, rfl⟩ := gives_lowerFunction.mp h
  have hkept : Kept (c.enter (.start decl.name decl.params decl.returns)) d'' :=
    (((steady_storeParams 0 decl.params).of_gives (gives_enterFunction.mp henter)).trans
      ((lowerStmts_steady r none decl.body).of_gives hbody)).trans
      ((steady_close (.value v)).of_gives hclose)
  obtain ⟨fs, hfs, _⟩ := hkept.module.functions
  obtain ⟨F, _, _, hname, rfl⟩ := define_eq_ok hm
  refine ⟨fs, F, congrArg (· ++ [F]) hfs, hname.trans ?_⟩
  have hfunction := hkept.function
  unfold Context.function at hfunction
  rw [hf] at hfunction
  exact hfunction

/-- Lowering a function, inside whatever others, leaves each of their frames and the names in force
as they were. The module may have gained strings and functions, and has lost the externals of their
names; a function that was lowered is the last of those it gained. -/
theorem lowerFunction_frames (r : Registry) (decl : FunctionDecl) (c : Context) :
    (outcome (lowerFunction r decl) c).2.frames = c.frames ∧
    (outcome (lowerFunction r decl) c).2.scopes = c.scopes ∧
    ∃ texts fs, (outcome (lowerFunction r decl) c).2.module = c.module.add texts fs ∧
      ((outcome (lowerFunction r decl) c).1 = .ok () →
        ∃ fs' F, fs = fs' ++ [F] ∧ F.name = decl.name) := by
  have hapart := lowerFunction_apart r decl c
  obtain ⟨texts, fs, hmodule⟩ := hapart.module.eq_add
  refine ⟨hapart.frames, hapart.scopes, texts, fs, hmodule, fun hok => ?_⟩
  obtain ⟨fs', F, hlast, hname⟩ := lowerFunction_last (Prod.ext hok rfl)
  rw [hmodule, List.append_assoc] at hlast
  exact ⟨fs', F, List.append_cancel_left hlast, hname⟩

/-- A function with one inside it, both below two others. -/
theorem lowerFunction_frames_inner :
    let inner : FunctionDecl := ⟨"inner", [], .string, [.expr (.str "text")]⟩
    let outer : FunctionDecl := ⟨"outer", [⟨"x", .int⟩], .int,
      [.function inner, .ite (.ident "x") [.ret (some (.int 1))] none, .expr (.ident "x")]⟩
    let c := ((Context.start "m").enter (.start entryName [] .int)).enter (.start "f" [] .void)
    (outcome (lowerFunction ⟨[outer, inner]⟩ outer) c).1 = .ok () ∧
      ∃ texts fs F, (outcome (lowerFunction ⟨[outer, inner]⟩ outer) c).2.module =
        c.module.add texts (fs ++ [F]) ∧ F.name = "outer" := by
  intro inner outer c
  have h := gives_of_some (m := lowerFunction ⟨[outer, inner]⟩ outer) (s := c) (a := ())
    (by decide +kernel)
  have hok : (outcome (lowerFunction ⟨[outer, inner]⟩ outer) c).1 = .ok () := congrArg Prod.fst h
  obtain ⟨_, _, texts, fs, hmodule, hlast⟩ := lowerFunction_frames ⟨[outer, inner]⟩ outer c
  obtain ⟨fs', F, rfl, hname⟩ := hlast hok
  exact ⟨hok, texts, fs', F, hmodule, hname⟩

end Lowering

end TreeLang
