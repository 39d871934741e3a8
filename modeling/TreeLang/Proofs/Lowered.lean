import TreeLang.Proofs.Strict

namespace TreeLang

/-- A function that has been built, with its certificate. -/
structure Ir.Function.Sturdy (callees : String → Option External) (strings : Nat) (g : Knowledge)
    (F : Function) : Prop extends Finished F where
  certified : Certified callees strings g F
  live : F.Live

namespace Lowering

open TreeLang.Tree (nestedFunctions FunctionDecl)
open Typing (Registry)

/-- A compiled function has been built, with a certificate. -/
theorem Compiled.sturdy {r : Registry} {literals : Nat} {name : String} {params : List Tree.Param}
    {returns : Tree.Ty} {body : List Tree.Stmt} {ending : Option Typed → Lower.Ending}
    {strings : List String} {F : Ir.Function}
    (h : Compiled r literals name params returns body ending strings F) :
    ∃ g, F.Sturdy (callees r) strings.length g := by
  obtain ⟨_, _, _, hlive, _, g, hg⟩ := h.certified
  refine ⟨g, ?_, hg, hlive⟩
  cases h with
  | intro count enter inside lower lowered close laid build hpre =>
    exact Ir.Builder.finished_build laid.shaped build

/-- A parameter that is stored is not of type `void`: there is no slot of that type. -/
theorem storeParams_ne_void {ps : List Tree.Param} {index : Nat} {c c' : Context} {u : Unit}
    (h : Gives (Lower.storeParams index ps) c u c') : ∀ p ∈ ps, p.ty ≠ .void := by
  induction ps generalizing index c with
  | nil =>
    intro p hp
    cases hp
  | cons p ps ih =>
    obtain ⟨hv, _, _, _, _, _, _, _, _, h⟩ := gives_storeParams_cons.mp h
    intro q hq
    rcases List.mem_cons.mp hq with rfl | hq
    · exact hv
    · exact ih h q hq

/-- No parameter of a compiled function is without a value. -/
theorem Compiled.params_ne_void {r : Registry} {literals : Nat} {name : String}
    {params : List Tree.Param} {returns : Tree.Ty} {body : List Tree.Stmt}
    {ending : Option Typed → Lower.Ending} {strings : List String} {F : Ir.Function}
    (h : Compiled r literals name params returns body ending strings F) :
    .void ∉ F.params.map (·.ty) := by
  rw [h.certified.2.1]
  cases h with
  | intro count enter =>
    intro hm
    obtain ⟨p, hp, hty⟩ := List.mem_map.mp hm
    exact storeParams_ne_void (gives_enterFunction.mp enter) p hp (Tree.Ty.toIr_injective hty)

namespace Produced

variable {program : Tree.Block} {m : Ir.Module} {main : Ir.Function}

/-- Every function of a lowered module has been built, with its certificate. -/
theorem sturdy_of_mem (h : Produced program m main) {F : Ir.Function} (hF : F ∈ m.functions) :
    ∃ g, F.Sturdy (callees (registry program)) m.strings.length g := by
  rcases h.made F hF with rfl | ⟨d, _, _, _, hd⟩
  · exact h.entry.2.2.sturdy
  · exact hd.sturdy

theorem single_eq_self (h : Produced program m main) : m.single = m := by
  have hmap : m.functions.map Ir.Function.single = m.functions := by
    refine (List.map_congr_left fun F hF => ?_).trans (List.map_id m.functions)
    obtain ⟨g, hg⟩ := h.sturdy_of_mem hF
    exact hg.certified.single_eq_self hg.nodup
  unfold Ir.Module.single
  rw [hmap]

/-- No function of a lowered module takes a `void` parameter. -/
theorem params_ne_void (h : Produced program m main) {F : Ir.Function} (hF : F ∈ m.functions) :
    .void ∉ F.params.map (·.ty) := by
  rcases h.made F hF with rfl | ⟨d, _, _, _, hd⟩
  · exact h.entry.2.2.params_ne_void
  · exact hd.params_ne_void

/-- The entry function takes nothing and returns an integer. -/
theorem entry_signature (h : Produced program m main) :
    m.function? entryName = some main ∧ main.params = [] ∧ main.returns = .i32 := by
  obtain ⟨hmem, hname, hc⟩ := h.entry
  obtain ⟨_, hparams, hreturns, _⟩ := hc.certified
  refine ⟨?_, List.map_eq_nil_iff.mp hparams, hreturns⟩
  have := function?_of_mem h.names hmem
  rwa [hname] at this

end Produced

end Lowering

end TreeLang
