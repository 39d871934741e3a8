import TreeLang.Proofs.LoopHeaders

namespace TreeLang.Lowering

open TreeLang.Tree (Ty Stmt)
open Typing (Registry)
open Ir.Builder (SameFlow)
open Lower

variable {r : Registry} {c c' : Context} {ls : List Loop} {u : Unit} {name : String}
  {body : List Stmt} {F : Ir.Function}

def blockLabels : List String :=
  ["entry", "after.return", "then", "else", "ifcont", "loop.cond", "loop.body", "loop.exit"]

structure Labelled (c : Context) : Prop where
  frames : c.frames ≠ []
  labels : ∀ label ∉ blockLabels, c.top.builder.function.labelled label = []

namespace Labelled

theorem still (h : Labelled c) (hs : c'.frames ≠ [] ∧ SameFlow c.top.builder c'.top.builder) :
    Labelled c' :=
  ⟨hs.1, fun label hl => (hs.2.labelled label).trans (h.labels label hl)⟩

/-- A block that a statement makes gets one of the labels. -/
theorem createBlock (h : Labelled c) {label : String} {id : Nat} (hlabel : label ∈ blockLabels)
    (hg : Gives (createBlock label) c id c') : Labelled c' := by
  obtain ⟨f, rest, hf, -, rfl⟩ := gives_createBlock.mp hg
  obtain rfl := Context.top_eq hf
  refine ⟨Context.frames_withBuilder_ne h.frames _, fun other hother => ?_⟩
  have hne : label ≠ other := fun he => hother (he ▸ hlabel)
  rw [Context.top_withBuilder h.frames]
  exact (Ir.Function.labelled_extend label).trans (by rw [h.labels other hother, if_neg hne]; rfl)

theorem terminate (h : Labelled c) {t : Ir.Terminator} (hg : Gives (emit (·.terminate t)) c u c') :
    Labelled c' := by
  obtain ⟨f, rest, id, k, hf, -, -, -, rfl⟩ := gives_terminate.mp hg
  obtain rfl := Context.top_eq hf
  refine ⟨Context.frames_withBuilder_ne h.frames _, fun label hl => ?_⟩
  rw [Context.top_withBuilder h.frames]
  exact Ir.Function.labelled_finish.trans (h.labels label hl)

theorem switchTo (h : Labelled c) {id : Nat} (hg : Gives (switchTo id) c u c') : Labelled c' := by
  obtain ⟨f, rest, hf, -, rfl⟩ := gives_switchTo.mp hg
  obtain rfl := Context.top_eq hf
  refine ⟨Context.frames_withBuilder_ne h.frames _, fun label hl => ?_⟩
  rw [Context.top_withBuilder h.frames]
  exact h.labels label hl

/-- The three blocks of an `if` or a loop are made with labels that the statements give. -/
theorem opens (h : Labelled c) {l₁ l₂ l₃ : String} {first second third : Nat} {t : Ir.Terminator}
    (h₁ : l₁ ∈ blockLabels) (h₂ : l₂ ∈ blockLabels) (h₃ : l₃ ∈ blockLabels)
    (hg : OpensAs l₁ l₂ l₃ c first second third t c') : Labelled c' := by
  obtain ⟨c₁, c₂, c₃, c₄, hg₁, hg₂, hg₃, hg₄, hg₅⟩ := hg
  exact ((((h.createBlock h₁ hg₁).createBlock h₂ hg₂).createBlock h₃ hg₃).terminate hg₄).switchTo hg₅

theorem turns (h : Labelled c) {t : Ir.Terminator} {next : Nat} (hg : Turns c t next c') :
    Labelled c' := by
  obtain ⟨d, hend, hswitch⟩ := hg
  exact (h.terminate hend).switchTo hswitch

theorem falls (h : Labelled c) {target next : Nat} (hg : Falls c target next c') : Labelled c' := by
  obtain ⟨d, hfall, hswitch⟩ := hg
  obtain ⟨f, rest, -, ⟨-, rfl⟩ | ⟨-, hend⟩⟩ := gives_fallThrough.mp hfall
  · exact h.switchTo hswitch
  · exact (h.terminate hend).switchTo hswitch

theorem returned (h : Labelled c) {t : Option Typed} {x : Return} (hx : Returned t x c c') :
    Labelled c' := by
  obtain ⟨d, d₁, d₂, next, hd, hret, hcreate, hswitch⟩ := hx.steps
  exact (((h.still (still_straight h.frames hd)).terminate hret).createBlock (by decide)
    hcreate).switchTo hswitch

/-- A lowering makes no blocks with other labels. -/
theorem looped (h : Looped r ls c c') (hc : Labelled c) : Labelled c' := by
  induction h with
  | refl => exact hc
  | trans _ _ ih ih' => exact ih' (ih hc)
  | straight h => exact hc.still (still_straight hc.frames h)
  | text hg =>
    obtain ⟨_, rfl⟩ := lower_str.mp hg
    exact hc.still ⟨hc.frames, .refl _⟩
  | declare hg => exact hc.still (still_declareVar hc.frames hg)
  | @function decl c c' hg =>
    have hapart : Apart c c' := by
      have h := lowerFunction_apart r decl c
      rwa [hg] at h
    have htop : c'.top = c.top := by
      unfold Context.top
      rw [hapart.frames]
    exact hc.still ⟨hapart.frames ▸ hc.frames, htop ▸ .refl _⟩
  | bare _ hx => exact hc.returned hx
  | ret _ _ _ hx ih => exact (ih hc).returned hx
  | conditional opens _ falls _ joins ih ih' =>
    have h₁ := hc.opens (by decide) (by decide) (by decide) opens
    exact (ih' ((ih h₁).falls falls)).falls joins
  | repeated opens _ _ turns _ _ _ repeats ih ih' =>
    have h₁ := hc.opens (by decide) (by decide) (by decide) opens
    exact (ih' ((ih h₁).turns turns)).falls repeats

theorem close (h : Labelled c) {ending : Ending} (hg : Gives (close ending) c () c') :
    Labelled c' := by
  obtain rfl | ⟨d, value, hd, hret⟩ := close_steps hg
  · exact h
  · exact (h.still (still_straight h.frames hd)).terminate hret

end Labelled

/-- The labels of a finished function are the one of the entry and those that the statements give. -/
theorem LaidOut.label_mem (h : LaidOut r name body ls F) : ∀ k ∈ F.blocks, k.label ∈ blockLabels := by
  obtain ⟨enter, -, looped, -, close, rfl⟩ := h
  rename_i params returns ending c d d' d'' v
  have h₀ : Labelled (c.enter (.start name params returns)) := by
    refine ⟨List.cons_ne_nil _ _, fun label hl => ?_⟩
    have hne : "entry" ≠ label := fun he => hl (he ▸ by decide)
    change ((Ir.Function.empty _ _ _).blocksLabelled label).map (·.id) = []
    simp [Ir.Function.blocksLabelled, Ir.Function.empty, Ir.Block.empty, hne]
  have h₁ := h₀.still (still_storeParams h₀.frames (gives_enterFunction.mp enter))
  have h₂ := (Labelled.looped looped h₁).close close
  intro k hk
  by_contra hlabel
  have hm : k.id ∈ d''.top.builder.function.labelled k.label :=
    List.mem_map_of_mem (List.mem_filter.mpr ⟨(List.mem_filter.mp hk).1, by simp⟩)
  rw [h₂.labels _ hlabel] at hm
  cases hm

/-- The blocks of a lowered program have these labels. -/
theorem Produced.label_mem {program : Tree.Block} {m : Ir.Module} {main : Ir.Function}
    (h : Produced program m main) (hF : F ∈ m.functions) : ∀ k ∈ F.blocks, k.label ∈ blockLabels := by
  rcases h.made F hF with rfl | ⟨d, -, -, _, hcompiled⟩
  · obtain ⟨ls, hl⟩ := h.entry.2.2.laidOut
    exact hl.label_mem
  · obtain ⟨ls, hl⟩ := Compiled.laidOut hcompiled
    exact hl.label_mem

end TreeLang.Lowering
