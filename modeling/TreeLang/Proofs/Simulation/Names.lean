import TreeLang.Proofs.Lowering.Rules
import TreeLang.Proofs.Meaning.Names

namespace TreeLang.Simulation

open TreeLang.Tree (Ty Expr Stmt FunctionDecl nestedOfExprs nestedFunctions)
open Typing (Registry Callee)
open Ir (Knowledge)
open Lowering
open Lower
open Meaning (Names Cell)

variable {r : Registry} {g : Knowledge} {c c' : Context} {names : Names}

def storage (cell : Cell) : Storage := ⟨cell.index, cell.ty⟩

/-- The slots of the function at hand are the cells declared so far, its names denote them, and the
strings of the module are the literals counted so far. -/
structure Matches (names : Names) (c : Context) : Prop where
  cells : names.cells.map Ty.toIr = c.top.builder.function.slots.map (·.ty)
  bound : ∀ name, (names.cell? name).map storage = c.top.storage? name
  literals : names.literals = c.module.strings.length

namespace Matches

theorem unmoved (names : Names) : Unmoved (Matches names) := by
  intro c c' hr h
  refine ⟨?_, ?_, ?_⟩
  · rw [hr.slots, h.cells]
  · rw [hr.storage?]
    exact h.bound
  · rw [hr.module]
    exact h.literals

/-- A function begins with no cells and no slots. -/
theorem enter (c : Context) (name : String) (params : List Tree.Param) (returns : Ty) :
    Matches (.start c.module.strings.length) (c.enter (.start name params returns)) :=
  ⟨rfl, fun _ => rfl, rfl⟩

/-- A string is added to the module where the walk meets a literal. -/
theorem addString (h : Matches names c) (text : String) :
    Matches { names with literals := names.literals + 1 }
      { c with module := { c.module with strings := c.module.strings ++ [text] } } :=
  ⟨h.cells, h.bound, by simp [h.literals]⟩

theorem length (h : Matches names c) :
    names.cells.length = c.top.builder.function.slots.length := by
  have hlen := congrArg List.length h.cells
  simpa using hlen

theorem declareVar (h : Matches names c) {name : String} {ty : Ty} {s : Storage}
    (hg : Gives (declareVar name ty) c s c') :
    Matches (names.declare name ty) c' ∧ s = ⟨names.cells.length, ty⟩ := by
  obtain ⟨slot, d, f, rest, ha, hd, rfl, rfl⟩ := gives_declareVar.mp hg
  obtain ⟨f', rest', hf', _, rfl, rfl⟩ := gives_alloca.mp ha
  have hc : c.frames ≠ [] := by simp [hf']
  obtain rfl := Context.top_eq hf'
  obtain rfl := Context.top_eq hd
  rw [Context.top_withBuilder hc]
  refine ⟨⟨?_, ?_, h.literals⟩, ?_⟩
  · change (names.cells ++ [ty]).map Ty.toIr =
      (c.top.builder.function.slots ++ [(⟨name, ty.toIr⟩ : Ir.Slot)]).map (·.ty)
    rw [List.map_append, List.map_append, h.cells]
    rfl
  · intro other
    have hold := h.bound other
    change (((name, (⟨names.cells.length, ty⟩ : Cell)) :: names.bound).lookup other).map storage =
      (((name, (⟨c.top.builder.function.slots.length, ty⟩ : Storage)) :: c.top.locals).lookup
        other).or (c.top.params.lookup other)
    rw [List.lookup_cons, List.lookup_cons, h.length]
    by_cases ho : other = name
    · simp [ho, storage]
    · rw [beq_eq_false_iff_ne.mpr ho]
      exact hold
  · rw [h.length]

/-- A parameter hides what had its name, if no variable has it. -/
theorem bindParam (h : Matches names c) (hc : c.frames ≠ []) (hlocals : c.top.locals = [])
    {p : Tree.Param} {index slot : Nat} {d d' : Context}
    (ha : Gives (build (·.alloca p.name p.ty.toIr)) c slot d)
    (hst : Gives (emit (·.append (.store slot (.param index) p.ty.toIr))) d () d') :
    Matches (names.declare p.name p.ty) (d'.bindParam p slot) ∧ slot = names.cells.length ∧
      (d'.bindParam p slot).top.locals = [] := by
  obtain ⟨f, rest, hf, _, rfl, rfl⟩ := gives_alloca.mp ha
  obtain rfl := Context.top_eq hf
  -- the slot is the last one, and the store makes none
  obtain ⟨b, hb, rfl⟩ : ∃ b, b.function.slots =
      c.top.builder.function.slots ++ [(⟨p.name, p.ty.toIr⟩ : Ir.Slot)] ∧ d' = c.withBuilder b := by
    rcases tame_append _ _ _ _ hst with rfl | ⟨b, hb, rfl⟩
    · exact ⟨_, rfl, rfl⟩
    · rw [Context.top_withBuilder hc] at hb
      exact ⟨b, hb, withBuilder_withBuilder c _ b⟩
  have htop : ((c.withBuilder b).bindParam p c.top.builder.function.slots.length).top =
      { c.top with
        builder := b
        params := (p.name, ⟨c.top.builder.function.slots.length, p.ty⟩) :: c.top.params } := by
    change ({ (c.withBuilder b).top with params := _ :: (c.withBuilder b).top.params } : Frame) = _
    rw [Context.top_withBuilder hc]
  refine ⟨⟨?_, ?_, h.literals⟩, h.length.symm, ?_⟩
  · rw [htop, hb, List.map_append, ← h.cells]
    simp [Names.declare]
  · intro other
    have hold := h.bound other
    unfold Frame.storage? at hold ⊢
    rw [hlocals, List.lookup_nil, Option.none_or] at hold
    rw [htop]
    change (((p.name, (⟨names.cells.length, p.ty⟩ : Cell)) :: names.bound).lookup other).map storage =
      (c.top.locals.lookup other).or (((p.name,
        (⟨c.top.builder.function.slots.length, p.ty⟩ : Storage)) :: c.top.params).lookup other)
    rw [hlocals, List.lookup_nil, Option.none_or, List.lookup_cons, List.lookup_cons, h.length]
    by_cases ho : other = p.name
    · simp [ho, storage]
    · rw [beq_eq_false_iff_ne.mpr ho]
      exact hold
  · rw [htop]
    exact hlocals

theorem cell? (h : Matches names c) {name : String} {s : Storage}
    (hs : c.top.storage? name = some s) : names.cell? name = some ⟨s.slot, s.ty⟩ := by
  obtain ⟨cell, hcell, rfl⟩ := Option.map_eq_some_iff.mp ((h.bound name).trans hs)
  exact hcell

end Matches

/-- The parameters are bound in the order in which the walk declares them. -/
theorem storeParams_names {ps : List Tree.Param} {index : Nat} (hc : c.frames ≠ [])
    (hlocals : c.top.locals = []) (hm : Matches names c)
    (h : Gives (storeParams index ps) c () c') : Matches (names.declareParams ps) c' := by
  induction ps generalizing index c names with
  | nil =>
    obtain ⟨_, rfl⟩ := gives_pure.mp h
    exact hm
  | cons p ps ih =>
    obtain ⟨_, slot, d, d', ha, hst, h⟩ := storeParams_cons h
    obtain ⟨hm', _, hlocals'⟩ := hm.bindParam hc hlocals ha hst
    exact ih (List.cons_ne_nil _ _) hlocals' hm' h

end TreeLang.Simulation
