import TreeLang.Proofs.Lowering.Trees

namespace TreeLang.Lowering

open TreeLang.Tree (Ty Expr Stmt FunctionDecl nestedFunctions)
open Typing (Registry Callee)
open Ir (Knowledge)
open Lower

/-- There are no duplicates iff the names differ from each other, from those seen and from the name of
the entry. -/
theorem duplicates_eq_nil {seen : List String} {ds : List FunctionDecl} :
    Registry.duplicates seen ds = [] ↔
      (∀ d ∈ ds, d.name ≠ entryName ∧ d.name ∉ seen) ∧ (ds.map (·.name)).Nodup := by
  induction ds generalizing seen with
  | nil => simp [Registry.duplicates]
  | cons d ds ih =>
    unfold Registry.duplicates
    split
    · rename_i h
      simp only [reduceCtorEq, false_iff, not_and]
      intro hall
      have := hall d List.mem_cons_self
      exact absurd h (not_or.mpr this)
    · rename_i h
      rw [ih, List.map_cons, List.nodup_cons]
      obtain ⟨hne, hns⟩ := not_or.mp h
      constructor
      · rintro ⟨hall, hnd⟩
        refine ⟨fun d' hd' => ?_, fun hm => ?_, hnd⟩
        · rcases List.mem_cons.mp hd' with rfl | hd'
          · exact ⟨hne, hns⟩
          · exact ⟨(hall d' hd').1, fun hm => (hall d' hd').2 (List.mem_cons_of_mem _ hm)⟩
        · obtain ⟨d', hd', he⟩ := List.mem_map.mp hm
          exact (hall d' hd').2 (he ▸ List.mem_cons_self)
      · rintro ⟨hall, hnot, hnd⟩
        refine ⟨fun d' hd' => ⟨(hall d' (List.mem_cons_of_mem _ hd')).1, fun hm => ?_⟩, hnd⟩
        rcases List.mem_cons.mp hm with he | hm
        · exact hnot (he ▸ List.mem_map_of_mem hd')
        · exact (hall d' (List.mem_cons_of_mem _ hd')).2 hm

/-- With distinct names, a declaration is the one found under its name. -/
theorem registered_of_nodup {ds : List FunctionDecl} (h : (ds.map (·.name)).Nodup) :
    Registered ⟨ds⟩ ds := by
  intro d hd
  unfold Registry.get?
  simp only
  induction ds with
  | nil => cases hd
  | cons x xs ih =>
    obtain ⟨hx, hxs⟩ := List.nodup_cons.mp h
    rcases List.mem_cons.mp hd with rfl | hm
    · simp
    · have hne : x.name ≠ d.name := fun he => hx (List.mem_map.mpr ⟨d, hm, he.symm⟩)
      simpa [List.find?_cons, hne] using ih hxs hm

def registry (program : Tree.Block) : Registry := ⟨nestedFunctions program⟩

/-- A program is lowered iff no function is declared twice and the lowering of its entry succeeds. -/
theorem lower_eq_ok {program : Tree.Block} {name : String} {m : Ir.Module} :
    lower program name = .ok m ↔ Registry.duplicates [] (nestedFunctions program) = [] ∧
      ∃ c, Gives (lowerEntry (registry program) program) (.start name) () c ∧ m = c.module := by
  unfold lower
  simp only
  split
  · rename_i d ds h
    rw [h]
    simp
  · rename_i h
    simp only [h, true_and]
    change (match outcome (lowerEntry (registry program) program) (.start name) with
      | (Except.ok (), c) => Except.ok c.module
      | (Except.error d, _) => Except.error d) = .ok m ↔ _
    unfold Gives
    rcases outcome (lowerEntry (registry program) program) (.start name) with ⟨e | u, c⟩
    · simp
    · simp only [Except.ok.injEq, Prod.mk.injEq, true_and]
      exact ⟨fun h => ⟨c, rfl, h.symm⟩, by rintro ⟨_, rfl, rfl⟩; rfl⟩

/-- A program without two functions of a name fails where its entry function does. -/
theorem lower_eq_error {program : Tree.Block} {name : String} {d : Diagnostic}
    (hdup : Registry.duplicates [] (nestedFunctions program) = [])
    (h : lower program name = .error d) :
    ∃ c, Fails (lowerEntry (registry program) program) (.start name) d c := by
  unfold lower at h
  simp only [hdup] at h
  change (match outcome (lowerEntry (registry program) program) (.start name) with
    | (Except.ok (), c) => Except.ok c.module
    | (Except.error d, _) => Except.error d) = .error d at h
  rcases gives_or_fails (lowerEntry (registry program) program) (.start name)
    with ⟨u, c, hg⟩ | ⟨e, c, hf⟩
  · rw [hg] at h
    cases h
  · rw [hf] at h
    cases h
    exact ⟨c, hf⟩

theorem lowerEntry_eq (r : Registry) (program : Tree.Block) : lowerEntry r program =
    define entryName "<top level>" [] .int do
      return (fun _ => Ending.zero) (← lowerStmts r none program) := rfl

/-- The entry function is lowered like a declared one, from the statements of the program. -/
theorem gives_lowerEntry {r : Registry} {program : Tree.Block} {c c' : Context} {u : Unit} :
    Gives (lowerEntry r program) c u c' ↔ ∃ v d d' d'' f rest m,
      Gives (enterFunction entryName [] .int) c () d ∧ Gives (lowerStmts r none program) d v d' ∧
      Gives (close .zero) d' () d'' ∧ d''.frames = f :: rest ∧
      (f.builder.prune.build >>= d''.module.define) = .ok m ∧
      c' = { d'' with module := m, scopes := d''.scopes.leave, frames := rest } := by
  simp only [lowerEntry, lowerBlock, gives_define_function, gives_bind, gives_pure]
  constructor
  · rintro ⟨_, d, d', d'', f, rest, m, he, ⟨v, _, hv, rfl, rfl⟩, hcl, hf, hm, rfl⟩
    exact ⟨v, d, _, d'', f, rest, m, he, hv, hcl, hf, hm, rfl⟩
  · rintro ⟨v, d, d', d'', f, rest, m, he, hv, hcl, hf, hm, rfl⟩
    exact ⟨_, d, d', d'', f, rest, m, he, ⟨v, _, hv, rfl, rfl⟩, hcl, hf, hm, rfl⟩

theorem functions_start (name : String) : (Context.start name).module.functions = [] := by
  simp [Context.start, Ir.Module.withPrototypes, Ir.prototypes, Ir.Module.declare, Ir.Module.empty]

theorem strings_start (name : String) : (Context.start name).module.strings = [] := by
  simp [Context.start, Ir.Module.withPrototypes, Ir.prototypes, Ir.Module.declare, Ir.Module.empty]

theorem orderly_start (r : Registry) (name : String) : Orderly r (Context.start name).module where
  names := by
    rw [functions_start]
    exact List.nodup_nil
  externals other _ := by
    change (Ir.Module.withPrototypes name).externals.find? (·.name == other) = _
    rw [Ir.Module.externals_withPrototypes]
    rfl
  prototypes := by
    change (Ir.Module.withPrototypes name).externals ⊆ _
    rw [Ir.Module.externals_withPrototypes]
    exact List.Subset.refl _

structure Produced (program : Tree.Block) (m : Ir.Module) (main : Ir.Function) : Prop where
  names : (m.functions.map (·.name)).Nodup
  externals : ∀ name, (registry program).get? name = none → m.external? name = Ir.prototype? name
  prototypes : m.externals ⊆ Ir.prototypes
  registered : Registered (registry program) (nestedFunctions program)
  unreserved : ∀ d ∈ nestedFunctions program, d.name ≠ entryName
  entry : main ∈ m.functions ∧ main.name = entryName ∧
    Compiled (registry program) 0 entryName [] .int program (fun _ => .zero) m.strings main
  made : ∀ F ∈ m.functions, F = main ∨ ∃ d ∈ nestedFunctions program, F.name = d.name ∧
    FunctionDecl.Compiled (registry program) d m.strings F
  found : ∀ d ∈ nestedFunctions program, ∃ F ∈ m.functions, F.name = d.name ∧
    FunctionDecl.Compiled (registry program) d m.strings F

/-- A lowered program has a function for each declaration, and one for its entry. -/
theorem lower_produces {program : Tree.Block} {name : String} {m : Ir.Module}
    (h : lower program name = .ok m) : ∃ main, Produced program m main := by
  obtain ⟨hdup, c', hentry, rfl⟩ := lower_eq_ok.mp h
  obtain ⟨hnames, hnodup⟩ := duplicates_eq_nil.mp hdup
  have hreg : Registered (registry program) (nestedFunctions program) := registered_of_nodup hnodup
  obtain ⟨v, d, d', d'', f, rest, m, henter, hlower, hclose, hf, hm, rfl⟩ :=
    gives_lowerEntry.mp hentry
  have ho := orderly_start (registry program) name
  have s₀ := sound_enter ho entryName [] .int
  have l₁ := sound_enterFunction ho henter
  have s₁ := l₁.sound s₀
  obtain ⟨g', l₂, _⟩ := lowerStmts_sound (registry program) none program hreg s₁ (by simp) hlower
  have w₃ := sound_close s₀ (l₁.trans l₂).toWorking l₂.isOpen .zero trivial hclose
  obtain rfl := Context.top_eq hf
  obtain ⟨F, hF, hnew, hname, rfl⟩ := define_eq_ok hm
  have hname : F.name = entryName := hname.trans w₃.laid.name
  have hord := w₃.orderly.define hnew fun _ => by rw [hname]; rfl
  refine ⟨F, hord.names, hord.externals, hord.prototypes, hreg, fun d hd => (hnames d hd).1,
    ⟨?_, hname, ?_⟩, ?_, ?_⟩
  · exact List.mem_append_right _ (List.mem_singleton.mpr rfl)
  · have hcount := congrArg List.length (strings_start name)
    exact .intro hcount henter s₁ hlower (l₂.sound s₁) hclose w₃.laid hF List.prefix_rfl hreg
  · intro F' hF'
    rcases List.mem_append.mp hF' with hF' | hF'
    · rcases w₃.made F' hF' with hold | hF'
      · have hold : F' ∈ (Context.start name).module.functions := hold
        rw [functions_start] at hold
        cases hold
      · exact .inr hF'
    · exact .inl (List.mem_singleton.mp hF')
  · intro d hd
    obtain ⟨F', hF', h⟩ := w₃.found d hd
    exact ⟨F', List.mem_append_left _ hF', h⟩

end TreeLang.Lowering
