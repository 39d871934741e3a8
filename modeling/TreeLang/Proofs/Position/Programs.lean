import TreeLang.Proofs.Gate
import TreeLang.Proofs.Position.Trees
import TreeLang.Proofs.Position.Types

namespace TreeLang.Ir

/-- The second module has the functions of the first one, under the same names and with other numbers
for their strings, which have the same texts. -/
structure Module.Renumbered (ρ : Nat → Nat) (m m' : Module) : Prop where
  permutes : ((List.range m.strings.length).map ρ).Perm (List.range m'.strings.length)
  text : ∀ i < m.strings.length, m'.strings[ρ i]? = m.strings[i]?
  functions : m'.functions.Perm (m.functions.map (·.renumber ρ))
  function? : ∀ name, m'.function? name = (m.function? name).map (·.renumber ρ)

end TreeLang.Ir

namespace TreeLang.Lowering

open TreeLang.Tree (Ty Expr Stmt FunctionDecl Moved Closed nestedFunctions literals finished)
open Typing (Registry Checker typeOfStmts)
open Lower

variable {program program' : Tree.Block} {name : String} {m m' : Ir.Module}

/-- With distinct names, it does not matter in which order one is looked for. -/
theorem find?_perm {α : Type} {key : α → String} {xs ys : List α} (hperm : xs.Perm ys)
    (hnodup : (ys.map key).Nodup) (k : String) :
    xs.find? (key · == k) = ys.find? (key · == k) := by
  induction hperm with
  | nil => rfl
  | cons x _ ih =>
    rw [List.find?_cons, List.find?_cons, ih (List.nodup_cons.mp hnodup).2]
  | swap x y l =>
    have hne : key x ≠ key y := fun he =>
      (List.nodup_cons.mp hnodup).1 (he ▸ List.mem_cons_self)
    by_cases hx : key x = k
    · have hy : (key y == k) = false := beq_eq_false_iff_ne.mpr fun hy => hne (hx.trans hy.symm)
      simp [hx, hy]
    · have hx : (key x == k) = false := beq_eq_false_iff_ne.mpr hx
      simp [List.find?_cons, hx]
  | trans _ hperm ih ih' =>
    exact (ih ((hperm.map key).nodup_iff.mpr hnodup)).trans (ih' hnodup)

theorem names_moved (hmoved : Moved program program') :
    ((nestedFunctions program').map (·.name)).Perm ((nestedFunctions program).map (·.name)) := by
  have hnames := (Tree.nested_moved program hmoved).map (·.name)
  rwa [List.map_map, List.map_map] at hnames

theorem duplicates_moved (hmoved : Moved program program')
    (h : Registry.duplicates [] (nestedFunctions program) = []) :
    Registry.duplicates [] (nestedFunctions program') = [] := by
  obtain ⟨hnames, hnodup⟩ := duplicates_eq_nil.mp h
  have hperm := names_moved hmoved
  refine duplicates_eq_nil.mpr
    ⟨fun d hd => ⟨fun he => ?_, List.not_mem_nil⟩, hperm.nodup_iff.mpr hnodup⟩
  have hmem : d.name ∈ (nestedFunctions program').map (·.name) := List.mem_map_of_mem hd
  obtain ⟨d', hd', he'⟩ := List.mem_map.mp (hperm.mem_iff.mp hmem)
  exact (hnames d' hd').1 (he'.trans he)

theorem alike_moved (hmoved : Moved program program')
    (hnodup : ((nestedFunctions program).map (·.name)).Nodup) :
    Alike (registry program) (registry program') := by
  intro other
  have hbare : ∀ ds : List FunctionDecl, ((⟨ds⟩ : Registry).get? other).map (·.bare) =
      (ds.map (·.bare)).find? (·.name == other) := by
    intro ds
    rw [List.find?_map]
    rfl
  unfold registry
  rw [hbare, hbare]
  refine find?_perm (Tree.nested_moved program hmoved) ?_ other
  rwa [List.map_map]

/-- A program that is lowered uses no name before its own statements declare it. -/
theorem closed_lowered (h : lower program name = .ok m) : Closed [] program := by
  obtain ⟨_, c', hentry, rfl⟩ := lower_eq_ok.mp h
  obtain ⟨v, d, d', d'', f, rest, m, henter, hlower, _⟩ := gives_lowerEntry.mp hentry
  exact (lowerStmts_closed _ none program d v d' hlower (owns_enterFunction henter)).holds.2

/-- A program that is accepted and lowered is accepted with its declarations moved. That it is lowered
is needed: a function could otherwise use variables around it that are declared at other places then. -/
theorem check_moved {r : Registry} (hcheck : Typing.check program = .ok r)
    (h : lower program name = .ok m) (hmoved : Moved program program') :
    Typing.check program' = .ok (registry program') := by
  obtain ⟨rfl, hdup, ty, k, hk, hclean⟩ := check_eq_ok hcheck
  obtain ⟨htyped, _⟩ :=
    Typing.typeOfStmts_sound (registry program) program Typing.mirrors_entry hk hclean
  have halike := alike_moved hmoved (duplicates_eq_nil.mp hdup).2
  have htyped' : Typing.BlockType (registry program') .entry program' ty :=
    Typing.blockType_moved halike program hmoved (closed_lowered h) htyped
  refine Typing.check_eq_ok.mpr ⟨?_, ty, ?_⟩
  · unfold Registry.collect
    simp only [duplicates_moved hmoved hdup]
    rfl
  · exact Typing.typeOfStmts_complete (registry program') program' Typing.mirrors_entry rfl htyped'

/-- Before a program is lowered its module holds nothing but the prototypes. -/
theorem beside_start (name : String)
    (h : Registry.duplicates [] (nestedFunctions program') = []) (r : Registry) :
    Beside r (registry program') 0 0 (finished program') (.start name) (.start name) := by
  obtain ⟨_, hnodup⟩ := duplicates_eq_nil.mp h
  have hfinished := Tree.finished_perm program'
  have hstrings : (Context.start name).module.strings.length = 0 := by
    rw [strings_start, List.length_nil]
  refine ⟨hstrings, hstrings, (orderly_start r name).externals,
    (orderly_start (registry program') name).externals,
    ⟨(hfinished.map (·.name)).nodup_iff.mpr hnodup, ?_⟩, fun d hd => ?_⟩
  · intro d _ F hF
    rw [functions_start] at hF
    cases hF
  · exact registered_of_nodup hnodup d (hfinished.mem_iff.mp hd)

/-- What has been lowered side by side is the same but for the numbers of strings. -/
theorem renumbered_of_filled {ρ : Nat → Nat} {σ : Share} {sites : List Tree.Site} {c' k' : Context}
    (hsites : Tree.Sited 0 0 σ.texts σ.texts' sites) (hρ : ∀ s ∈ sites, ρ s.before = s.after)
    (hf : Filled ρ σ (.start name) c' (.start name) k')
    (hnodup : (c'.module.functions.map (·.name)).Nodup) : c'.module.Renumbered ρ k'.module := by
  obtain ⟨Fs, Fs', hc, hk, hperm, _⟩ := hf
  have hstrings := hc.strings
  have hstrings' := hk.strings
  rw [strings_start, List.nil_append] at hstrings hstrings'
  have hfunctions : k'.module.functions.Perm (c'.module.functions.map (·.renumber ρ)) := by
    rw [hc.functions, hk.functions, functions_start, List.nil_append, List.nil_append]
    exact hperm
  refine ⟨?_, ?_, hfunctions, fun other => ?_⟩
  · rw [hstrings, hstrings']
    exact hsites.perm hρ
  · rw [hstrings, hstrings']
    exact fun i hi => hsites.text hρ hi
  · have hnames : ((c'.module.functions.map (·.renumber ρ)).map (·.name)).Nodup := by
      rwa [List.map_map]
    unfold Ir.Module.function?
    rw [find?_perm hfunctions hnames, List.find?_map]
    rfl

/-- A program that is lowered is lowered with its declarations moved, to a module that differs in the
order of the functions and in the numbers of the strings. -/
theorem lower_renumbered (h : lower program name = .ok m)
    (hmoved : Moved program program') :
    ∃ m', lower program' name = .ok m' ∧ ∃ ρ, m.Renumbered ρ m' := by
  obtain ⟨main, hm⟩ := lower_produces h
  obtain ⟨hdup, c', hentry, rfl⟩ := lower_eq_ok.mp h
  have hdup' := duplicates_moved hmoved hdup
  have halike := alike_moved hmoved (duplicates_eq_nil.mp hdup).2
  have hbeside := beside_start name hdup' (registry program)
  obtain ⟨sites, hsites, hmirrors⟩ := mirrorsStmts halike program hmoved 0 0
  have hρ : ∀ s ∈ sites, Tree.renumbering sites s.before = s.after :=
    fun s hs => Tree.renumbering_before hsites.nodup_before hs
  have hother : ∀ d ∈ finished program', d.name ≠ entryName := fun d hd =>
    ((duplicates_eq_nil.mp hdup').1 d ((Tree.finished_perm program').mem_iff.mp hd)).1
  have habsent : ∀ F ∈ (Context.start name).module.functions, F.name ≠ entryName := by
    rw [functions_start]
    exact fun F hF => nomatch hF
  obtain ⟨k', hk', _, _, hfilled⟩ := defined_mirrors (fun _ => .zero) (fun _ => rfl)
    (hmirrors _ hρ none) hbeside habsent hother (gives_lowerEntry.mp hentry)
  refine ⟨k'.module, lower_eq_ok.mpr ⟨hdup', k', gives_lowerEntry.mpr hk', rfl⟩, _,
    renumbered_of_filled ?_ hρ hfilled hm.names⟩
  simpa [Share.and, Share.stmts] using hsites

/-- Declarations may move. A program that is accepted and lowered is so with declarations at other
places, and every function of its module has the same signature, slots, blocks, instructions and
terminators, but for the numbers of strings. -/
theorem lower_moved {r : Registry} (hcheck : Typing.check program = .ok r)
    (h : lower program name = .ok m) (hmoved : Moved program program') :
    (∃ r', Typing.check program' = .ok r') ∧
      ∃ m', lower program' name = .ok m' ∧ ∃ ρ, m.Renumbered ρ m' :=
  ⟨⟨_, check_moved hcheck h hmoved⟩, lower_renumbered h hmoved⟩

/-- A declaration moves inside a branch of another function, in front of a statement with a string. -/
theorem lower_moved_nested :
    let branch : List Stmt := [.expr (.call "print" [.str "outer"]),
      .function ⟨"inner", [], .void, [.expr (.call "print" [.str "inner"])]⟩,
      .expr (.call "inner" [])]
    let branch' : List Stmt := [
      .function ⟨"inner", [], .void, [.expr (.call "print" [.str "inner"])]⟩,
      .expr (.call "print" [.str "outer"]), .expr (.call "inner" [])]
    let around := fun branch : List Stmt => [.function ⟨"outer", [⟨"n", .int⟩], .int,
      [.ite (.ident "n") branch none, .ret (some (.ident "n"))]⟩, .expr (.call "outer" [.int 1])]
    Moved (around branch) (around branch') ∧ (Typing.check (around branch)).isOk = true ∧
      ∃ m m' ρ, lower (around branch) "nested" = .ok m ∧ lower (around branch') "nested" = .ok m' ∧
        m.Renumbered ρ m' ∧ m.strings = ["outer", "inner"] ∧ m'.strings = ["inner", "outer"] := by
  intro branch branch' around
  have hmoved : Moved (around branch) (around branch') :=
    .cons (.function (.intro _ _ _ (.cons
      (.ite (Tree.movedExpr_refl _) (Tree.moved_swap [] _ _ (by simp))) (Tree.moved_refl _))))
      (Tree.moved_refl _)
  have hok : (Typing.check (around branch)).isOk = true := by decide +kernel
  have hstrings : (lower (around branch) "nested").toOption.map (·.strings) =
      some ["outer", "inner"] := by decide +kernel
  have hstrings' : (lower (around branch') "nested").toOption.map (·.strings) =
      some ["inner", "outer"] := by decide +kernel
  refine ⟨hmoved, hok, ?_⟩
  cases hr : Typing.check (around branch) with
  | error ds =>
    rw [hr] at hok
    cases hok
  | ok r =>
    cases hm : lower (around branch) "nested" with
    | error d =>
      rw [hm] at hstrings
      cases hstrings
    | ok m =>
      obtain ⟨_, m', hm', ρ, hρ⟩ := lower_moved hr hm hmoved
      rw [hm] at hstrings
      rw [hm'] at hstrings'
      exact ⟨m, m', ρ, rfl, hm', hρ, Option.some.inj hstrings, Option.some.inj hstrings'⟩

end TreeLang.Lowering
