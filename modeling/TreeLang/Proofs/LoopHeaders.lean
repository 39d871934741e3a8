import TreeLang.Proofs.Lowering.Headers
import TreeLang.Proofs.Lowering.Programs

namespace TreeLang.Lowering

open TreeLang.Tree (Ty Expr Stmt FunctionDecl loops nestedFunctions)
open Typing (Registry)
open Ir.Builder (Ordered Circuit)
open Lower

variable {r : Registry} {name : String} {body : List Stmt} {ls : List Loop} {F : Ir.Function}

/-- A body was lowered in a function of this name, which was then closed and pruned to `F`. Its loops
were laid out as `ls`. -/
inductive LaidOut (r : Registry) (name : String) (body : List Stmt) (ls : List Loop)
    (F : Ir.Function) : Prop
  | intro {params : List Tree.Param} {returns : Ty} {ending : Ending} {c d d' d'' : Context}
    {v : Option Typed} (enter : Gives (enterFunction name params returns) c () d)
    (lower : Gives (lowerStmts r none body) d v d') (looped : Looped r ls d d')
    (sources : ls.map (·.source) = loops body) (close : Gives (close ending) d' () d'')
    (build : F = d''.top.builder.prune.function)

/-- A compiled function was lowered, closed and pruned, with the loops that its lowering went through.
-/
theorem Compiled.laidOut {literals : Nat} {params : List Tree.Param} {returns : Ty}
    {ending : Option Typed → Ending} {strings : List String}
    (h : Compiled r literals name params returns body ending strings F) :
    ∃ ls, LaidOut r name body ls F := by
  obtain ⟨-, enter, -, lower, -, close, -, build, -, -⟩ := h
  obtain ⟨ls, hl, hsources⟩ := lowerStmts_looped r none body lower
  exact ⟨ls, enter, lower, hl, hsources, close, (Ir.Builder.build_eq_ok.mp build).2⟩

/-- The return at the end of a function leads nowhere. -/
theorem close_loops {c c' : Context} {order heads : List Nat} {backs : List (Nat × Nat)} {low : Nat}
    {ending : Ending} (hr : c.Ready) (ht : Toured c order backs heads [])
    (hc : ∀ p ∈ backs, Circuit c.top.builder low p.2 p.1) (h : Gives (close ending) c () c') :
    Toured c' order backs heads [] ∧ ∀ p ∈ backs, Circuit c'.top.builder low p.2 p.1 := by
  obtain rfl | ⟨d, value, hd, hret⟩ := close_steps h
  · exact ⟨ht, hc⟩
  obtain ⟨hspans, -⟩ := Spans.straight hr hd
  refine ⟨(ht.still (still_straight hr.frames hd)).terminate (by simp [Ir.Terminator.successors]) hret,
    fun p hp => ?_⟩
  obtain ⟨g, _, j, k, hg, hj, _, _, rfl⟩ := gives_terminate.mp hret
  obtain rfl := Context.top_eq hg
  rw [Context.top_withBuilder hspans.frames]
  exact ((hc p hp).grown hspans.region.toGrown).finish hj (by simp [Ir.Terminator.successors])

/-- What is known of the function before it is pruned. -/
theorem LaidOut.built (h : LaidOut r name body ls F) :
    ∃ (b : Ir.Builder) (order : List Nat) (low : Nat), F = b.prune.function ∧
      b.function.Numbered ∧ b.function.entry < low ∧
      Ordered b order (ls.map fun l => (l.back, l.head)) [] ∧
      b.function.labelled "loop.cond" = ls.map (·.head) ∧
      ∀ l ∈ ls, Circuit b low l.head l.back := by
  obtain ⟨enter, lower, looped, -, close, rfl⟩ := h
  rename_i params returns ending c d d' d'' v
  obtain ⟨s, hr⟩ := Spans.enterFunction enter
  have hne : (c.enter (.start name params returns)).frames ≠ [] := List.cons_ne_nil _ _
  have t₀ : Toured (c.enter (.start name params returns)) [0] [] [] [] :=
    ⟨hne, ⟨rfl, rfl, Nat.one_pos⟩, .start _ _ _, rfl⟩
  have t₁ := t₀.still (still_storeParams hne (gives_enterFunction.mp enter))
  obtain ⟨order, t₂⟩ := looped.toured hr t₁
  obtain ⟨_, -, hr'⟩ := looped.spans hr
  have hcircuits := looped.circuits hr
  obtain ⟨t₃, hclosed⟩ := close_loops hr' t₂ (fun p hp => by
    obtain ⟨l, hl, rfl⟩ := List.mem_map.mp (by simpa using hp)
    exact hcircuits l hl) close
  refine ⟨d''.top.builder, order, d.top.builder.function.nextBlock, rfl, t₃.numbered, ?_,
    by simpa using t₃.ordered, by simpa using t₃.heads, fun l hl => ?_⟩
  · rw [t₃.numbered.entry]
    exact hr.shaped.pos
  · exact hclosed (l.back, l.head) (List.mem_append_right _ (List.mem_map_of_mem hl))

/-- A block of the function that is kept, seen through the graph. -/
theorem mem_blocks_prune {b : Ir.Builder} (hn : b.function.Numbered) {k : Ir.Block} :
    k ∈ b.prune.function.blocks ↔
      b.function.block? k.id = some k ∧ b.prune.function.graph.Reached k.id := by
  have hreached : b.prune.function.graph.Reached k.id ↔ b.function.graph.Reached k.id :=
    ⟨b.alike_prune.symm.reached, b.alike_prune.reached⟩
  rw [hreached, ← Ir.Builder.block?_prune]
  refine ⟨Ir.Function.block?_of_mem ?_, Ir.Function.mem_of_block?⟩
  exact (List.filter_sublist.map _).nodup hn.nodup

/-- What the loops say about the headers of the function. -/
theorem LaidOut.headers (h : LaidOut r name body ls F) :
    F.graph.Reducible ∧
      (∀ id, id ∈ F.graph.loopHeaders ↔
        ∃ k ∈ F.blocks, id ∈ k.terminator.successors ∧ F.graph.Dominates id k.id) ∧
      (∀ id ∈ F.graph.loopHeaders, ∃ k ∈ F.blocks, k.id = id ∧ k.label = "loop.cond") ∧
      (∀ k ∈ F.blocks, k.label = "loop.cond" → ∃! l, l ∈ ls ∧ l.head = k.id) ∧
      ∀ l ∈ ls, (∀ k ∈ F.blocks, k.id = l.back → k.terminator = .jump l.head) ∧
        (l.head ∈ F.graph.loopHeaders ↔ F.graph.Reached l.back) := by
  obtain ⟨b, order, low, rfl, hn, hentry, ho, hheads, hc⟩ := h.built
  have hc' : ∀ p ∈ ls.map (fun l => (l.back, l.head)), Circuit b low p.2 p.1 := by
    intro p hp
    obtain ⟨l, hl, rfl⟩ := List.mem_map.mp hp
    exact hc l hl
  obtain ⟨hred, hh⟩ := Ir.Builder.loopHeaders_prune ho hc' hentry
  have hkept := @mem_blocks_prune b hn
  have hunique : ∀ l ∈ ls, ∀ l' ∈ ls, l.head = l'.head → l = l' := by
    have hnodup : (ls.map (·.head)).Nodup := by
      rw [← hheads]
      exact (List.filter_sublist.map _).nodup hn.nodup
    exact fun l hl l' hl' he => List.inj_on_of_nodup_map hnodup hl hl' he
  refine ⟨hred, fun id => hred.mem_loopHeaders.trans ⟨?_, ?_⟩, ?_, ?_, fun l hl => ⟨?_, ?_⟩⟩
  · rintro ⟨x, hx, hm, hd⟩
    obtain ⟨k, hk, hs⟩ := Ir.Function.mem_successors.mp hm
    exact ⟨k, Ir.Function.mem_of_block? hk, hs, Ir.Function.block?_id hk ▸ hd⟩
  · rintro ⟨k, hk, hs, hd⟩
    obtain ⟨hfind, hr⟩ := hkept.mp hk
    refine ⟨k.id, hr, Ir.Function.mem_successors.mpr ⟨k, ?_, hs⟩, hd⟩
    exact Ir.Builder.block?_prune.mpr ⟨hfind, b.alike_prune.symm.reached hr⟩
  · intro id hid
    obtain ⟨p, hp, rfl, hr⟩ := (hh id).mp hid
    obtain ⟨l, hl, rfl⟩ := List.mem_map.mp hp
    have hm : l.head ∈ b.function.labelled "loop.cond" := hheads ▸ List.mem_map_of_mem hl
    obtain ⟨k, hk, hkid⟩ := List.mem_map.mp hm
    obtain ⟨hk, hlabel⟩ := List.mem_filter.mp hk
    refine ⟨k, hkept.mpr ⟨Ir.Function.block?_of_mem hn.nodup hk, ?_⟩, hkid, by simpa using hlabel⟩
    rw [hkid]
    have he := (hc l hl).edge
    exact b.alike_prune.reached (.edge (b.alike_prune.symm.reached hr) he)
  · intro k hk hlabel
    have hm : k.id ∈ ls.map (·.head) := by
      rw [← hheads]
      refine List.mem_map_of_mem (List.mem_filter.mpr ⟨(List.mem_filter.mp hk).1, by simpa using hlabel⟩)
    obtain ⟨l, hl, hlk⟩ := List.mem_map.mp hm
    exact ⟨l, ⟨hl, hlk⟩, fun l' hl' => hunique l' hl'.1 l hl (hl'.2.trans hlk.symm)⟩
  · intro k hk hid
    obtain ⟨k', hk', hend⟩ := (hc l hl).ended
    cases hk'.symm.trans (hid ▸ (hkept.mp hk).1)
    exact hend
  · rw [hh]
    constructor
    · rintro ⟨p, hp, he, hr⟩
      obtain ⟨l', hl', rfl⟩ := List.mem_map.mp hp
      rw [← hunique l' hl' l hl he]
      exact hr
    · exact fun hr => ⟨_, List.mem_map_of_mem hl, rfl, hr⟩

/-- The body that a function of a lowered program was made from. -/
def BodyOf (program : Tree.Block) (name : String) (body : List Stmt) : Prop :=
  (name = entryName ∧ body = program) ∨
    ∃ d ∈ nestedFunctions program, name = d.name ∧ body = d.body

/-- In every function of a lowered program the headers are the blocks that dominate a block with an
edge to them. They begin the condition of a loop of the body; and the condition of a loop is a header
exactly if control comes to the end of its rounds, which jumps back to it. -/
theorem lower_loopHeaders {program : Tree.Block} {m : Ir.Module} (h : lower program name = .ok m) :
    ∀ F ∈ m.functions,
      (∀ id, id ∈ F.graph.loopHeaders ↔
        ∃ k ∈ F.blocks, id ∈ k.terminator.successors ∧ F.graph.Dominates id k.id) ∧
      (∀ id ∈ F.graph.loopHeaders, ∃ k ∈ F.blocks, k.id = id ∧ k.label = "loop.cond") ∧
      (∃ body ls, BodyOf program F.name body ∧ LaidOut (registry program) F.name body ls F ∧
        (∀ k ∈ F.blocks, k.label = "loop.cond" → ∃! l, l ∈ ls ∧ l.head = k.id) ∧
        ∀ l ∈ ls, (∀ k ∈ F.blocks, k.id = l.back → k.terminator = .jump l.head) ∧
          (l.head ∈ F.graph.loopHeaders ↔ F.graph.Reached l.back)) ∧
      F.graph.Reducible ∧
      ∀ g : Ir.Graph, g.entry = F.entry →
        (∀ x t, t ∈ g.successors x ↔ t ∈ F.graph.successors x) →
        ∀ id, id ∈ g.loopHeaders ↔ id ∈ F.graph.loopHeaders := by
  intro F hF
  obtain ⟨main, hp⟩ := lower_produces h
  have hlaid : ∃ body ls, BodyOf program F.name body ∧
      LaidOut (registry program) F.name body ls F := by
    rcases hp.made F hF with rfl | ⟨d, hd, hname, _, hcompiled⟩
    · obtain ⟨-, hname, hcompiled⟩ := hp.entry
      obtain ⟨ls, hl⟩ := hcompiled.laidOut
      exact ⟨_, ls, .inl ⟨hname, rfl⟩, hname ▸ hl⟩
    · obtain ⟨ls, hl⟩ := Compiled.laidOut hcompiled
      exact ⟨_, ls, .inr ⟨d, hd, hname, rfl⟩, hname ▸ hl⟩
  obtain ⟨body, ls, hbody, hl⟩ := hlaid
  obtain ⟨hred, hdominated, hlabelled, hcond, hloops⟩ := hl.headers
  refine ⟨hdominated, hlabelled, ⟨body, ls, hbody, hl, hcond, hloops⟩, hred, fun g he hs id => ?_⟩
  exact Ir.Graph.Alike.mem_loopHeaders ⟨he, fun x _ t => hs x t⟩ hred

/-- A loop in the body of a loop, which returns in its first round, so that it has no header. -/
theorem lower_loopHeaders_returning :
    let program : Tree.Block :=
      [.var "x" .int (some (.int 0)),
       .loop [] (.binary .lt (.ident "x") (.int 3))
        [.assign "x" (.binary .add (.ident "x") (.int 1))]
        [.loop [] (.ident "x") [] [.ret (some (.int 1))]]]
    ∃ m, lower program "returning" = .ok m ∧ ∃ F ∈ m.functions,
      F.labelled "loop.cond" = [1, 4] ∧ F.graph.loopHeaders = [1] ∧ F.graph.Reducible := by
  intro program
  have hheaders : ((lower program "returning").toOption.map fun m => m.functions.map fun F =>
      (F.labelled "loop.cond", F.graph.loopHeaders)) = some [([1, 4], [1])] := by decide +kernel
  cases hm : lower program "returning" with
  | error d =>
    rw [hm] at hheaders
    cases hheaders
  | ok m =>
    rw [hm] at hheaders
    obtain ⟨F, hF, hpair⟩ := List.mem_map.mp (Option.some.inj hheaders ▸ List.mem_singleton_self _)
    obtain ⟨hcond, hfound⟩ := Prod.mk.inj hpair
    exact ⟨m, rfl, F, hF, hcond, hfound, (lower_loopHeaders hm F hF).2.2.2.1⟩

end TreeLang.Lowering
