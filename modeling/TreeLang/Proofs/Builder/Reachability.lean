import TreeLang.Proofs.Builder.Blocks

namespace TreeLang.Ir

namespace Graph

variable {g : Graph} {x y : Nat}

/-- Some path of edges leads to the block from the entry. -/
inductive Reached (g : Graph) : Nat → Prop
  | entry : Reached g g.entry
  | edge {x y : Nat} (h : Reached g x) (hy : y ∈ g.successors x) : Reached g y

/-- The search goes along edges only. -/
theorem search_sound {fuel : Nat} {queue seen : List Nat} (hq : ∀ x ∈ queue, g.Reached x)
    (hs : ∀ x ∈ seen, g.Reached x) : ∀ x ∈ g.search fuel queue seen, g.Reached x := by
  induction fuel generalizing queue seen with
  | zero => exact hs
  | succ fuel ih =>
    cases queue with
    | nil => exact hs
    | cons b queue =>
      have hb := hq b List.mem_cons_self
      have hrest : ∀ x ∈ queue, g.Reached x := fun x hx => hq x (List.mem_cons_of_mem _ hx)
      unfold search
      split
      · exact ih hrest hs
      · refine ih (fun x hx => ?_) fun x hx => ?_
        · rcases List.mem_append.mp hx with hx | hx
          · exact hrest x hx
          · exact .edge hb hx
        · rcases List.mem_append.mp hx with hx | hx
          · exact hs x hx
          · exact List.mem_singleton.mp hx ▸ hb

def unseen (g : Graph) (seen : List Nat) : Nat :=
  (g.edges.flatMap fun e => if e.1 ∈ seen then [] else e.2).length

/-- A block that is seen for the first time takes its edges away. -/
theorem unseen_visit {seen : List Nat} {b : Nat} (hb : b ∉ seen) :
    g.unseen (seen ++ [b]) ≤ g.unseen seen ∧
      g.unseen (seen ++ [b]) + (g.successors b).length ≤ g.unseen seen := by
  unfold unseen successors
  induction g.edges with
  | nil => simp
  | cons e es ih =>
    obtain ⟨a, targets⟩ := e
    simp only [List.flatMap_cons, List.length_append, List.mem_append, List.mem_singleton,
      List.lookup_cons] at ih ⊢
    by_cases hab : a = b
    · subst hab
      simp only [hb, or_true, if_true, if_false, beq_self_eq_true, Option.getD_some,
        List.length_nil]
      omega
    · have hba : (b == a) = false := by simpa using fun h => hab h.symm
      simp only [hab, hba, or_false]
      omega

/-- With fuel for every edge ahead, the search finds the queue and is closed under edges. -/
theorem search_closed {fuel : Nat} {queue seen : List Nat}
    (hfuel : queue.length + g.unseen seen < fuel)
    (hseen : ∀ x ∈ seen, ∀ y ∈ g.successors x, y ∈ seen ∨ y ∈ queue) :
    (∀ x ∈ seen ++ queue, x ∈ g.search fuel queue seen) ∧
      ∀ x ∈ g.search fuel queue seen, ∀ y ∈ g.successors x, y ∈ g.search fuel queue seen := by
  induction fuel generalizing queue seen with
  | zero => omega
  | succ fuel ih =>
    cases queue with
    | nil =>
      simp only [search, List.append_nil]
      exact ⟨fun x hx => hx, fun x hx y hy => (hseen x hx y hy).elim id fun h => nomatch h⟩
    | cons b queue =>
      rw [List.length_cons] at hfuel
      unfold search
      split
      · rename_i hb
        have hclosed : ∀ x ∈ seen, ∀ y ∈ g.successors x, y ∈ seen ∨ y ∈ queue := by
          intro x hx y hy
          rcases hseen x hx y hy with h | h
          · exact .inl h
          · rcases List.mem_cons.mp h with rfl | h
            · exact .inl hb
            · exact .inr h
        obtain ⟨hall, hnext⟩ := ih (by omega) hclosed
        refine ⟨fun x hx => hall x ?_, hnext⟩
        simp only [List.mem_append, List.mem_cons] at hx ⊢
        rcases hx with hx | rfl | hx
        · exact .inl hx
        · exact .inl hb
        · exact .inr hx
      · rename_i hb
        have hvisit := (unseen_visit (g := g) hb).2
        have hclosed : ∀ x ∈ seen ++ [b], ∀ y ∈ g.successors x,
            y ∈ seen ++ [b] ∨ y ∈ queue ++ g.successors b := by
          intro x hx y hy
          simp only [List.mem_append, List.mem_singleton] at hx ⊢
          rcases hx with hx | rfl
          · rcases hseen x hx y hy with h | h
            · exact .inl (.inl h)
            · rcases List.mem_cons.mp h with rfl | h
              · exact .inl (.inr rfl)
              · exact .inr (.inl h)
          · exact .inr (.inr hy)
        obtain ⟨hall, hnext⟩ := ih (by rw [List.length_append]; omega) hclosed
        refine ⟨fun x hx => hall x ?_, hnext⟩
        simp only [List.mem_append, List.mem_cons] at hx ⊢
        rcases hx with hx | rfl | hx
        · exact .inl (.inl hx)
        · exact .inl (.inr (.inl rfl))
        · exact .inr (.inl hx)

/-- The fuel of the search is enough: it comes to every block that there is a path to. -/
theorem mem_reachable : x ∈ g.reachable ↔ g.Reached x := by
  have hfuel : [g.entry].length + g.unseen [] < g.steps := by
    simp only [unseen, steps, List.not_mem_nil, if_false, List.length_singleton]
    omega
  obtain ⟨hall, hnext⟩ := search_closed hfuel fun x hx => absurd hx List.not_mem_nil
  constructor
  · intro h
    refine search_sound (fun y hy => ?_) (fun y hy => absurd hy List.not_mem_nil) x h
    rw [List.mem_singleton.mp hy]
    exact .entry
  · intro h
    induction h with
    | entry => exact hall _ (by simp)
    | edge _ hy ih => exact hnext _ ih _ hy

end Graph

namespace Function

variable {f : Function} {id : Nat} {k : Block}

/-- The edges of the graph are those of the terminators. -/
theorem successors_graph (f : Function) (id : Nat) :
    f.graph.successors id = ((f.block? id).map (·.terminator.successors)).getD [] := by
  unfold graph Graph.successors block?
  simp only
  induction f.blocks with
  | nil => rfl
  | cons b bs ih =>
    by_cases hb : b.id = id
    · simp [hb]
    · have hne : (id == b.id) = false := by simpa using fun h => hb h.symm
      simp only [List.map_cons, List.lookup_cons, hne, List.find?_cons, beq_eq_false_iff_ne.mpr hb]
      exact ih

/-- Control goes on to the targets of a block it comes to. -/
theorem reached_target (h : f.graph.Reached id) (hk : f.block? id = some k) {t : Nat}
    (ht : t ∈ k.terminator.successors) : f.graph.Reached t := by
  refine .edge h ?_
  rw [successors_graph, hk]
  exact ht

end Function

namespace Builder

variable {b : Builder} {id : Nat} {k : Block}

theorem isReachable_iff : b.isReachable id = true ↔ b.function.graph.Reached id := by
  unfold isReachable Graph.isReachable
  rw [decide_eq_true_iff]
  exact Graph.mem_reachable

/-- The entry is kept even where nothing leads to it, and it is always reached. -/
theorem kept_iff_reached (b : Builder) (c : Block) :
    (c.id == b.function.entry || c.id ∈ b.function.graph.reachable) = true ↔
      b.function.graph.Reached c.id := by
  rw [Bool.or_eq_true, beq_iff_eq, decide_eq_true_iff, Graph.mem_reachable]
  exact ⟨fun h => h.elim (fun h => h ▸ .entry) fun h => h, .inr⟩

/-- Pruning keeps exactly the blocks that can be reached. -/
theorem mem_blocks_prune :
    k ∈ b.prune.function.blocks ↔ k ∈ b.function.blocks ∧ b.function.graph.Reached k.id := by
  rw [← kept_iff_reached]
  exact List.mem_filter

/-- A pruned function keeps exactly the blocks that control can come to. -/
theorem block?_prune : b.prune.function.block? id = some k ↔
    b.function.block? id = some k ∧ b.function.graph.Reached id := by
  have hkeep := b.kept_iff_reached
  unfold Function.block? prune
  simp only [List.find?_filter]
  by_cases hr : b.function.graph.Reached id
  · have heq : (fun c : Block =>
        (decide ((c.id == b.function.entry || decide (c.id ∈ b.function.graph.reachable)) = true ∧
          (c.id == id) = true))) = (·.id == id) := by
      funext c
      rw [Bool.eq_iff_iff, decide_eq_true_iff, hkeep]
      constructor
      · exact fun h => h.2
      · intro h
        rw [beq_iff_eq] at h
        exact ⟨h ▸ hr, by simpa using h⟩
    simp only [heq, hr, and_true]
  · simp only [hr, and_false, iff_false]
    intro h
    have hp := List.find?_some h
    rw [decide_eq_true_iff, hkeep, beq_iff_eq] at hp
    exact hr (hp.2 ▸ hp.1)

end Builder

end TreeLang.Ir
