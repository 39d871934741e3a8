import TreeLang.Proofs.Builder.Reachability
import TreeLang.Proofs.Builder.Region

namespace TreeLang.Ir

namespace Function

variable {f : Function} {D E : Nat → Prop} {id : Nat}

def Closed (f : Function) (D : Nat → Prop) : Prop :=
  ∀ id k s, f.block? id = some k → s ∈ k.terminator.successors → D s → D id

/-- Where the entry is outside, control does not come into the set. -/
theorem Closed.not_reached (h : f.Closed D) (he : ¬ D f.entry) (hid : f.graph.Reached id) :
    ¬ D id := by
  induction hid with
  | entry => exact he
  | @edge x y _ hy ih =>
    intro hD
    rw [successors_graph] at hy
    cases hk : f.block? x with
    | none =>
      rw [hk] at hy
      cases hy
    | some k =>
      rw [hk] at hy
      exact ih (h x k y hk hy hD)

/-- Edges into one of the two sets come from this set, so from both together. -/
theorem Closed.union (h : f.Closed D) (h' : f.Closed E) : f.Closed fun id => D id ∨ E id := by
  intro id k s hk hs hm
  rcases hm with hm | hm
  · exact .inl (h id k s hk hs hm)
  · exact .inr (h' id k s hk hs hm)

theorem closed_extend (h : f.Shaped) (label : String) :
    (f.extend label).Closed (· = f.nextBlock) := by
  intro id k s hk hs he
  subst he
  obtain ⟨hid, -⟩ | ⟨-, hk⟩ := of_block?_extend h.toNumbered hk
  · exact hid
  · exact absurd (h.targets id k hk _ hs) (Nat.lt_irrefl _)

/-- The end of a block of the set, or one that leads elsewhere. -/
theorem Closed.finish (h : f.Closed D) {t : Terminator} (ht : D id ∨ ∀ s ∈ t.successors, ¬ D s) :
    (f.updateBlock id (.finish t)).Closed D := by
  intro j k s hk hs hD
  obtain ⟨rfl, k', -, rfl⟩ | ⟨-, hk⟩ := of_block?_finish hk
  · rcases ht with ht | ht
    · exact ht
    · exact absurd hD (ht s hs)
  · exact h j k s hk hs hD

end Function

namespace Builder

variable {b b' : Builder} {D : Nat → Prop} {pending : List Nat}

/-- Work elsewhere leads to blocks of its own only. -/
theorem Grown.closed (hg : Grown b b' pending) (h : b.function.Closed D)
    (hD : ∀ id, D id → id < b.function.nextBlock) : b'.function.Closed D := by
  intro id k s hk hs hm
  by_cases ho : b.Owns id
  · have hle := hg.inward id k hk ho s hs
    have hlt := hD s hm
    omega
  · obtain ⟨k₀, hk₀, _, _, ht⟩ := hg.old hk ho
    rw [ht] at hs
    exact h id k₀ s hk₀ hs hm

/-- The cursor is at a block that control cannot come to: it is in a set of blocks made since `b` that
no edge leads into. -/
def Stranded (b b' : Builder) : Prop :=
  ∃ D : Nat → Prop, b'.function.Closed D ∧ (∃ id, b'.current = some id ∧ D id) ∧
    ∀ id, D id → b.function.nextBlock ≤ id ∧ id < b'.function.nextBlock

/-- Blocks made since later were made since earlier. -/
theorem Stranded.mono {b₀ : Builder} (h : Stranded b b')
    (hle : b₀.function.nextBlock ≤ b.function.nextBlock) : Stranded b₀ b' := by
  obtain ⟨D, hc, hcur, hD⟩ := h
  exact ⟨D, hc, hcur, fun id hid => ⟨Nat.le_trans hle (hD id hid).1, (hD id hid).2⟩⟩

theorem Stranded.not_reachable (h : Stranded b b') (hb : b.function.Numbered)
    (hb' : b'.function.Numbered) {id : Nat} (hid : b'.current = some id) :
    b'.isReachable id = false := by
  obtain ⟨D, hc, ⟨j, hj, hDj⟩, hD⟩ := h
  cases hid.symm.trans hj
  have he : ¬ D b'.function.entry := by
    intro hm
    have hle := (hD _ hm).1
    have hpos := hb.pos
    rw [hb'.entry] at hle
    omega
  cases hr : b'.isReachable id with
  | false => rfl
  | true => exact absurd hDj (hc.not_reached he (isReachable_iff.mp hr))

end Builder

end TreeLang.Ir
