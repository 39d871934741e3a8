import TreeLang.Proofs.Graph.DepthFirst

namespace TreeLang.Ir.Graph

variable {g g' : Graph} {b h x y : Nat} {p : List Nat}

/-- Every path from the entry to the block `b` passes through `h`. -/
def Dominates (g : Graph) (h b : Nat) : Prop :=
  ∀ p, g.Route (b :: p) → h ∈ b :: p

/-- An edge that control may take, to a block that does not dominate the block it leaves. -/
def Advances (g : Graph) (x y : Nat) : Prop :=
  g.Reached x ∧ y ∈ g.successors x ∧ ¬ g.Dominates y x

def Reducible (g : Graph) : Prop :=
  ∀ x, ¬ Relation.TransGen g.Advances x x

/-- On a path without repetition every edge advances. -/
theorem Route.advances (hp : g.Route (b :: p)) (hn : (b :: p).Nodup) (hm : h ∈ b :: p) :
    Relation.ReflTransGen g.Advances h b := by
  generalize hq : b :: p = q at hp hn hm
  induction hp generalizing b p with
  | entry =>
    obtain ⟨rfl, -⟩ := List.cons.inj hq
    rw [List.mem_singleton.mp hm]
  | @edge x y p' hx hy ih =>
    obtain ⟨rfl, -⟩ := List.cons.inj hq
    obtain ⟨hout, hn⟩ := List.nodup_cons.mp hn
    rcases List.mem_cons.mp hm with rfl | hm
    · exact .refl
    · exact (ih rfl hn hm).tail ⟨hx.reached, hy, fun hd => hout (hd p' hx)⟩

/-- The headers are the targets of the edges back to a dominating block. -/
theorem Reducible.mem_loopHeaders (hg : g.Reducible) :
    h ∈ g.loopHeaders ↔ ∃ b, g.Reached b ∧ h ∈ g.successors b ∧ g.Dominates h b := by
  constructor
  · intro hh
    obtain ⟨b, p, hp, hn, hm, he⟩ := closes_of_mem_loopHeaders hh
    refine ⟨b, hp.reached, he, ?_⟩
    by_contra hd
    exact hg h (.tail' (hp.advances hn hm) ⟨hp.reached, he, hd⟩)
  · rintro ⟨b, hb, he, hd⟩
    obtain ⟨p, hp, -, hback⟩ := hb.visited
    exact hback h he (hd p hp)

section

variable {rank : Nat → Nat}
  (hrank : ∀ x, g.Reached x → ∀ y ∈ g.successors x, rank x < rank y ∨ g.Dominates y x)

include hrank

/-- A rank that rises along these edges rules out a cycle of them. -/
theorem Advances.rank_lt (he : g.Advances x y) : rank x < rank y :=
  (hrank x he.1 y he.2.1).resolve_right he.2.2

/-- Where every edge raises a rank or leads back to a dominating block, the graph is reducible. -/
theorem reducible_of_rank : g.Reducible := by
  have hup : ∀ {x y}, Relation.TransGen g.Advances x y → rank x < rank y := by
    intro x y hxy
    induction hxy with
    | single he => exact he.rank_lt hrank
    | tail _ he ih => exact ih.trans (he.rank_lt hrank)
  exact fun x hx => Nat.lt_irrefl _ (hup hx)

/-- The rank does not fall from a block to one that it dominates. -/
theorem Dominates.rank_le (hd : g.Dominates h b) (hb : g.Reached b) : rank h ≤ rank b := by
  obtain ⟨p, hp, hn, -⟩ := hb.visited
  have hup := hp.advances hn (hd p hp)
  clear hd hb hp hn
  induction hup with
  | refl => exact Nat.le_refl _
  | tail _ he ih => exact ih.trans (he.rank_lt hrank).le

end

/-- Where a rank falls along the edges `backs` only, each of which leads to a dominating block, the
headers are the targets of these edges that control may take. -/
theorem loopHeaders_of_backs (rank : Nat → Nat) (backs : Nat → Nat → Prop)
    (hrank : ∀ x, g.Reached x → ∀ y ∈ g.successors x, rank x < rank y ∨ backs x y)
    (hback : ∀ x y, backs x y → y ∈ g.successors x ∧ g.Dominates y x) :
    g.Reducible ∧ ∀ h, h ∈ g.loopHeaders ↔ ∃ b, g.Reached b ∧ backs b h := by
  have hrank' : ∀ x, g.Reached x → ∀ y ∈ g.successors x, rank x < rank y ∨ g.Dominates y x :=
    fun x hx y hy => (hrank x hx y hy).imp_right fun hb => (hback x y hb).2
  have hg := reducible_of_rank hrank'
  refine ⟨hg, fun h => hg.mem_loopHeaders.trans ⟨?_, ?_⟩⟩
  · rintro ⟨b, hb, he, hd⟩
    refine ⟨b, hb, (hrank b hb h he).resolve_left fun hlt => ?_⟩
    exact Nat.lt_irrefl _ (hlt.trans_le (hd.rank_le hrank' hb))
  · rintro ⟨b, hb, hbh⟩
    exact ⟨b, hb, hback b h hbh⟩

/-- Where a set of blocks without the entry has edges into it at `h` only, `h` dominates its blocks. -/
theorem dominates_of_gate {D : Nat → Prop} (hentry : ¬ D g.entry)
    (hgate : ∀ x, ∀ y ∈ g.successors x, D y → y = h ∨ D x) (hb : D b) : g.Dominates h b := by
  intro p hp
  generalize hq : b :: p = q at hp
  induction hp generalizing b p with
  | entry =>
    obtain ⟨rfl, -⟩ := List.cons.inj hq
    exact absurd hb hentry
  | edge _ hy ih =>
    obtain ⟨rfl, -⟩ := List.cons.inj hq
    rcases hgate _ _ hy hb with rfl | hx
    · exact List.mem_cons_self
    · exact List.mem_cons_of_mem _ (ih hx _ rfl)

/-- The blocks that control comes to have the same targets, in whatever order and how often. -/
structure Alike (g g' : Graph) : Prop where
  entry : g'.entry = g.entry
  successors : ∀ x, g.Reached x → ∀ y, y ∈ g'.successors x ↔ y ∈ g.successors x

namespace Alike

/-- The graphs have the same paths from the entry, so the same dominance and the same cycles. -/
theorem route (ha : g.Alike g') (hp : g.Route p) : g'.Route p := by
  induction hp with
  | entry => exact ha.entry ▸ .entry
  | edge hx hy ih => exact .edge ih ((ha.successors _ hx.reached _).mpr hy)

theorem reached (ha : g.Alike g') (hx : g.Reached x) : g'.Reached x := by
  obtain ⟨p, hp⟩ := hx.route
  exact (ha.route hp).reached

/-- The paths of either graph are those of the other. -/
theorem symm (ha : g.Alike g') : g'.Alike g := by
  have hback : ∀ x, g'.Reached x → g.Reached x := by
    intro x hx
    induction hx with
    | entry => exact ha.entry ▸ .entry
    | edge _ hy ih => exact .edge ih ((ha.successors _ ih _).mp hy)
  exact ⟨ha.entry.symm, fun x hx y => (ha.successors x (hback x hx) y).symm⟩

theorem dominates (ha : g.Alike g') (hd : g.Dominates h b) : g'.Dominates h b :=
  fun p hp => hd p (ha.symm.route hp)

/-- Being reducible is a matter of the blocks that control comes to. -/
theorem reducible (ha : g.Alike g') (hg : g.Reducible) : g'.Reducible := by
  refine fun x hx => hg x (Relation.TransGen.mono (fun y z he => ?_) x x hx)
  have hy := ha.symm.reached he.1
  exact ⟨hy, (ha.successors y hy z).mp he.2.1, fun hd => he.2.2 (ha.dominates hd)⟩

/-- The order in which the search visits the successors of a block makes no difference. -/
theorem mem_loopHeaders (ha : g.Alike g') (hg : g.Reducible) :
    h ∈ g'.loopHeaders ↔ h ∈ g.loopHeaders := by
  rw [(ha.reducible hg).mem_loopHeaders, hg.mem_loopHeaders]
  constructor
  · rintro ⟨b, hb, he, hd⟩
    have hb := ha.symm.reached hb
    exact ⟨b, hb, (ha.successors b hb h).mp he, ha.symm.dominates hd⟩
  · rintro ⟨b, hb, he, hd⟩
    exact ⟨b, ha.reached hb, (ha.successors b hb h).mpr he, ha.dominates hd⟩

end Alike

end TreeLang.Ir.Graph
