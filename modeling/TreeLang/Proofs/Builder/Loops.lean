import TreeLang.Proofs.Builder.Stranded
import TreeLang.Proofs.Graph.Reducible

namespace TreeLang.Ir

namespace Function

variable {f : Function} {D : Nat → Prop} {id x t head : Nat} {i : Instruction} {name label : String}
  {ty : Ty}

/-- The edges of a block are the targets of its terminator. -/
theorem mem_successors :
    t ∈ f.graph.successors x ↔ ∃ k, f.block? x = some k ∧ t ∈ k.terminator.successors := by
  rw [successors_graph]
  cases f.block? x <;> simp

/-- A block that has just been made has no edges. -/
theorem successors_extend (h : f.Numbered) :
    (f.extend label).graph.successors x = f.graph.successors x := by
  rw [successors_graph, successors_graph, block?_extend h]
  split
  · rename_i he
    cases hk : f.block? x with
    | none => rfl
    | some k => exact absurd (h.lt hk) (by omega)
  · rfl

theorem successors_reserve : (f.reserve name ty).graph.successors x = f.graph.successors x := by
  rw [successors_graph, successors_graph, block?_reserve]
  split
  · cases f.block? x <;> rfl
  · rfl

theorem successors_add :
    (f.updateBlock id (.add i)).graph.successors x = f.graph.successors x := by
  rw [successors_graph, successors_graph, block?_add]
  split
  · cases f.block? x <;> rfl
  · rfl

theorem mem_successors_finish {e : Terminator}
    (h : t ∈ (f.updateBlock id (.finish e)).graph.successors x) :
    (x = id ∧ t ∈ e.successors) ∨ t ∈ f.graph.successors x := by
  obtain ⟨k, hk, ht⟩ := mem_successors.mp h
  obtain ⟨hx, k', -, rfl⟩ | ⟨-, hk⟩ := of_block?_finish hk
  · exact .inl ⟨hx, ht⟩
  · exact .inr (mem_successors.mpr ⟨k, hk, ht⟩)

def labelled (f : Function) (label : String) : List Nat :=
  (f.blocksLabelled label).map (·.id)

/-- A new block is the last of those with its label. -/
theorem labelled_extend (other : String) : (f.extend other).labelled label =
    f.labelled label ++ if other = label then [f.nextBlock] else [] := by
  unfold labelled blocksLabelled extend
  rw [List.filter_append, List.map_append]
  congr 1
  by_cases h : other = label <;> simp [Block.empty, h]

theorem labelled_updateBlock {g : Block → Block} (hid : ∀ k, (g k).id = k.id)
    (hlabel : ∀ k, (g k).label = k.label) :
    (f.updateBlock id g).labelled label = f.labelled label := by
  unfold labelled blocksLabelled updateBlock
  induction f.blocks with
  | nil => rfl
  | cons k ks ih =>
    have hk : (if k.id == id then g k else k).label = k.label := by split <;> simp [hlabel]
    have hk' : (if k.id == id then g k else k).id = k.id := by split <;> simp [hid]
    simp only [List.map_cons, List.filter_cons, hk]
    split
    · rw [List.map_cons, List.map_cons, ih, hk']
    · exact ih

theorem labelled_reserve : (f.reserve name ty).labelled label = f.labelled label :=
  labelled_updateBlock (f := { f with slots := f.slots ++ [⟨name, ty⟩] }) (g := .hoist _)
    (fun _ => rfl) fun _ => rfl

theorem labelled_finish {e : Terminator} :
    (f.updateBlock id (.finish e)).labelled label = f.labelled label :=
  labelled_updateBlock (fun _ => rfl) fun _ => rfl

/-- Control comes into the blocks `D` from outside only at `head`. -/
def Gated (f : Function) (head : Nat) (D : Nat → Prop) : Prop :=
  ∀ x, ∀ t ∈ f.graph.successors x, D t → t = head ∨ D x

/-- A new terminator keeps the gate, inside of the blocks or outside, as long as it does not lead into
them past the head. -/
theorem Gated.finish (h : f.Gated head D) {e : Terminator}
    (he : D id ∨ ∀ s ∈ e.successors, D s → s = head) :
    (f.updateBlock id (.finish e)).Gated head D := by
  intro x t ht hD
  rcases mem_successors_finish ht with ⟨rfl, hs⟩ | hs
  · exact he.elim .inr fun he => .inl (he t hs hD)
  · exact h x t hs hD

/-- Numbers that no block has make no difference. -/
theorem Gated.below (h : f.Gated head D) (hn : f.Numbered) :
    f.Gated head fun id => D id ∧ id < f.nextBlock := by
  intro x t ht hD
  refine (h x t ht hD.1).imp_right fun hx => ⟨hx, ?_⟩
  obtain ⟨k, hk, _⟩ := mem_successors.mp ht
  exact hn.lt hk

/-- Every path from the entry into the blocks comes by the head, so the head dominates them. -/
theorem Gated.dominates (h : f.Gated head D) (hentry : ¬ D f.entry) (hid : D id) :
    f.graph.Dominates head id :=
  Graph.dominates_of_gate hentry h hid

end Function

namespace Builder

variable {b b' : Builder} {order pending pending' : List Nat} {backs backs' : List (Nat × Nat)}
  {D : Nat → Prop} {id head low back : Nat} {t : Terminator}

/-- An edge that work has added, or one from before. -/
theorem Grown.edge (h : Grown b b' pending) {x s : Nat}
    (hs : s ∈ b'.function.graph.successors x) :
    (b.Owns x ∧ b.function.nextBlock ≤ s) ∨ s ∈ b.function.graph.successors x := by
  obtain ⟨k, hk, hs⟩ := Function.mem_successors.mp hs
  by_cases ho : b.Owns x
  · exact .inl ⟨ho, h.inward x k hk ho s hs⟩
  · obtain ⟨k₀, hk₀, _, _, ht⟩ := h.old hk ho
    exact .inr (Function.mem_successors.mpr ⟨k₀, hk₀, ht ▸ hs⟩)

/-- Work elsewhere adds no edge into blocks from before. -/
theorem Grown.gated (h : Grown b b' pending) (hD : b.function.Gated head D)
    (hlt : ∀ id, D id → id < b.function.nextBlock) : b'.function.Gated head D := by
  intro x s hs hm
  rcases h.edge hs with ⟨-, hle⟩ | hs
  · have := hlt s hm
    omega
  · exact hD x s hs hm

/-- Work at one of the blocks, where all new ones are among them. -/
theorem Grown.gated_inside (h : Grown b b' pending) (hD : b.function.Gated head D)
    (hnew : ∀ id, b.function.nextBlock ≤ id → D id) (hcur : ∃ id, b.current = some id ∧ D id) :
    b'.function.Gated head D := by
  intro x s hm hs
  rcases h.edge hm with ⟨hx | hx, -⟩ | hold
  · obtain ⟨id, hid, hDid⟩ := hcur
    cases hid.symm.trans hx
    exact .inr hDid
  · exact .inr (hnew x hx)
  · exact hD x s hold hs

/-- A loop that has been laid out behind the block `low`. The block `back` ended in a jump to `head`, and
is one of some blocks that are entered at `head` only. -/
structure Circuit (b : Builder) (low head back : Nat) : Prop where
  gate : ∃ D, b.function.Gated head D ∧ D back ∧ ∀ id, D id → low ≤ id ∧ id < b.function.nextBlock
  ended : ∃ k, b.function.block? back = some k ∧ k.terminator = .jump head
  left : b.current ≠ some back

namespace Circuit

theorem mono {low' : Nat} (h : Circuit b low head back) (hle : low' ≤ low) :
    Circuit b low' head back := by
  obtain ⟨D, hD, hback, hrange⟩ := h.gate
  exact ⟨⟨D, hD, hback, fun id hid => ⟨Nat.le_trans hle (hrange id hid).1, (hrange id hid).2⟩⟩,
    h.ended, h.left⟩

/-- What is laid out later leaves a finished loop as it is. -/
theorem grown (h : Circuit b low head back) (hg : Grown b b' []) : Circuit b' low head back := by
  obtain ⟨D, hD, hback, hrange⟩ := h.gate
  obtain ⟨k, hk, hend⟩ := h.ended
  obtain ⟨k', hk', _, _, ht⟩ := hg.kept back k hk h.left
  exact ⟨⟨D, hg.gated hD fun id hid => (hrange id hid).2, hback, fun id hid =>
    ⟨(hrange id hid).1, Nat.lt_of_lt_of_le (hrange id hid).2 hg.nextBlock⟩⟩,
    ⟨k', hk', ht.trans hend⟩, hg.current_ne hk h.left⟩

/-- Another block ends, and leads to older blocks. -/
theorem finish (h : Circuit b low head back) (hc : b.current = some id)
    (ht : ∀ s ∈ t.successors, s < low) :
    Circuit { b with function := b.function.updateBlock id (.finish t) } low head back := by
  obtain ⟨D, hD, hback, hrange⟩ := h.gate
  obtain ⟨k, hk, hend⟩ := h.ended
  have hne : back ≠ id := fun he => h.left (he ▸ hc)
  refine ⟨⟨D, hD.finish (.inr fun s hs hm => ?_), hback, hrange⟩,
    ⟨k, (Function.block?_finish_of_ne hne).trans hk, hend⟩, h.left⟩
  have := ht s hs
  have := (hrange s hm).1
  omega

theorem switch (h : Circuit b low head back) (hlt : id < low) :
    Circuit { b with current := some id } low head back := by
  refine ⟨h.gate, h.ended, fun he => ?_⟩
  obtain ⟨D, -, hback, hrange⟩ := h.gate
  have := (hrange back hback).1
  cases he
  omega

/-- The loop goes back to its head. -/
theorem edge (h : Circuit b low head back) : head ∈ b.function.graph.successors back := by
  obtain ⟨k, hk, hend⟩ := h.ended
  exact Function.mem_successors.mpr ⟨k, hk, by simp [hend, Terminator.successors]⟩

/-- The head dominates the block that goes back to it. -/
theorem dominates (h : Circuit b low head back) (hentry : b.function.entry < low) :
    b.function.graph.Dominates head back := by
  obtain ⟨D, hD, hback, hrange⟩ := h.gate
  refine hD.dominates (fun hm => ?_) hback
  have := (hrange _ hm).1
  omega

end Circuit

/-- At most the instructions of the blocks have changed. -/
structure SameFlow (b b' : Builder) : Prop where
  current : b'.current = b.current
  nextBlock : b'.function.nextBlock = b.function.nextBlock
  successors : ∀ x, b'.function.graph.successors x = b.function.graph.successors x
  labelled : ∀ label, b'.function.labelled label = b.function.labelled label
  numbered : b.function.Numbered → b'.function.Numbered

namespace SameFlow

variable {i : Instruction}

theorem refl (b : Builder) : SameFlow b b := ⟨rfl, rfl, fun _ => rfl, fun _ => rfl, id⟩

theorem trans {b'' : Builder} (h : SameFlow b b') (h' : SameFlow b' b'') : SameFlow b b'' :=
  ⟨h'.current.trans h.current, h'.nextBlock.trans h.nextBlock,
    fun x => (h'.successors x).trans (h.successors x),
    fun label => (h'.labelled label).trans (h.labelled label), fun hn => h'.numbered (h.numbered hn)⟩

theorem add (b : Builder) (id : Nat) (i : Instruction) :
    SameFlow b { b with function := b.function.updateBlock id (.add i) } :=
  ⟨rfl, rfl, fun _ => Function.successors_add,
    fun _ => Function.labelled_updateBlock (fun _ => rfl) fun _ => rfl,
    fun hn => hn.updateBlock (.add i) fun _ => rfl⟩

theorem assign (b : Builder) (id : Nat) (i : Instruction) :
    SameFlow b { b with function := b.function.assign id i } := by
  have h := add b id i
  exact ⟨rfl, rfl, h.successors, h.labelled, fun hn => ⟨(h.numbered hn).ids, hn.entry, hn.pos⟩⟩

theorem reserve (b : Builder) (name : String) (ty : Ty) :
    SameFlow b { b with function := b.function.reserve name ty } := by
  refine ⟨rfl, rfl, fun _ => Function.successors_reserve, fun _ => Function.labelled_reserve,
    fun hn => ?_⟩
  have hids := Function.ids_updateBlock
    { b.function with slots := b.function.slots ++ [⟨name, ty⟩] } b.function.entry
    (.hoist (.alloca b.function.slots.length ty name)) fun _ => rfl
  exact ⟨hids.trans hn.ids, hn.entry, hn.pos⟩

end SameFlow

/-- The cursor has come to the blocks in this order, and has still to come to those that are pending.
Edges lead on in this order, but for the edges `backs`. -/
structure Ordered (b : Builder) (order : List Nat) (backs : List (Nat × Nat)) (pending : List Nat) :
    Prop where
  nodup : (order ++ pending).Nodup
  below : ∀ id ∈ order ++ pending, id < b.function.nextBlock
  current : ∀ id, b.current = some id → id ∈ order
  edges : ∀ x, ∀ t ∈ b.function.graph.successors x,
    x ∈ order ∧ (t ∈ pending ∨ [x, t].Sublist order ∨ (x, t) ∈ backs)

namespace Ordered

/-- The cursor is in the entry of a new function, and nothing is pending. -/
theorem start (name : String) (params : List Param) (returns : Ty) :
    Ordered (.start name params returns) [0] [] [] where
  nodup := by simp
  below := by simp [Builder.start, Function.empty]
  current := by simp [Builder.start]
  edges := by
    intro x t ht
    obtain ⟨k, hk, ht⟩ := Function.mem_successors.mp ht
    have hm := Function.mem_of_block? hk
    rw [Builder.start, Function.empty, List.mem_singleton] at hm
    rw [hm] at ht
    cases ht

theorem still (h : Ordered b order backs pending) (hs : SameFlow b b') :
    Ordered b' order backs pending :=
  ⟨h.nodup, hs.nextBlock ▸ h.below, hs.current ▸ h.current,
    fun x t ht => h.edges x t (hs.successors x ▸ ht)⟩

theorem perm (h : Ordered b order backs pending) (hp : pending.Perm pending') :
    Ordered b order backs pending' where
  nodup := (hp.append_left order).nodup_iff.mp h.nodup
  below id hid := h.below id ((hp.append_left order).mem_iff.mpr hid)
  current := h.current
  edges x t ht := (h.edges x t ht).imp_right fun hb => hb.imp_left hp.mem_iff.mp

theorem mono (h : Ordered b order backs pending) (hsub : backs ⊆ backs') :
    Ordered b order backs' pending :=
  ⟨h.nodup, h.below, h.current, fun x t ht =>
    (h.edges x t ht).imp_right fun hb => hb.imp_right fun hb => hb.imp_right fun hm => hsub hm⟩

theorem extend (h : Ordered b order backs pending) (hn : b.function.Numbered) (label : String) :
    Ordered { b with function := b.function.extend label } order backs
      (b.function.nextBlock :: pending) where
  nodup := by
    refine List.perm_middle.nodup_iff.mpr (List.nodup_cons.mpr ⟨fun hm => ?_, h.nodup⟩)
    exact Nat.lt_irrefl _ (h.below _ hm)
  below := by
    intro id hid
    change id < b.function.nextBlock + 1
    rcases List.mem_cons.mp (List.perm_middle.mem_iff.mp hid) with rfl | hid
    · exact Nat.lt_succ_self _
    · exact Nat.lt_succ_of_lt (h.below id hid)
  current := h.current
  edges x t ht := by
    rw [Function.successors_extend hn] at ht
    exact (h.edges x t ht).imp_right fun hb => hb.imp_left fun hm => List.mem_cons_of_mem _ hm

/-- The block at hand ends. -/
theorem finish (h : Ordered b order backs pending) (hc : b.current = some id)
    (ht : ∀ s ∈ t.successors, s ∈ pending ∨ (id, s) ∈ backs) :
    Ordered { b with function := b.function.updateBlock id (.finish t) } order backs pending where
  nodup := h.nodup
  below := h.below
  current := h.current
  edges x s hs := by
    rcases Function.mem_successors_finish hs with ⟨rfl, hend⟩ | hold
    · exact ⟨h.current x hc, (ht s hend).imp_right .inr⟩
    · exact h.edges x s hold

/-- The cursor comes to a pending block. Edges to it lead on in the order now. -/
theorem switch (h : Ordered b order backs (id :: pending)) :
    Ordered { b with current := some id } (order ++ [id]) backs pending where
  nodup := by simpa using h.nodup
  below := by simpa using h.below
  current := by simp
  edges x t ht := by
    obtain ⟨hx, hb⟩ := h.edges x t ht
    refine ⟨List.mem_append_left _ hx, ?_⟩
    rcases hb with hm | hs | hb
    · rcases List.mem_cons.mp hm with rfl | hm
      · exact .inr (.inl ((List.singleton_sublist.mpr hx).append (List.Sublist.refl [t])))
      · exact .inl hm
    · exact .inr (.inl (hs.trans (List.sublist_append_left _ _)))
    · exact .inr (.inr hb)

end Ordered

end Builder

/-- What comes later in a list without repetition stands at a higher place. -/
theorem idxOf_lt_of_sublist {order : List Nat} {x y : Nat} (hn : order.Nodup)
    (hs : [x, y].Sublist order) : order.idxOf x < order.idxOf y := by
  induction order with
  | nil => cases hs
  | cons z zs ih =>
    obtain ⟨hz, hn⟩ := List.nodup_cons.mp hn
    have hlater : ∀ a ∈ zs, (z :: zs).idxOf a = zs.idxOf a + 1 := fun a ha =>
      List.idxOf_cons_ne _ fun he => hz (he ▸ ha)
    cases hs with
    | cons _ hs =>
      rw [hlater x (hs.subset (by simp)), hlater y (hs.subset (by simp))]
      exact Nat.succ_lt_succ (ih hn hs)
    | cons_cons _ hs =>
      rw [hlater y (List.singleton_sublist.mp hs), List.idxOf_cons_self]
      exact Nat.succ_pos _

namespace Builder

variable {b : Builder} {order : List Nat} {backs : List (Nat × Nat)} {low : Nat}

/-- Dropping blocks that control does not come to leaves the edges of the others. -/
theorem alike_prune (b : Builder) : b.function.graph.Alike b.prune.function.graph := by
  refine ⟨rfl, fun x hx t => ?_⟩
  simp only [Function.mem_successors, block?_prune, and_iff_left hx]

/-- The headers of a function whose loops are known are the heads of those whose end control comes
to. -/
theorem loopHeaders_prune (ho : Ordered b order backs [])
    (hc : ∀ p ∈ backs, Circuit b low p.2 p.1) (hentry : b.function.entry < low) :
    b.prune.function.graph.Reducible ∧ ∀ h, h ∈ b.prune.function.graph.loopHeaders ↔
      ∃ p ∈ backs, p.2 = h ∧ b.prune.function.graph.Reached p.1 := by
  have ha := b.alike_prune
  have hn : order.Nodup := by simpa using ho.nodup
  obtain ⟨hred, hh⟩ := Graph.loopHeaders_of_backs (g := b.function.graph) (order.idxOf ·)
    (fun x y => (x, y) ∈ backs) (fun x _ y hy => by
      rcases (ho.edges x y hy).2 with hm | hs | hm
      · cases hm
      · exact .inl (idxOf_lt_of_sublist hn hs)
      · exact .inr hm)
    fun x y hm => ⟨(hc _ hm).edge, (hc _ hm).dominates hentry⟩
  refine ⟨ha.reducible hred, fun h => ?_⟩
  rw [ha.mem_loopHeaders hred, hh]
  constructor
  · rintro ⟨x, hx, hm⟩
    exact ⟨(x, h), hm, rfl, ha.reached hx⟩
  · rintro ⟨⟨x, y⟩, hm, rfl, hx⟩
    exact ⟨x, ha.symm.reached hx, hm⟩

end Builder

end TreeLang.Ir
