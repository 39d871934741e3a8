import TreeLang.Proofs.Validity

namespace TreeLang.Ir

structure Function.Finished (F : Function) : Prop where
  hoisted : F.Hoisted
  entry : F.entry = 0
  first : ∃ K Ks, F.blocks = K :: Ks ∧ F.block? 0 = some K
  targets : ∀ id K, F.block? id = some K → ∀ t ∈ K.terminator.successors, ∃ K', F.block? t = some K'
  sorted : (F.blocks.map (·.id)).Pairwise (· < ·)
  ended : ∀ id K, F.block? id = some K → K.terminator ≠ .unset

namespace Function

/-- The blocks that are left have numbers of their own. -/
theorem Finished.nodup {F : Function} (h : F.Finished) : (F.blocks.map (·.id)).Nodup :=
  h.sorted.imp Nat.ne_of_lt

end Function

namespace Builder

variable {b : Builder} {F : Function}

/-- A function is built from its blocks that can be reached, all of which have ended, and every target
is among them. -/
theorem finished_build (hs : b.function.Shaped) (h : b.prune.build = .ok F) : F.Finished := by
  obtain ⟨hverify, rfl⟩ := build_eq_ok.mp h
  refine ⟨⟨fun k hk => hs.hoisted.entry k (block?_prune.mp hk).1,
    fun id k hk => hs.hoisted.others id k (block?_prune.mp hk).1⟩, hs.entry, ?_,
    fun _ _ hK _ ht => target_prune hs hK ht, sorted_prune hs,
    fun _ _ hK => (Function.verify_eq_ok_iff.mp hverify).ended _ (Function.mem_of_block? hK)⟩
  -- the entry is the first block that was made, and pruning keeps it
  obtain ⟨n, hn⟩ := Nat.exists_eq_add_of_lt hs.pos
  have hids := hs.ids
  rw [hn, Nat.zero_add, List.range_succ_eq_map] at hids
  obtain ⟨K, Ks, hblocks, hid, _⟩ := List.map_eq_cons_iff.mp hids
  have hentry := hs.entry
  refine ⟨K, Ks.filter fun c => c.id == b.function.entry ||
    c.id ∈ b.function.graph.reachable, ?_, ?_⟩
  · simp [prune, hblocks, hid, hentry]
  · apply block?_prune.mpr
    refine ⟨?_, hentry ▸ .entry⟩
    simp [Function.block?, hblocks, hid]

end Builder

namespace Certified

variable {callees : String → Option External} {strings : Nat} {g : Knowledge} {f : Function}
  {id : Nat} {k : Block}

/-- All results of a certified function are temporaries. -/
theorem results_eq (h : Certified callees strings g f) (hnodup : (f.blocks.map (·.id)).Nodup) :
    f.results = f.definitions.map fun d => .temp d.1 := by
  have hres : ∀ i ∈ f.blocks.flatMap (·.instructions), ∀ o ∈ i.result?, ∃ x, o = .temp x := by
    intro i hi o ho
    obtain ⟨k, hk, hi⟩ := List.mem_flatMap.mp hi
    exact h.results k.id k (Function.block?_of_mem hnodup hk) i (Block.mem_body_of_result? hi ho) o ho
  rw [Function.definitions, ← definedBy_eq hres]
  simp [Function.results, definedBy, List.flatMap_assoc]

/-- Nothing is defined twice. -/
theorem nodup_results (h : Certified callees strings g f)
    (hnodup : (f.blocks.map (·.id)).Nodup) : f.results.Nodup := by
  rw [h.results_eq hnodup]
  refine List.pairwise_map.mpr ((List.pairwise_map.mp h.nodup).imp ?_)
  intro d d' hne he
  exact hne (Operand.temp.inj he)

/-- No instruction of a certified function is a copy. -/
theorem isCopy_eq_false (h : Certified callees strings g f) (hk : f.block? id = some k)
    {i : Instruction} (hi : i ∈ k.instructions) : i.isCopy = false := by
  obtain ⟨pre, post, hsplit⟩ := List.append_of_mem hi
  have hlegal := h.legal_at hk hsplit
  cases i with
  | cast result value source target =>
    have hne : source ≠ target := by
      rintro rfl
      have hconv := hlegal.1
      cases source <;> cases hconv
    simp [Instruction.isCopy, hne]
  | alloca | load | store | binary | neg | call => rfl

/-- Single assignment leaves a certified function as it is. -/
theorem single_eq_self (h : Certified callees strings g f)
    (hnodup : (f.blocks.map (·.id)).Nodup) : f.single = f := by
  apply Function.single_eq_self
  · intro k hk i hi
    exact h.isCopy_eq_false (Function.block?_of_mem hnodup hk) hi
  · exact h.nodup_results hnodup
  · intro n _ hm
    rw [h.results_eq hnodup] at hm
    obtain ⟨d, _, hd⟩ := List.mem_map.mp hm
    cases hd

end Certified

end TreeLang.Ir
