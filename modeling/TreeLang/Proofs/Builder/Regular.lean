import Mathlib.Data.List.Basic
import Mathlib.Data.List.Flatten
import TreeLang.Ir.Edit
import TreeLang.Proofs.Builder.Dominance

namespace TreeLang.Ir

theorem definedBy_append (is js : List Instruction) :
    definedBy (is ++ js) = definedBy is ++ definedBy js :=
  List.flatMap_append

/-- An alloca defines no temporary, so it may stand anywhere. -/
theorem definedBy_insertAlloca {a : Instruction} (ha : a.isAlloca = true) (is : List Instruction) :
    definedBy (Builder.insertAlloca a is) = definedBy is := by
  have hnone : a.result? = none := Instruction.result?_of_isAlloca ha
  induction is with
  | nil => simp [Builder.insertAlloca, definedBy, hnone]
  | cons i is ih =>
    unfold Builder.insertAlloca
    split
    · rw [definedBy_cons, definedBy_cons, ih]
    · rw [definedBy_cons, hnone]
      rfl

namespace Function

variable {f : Function} {id : Nat} {k : Block} {i : Instruction}

/-- The results of a function hang on the definitions in its blocks alone. -/
theorem results_update (f : Function) (id : Nat) (g : Block → Block)
    (hg : ∀ k, definedBy (g k).instructions = definedBy k.instructions) :
    (f.updateBlock id g).results = f.results := by
  simp only [results, updateBlock, List.flatMap_map]
  refine List.flatMap_congr fun k _ => ?_
  split
  · exact hg k
  · rfl

theorem results_extend (f : Function) (label : String) : (f.extend label).results = f.results := by
  simp [results, extend, Block.empty, definedBy]

theorem results_reserve (f : Function) (name : String) (ty : Ty) :
    (f.reserve name ty).results = f.results :=
  results_update { f with slots := f.slots ++ [⟨name, ty⟩] } f.entry _ fun k =>
    definedBy_insertAlloca rfl k.instructions

theorem results_finish (f : Function) (id : Nat) (t : Terminator) :
    (f.updateBlock id (.finish t)).results = f.results :=
  results_update f id _ fun _ => rfl

theorem results_add (hnd : (f.blocks.map (·.id)).Nodup) (hk : f.block? id = some k)
    (i : Instruction) :
    (f.updateBlock id (.add i)).results.Perm (f.results ++ i.result?.toList) := by
  have hall : ∀ f : Function, f.results = definedBy (f.blocks.flatMap (·.instructions)) := by
    intro f
    simp [results, definedBy, List.flatMap_assoc]
  rw [hall, hall, show i.result?.toList = definedBy [i] by simp [definedBy], ← definedBy_append]
  exact (instructions_add hnd hk i).flatMap_right _

end Function

namespace Builder

structure Regular (b : Builder) : Prop where
  /-- No two blocks have the same number, and they stand in the order in which they were made. -/
  ascending : (b.function.blocks.map (·.id)).Pairwise (· < ·)
  below : ∀ k ∈ b.function.blocks, k.id < b.function.nextBlock
  entry : ∃ k, b.function.block? b.function.entry = some k
  /-- The entry begins with one alloca for each slot; there are no others. -/
  hoisted : b.function.Hoisted
  /-- No temporary is defined twice. -/
  once : b.function.results.Nodup
  fresh : ∀ v ∈ b.function.results, ∃ x < b.function.nextTemp, v = .temp x
  current : ∀ id, b.current = some id → ∃ k, b.function.block? id = some k

namespace Regular

variable {b : Builder} {id : Nat} {k : Block} {i : Instruction}

theorem nodup (h : b.Regular) : (b.function.blocks.map (·.id)).Nodup :=
  h.ascending.imp fun hlt => Nat.ne_of_lt hlt

theorem lt (h : b.Regular) (hk : b.function.block? id = some k) : id < b.function.nextBlock :=
  Function.block?_id hk ▸ h.below k (Function.mem_of_block? hk)

theorem start (name : String) (params : List Param) (returns : Ty) :
    (Builder.start name params returns).Regular where
  ascending := List.pairwise_singleton _ _
  below k hk := by
    cases List.mem_singleton.mp hk
    exact Nat.one_pos
  entry := ⟨.empty 0 "entry", rfl⟩
  hoisted := (Function.shaped_empty name params returns).hoisted
  once := List.nodup_nil
  fresh v hv := by cases hv
  current id hid := by
    cases hid
    exact ⟨.empty 0 "entry", rfl⟩

theorem extend (h : b.Regular) (label : String) :
    Regular { b with function := b.function.extend label } where
  ascending := by
    simp only [Function.extend, List.map_append, List.pairwise_append]
    refine ⟨h.ascending, List.pairwise_singleton _ _, fun x hx y hy => ?_⟩
    obtain ⟨k, hk, rfl⟩ := List.mem_map.mp hx
    cases List.mem_singleton.mp hy
    exact h.below k hk
  below k hk := by
    rcases List.mem_append.mp hk with hk | hk
    · exact Nat.lt_succ_of_lt (h.below k hk)
    · cases List.mem_singleton.mp hk
      exact Nat.lt_succ_self _
  entry := by
    obtain ⟨k, hk⟩ := h.entry
    exact ⟨k, Function.block?_extend_of_some hk label⟩
  hoisted := by
    obtain ⟨k, hk⟩ := h.entry
    exact h.hoisted.extend label (Nat.ne_of_lt (h.lt hk))
  once := by
    rw [Function.results_extend]
    exact h.once
  fresh v hv := by
    rw [Function.results_extend] at hv
    exact h.fresh v hv
  current id hid := by
    obtain ⟨k, hk⟩ := h.current id hid
    exact ⟨k, Function.block?_extend_of_some hk label⟩

/-- A change inside of blocks, as far as their instructions stay in order. -/
theorem reshape (h : b.Regular) {f : Function}
    (hids : f.blocks.map (·.id) = b.function.blocks.map (·.id))
    (hentry : f.entry = b.function.entry) (hnext : f.nextBlock = b.function.nextBlock)
    (hh : f.Hoisted) (honce : f.results.Nodup)
    (hfresh : ∀ v ∈ f.results, ∃ x < f.nextTemp, v = .temp x) :
    Regular { b with function := f } := by
  have hfind : ∀ id, (∃ k, b.function.block? id = some k) → ∃ k, f.block? id = some k := by
    rintro id ⟨k, hk⟩
    have hm : id ∈ f.blocks.map (·.id) := by
      rw [hids, ← Function.block?_id hk]
      exact List.mem_map_of_mem (Function.mem_of_block? hk)
    obtain ⟨l, hl, rfl⟩ := List.mem_map.mp hm
    exact Option.isSome_iff_exists.mp (List.find?_isSome.mpr ⟨l, hl, by simp⟩)
  refine ⟨?_, fun k hk => ?_, ?_, hh, honce, hfresh, fun id hid => hfind id (h.current id hid)⟩
  · change (f.blocks.map (·.id)).Pairwise _
    rw [hids]
    exact h.ascending
  · have hm : k.id ∈ b.function.blocks.map (·.id) := hids ▸ List.mem_map_of_mem hk
    obtain ⟨l, hl, hid⟩ := List.mem_map.mp hm
    change k.id < f.nextBlock
    rw [hnext, ← hid]
    exact h.below l hl
  · change ∃ k, f.block? f.entry = some k
    rw [hentry]
    exact hfind _ h.entry

theorem reserve (h : b.Regular) (name : String) (ty : Ty) :
    Regular { b with function := b.function.reserve name ty } := by
  have hres := Function.results_reserve b.function name ty
  refine h.reshape ?_ rfl rfl (h.hoisted.reserve name ty) (hres ▸ h.once) (hres ▸ h.fresh)
  exact Function.ids_updateBlock { b.function with slots := b.function.slots ++ [⟨name, ty⟩] } _
    (.hoist (.alloca b.function.slots.length ty name)) fun _ => rfl

theorem add (h : b.Regular) (hk : b.function.block? id = some k) (hi : i.isAlloca = false)
    (hr : i.result? = none) : Regular { b with function := b.function.updateBlock id (.add i) } := by
  have hperm : (b.function.updateBlock id (.add i)).results.Perm b.function.results := by
    simpa [hr] using Function.results_add h.nodup hk i
  exact h.reshape (Function.ids_updateBlock _ _ (.add i) fun _ => rfl) rfl rfl
    (h.hoisted.add id hi) (hperm.nodup_iff.mpr h.once)
    fun v hv => h.fresh v (hperm.mem_iff.mp hv)

theorem assign (h : b.Regular) (hk : b.function.block? id = some k) (hi : i.isAlloca = false)
    (hr : i.result? = some (.temp b.function.nextTemp)) :
    Regular { b with function := b.function.assign id i } := by
  have hperm : (b.function.assign id i).results.Perm
      (b.function.results ++ [.temp b.function.nextTemp]) := by
    have := Function.results_add h.nodup hk i
    rwa [hr] at this
  refine h.reshape (Function.ids_updateBlock _ _ (.add i) fun _ => rfl) rfl rfl
    ⟨(h.hoisted.add id hi).entry, (h.hoisted.add id hi).others⟩ ?_ fun v hv => ?_
  · refine hperm.nodup_iff.mpr (List.nodup_append.mpr ⟨h.once, by simp, ?_⟩)
    rintro v hv _ hw rfl
    obtain ⟨x, hx, rfl⟩ := h.fresh v hv
    cases List.mem_singleton.mp hw
    exact Nat.lt_irrefl _ hx
  · rcases List.mem_append.mp (hperm.mem_iff.mp hv) with hv | hv
    · obtain ⟨x, hx, rfl⟩ := h.fresh v hv
      exact ⟨x, Nat.lt_succ_of_lt hx, rfl⟩
    · exact ⟨_, Nat.lt_succ_self _, List.mem_singleton.mp hv⟩

theorem finish (h : b.Regular) (id : Nat) (t : Terminator) :
    Regular { b with function := b.function.updateBlock id (.finish t) } := by
  have hres := Function.results_finish b.function id t
  exact h.reshape (Function.ids_updateBlock _ _ (.finish t) fun _ => rfl) rfl rfl
    (h.hoisted.finish id t) (hres ▸ h.once) (hres ▸ h.fresh)

/-- The cursor may go to any block of the function. -/
theorem move (h : b.Regular) (hk : b.function.block? id = some k) :
    Regular { b with current := some id } :=
  ⟨h.ascending, h.below, h.entry, h.hoisted, h.once, h.fresh, fun j hj => by
    cases hj
    exact ⟨k, hk⟩⟩

/-- Blocks that are dropped take their definitions along. -/
theorem prune (h : b.Regular) : b.prune.Regular where
  ascending := h.ascending.sublist (List.filter_sublist.map _)
  below k hk := h.below k (List.mem_filter.mp hk).1
  entry := by
    obtain ⟨k, hk⟩ := h.entry
    exact ⟨k, block?_prune.mpr ⟨hk, .entry⟩⟩
  hoisted := ⟨fun k hk => h.hoisted.entry k (block?_prune.mp hk).1,
    fun id k hk hne => h.hoisted.others id k (block?_prune.mp hk).1 hne⟩
  once := h.once.sublist (List.filter_sublist.flatMap _)
  fresh v hv := h.fresh v ((List.filter_sublist.flatMap _).subset hv)
  current id hid := by
    obtain ⟨-, hkept⟩ := Option.filter_eq_some_iff.mp hid
    obtain ⟨k, hk, hkid⟩ := List.any_eq_true.mp hkept
    exact Option.isSome_iff_exists.mp (List.find?_isSome.mpr ⟨k, hk, hkid⟩)

end Regular

end Builder

end TreeLang.Ir
