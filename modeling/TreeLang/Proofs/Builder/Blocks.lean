import TreeLang.Ir.Builder

namespace TreeLang.Ir

def Block.body (k : Block) : List Instruction :=
  k.instructions.filter (!·.isAlloca)

/-- A new block has no instructions. An alloca always goes to the top of the entry block, so it is the
body of a block, the rest of it, that only grows at its end. -/
@[simp] theorem Block.body_empty (id : Nat) (label : String) : (Block.empty id label).body = [] := rfl

theorem Block.not_alloca_of_mem_body {k : Block} {i : Instruction} (h : i ∈ k.body) :
    i.isAlloca = false := by
  simpa using (List.mem_filter.mp h).2

theorem Instruction.result?_of_isAlloca {i : Instruction} (h : i.isAlloca = true) :
    i.result? = none := by
  cases i with
  | alloca => rfl
  | _ => cases h

/-- Only allocas are left out of the body, and they have no result. -/
theorem Block.mem_body_of_result? {k : Block} {i : Instruction} {o : Operand}
    (hi : i ∈ k.instructions) (ho : i.result? = some o) : i ∈ k.body := by
  refine List.mem_filter.mpr ⟨hi, ?_⟩
  cases ha : i.isAlloca with
  | false => rfl
  | true =>
    rw [Instruction.result?_of_isAlloca ha] at ho
    cases ho

/-- Two stages of a block that differ at most in the allocas at its top. -/
def Block.Same (k k' : Block) : Prop :=
  k'.label = k.label ∧ k'.body = k.body ∧ k'.terminator = k.terminator

theorem Block.Same.refl (k : Block) : k.Same k := ⟨rfl, rfl, rfl⟩

theorem Block.Same.trans {k k' k'' : Block} (h : k.Same k') (h' : k'.Same k'') : k.Same k'' :=
  ⟨h'.1.trans h.1, h'.2.1.trans h.2.1, h'.2.2.trans h.2.2⟩

namespace Function

variable {f : Function} {id j : Nat} {k : Block}

theorem block?_id (h : f.block? id = some k) : k.id = id := by
  simpa [block?] using List.find?_some h

theorem mem_of_block? (h : f.block? id = some k) : k ∈ f.blocks :=
  List.mem_of_find?_eq_some h

/-- An update is seen at the number that it is for, and nowhere else. -/
theorem block?_updateBlock (f : Function) (id j : Nat) (g : Block → Block)
    (hg : ∀ k, (g k).id = k.id) :
    (f.updateBlock id g).block? j = if j = id then (f.block? j).map g else f.block? j := by
  have hid : (fun k : Block => (if k.id == id then g k else k).id == j) = (·.id == j) := by
    funext k
    split <;> simp [hg]
  have hfind : (f.updateBlock id g).block? j =
      (f.block? j).map fun k => if k.id == id then g k else k := by
    simp only [block?, updateBlock, List.find?_map]
    exact congrArg _ (congrArg (List.find? · f.blocks) hid)
  rw [hfind]
  cases hk : f.block? j with
  | none => simp
  | some k => by_cases h : j = id <;> simp [block?_id hk, h]

theorem ids_updateBlock (f : Function) (id : Nat) (g : Block → Block) (hg : ∀ k, (g k).id = k.id) :
    (f.updateBlock id g).blocks.map (·.id) = f.blocks.map (·.id) := by
  simp only [updateBlock, List.map_map]
  refine List.map_congr_left fun k _ => ?_
  simp only [Function.comp]
  split <;> simp [hg]

/-- Blocks are numbered in the order in which they were made, the entry first. -/
structure Numbered (f : Function) : Prop where
  ids : f.blocks.map (·.id) = List.range f.nextBlock
  entry : f.entry = 0
  pos : 0 < f.nextBlock

/-- The numbers are those below the next one, so none is given twice. -/
theorem Numbered.nodup (h : f.Numbered) : (f.blocks.map (·.id)).Nodup := by
  rw [h.ids]
  exact List.nodup_range

theorem Numbered.lt (h : f.Numbered) (hk : f.block? id = some k) : id < f.nextBlock := by
  have hm : k.id ∈ f.blocks.map (·.id) := List.mem_map_of_mem (mem_of_block? hk)
  rw [h.ids, block?_id hk] at hm
  exact List.mem_range.mp hm

theorem Numbered.block? (h : f.Numbered) (hid : id < f.nextBlock) : ∃ k, f.block? id = some k := by
  have hm : id ∈ f.blocks.map (·.id) := by
    rw [h.ids]
    exact List.mem_range.mpr hid
  obtain ⟨k, hk, rfl⟩ := List.mem_map.mp hm
  exact Option.isSome_iff_exists.mp (List.find?_isSome.mpr ⟨k, hk, by simp⟩)

/-- With distinct numbers a block is the one found under its number. -/
theorem block?_of_mem (h : (f.blocks.map (·.id)).Nodup) (hk : k ∈ f.blocks) :
    f.block? k.id = some k := by
  unfold Function.block?
  generalize f.blocks = ks at h hk
  induction ks with
  | nil => cases hk
  | cons x xs ih =>
    obtain ⟨hx, hxs⟩ := List.nodup_cons.mp h
    rcases List.mem_cons.mp hk with rfl | hm
    · simp
    · have hne : x.id ≠ k.id := fun he => hx (List.mem_map.mpr ⟨k, hm, he.symm⟩)
      simpa [List.find?_cons, hne] using ih hxs hm

/-- What is done inside of a block does not change the numbers. -/
theorem Numbered.updateBlock (h : f.Numbered) (g : Block → Block) (hg : ∀ k, (g k).id = k.id) :
    (f.updateBlock id g).Numbered :=
  ⟨(ids_updateBlock f id g hg).trans h.ids, h.entry, h.pos⟩

def allocas (f : Function) : List Instruction :=
  f.slots.mapIdx fun i s => .alloca i s.ty s.name

theorem isAlloca_of_mem_allocas {i : Instruction} (h : i ∈ f.allocas) : i.isAlloca = true := by
  obtain ⟨n, hn, rfl⟩ := List.mem_mapIdx.mp h
  rfl

/-- The allocas are at the top of the entry block, in the order of the slots. -/
structure Hoisted (f : Function) : Prop where
  entry : ∀ k, f.block? f.entry = some k → k.instructions = f.allocas ++ k.body
  others : ∀ id k, f.block? id = some k → id ≠ f.entry → k.instructions = k.body

/-- What holds of a function at every point of its construction. -/
structure Shaped (f : Function) : Prop extends Numbered f where
  hoisted : f.Hoisted
  targets : ∀ id k, f.block? id = some k → ∀ t ∈ k.terminator.successors, t < f.nextBlock

end Function

/-- A new alloca stands behind those already at the top. -/
theorem insertAlloca_append (a : Instruction) (as body : List Instruction)
    (has : ∀ i ∈ as, i.isAlloca = true) (hbody : ∀ i ∈ body, i.isAlloca = false) :
    Builder.insertAlloca a (as ++ body) = as ++ a :: body := by
  induction as with
  | nil =>
    cases body with
    | nil => rfl
    | cons i is => simp [Builder.insertAlloca, hbody i List.mem_cons_self]
  | cons i is ih =>
    have hi := has i List.mem_cons_self
    simp [Builder.insertAlloca, hi, ih fun j hj => has j (List.mem_cons_of_mem _ hj)]

theorem body_insertAlloca (a : Instruction) (ha : a.isAlloca = true) (is : List Instruction) :
    (Builder.insertAlloca a is).filter (!·.isAlloca) = is.filter (!·.isAlloca) := by
  induction is with
  | nil => simp [Builder.insertAlloca, ha]
  | cons i is ih =>
    unfold Builder.insertAlloca
    split
    · simp [List.filter_cons, ih]
    · simp [List.filter_cons, ha]

end TreeLang.Ir
