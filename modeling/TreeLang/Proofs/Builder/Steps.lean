import TreeLang.Proofs.Builder.Blocks

namespace TreeLang.Ir

namespace Block

def add (i : Instruction) (k : Block) : Block :=
  { k with instructions := k.instructions ++ [i] }

def hoist (a : Instruction) (k : Block) : Block :=
  { k with instructions := Builder.insertAlloca a k.instructions }

def finish (t : Terminator) (k : Block) : Block :=
  { k with terminator := t }

/-- The changes of a block each leave its number and its label. -/
@[simp] theorem id_add (i : Instruction) (k : Block) : (k.add i).id = k.id := rfl

@[simp] theorem id_hoist (a : Instruction) (k : Block) : (k.hoist a).id = k.id := rfl

@[simp] theorem id_finish (t : Terminator) (k : Block) : (k.finish t).id = k.id := rfl

@[simp] theorem label_add (i : Instruction) (k : Block) : (k.add i).label = k.label := rfl

@[simp] theorem label_hoist (a : Instruction) (k : Block) : (k.hoist a).label = k.label := rfl

@[simp] theorem label_finish (t : Terminator) (k : Block) : (k.finish t).label = k.label := rfl

@[simp] theorem terminator_add (i : Instruction) (k : Block) :
    (k.add i).terminator = k.terminator := rfl

@[simp] theorem terminator_hoist (a : Instruction) (k : Block) :
    (k.hoist a).terminator = k.terminator := rfl

@[simp] theorem terminator_finish (t : Terminator) (k : Block) : (k.finish t).terminator = t := rfl

theorem body_add {i : Instruction} (hi : i.isAlloca = false) (k : Block) :
    (k.add i).body = k.body ++ [i] := by
  simp [body, add, hi]

theorem body_hoist {a : Instruction} (ha : a.isAlloca = true) (k : Block) :
    (k.hoist a).body = k.body :=
  body_insertAlloca a ha k.instructions

theorem same_hoist {a : Instruction} (ha : a.isAlloca = true) (k : Block) : k.Same (k.hoist a) :=
  ⟨rfl, body_hoist ha k, rfl⟩

@[simp] theorem body_finish (t : Terminator) (k : Block) : (k.finish t).body = k.body := rfl

end Block

namespace Function

def reserve (f : Function) (name : String) (ty : Ty) : Function :=
  Function.updateBlock { f with slots := f.slots ++ [⟨name, ty⟩] } f.entry
    (.hoist (.alloca f.slots.length ty name))

def extend (f : Function) (label : String) : Function :=
  { f with blocks := f.blocks ++ [.empty f.nextBlock label], nextBlock := f.nextBlock + 1 }

/-- The function with one temporary more, defined at the end of a block. -/
def assign (f : Function) (id : Nat) (i : Instruction) : Function :=
  { f.updateBlock id (.add i) with nextTemp := f.nextTemp + 1 }

variable {f : Function} {id j : Nat} {k : Block} {name label : String} {ty : Ty} {i : Instruction}

/-- The new block is found if no block has its number yet. -/
theorem block?_extend_or : (f.extend label).block? j =
    (f.block? j).or (if j = f.nextBlock then some (.empty f.nextBlock label) else none) := by
  simp only [block?, extend, List.find?_append]
  congr 1
  by_cases hj : j = f.nextBlock
  · simp [Block.empty, hj]
  · have hne : f.nextBlock ≠ j := fun h => hj h.symm
    simp [Block.empty, hj, hne]

/-- Which block is found behind an operation is said once for each operation; a block that was there is
still found behind a new one. -/
theorem block?_extend_of_some (h : f.block? j = some k) (label : String) :
    (f.extend label).block? j = some k := by
  rw [block?_extend_or, h]
  rfl

theorem block?_extend (h : f.Numbered) :
    (f.extend label).block? j =
      if j = f.nextBlock then some (.empty f.nextBlock label) else f.block? j := by
  rw [block?_extend_or]
  split
  · rename_i hj
    cases hk : f.block? j with
    | none => rfl
    | some k => exact absurd (h.lt hk) (by omega)
  · simp

/-- The entry block gets the alloca of the new slot. -/
theorem block?_reserve : (f.reserve name ty).block? j =
    if j = f.entry then (f.block? j).map (.hoist (.alloca f.slots.length ty name))
    else f.block? j :=
  block?_updateBlock _ _ j (.hoist _) fun _ => rfl

theorem block?_add : (f.updateBlock id (.add i)).block? j =
    if j = id then (f.block? j).map (.add i) else f.block? j :=
  block?_updateBlock f id j (.add i) fun _ => rfl

theorem block?_assign : (f.assign id i).block? j =
    if j = id then (f.block? j).map (.add i) else f.block? j :=
  block?_add

theorem block?_finish {t : Terminator} : (f.updateBlock id (.finish t)).block? j =
    if j = id then (f.block? j).map (.finish t) else f.block? j :=
  block?_updateBlock f id j (.finish t) fun _ => rfl

theorem block?_reserve_of_some (h : f.block? j = some k) (name : String) (ty : Ty) :
    ∃ l, (f.reserve name ty).block? j = some l ∧ k.Same l := by
  rw [block?_reserve, h]
  split
  · exact ⟨_, rfl, Block.same_hoist rfl k⟩
  · exact ⟨k, rfl, .refl k⟩

theorem block?_add_self (h : f.block? id = some k) (i : Instruction) :
    (f.updateBlock id (.add i)).block? id = some (k.add i) := by
  rw [block?_add, if_pos rfl, h]
  rfl

theorem block?_add_of_ne (h : j ≠ id) : (f.updateBlock id (.add i)).block? j = f.block? j := by
  rw [block?_add, if_neg h]

theorem block?_finish_self (h : f.block? id = some k) (t : Terminator) :
    (f.updateBlock id (.finish t)).block? id = some (k.finish t) := by
  rw [block?_finish, if_pos rfl, h]
  rfl

theorem block?_finish_of_ne {t : Terminator} (h : j ≠ id) :
    (f.updateBlock id (.finish t)).block? j = f.block? j := by
  rw [block?_finish, if_neg h]

/-- A block that is found behind an operation is the new one, or was found before. -/
theorem of_block?_extend (h : f.Numbered) (hk : (f.extend label).block? j = some k) :
    (j = f.nextBlock ∧ k = .empty f.nextBlock label) ∨ (j ≠ f.nextBlock ∧ f.block? j = some k) := by
  rw [block?_extend h] at hk
  split at hk
  · exact .inl ⟨‹_›, (Option.some.inj hk).symm⟩
  · exact .inr ⟨‹_›, hk⟩

theorem of_block?_reserve (hk : (f.reserve name ty).block? j = some k) :
    ∃ e, f.block? j = some e ∧ e.Same k := by
  rw [block?_reserve] at hk
  split at hk
  · obtain ⟨e, he, rfl⟩ := Option.map_eq_some_iff.mp hk
    exact ⟨e, he, Block.same_hoist rfl e⟩
  · exact ⟨k, hk, .refl k⟩

/-- A block has got the instruction, or it is as it was. -/
theorem of_block?_add (hk : (f.updateBlock id (.add i)).block? j = some k) :
    (j = id ∧ ∃ e, f.block? id = some e ∧ k = e.add i) ∨ (j ≠ id ∧ f.block? j = some k) := by
  rw [block?_add] at hk
  split at hk
  · subst j
    obtain ⟨e, he, rfl⟩ := Option.map_eq_some_iff.mp hk
    exact .inl ⟨rfl, e, he, rfl⟩
  · exact .inr ⟨‹_›, hk⟩

theorem of_block?_finish {t : Terminator} (hk : (f.updateBlock id (.finish t)).block? j = some k) :
    (j = id ∧ ∃ e, f.block? id = some e ∧ k = e.finish t) ∨ (j ≠ id ∧ f.block? j = some k) := by
  rw [block?_finish] at hk
  split at hk
  · subst j
    obtain ⟨e, he, rfl⟩ := Option.map_eq_some_iff.mp hk
    exact .inl ⟨rfl, e, he, rfl⟩
  · exact .inr ⟨‹_›, hk⟩

theorem terminator_of_block?_add (hk : (f.updateBlock id (.add i)).block? j = some k) :
    ∃ e, f.block? j = some e ∧ k.terminator = e.terminator := by
  obtain ⟨rfl, e, he, rfl⟩ | ⟨-, hk⟩ := of_block?_add hk
  · exact ⟨e, he, rfl⟩
  · exact ⟨k, hk, rfl⟩

theorem Numbered.extend (h : f.Numbered) (label : String) : (f.extend label).Numbered := by
  refine ⟨?_, h.entry, Nat.succ_pos _⟩
  simp [Function.extend, h.ids, List.range_succ, Block.empty]

theorem allocas_reserve :
    (f.reserve name ty).allocas = f.allocas ++ [.alloca f.slots.length ty name] := by
  simp [allocas, reserve, updateBlock, List.mapIdx_append]

theorem Hoisted.extend (h : f.Hoisted) (label : String) (hne : f.entry ≠ f.nextBlock) :
    (f.extend label).Hoisted := by
  refine ⟨fun k hk => ?_, fun id k hk hid => ?_⟩
  · rw [show (f.extend label).entry = f.entry from rfl, block?_extend_or, if_neg hne,
      Option.or_none] at hk
    exact h.entry k hk
  · rw [block?_extend_or] at hk
    rcases Option.or_eq_some_iff.mp hk with hk | ⟨-, hk⟩
    · exact h.others id k hk hid
    · split at hk
      · cases hk
        rfl
      · cases hk

/-- The alloca of a new slot stands behind those of the slots before it. -/
theorem Hoisted.reserve (h : f.Hoisted) (name : String) (ty : Ty) : (f.reserve name ty).Hoisted := by
  refine ⟨fun k hk => ?_, fun id k hk hne => ?_⟩
  · rw [show (f.reserve name ty).entry = f.entry from rfl, block?_reserve, if_pos rfl] at hk
    obtain ⟨e, he, rfl⟩ := Option.map_eq_some_iff.mp hk
    rw [Block.body_hoist rfl, allocas_reserve]
    change Builder.insertAlloca _ e.instructions = _
    rw [h.entry e he,
      insertAlloca_append _ _ _ (fun _ => isAlloca_of_mem_allocas)
        fun _ => Block.not_alloca_of_mem_body]
    simp
  · have hne : id ≠ f.entry := hne
    rw [block?_reserve, if_neg hne] at hk
    exact h.others id k hk hne

theorem Hoisted.add (h : f.Hoisted) (id : Nat) (hi : i.isAlloca = false) :
    (f.updateBlock id (.add i)).Hoisted := by
  refine ⟨fun k hk => ?_, fun j k hk hne => ?_⟩
  · obtain ⟨hid, e, he, rfl⟩ | ⟨-, hk⟩ := of_block?_add hk
    · rw [Block.body_add hi]
      change e.instructions ++ [i] = f.allocas ++ _
      rw [h.entry e ((congrArg f.block? hid).trans he), List.append_assoc]
    · exact h.entry k hk
  · obtain ⟨rfl, e, he, rfl⟩ | ⟨-, hk⟩ := of_block?_add hk
    · rw [Block.body_add hi]
      change e.instructions ++ [i] = _
      rw [h.others j e he hne]
    · exact h.others j k hk hne

theorem Hoisted.finish (h : f.Hoisted) (id : Nat) (t : Terminator) :
    (f.updateBlock id (.finish t)).Hoisted := by
  refine ⟨fun k hk => ?_, fun j k hk hne => ?_⟩
  · obtain ⟨hid, e, he, rfl⟩ | ⟨-, hk⟩ := of_block?_finish hk
    · exact h.entry e ((congrArg f.block? hid).trans he)
    · exact h.entry k hk
  · obtain ⟨rfl, e, he, rfl⟩ | ⟨-, hk⟩ := of_block?_finish hk
    · exact h.others j e he hne
    · exact h.others j k hk hne

/-- Each operation keeps the shape of the function. -/
theorem Shaped.extend (h : f.Shaped) (label : String) : (f.extend label).Shaped := by
  have hne : f.entry ≠ f.nextBlock := by have := h.entry; have := h.pos; omega
  refine ⟨h.toNumbered.extend label, h.hoisted.extend label hne, ?_⟩
  intro id k hk t ht
  obtain ⟨-, rfl⟩ | ⟨-, hk⟩ := of_block?_extend h.toNumbered hk
  · cases ht
  · exact Nat.lt_succ_of_lt (h.targets id k hk t ht)

theorem Shaped.reserve (h : f.Shaped) (name : String) (ty : Ty) : (f.reserve name ty).Shaped := by
  have hids := ids_updateBlock { f with slots := f.slots ++ [⟨name, ty⟩] } f.entry
    (.hoist (.alloca f.slots.length ty name)) fun _ => rfl
  refine ⟨⟨hids.trans h.ids, h.entry, h.pos⟩, h.hoisted.reserve name ty, ?_⟩
  intro id k hk t ht
  obtain ⟨e, he, -, -, hend⟩ := of_block?_reserve hk
  exact h.targets id e he t (hend ▸ ht)

theorem Shaped.add (h : f.Shaped) (id : Nat) (hi : i.isAlloca = false) :
    (f.updateBlock id (.add i)).Shaped := by
  refine ⟨h.toNumbered.updateBlock (.add i) fun _ => rfl, h.hoisted.add id hi, ?_⟩
  intro j k hk t ht
  obtain ⟨e, he, hend⟩ := terminator_of_block?_add hk
  exact h.targets j e he t (hend ▸ ht)

theorem Shaped.assign (h : f.Shaped) (hi : i.isAlloca = false) : (f.assign id i).Shaped := by
  obtain ⟨hn, hh, ht⟩ := h.add id hi
  exact ⟨⟨hn.ids, hn.entry, hn.pos⟩, ⟨hh.entry, hh.others⟩, ht⟩

theorem Shaped.finish (h : f.Shaped) {t : Terminator} (ht : ∀ s ∈ t.successors, s < f.nextBlock) :
    (f.updateBlock id (.finish t)).Shaped := by
  refine ⟨h.toNumbered.updateBlock (.finish t) fun _ => rfl, h.hoisted.finish id t, ?_⟩
  intro j k hk s hs
  obtain ⟨-, e, -, rfl⟩ | ⟨-, hk⟩ := of_block?_finish hk
  · exact ht s hs
  · exact h.targets j k hk s hs

theorem shaped_empty (name : String) (params : List Param) (returns : Ty) :
    (Function.empty name params returns).Shaped := by
  have hfind : ∀ id k, (Function.empty name params returns).block? id = some k →
      id = 0 ∧ k = .empty 0 "entry" := by
    intro id k hk
    have hm := Function.mem_of_block? hk
    have hid := Function.block?_id hk
    rw [Function.empty, List.mem_singleton] at hm
    subst hm
    exact ⟨hid.symm, rfl⟩
  refine ⟨⟨rfl, rfl, Nat.one_pos⟩, ⟨?_, ?_⟩, ?_⟩
  · intro k hk
    rw [(hfind _ k hk).2]
    rfl
  · intro id k hk hne
    exact absurd (hfind id k hk).1 hne
  · intro id k hk t ht
    rw [(hfind id k hk).2] at ht
    cases ht

end Function

namespace Builder

variable {b b' : Builder} {id : Nat} {i : Instruction} {t : Terminator}

/-- An operation that succeeds has a block to work on, and does nothing but its change. -/
theorem append_eq_ok : b.append i = .ok b' ↔
    ∃ id, b.current = some id ∧ b' = { b with function := b.function.updateBlock id (.add i) } := by
  cases hc : b.current with
  | none => simp [append, cursor, hc, bind, Except.bind]
  | some id =>
    simp only [append, cursor, hc, bind, Except.bind, pure, Except.pure, Except.ok.injEq]
    exact ⟨fun h => ⟨id, rfl, h.symm⟩, by rintro ⟨_, ⟨rfl⟩, rfl⟩; rfl⟩

theorem define_eq_ok {v : Operand} {i : Operand → Instruction} : b.define i = .ok (v, b') ↔
    v = .temp b.function.nextTemp ∧ ∃ id, b.current = some id ∧
      b' = { b with function := b.function.assign id (i v) } := by
  cases hc : b.current with
  | none => simp [define, append, cursor, hc, bind, Except.bind]
  | some id =>
    simp only [define, append, cursor, hc, bind, Except.bind, pure, Except.pure]
    constructor
    · intro h
      cases h
      exact ⟨rfl, id, rfl, rfl⟩
    · rintro ⟨rfl, _, ⟨rfl⟩, rfl⟩
      rfl

theorem terminate_eq_ok : b.terminate t = .ok b' ↔
    ∃ id k, b.current = some id ∧ b.function.block? id = some k ∧ k.terminator = .unset ∧
      b' = { b with function := b.function.updateBlock id (.finish t) } := by
  cases hc : b.current with
  | none => simp [terminate, cursor, hc, bind, Except.bind]
  | some id =>
    simp only [terminate, cursor, hc, bind, Except.bind]
    cases hk : b.function.block? id with
    | none => simp [hk]
    | some k =>
      by_cases ht : k.terminator = .unset
      · simp only [Block.isTerminated, ht, pure, Except.pure]
        constructor
        · intro h
          cases h
          exact ⟨id, k, rfl, hk, ht, rfl⟩
        · rintro ⟨_, _, ⟨rfl⟩, _, _, rfl⟩
          rfl
      · simp [Block.isTerminated, ht, hk]

theorem switchTo_eq_ok : b.switchTo id = .ok b' ↔
    (∃ k ∈ b.function.blocks, k.id = id) ∧ b' = { b with current := some id } := by
  unfold switchTo
  split
  · rename_i h
    simp only [List.any_eq_true, beq_iff_eq] at h
    exact ⟨fun he => ⟨h, (Except.ok.inj he).symm⟩, fun he => he.2 ▸ rfl⟩
  · rename_i h
    simp only [List.any_eq_true, beq_iff_eq] at h
    simp [h]

/-- Slots are numbered in the order in which they are made. -/
theorem alloca_eq_ok {name : String} {ty : Ty} {slot : Nat} : b.alloca name ty = .ok (slot, b') ↔
    ty ≠ .void ∧ slot = b.function.slots.length ∧
      b' = { b with function := b.function.reserve name ty } := by
  unfold alloca
  split
  · simp_all
  · rename_i h
    constructor
    · intro he
      cases he
      exact ⟨h, rfl, rfl⟩
    · rintro ⟨_, rfl, rfl⟩
      rfl

theorem slots_append (h : b.append i = .ok b') : b'.function.slots = b.function.slots := by
  obtain ⟨id, _, rfl⟩ := append_eq_ok.mp h
  rfl

theorem slots_define {v : Operand} {i : Operand → Instruction} (h : b.define i = .ok (v, b')) :
    b'.function.slots = b.function.slots := by
  obtain ⟨_, id, _, rfl⟩ := define_eq_ok.mp h
  rfl

theorem slots_terminate (h : b.terminate t = .ok b') : b'.function.slots = b.function.slots := by
  obtain ⟨id, k, _, _, _, rfl⟩ := terminate_eq_ok.mp h
  rfl

theorem slots_switchTo (h : b.switchTo id = .ok b') : b'.function.slots = b.function.slots := by
  obtain ⟨_, rfl⟩ := switchTo_eq_ok.mp h
  rfl

theorem slots_createBlock {label : String}
    (h : (.ok (b.createBlock label) : Except Error (Nat × Builder)) = .ok (id, b')) :
    b'.function.slots = b.function.slots := by
  cases h
  rfl

theorem slots_cast {value v : Operand} {source target : Ty}
    (h : b.cast value source target = .ok (v, b')) : b'.function.slots = b.function.slots := by
  unfold cast at h
  cases hc : b.cursor with
  | error e =>
    rw [hc] at h
    cases h
  | ok id =>
    rw [hc] at h
    change (if source = target then _ else _) = _ at h
    split at h
    · cases h
      rfl
    · split at h
      · exact slots_define h
      · cases h

theorem slots_call {callee : String} {args : List Operand} {returns : Ty} {v : Option Operand}
    (h : b.call callee args returns = .ok (v, b')) : b'.function.slots = b.function.slots := by
  unfold call at h
  split at h
  · cases ha : b.append (.call none callee args returns) with
    | error e =>
      rw [ha] at h
      cases h
    | ok c =>
      rw [ha] at h
      cases h
      exact slots_append ha
  · cases ha : b.define fun result => .call (some result) callee args returns with
    | error e =>
      rw [ha] at h
      cases h
    | ok p =>
      rw [ha] at h
      cases h
      exact slots_define ha

theorem build_eq_ok {b : Builder} {F : Function} :
    b.build = .ok F ↔ b.function.verify = .ok () ∧ F = b.function := by
  unfold build
  cases hv : b.function.verify with
  | error e => simp [bind, Except.bind]
  | ok _ => simp [bind, Except.bind, pure, Except.pure, eq_comm]

end Builder

end TreeLang.Ir
