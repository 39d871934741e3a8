import TreeLang.Proofs.Builder.Region

namespace TreeLang.Ir

/-- The end of the block `id`, which does not lead back to it, and is one of `exits` if it is a
return. -/
def Terminator.Onward (exits : List (Nat × Option Operand)) (id : Nat) (t : Terminator) : Prop :=
  id ∉ t.successors ∧ ∀ value, t = .ret value → (id, value) ∈ exits

theorem Terminator.onward_unset (exits : List (Nat × Option Operand)) (id : Nat) :
    Terminator.unset.Onward exits id :=
  ⟨by simp [successors], by simp⟩

theorem Terminator.Onward.mono {exits exits' : List (Nat × Option Operand)} {id : Nat}
    {t : Terminator} (h : t.Onward exits id) (hsub : exits ⊆ exits') : t.Onward exits' id :=
  ⟨h.1, fun value hv => hsub (h.2 value hv)⟩

namespace Builder

variable {b₀ b b' : Builder} {exits exits' : List (Nat × Option Operand)} {pending pending' : List Nat}
  {id : Nat}

/-- What the builder may be after work that began at `b₀` and returned at `exits` only. -/
structure Spanned (b₀ b : Builder) (exits : List (Nat × Option Operand)) (pending : List Nat) : Prop
    extends Grown b₀ b pending where
  onward : ∀ id k, b.function.block? id = some k → b₀.Owns id → k.terminator.Onward exits id

namespace Spanned

/-- Nothing has been laid out yet, and there is no return. -/
theorem refl (hs : b.function.Shaped) (ho : b.IsOpen) : Spanned b b [] [] where
  toGrown := .refl hs ho
  onward := by
    obtain ⟨j, k, hj, hk, hu⟩ := ho
    rintro id l hl (hid | hid)
    · cases hj.symm.trans hid
      cases hk.symm.trans hl
      rw [hu]
      exact Terminator.onward_unset [] j
    · exact absurd (hs.lt hl) (Nat.not_lt.mpr hid)

/-- The returns of one piece of code and of the next are those of both. -/
theorem trans (h : Spanned b₀ b exits pending) (h' : Spanned b b' exits' []) :
    Spanned b₀ b' (exits ++ exits') pending where
  toGrown := h.toGrown.trans h'.toGrown
  onward := by
    intro id k' hk' ho
    by_cases hid : b.Owns id
    · exact (h'.onward id k' hk' hid).mono (List.subset_append_right _ _)
    · obtain ⟨k, hk, _, _, ht⟩ := h'.old hk' hid
      rw [ht]
      exact (h.onward id k hk ho).mono (List.subset_append_left _ _)

theorem mono (h : Spanned b₀ b exits pending) (hsub : exits ⊆ exits') :
    Spanned b₀ b exits' pending :=
  ⟨h.toGrown, fun id k hk ho => (h.onward id k hk ho).mono hsub⟩

theorem congr (h : Spanned b₀ b exits pending) (he : ∀ id, id ∈ pending ↔ id ∈ pending') :
    Spanned b₀ b exits pending' :=
  ⟨h.toGrown.congr he, h.onward⟩

theorem unended (h : Spanned b₀ b exits pending) (hg : Grown b₀ b' pending')
    (hend : ∀ id k', b'.function.block? id = some k' → k'.terminator = .unset ∨
      ∃ k, b.function.block? id = some k ∧ k'.terminator = k.terminator) :
    Spanned b₀ b' exits pending' where
  toGrown := hg
  onward := by
    intro id k' hk' ho
    rcases hend id k' hk' with hu | ⟨k, hk, ht⟩
    · rw [hu]
      exact Terminator.onward_unset exits id
    · rw [ht]
      exact h.onward id k hk ho

/-- A block that has been made has no end, so it leads nowhere. -/
theorem extend (h : Spanned b₀ b exits pending) (label : String) :
    Spanned b₀ { b with function := b.function.extend label } exits
      (b.function.nextBlock :: pending) := by
  refine h.unended (h.toGrown.extend label) fun id k hk => ?_
  obtain ⟨-, rfl⟩ | ⟨-, hk⟩ := Function.of_block?_extend h.shaped.toNumbered hk
  · exact .inl rfl
  · exact .inr ⟨k, hk, rfl⟩

theorem reserve (h : Spanned b₀ b exits pending) (name : String) (ty : Ty) :
    Spanned b₀ { b with function := b.function.reserve name ty } exits pending := by
  refine h.unended (h.toGrown.reserve name ty) fun id k hk => .inr ?_
  obtain ⟨l, hl, -, -, hend⟩ := Function.of_block?_reserve hk
  exact ⟨l, hl, hend⟩

theorem add (h : Spanned b₀ b exits pending) {i : Instruction} (hi : i.isAlloca = false)
    (hc : b.current = some id) :
    Spanned b₀ { b with function := b.function.updateBlock id (.add i) } exits pending :=
  h.unended (h.toGrown.add hi hc) fun _ _ hk => .inr (Function.terminator_of_block?_add hk)

theorem assign (h : Spanned b₀ b exits pending) {i : Instruction} (hi : i.isAlloca = false)
    (hc : b.current = some id) :
    Spanned b₀ { b with function := b.function.assign id i } exits pending :=
  ⟨h.toGrown.assign hi hc, (h.add hi hc).onward⟩

/-- The block at hand ends, and leads to other blocks of the region or returns. -/
theorem finish (h : Spanned b₀ b exits pending) {t : Terminator} (hc : b.current = some id)
    (ht : ∀ s ∈ t.successors, b₀.function.nextBlock ≤ s ∧ s < b.function.nextBlock)
    (hon : t.Onward exits id) :
    Spanned b₀ { b with function := b.function.updateBlock id (.finish t) } exits pending where
  toGrown := h.toGrown.finish hc ht
  onward := by
    intro j k hk ho
    obtain ⟨rfl, l, -, rfl⟩ | ⟨-, hk⟩ := Function.of_block?_finish hk
    · exact hon
    · exact h.onward j k hk ho

/-- The cursor leaves a block that has ended for one that was pending. -/
theorem switch {k : Block} (h : Spanned b₀ b exits (id :: pending)) (hid : id ∉ pending) {j : Nat}
    (hj : b.current = some j) (hk : b.function.block? j = some k) (hset : k.terminator ≠ .unset) :
    Spanned b₀ { b with current := some id } exits pending :=
  ⟨h.toGrown.switch hid hj hk hset, h.onward⟩

end Spanned

end Builder

def Block.widen (k : Block) (as : List Instruction) : Block :=
  { k with
    instructions :=
      k.instructions.takeWhile (·.isAlloca) ++ as ++ k.instructions.dropWhile (·.isAlloca) }

namespace Function

variable {f f' : Function} {id : Nat} {k k' : Block}

def top (f : Function) (id : Nat) : List Instruction :=
  if id = f.entry then f.allocas else []

theorem isAlloca_of_mem_top {i : Instruction} (h : i ∈ f.top id) : i.isAlloca = true := by
  unfold top at h
  split at h
  · exact isAlloca_of_mem_allocas h
  · cases h

/-- A block is the allocas at its top and its body. -/
theorem Shaped.instructions (h : f.Shaped) (hk : f.block? id = some k) :
    k.instructions = f.top id ++ k.body := by
  unfold top
  split
  · rename_i hid
    subst hid
    exact h.hoisted.entry k hk
  · rename_i hid
    exact h.hoisted.others id k hk hid

theorem Shaped.takeWhile (h : f.Shaped) (hk : f.block? id = some k) :
    k.instructions.takeWhile (·.isAlloca) = f.top id := by
  have hbody : k.body.takeWhile (·.isAlloca) = [] := by
    cases hb : k.body with
    | nil => rfl
    | cons i is =>
      have hi : i.isAlloca = false := Block.not_alloca_of_mem_body (hb ▸ List.mem_cons_self)
      simp [hi]
  rw [h.instructions hk, List.takeWhile_append_of_pos fun _ hi => isAlloca_of_mem_top hi, hbody,
    List.append_nil]

theorem Shaped.dropWhile (h : f.Shaped) (hk : f.block? id = some k) :
    k.instructions.dropWhile (·.isAlloca) = k.body := by
  have hsplit := List.takeWhile_append_dropWhile (p := (·.isAlloca)) (l := k.instructions)
  rw [h.takeWhile hk, h.instructions hk] at hsplit
  have hdrop := List.append_cancel_left hsplit
  rwa [← h.instructions hk] at hdrop

/-- More slots mean more allocas at the top of the entry, and nothing else. -/
theorem top_append (hentry : f'.entry = f.entry) (hslots : f.slots <+: f'.slots) (id : Nat) :
    ∃ as, (∀ i ∈ as, i.isAlloca = true) ∧ (id ≠ f.entry → as = []) ∧ f'.top id = f.top id ++ as := by
  unfold top
  rw [hentry]
  by_cases hid : id = f.entry
  · obtain ⟨more, hmore⟩ := hslots
    have hall : f'.allocas = f.allocas ++ more.mapIdx fun i s =>
        Instruction.alloca (i + f.slots.length) s.ty s.name := by
      unfold allocas
      rw [← hmore, List.mapIdx_append]
    refine ⟨_, fun i hi => ?_, fun hne => absurd hid hne, by rw [if_pos hid, if_pos hid, hall]⟩
    obtain ⟨n, hn, rfl⟩ := List.mem_mapIdx.mp hi
    rfl
  · exact ⟨[], by simp, fun _ => rfl, by rw [if_neg hid, if_neg hid, List.append_nil]⟩

/-- A later stage of a block begins with the same allocas and those that were added to the entry. -/
theorem Shaped.widen (h : f.Shaped) (h' : f'.Shaped) (hslots : f.slots <+: f'.slots)
    (hk : f.block? id = some k) :
    ∃ as, (∀ i ∈ as, i.isAlloca = true) ∧ (id ≠ f.entry → as = []) ∧
      (k.widen as).instructions = f'.top id ++ k.body := by
  obtain ⟨as, has, hnil, htop⟩ := top_append (h'.entry.trans h.entry.symm) hslots id
  refine ⟨as, has, hnil, ?_⟩
  rw [htop]
  unfold Block.widen
  rw [h.takeWhile hk, h.dropWhile hk]

end Function

namespace Builder

/-- A piece of code with one way in and one open end: what it may do to the function around it, from
the cursor of `b` to that of `b'`. -/
structure Region (b b' : Builder) : Prop where
  /-- The blocks there were, but for the one at hand, stay as they are. The entry may get allocas. -/
  kept : ∀ id k, b.function.block? id = some k → b.current ≠ some id →
    ∃ as, (∀ i ∈ as, i.isAlloca = true) ∧ (id ≠ b.function.entry → as = []) ∧
      b'.function.block? id = some (k.widen as)
  /-- The block at hand goes on where it was. -/
  extended : ∀ id k, b.function.block? id = some k → b.current = some id →
    ∃ as k', (∀ i ∈ as, i.isAlloca = true) ∧ (id ≠ b.function.entry → as = []) ∧
      b'.function.block? id = some k' ∧ k'.label = k.label ∧
      (k.widen as).instructions <+: k'.instructions
  /-- Every block of the piece has ended, but for the one at hand behind it. -/
  ended : ∀ id k, b'.function.block? id = some k →
    b.current = some id ∨ b.function.block? id = none → b'.current ≠ some id →
    k.terminator ≠ .unset
  /-- Work goes on at an open block of the piece. -/
  cursor : ∃ id k, b'.current = some id ∧ b'.function.block? id = some k ∧ k.terminator = .unset ∧
    (b.current = some id ∨ b.function.block? id = none)
  /-- A new block is come to from the block at hand, or from another new block. -/
  entered : ∀ id k s, b'.function.block? id = some k → s ∈ k.terminator.successors →
    b.function.block? s = none →
    b.current = some id ∨ (b.function.block? id = none ∧ id ≠ s)
  /-- The piece leads to new blocks only. -/
  left : ∀ id k s, b'.function.block? id = some k →
    b.current = some id ∨ b.function.block? id = none → s ∈ k.terminator.successors →
    b.function.block? s = none ∧ ∃ k', b'.function.block? s = some k'

variable {b b' : Builder} {exits : List (Nat × Option Operand)} {id : Nat}

/-- The numbers that are free are those from the next one on. -/
theorem block?_eq_none_iff (h : b.function.Numbered) :
    b.function.block? id = none ↔ b.function.nextBlock ≤ id := by
  constructor
  · intro hnone
    refine Nat.not_lt.mp fun hlt => ?_
    obtain ⟨k, hk⟩ := h.block? hlt
    rw [hnone] at hk
    cases hk
  · intro hle
    cases hk : b.function.block? id with
    | none => rfl
    | some k => exact absurd (h.lt hk) (Nat.not_lt.mpr hle)

theorem owns_iff (h : b.function.Numbered) :
    b.Owns id ↔ b.current = some id ∨ b.function.block? id = none := by
  rw [block?_eq_none_iff h]
  rfl

/-- Seen from outside, a piece of code with its cursor at an open block is a region. -/
theorem Spanned.region (h : Spanned b b' exits []) (hs : b.function.Shaped) (ho : b'.IsOpen) :
    Region b b' where
  kept := by
    intro id k hk hne
    obtain ⟨k', hk', hl, hbody, ht⟩ := h.kept id k hk hne
    obtain ⟨as, has, hnil, hwiden⟩ := hs.widen h.shaped h.slots hk
    refine ⟨as, has, hnil, hk'.trans (congrArg some ?_)⟩
    have hid : k'.id = k.id := (Function.block?_id hk').trans (Function.block?_id hk).symm
    have hinstr : k'.instructions = (k.widen as).instructions := by
      rw [hwiden, h.shaped.instructions hk', hbody]
    cases k'
    cases hid
    cases hl
    cases ht
    cases hinstr
    rfl
  extended := by
    intro id k hk hc
    obtain ⟨k', hk', hl, hbody⟩ := h.origin id k hk hc
    obtain ⟨as, has, hnil, hwiden⟩ := hs.widen h.shaped h.slots hk
    refine ⟨as, k', has, hnil, hk', hl, ?_⟩
    rw [hwiden, h.shaped.instructions hk']
    exact (List.prefix_append_right_inj _).mpr hbody
  ended id k hk hid hne := h.settled id k hk ((owns_iff hs.toNumbered).mpr hid) (by simp) hne
  cursor := by
    obtain ⟨id, k, hc, hk, hu⟩ := ho
    obtain ⟨j, _, hj, _, hown, _⟩ := h.cursor
    cases hc.symm.trans hj
    exact ⟨id, k, hc, hk, hu, (owns_iff hs.toNumbered).mp hown⟩
  entered := by
    intro id k s hk hm hnew
    by_cases hid : b.Owns id
    · rcases (owns_iff hs.toNumbered).mp hid with hc | hnone
      · exact .inl hc
      · refine .inr ⟨hnone, fun he => ?_⟩
        subst he
        exact (h.onward id k hk hid).1 hm
    · -- what was there before leads to what was there before
      obtain ⟨k₀, hk₀, _, _, ht⟩ := h.old hk hid
      rw [ht] at hm
      have hlt := hs.targets id k₀ hk₀ s hm
      exact absurd ((block?_eq_none_iff hs.toNumbered).mp hnew) (Nat.not_le.mpr hlt)
  left := by
    intro id k s hk hid hm
    have hle := h.inward id k hk ((owns_iff hs.toNumbered).mpr hid) s hm
    exact ⟨(block?_eq_none_iff hs.toNumbered).mpr hle,
      h.shaped.block? (h.shaped.targets id k hk s hm)⟩

end Builder

end TreeLang.Ir
