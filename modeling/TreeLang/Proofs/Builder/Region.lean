import TreeLang.Proofs.Builder.Steps

namespace TreeLang.Ir

namespace Builder

variable {b₀ b b' : Builder} {pending : List Nat} {id : Nat}

/-- The block at hand, or one that is yet to be made. -/
def Owns (b : Builder) (id : Nat) : Prop :=
  b.current = some id ∨ b.function.nextBlock ≤ id

def IsOpen (b : Builder) : Prop :=
  ∃ id k, b.current = some id ∧ b.function.block? id = some k ∧ k.terminator = .unset

namespace IsOpen

/-- An instruction does not end the block at hand. -/
theorem add (h : b.IsOpen) (i : Instruction) :
    IsOpen { b with function := b.function.updateBlock id (.add i) } := by
  obtain ⟨j, k, hj, hk, hu⟩ := h
  by_cases he : j = id
  · subst he
    exact ⟨j, k.add i, hj, Function.block?_add_self hk i, hu⟩
  · exact ⟨j, k, hj, (Function.block?_add_of_ne he).trans hk, hu⟩

theorem assign (h : b.IsOpen) (i : Instruction) :
    IsOpen { b with function := b.function.assign id i } :=
  h.add i

/-- An alloca goes to the top of the entry block, which may have ended long ago. -/
theorem reserve (h : b.IsOpen) (name : String) (ty : Ty) :
    IsOpen { b with function := b.function.reserve name ty } := by
  obtain ⟨j, k, hj, hk, hu⟩ := h
  obtain ⟨l, hl, -, -, hend⟩ := Function.block?_reserve_of_some hk name ty
  exact ⟨j, l, hj, hl, hend.trans hu⟩

theorem extend (h : b.IsOpen) (label : String) :
    IsOpen { b with function := b.function.extend label } := by
  obtain ⟨j, k, hj, hk, hu⟩ := h
  exact ⟨j, k, hj, Function.block?_extend_of_some hk label, hu⟩

end IsOpen

/-- What the builder `b` may be after work that began at `b₀`, with some blocks pending. -/
structure Grown (b₀ b : Builder) (pending : List Nat) : Prop where
  numbered : b₀.function.Numbered
  shaped : b.function.Shaped
  name : b.function.name = b₀.function.name
  params : b.function.params = b₀.function.params
  returns : b.function.returns = b₀.function.returns
  slots : b₀.function.slots <+: b.function.slots
  nextTemp : b₀.function.nextTemp ≤ b.function.nextTemp
  nextBlock : b₀.function.nextBlock ≤ b.function.nextBlock
  kept : ∀ id k, b₀.function.block? id = some k → b₀.current ≠ some id →
    ∃ k', b.function.block? id = some k' ∧ k.Same k'
  origin : ∀ id k, b₀.function.block? id = some k → b₀.current = some id →
    ∃ k', b.function.block? id = some k' ∧ k'.label = k.label ∧ k.body <+: k'.body
  cursor : ∃ id k, b.current = some id ∧ b.function.block? id = some k ∧ b₀.Owns id ∧ id ∉ pending
  waiting : ∀ id ∈ pending, b₀.function.nextBlock ≤ id ∧
    ∃ k, b.function.block? id = some k ∧ k.body = [] ∧ k.terminator = .unset
  settled : ∀ id k, b.function.block? id = some k → b₀.Owns id → id ∉ pending →
    b.current ≠ some id → k.terminator ≠ .unset
  inward : ∀ id k, b.function.block? id = some k → b₀.Owns id →
    ∀ t ∈ k.terminator.successors, b₀.function.nextBlock ≤ t

namespace Grown

variable {k : Block}

/-- Work begins with nothing pending and the cursor at an open block. -/
theorem refl (hs : b.function.Shaped) (ho : b.IsOpen) : Grown b b [] := by
  obtain ⟨id, k, hc, hk, ht⟩ := ho
  refine ⟨hs.toNumbered, hs, rfl, rfl, rfl, List.prefix_rfl, Nat.le_refl _, Nat.le_refl _, ?_, ?_,
    ⟨id, k, hc, hk, .inl hc, by simp⟩, by simp, ?_, ?_⟩
  · exact fun j l hl _ => ⟨l, hl, .refl l⟩
  · exact fun j l hl _ => ⟨l, hl, rfl, List.prefix_rfl⟩
  · rintro j l hl (hj | hj) _ hne
    · exact absurd hj hne
    · exact absurd (hs.lt hl) (by omega)
  · rintro j l hl (hj | hj) t hm
    · cases hc.symm.trans hj
      cases hk.symm.trans hl
      rw [ht] at hm
      cases hm
    · exact absurd (hs.lt hl) (by omega)

theorem block? (h : Grown b₀ b pending) (hk : b₀.function.block? id = some k) :
    ∃ k', b.function.block? id = some k' ∧ k'.label = k.label ∧ k.body <+: k'.body := by
  by_cases hc : b₀.current = some id
  · exact h.origin id k hk hc
  · obtain ⟨k', hk', hl, hb, _⟩ := h.kept id k hk hc
    exact ⟨k', hk', hl, hb ▸ List.prefix_rfl⟩

/-- What is owned later, at hand or yet to be made, was owned before. -/
theorem owns (h : Grown b₀ b pending) (hid : b.Owns id) : b₀.Owns id := by
  obtain ⟨j, _, hc, _, hj, _⟩ := h.cursor
  rcases hid with hid | hid
  · cases hc.symm.trans hid
    exact hj
  · exact .inr (Nat.le_trans h.nextBlock hid)

/-- The cursor never goes back to a block from before. -/
theorem current_ne (h : Grown b₀ b pending) (hk : b₀.function.block? id = some k)
    (hne : b₀.current ≠ some id) : b.current ≠ some id := by
  intro he
  have hlt := h.numbered.lt hk
  rcases h.owns (.inl he) with hj | hj
  · exact hne hj
  · omega

/-- A block that the work does not own is there from before. -/
theorem old (h : Grown b₀ b pending) (hk : b.function.block? id = some k) (ho : ¬ b₀.Owns id) :
    ∃ k₀, b₀.function.block? id = some k₀ ∧ k₀.Same k := by
  have hlt : id < b₀.function.nextBlock := by unfold Owns at ho; omega
  obtain ⟨k₀, hk₀⟩ := h.numbered.block? hlt
  obtain ⟨k', hk', hs⟩ := h.kept id k₀ hk₀ fun he => ho (.inl he)
  cases hk'.symm.trans hk
  exact ⟨k₀, hk₀, hs⟩

theorem current_ne_pending (h : Grown b₀ b pending) (hid : id ∈ pending) : b.current ≠ some id := by
  obtain ⟨j, _, hc, _, _, hj⟩ := h.cursor
  intro he
  cases hc.symm.trans he
  exact hj hid

theorem trans (h : Grown b₀ b pending) (h' : Grown b b' []) : Grown b₀ b' pending := by
  refine ⟨h.numbered, h'.shaped, h'.name.trans h.name, h'.params.trans h.params,
    h'.returns.trans h.returns, h.slots.trans h'.slots, Nat.le_trans h.nextTemp h'.nextTemp,
    Nat.le_trans h.nextBlock h'.nextBlock, ?_, ?_, ?_, ?_, ?_, ?_⟩
  · intro id k hk hne
    obtain ⟨k₁, hk₁, hs₁⟩ := h.kept id k hk hne
    obtain ⟨k₂, hk₂, hs₂⟩ := h'.kept id k₁ hk₁ (h.current_ne hk hne)
    exact ⟨k₂, hk₂, hs₁.trans hs₂⟩
  · intro id k hk hcur
    obtain ⟨k₁, hk₁, hl₁, hb₁⟩ := h.origin id k hk hcur
    obtain ⟨k₂, hk₂, hl₂, hb₂⟩ := h'.block? hk₁
    exact ⟨k₂, hk₂, hl₂.trans hl₁, hb₁.trans hb₂⟩
  · obtain ⟨i, k, hi, hk, ho, _⟩ := h'.cursor
    refine ⟨i, k, hi, hk, h.owns ho, fun hp => ?_⟩
    obtain ⟨_, l, hl, _⟩ := h.waiting i hp
    rcases ho with ho | ho
    · exact h.current_ne_pending hp ho
    · exact absurd (h'.numbered.lt hl) (by omega)
  · intro id hid
    obtain ⟨hle, k, hk, hb, ht⟩ := h.waiting id hid
    obtain ⟨k', hk', _, hb', ht'⟩ := h'.kept id k hk (h.current_ne_pending hid)
    exact ⟨hle, k', hk', hb'.trans hb, ht'.trans ht⟩
  · intro id k' hk' ho hp hne
    by_cases hid : b.Owns id
    · exact h'.settled id k' hk' hid (by simp) hne
    · obtain ⟨k, hk, _, _, ht⟩ := h'.old hk' hid
      rw [ht]
      exact h.settled id k hk ho hp fun he => hid (.inl he)
  · intro id k' hk' ho t hm
    by_cases hid : b.Owns id
    · exact Nat.le_trans h.nextBlock (h'.inward id k' hk' hid t hm)
    · obtain ⟨k, hk, _, _, ht⟩ := h'.old hk' hid
      rw [ht] at hm
      exact h.inward id k hk ho t hm

theorem congr {pending' : List Nat} (h : Grown b₀ b pending)
    (he : ∀ id, id ∈ pending ↔ id ∈ pending') : Grown b₀ b pending' := by
  obtain ⟨i, k, hi, hk, ho, hp⟩ := h.cursor
  exact { h with
    cursor := ⟨i, k, hi, hk, ho, fun hm => hp ((he i).mpr hm)⟩
    waiting := fun id hid => h.waiting id ((he id).mpr hid)
    settled := fun id k hk ho hp => h.settled id k hk ho fun hm => hp ((he id).mp hm) }

theorem extend (h : Grown b₀ b pending) (label : String) :
    Grown b₀ { b with function := b.function.extend label }
      (b.function.nextBlock :: pending) := by
  have hn := h.shaped.toNumbered
  have hfind : ∀ id k, b.function.block? id = some k →
      (b.function.extend label).block? id = some k :=
    fun id k hk => Function.block?_extend_of_some hk label
  refine { h with
    shaped := h.shaped.extend label
    nextBlock := Nat.le_succ_of_le h.nextBlock
    kept := fun id k hk hne => ?_
    origin := fun id k hk hc => ?_
    cursor := ?_
    waiting := fun id hid => ?_
    settled := fun id k hk ho hp hne => ?_
    inward := fun id k hk ho t hm => ?_ }
  · obtain ⟨k', hk', hs⟩ := h.kept id k hk hne
    exact ⟨k', hfind id k' hk', hs⟩
  · obtain ⟨k', hk', hl⟩ := h.origin id k hk hc
    exact ⟨k', hfind id k' hk', hl⟩
  · obtain ⟨i, k, hi, hk, ho, hp⟩ := h.cursor
    refine ⟨i, k, hi, hfind i k hk, ho, ?_⟩
    simp only [List.mem_cons, not_or]
    exact ⟨Nat.ne_of_lt (hn.lt hk), hp⟩
  · rcases List.mem_cons.mp hid with rfl | hid
    · refine ⟨h.nextBlock, .empty b.function.nextBlock label, ?_, rfl, rfl⟩
      rw [Function.block?_extend hn, if_pos rfl]
    · obtain ⟨hle, k, hk, hb, ht⟩ := h.waiting id hid
      exact ⟨hle, k, hfind id k hk, hb, ht⟩
  · simp only [List.mem_cons, not_or] at hp
    obtain ⟨he, -⟩ | ⟨-, hk⟩ := Function.of_block?_extend hn hk
    · exact absurd he hp.1
    · exact h.settled id k hk ho hp.2 hne
  · obtain ⟨-, rfl⟩ | ⟨-, hk⟩ := Function.of_block?_extend hn hk
    · cases hm
    · exact h.inward id k hk ho t hm

/-- Changing what one block holds, while its label and its end stay. -/
theorem reshape (h : Grown b₀ b pending) {f : Function} (hs : f.Shaped)
    (hname : f.name = b.function.name) (hparams : f.params = b.function.params)
    (hreturns : f.returns = b.function.returns) (hslots : b.function.slots <+: f.slots)
    (htemp : b.function.nextTemp ≤ f.nextTemp) (hblock : f.nextBlock = b.function.nextBlock)
    (hsame : ∀ id k, b.function.block? id = some k → b.current ≠ some id →
      ∃ k', f.block? id = some k' ∧ k.Same k')
    (hcur : ∀ id k, b.function.block? id = some k → b.current = some id →
      ∃ k', f.block? id = some k' ∧ k'.label = k.label ∧ k.body <+: k'.body ∧
        k'.terminator = k.terminator) :
    Grown b₀ { b with function := f } pending := by
  have hall : ∀ id k, b.function.block? id = some k →
      ∃ k', f.block? id = some k' ∧ k'.label = k.label ∧ k.body <+: k'.body ∧
        k'.terminator = k.terminator := by
    intro id k hk
    by_cases hc : b.current = some id
    · exact hcur id k hk hc
    · obtain ⟨k', hk', hl, hb, ht⟩ := hsame id k hk hc
      exact ⟨k', hk', hl, hb ▸ List.prefix_rfl, ht⟩
  have hback : ∀ id k', f.block? id = some k' →
      ∃ k, b.function.block? id = some k ∧ k'.terminator = k.terminator := by
    intro id k' hk'
    obtain ⟨k, hk⟩ := h.shaped.block? (hblock ▸ hs.lt hk')
    obtain ⟨l, hl, _, _, ht⟩ := hall id k hk
    cases hl.symm.trans hk'
    exact ⟨k, hk, ht⟩
  refine ⟨h.numbered, hs, hname.trans h.name, hparams.trans h.params, hreturns.trans h.returns,
    h.slots.trans hslots, Nat.le_trans h.nextTemp htemp, hblock ▸ h.nextBlock, ?_, ?_, ?_, ?_, ?_, ?_⟩
  · intro id k hk hne
    obtain ⟨k₁, hk₁, hs₁⟩ := h.kept id k hk hne
    obtain ⟨k₂, hk₂, hs₂⟩ := hsame id k₁ hk₁ (h.current_ne hk hne)
    exact ⟨k₂, hk₂, hs₁.trans hs₂⟩
  · intro id k hk hc
    obtain ⟨k₁, hk₁, hl₁, hb₁⟩ := h.origin id k hk hc
    obtain ⟨k₂, hk₂, hl₂, hb₂, _⟩ := hall id k₁ hk₁
    exact ⟨k₂, hk₂, hl₂.trans hl₁, hb₁.trans hb₂⟩
  · obtain ⟨i, k, hi, hk, ho, hp⟩ := h.cursor
    obtain ⟨k', hk', _⟩ := hall i k hk
    exact ⟨i, k', hi, hk', ho, hp⟩
  · intro id hid
    obtain ⟨hle, k, hk, hb, ht⟩ := h.waiting id hid
    obtain ⟨k', hk', _, hb', ht'⟩ := hsame id k hk (h.current_ne_pending hid)
    exact ⟨hle, k', hk', hb'.trans hb, ht'.trans ht⟩
  · intro id k' hk' ho hp hne
    obtain ⟨k, hk, ht⟩ := hback id k' hk'
    rw [ht]
    exact h.settled id k hk ho hp hne
  · intro id k' hk' ho t hm
    obtain ⟨k, hk, ht⟩ := hback id k' hk'
    rw [ht] at hm
    exact h.inward id k hk ho t hm

theorem reserve (h : Grown b₀ b pending) (name : String) (ty : Ty) :
    Grown b₀ { b with function := b.function.reserve name ty } pending := by
  refine h.reshape (h.shaped.reserve name ty) rfl rfl rfl (List.prefix_append _ _) (Nat.le_refl _)
    rfl (fun id k hk _ => Function.block?_reserve_of_some hk name ty) fun id k hk _ => ?_
  obtain ⟨k', hk', hl, hb, ht⟩ := Function.block?_reserve_of_some hk name ty
  exact ⟨k', hk', hl, hb ▸ List.prefix_rfl, ht⟩

/-- An instruction is put at the cursor, so it changes no block that was finished before. -/
theorem add (h : Grown b₀ b pending) {i : Instruction} (hi : i.isAlloca = false)
    (hc : b.current = some id) :
    Grown b₀ { b with function := b.function.updateBlock id (.add i) } pending := by
  refine h.reshape (h.shaped.add id hi) rfl rfl rfl List.prefix_rfl (Nat.le_refl _) rfl ?_ ?_
  · intro j k hk hne
    have hj : j ≠ id := fun he => hne (he ▸ hc)
    exact ⟨k, (Function.block?_add_of_ne hj).trans hk, .refl k⟩
  · intro j k hk hj
    cases hc.symm.trans hj
    exact ⟨k.add i, Function.block?_add_self hk i, rfl,
      Block.body_add hi k ▸ List.prefix_append _ _, rfl⟩

theorem assign (h : Grown b₀ b pending) {i : Instruction} (hi : i.isAlloca = false)
    (hc : b.current = some id) :
    Grown b₀ { b with function := b.function.assign id i } pending := by
  have ha := h.add hi hc
  exact { ha with
    shaped := h.shaped.assign hi
    nextTemp := Nat.le_succ_of_le h.nextTemp }

/-- The block at hand ends, and leads to blocks of the region. -/
theorem finish (h : Grown b₀ b pending) {t : Terminator} (hc : b.current = some id)
    (ht : ∀ s ∈ t.successors, b₀.function.nextBlock ≤ s ∧ s < b.function.nextBlock) :
    Grown b₀ { b with function := b.function.updateBlock id (.finish t) } pending := by
  have hother : ∀ j k, b.function.block? j = some k → j ≠ id →
      (b.function.updateBlock id (.finish t)).block? j = some k :=
    fun j k hk hne => (Function.block?_finish_of_ne hne).trans hk
  refine { h with
    shaped := h.shaped.finish fun s hs => (ht s hs).2
    kept := fun j k hk hne => ?_
    origin := fun j k hk hj => ?_
    cursor := ?_
    waiting := fun j hj => ?_
    settled := fun j k hk ho hp hne => ?_
    inward := fun j k hk ho s hs => ?_ }
  · obtain ⟨k', hk', hs⟩ := h.kept j k hk hne
    exact ⟨k', hother j k' hk' fun he => h.current_ne hk hne (he ▸ hc), hs⟩
  · obtain ⟨k', hk', hl, hb⟩ := h.origin j k hk hj
    change ∃ k', (b.function.updateBlock id (.finish t)).block? j = some k' ∧ _
    rw [Function.block?_finish, hk']
    split
    · exact ⟨_, rfl, hl, hb⟩
    · exact ⟨k', rfl, hl, hb⟩
  · obtain ⟨i, k, hi, hk, ho, hp⟩ := h.cursor
    cases hc.symm.trans hi
    exact ⟨id, k.finish t, hc, Function.block?_finish_self hk t, ho, hp⟩
  · obtain ⟨hle, k, hk, hb, hu⟩ := h.waiting j hj
    exact ⟨hle, k, hother j k hk fun he => h.current_ne_pending hj (he ▸ hc), hb, hu⟩
  · obtain ⟨rfl, -⟩ | ⟨-, hk⟩ := Function.of_block?_finish hk
    · exact absurd hc hne
    · exact h.settled j k hk ho hp hne
  · obtain ⟨-, l, -, rfl⟩ | ⟨-, hk⟩ := Function.of_block?_finish hk
    · exact (ht s hs).1
    · exact h.inward j k hk ho s hs

/-- Work goes on in a pending block once the block at hand has ended. -/
theorem switch {k : Block} (h : Grown b₀ b (id :: pending)) (hid : id ∉ pending)
    {j : Nat} (hj : b.current = some j) (hk : b.function.block? j = some k)
    (hset : k.terminator ≠ .unset) : Grown b₀ { b with current := some id } pending := by
  obtain ⟨hle, l, hl, _, _⟩ := h.waiting id List.mem_cons_self
  refine { h with
    cursor := ⟨id, l, rfl, hl, .inr hle, hid⟩
    waiting := fun i hi => h.waiting i (List.mem_cons_of_mem _ hi)
    settled := fun i m hm ho hp hne => ?_ }
  by_cases hij : b.current = some i
  · cases hj.symm.trans hij
    cases hk.symm.trans hm
    exact hset
  · have hne' : i ≠ id := fun he => hne (congrArg some he.symm)
    exact h.settled i m hm ho (by simp [hne', hp]) hij

end Grown

end Builder

end TreeLang.Ir
