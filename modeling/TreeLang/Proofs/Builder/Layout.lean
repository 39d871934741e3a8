import TreeLang.Proofs.Builder.Certificate

namespace TreeLang.Ir.Builder

variable {callees : String → Option External} {strings strings' : Nat} {g₀ g g' : Knowledge}
  {b₀ b b' : Builder} {pending : List Nat} {id : Nat} {k : Block}

def known (b : Builder) (g : Knowledge) : Temps :=
  fun x ty => ∃ id k, b.current = some id ∧ b.function.block? id = some k ∧
    (g id).after k.body x ty

/-- At the cursor everything is known that the block at hand knows at its beginning or defines. -/
theorem known_eq (hc : b.current = some id) (hk : b.function.block? id = some k) :
    b.known g = (g id).after k.body := by
  funext x ty
  refine propext ⟨?_, fun h => ⟨id, k, hc, hk, h⟩⟩
  rintro ⟨j, l, hj, hl, h⟩
  cases hc.symm.trans hj
  cases hk.symm.trans hl
  exact h

/-- What the builder may be after work that began at `b₀`, with the knowledge it has by then. A
pending block begins with what was known at `b₀`. -/
structure Laid (callees : String → Option External) (strings : Nat) (g₀ : Knowledge)
    (b₀ : Builder) (g : Knowledge) (b : Builder) (pending : List Nat) : Prop
    extends Grown b₀ b pending where
  certified : Certified callees strings g b.function
  before : ∀ id, id < b₀.function.nextBlock → g id = g₀ id
  known : ∀ x ty, b₀.known g₀ x ty → b.known g x ty
  promised : ∀ id ∈ pending, g id = b₀.known g₀

namespace Laid

theorem refl (hs : b.function.Shaped) (ho : b.IsOpen) (hc : Certified callees strings g b.function) :
    Laid callees strings g b g b [] :=
  ⟨.refl hs ho, hc, fun _ _ => rfl, fun _ _ h => h, by simp⟩

theorem mono (h : Laid callees strings g₀ b₀ g b pending) (hs : strings ≤ strings') :
    Laid callees strings' g₀ b₀ g b pending :=
  { h with certified := h.certified.mono hs }

theorem lt_of_pending (h : Grown b₀ b pending) (hid : id ∈ pending) : id < b.function.nextBlock := by
  obtain ⟨_, k, hk, _⟩ := h.waiting id hid
  exact h.shaped.lt hk

/-- The pending blocks of the first work have to be dealt with before the second begins. -/
theorem trans (h : Laid callees strings g₀ b₀ g b pending)
    (h' : Laid callees strings' g b g' b' []) : Laid callees strings' g₀ b₀ g' b' pending where
  toGrown := h.toGrown.trans h'.toGrown
  certified := h'.certified
  before id hid := (h'.before id (Nat.lt_of_lt_of_le hid h.nextBlock)).trans (h.before id hid)
  known x ty hx := h'.known x ty (h.known x ty hx)
  promised id hid := (h'.before id (lt_of_pending h.toGrown hid)).trans (h.promised id hid)

/-- The order in which blocks are pending does not matter. -/
theorem congr {pending' : List Nat} (h : Laid callees strings g₀ b₀ g b pending)
    (he : ∀ id, id ∈ pending ↔ id ∈ pending') : Laid callees strings g₀ b₀ g b pending' where
  toGrown := h.toGrown.congr he
  certified := h.certified
  before := h.before
  known := h.known
  promised id hid := h.promised id ((he id).mpr hid)

theorem extend (h : Laid callees strings g₀ b₀ g b pending) (label : String) :
    Laid callees strings g₀ b₀
      (fun id => if id = b.function.nextBlock then b₀.known g₀ else g id)
      { b with function := b.function.extend label } (b.function.nextBlock :: pending) where
  toGrown := h.toGrown.extend label
  certified := h.certified.extend h.shaped label _ fun x ty hx => by
    obtain ⟨id, k, _, hk, hy⟩ := h.known x ty hx
    rcases hy with hy | hy
    · exact (h.certified.ordered id k hk x ty hy).1
    · rw [Block.definitions_body] at hy
      exact h.certified.below _ (Function.mem_definitions_of_block (Function.mem_of_block? hk) hy)
  before id hid := by
    rw [if_neg (Nat.ne_of_lt (Nat.lt_of_lt_of_le hid h.nextBlock))]
    exact h.before id hid
  known x ty hx := by
    obtain ⟨id, k, hc, hk, hy⟩ := h.known x ty hx
    refine ⟨id, k, hc, Function.block?_extend_of_some hk label, ?_⟩
    simp only [if_neg (Nat.ne_of_lt (h.shaped.lt hk))]
    exact hy
  promised id hid := by
    rcases List.mem_cons.mp hid with rfl | hid
    · exact if_pos rfl
    · rw [if_neg (Nat.ne_of_lt (lt_of_pending h.toGrown hid))]
      exact h.promised id hid

theorem reserve (h : Laid callees strings g₀ b₀ g b pending) (name : String) {ty : Ty}
    (hv : ty ≠ .void) (hb : ty ≠ .bool) :
    Laid callees strings g₀ b₀ g { b with function := b.function.reserve name ty } pending where
  toGrown := h.toGrown.reserve name ty
  certified := h.certified.reserve hv hb
  before := h.before
  known x ty' hx := by
    obtain ⟨id, k, hc, hk, hy⟩ := h.known x ty' hx
    obtain ⟨l, hl, -, hbody, -⟩ := Function.block?_reserve_of_some hk name ty
    exact ⟨id, l, hc, hl, hbody.symm ▸ hy⟩
  promised := h.promised

theorem add (h : Laid callees strings g₀ b₀ g b pending) {i : Instruction}
    (hi : i.isAlloca = false) (hres : i.result? = none) (hc : b.current = some id)
    (hlegal : i.Legal (b.function.surroundings callees strings) (b.known g)) :
    Laid callees strings g₀ b₀ g
      { b with function := b.function.updateBlock id (.add i) } pending := by
  obtain ⟨j, k, hj, hk, _⟩ := h.cursor
  cases hc.symm.trans hj
  rw [known_eq hc hk] at hlegal
  refine { toGrown := h.toGrown.add hi hc, before := h.before, promised := h.promised,
           certified := ?_, known := ?_ }
  · have hadd := h.certified.add h.shaped.toNumbered hk hi hlegal (Nat.le_refl _)
      (fun o ho => by simp [hres] at ho)
    exact hadd
  · intro x ty hx
    refine ⟨id, k.add i, hc, Function.block?_add_self hk i, ?_⟩
    rw [Block.body_add hi, Temps.after_append]
    exact .inl (known_eq hc hk ▸ h.known x ty hx)

/-- An instruction that defines the next temporary. -/
theorem assign (h : Laid callees strings g₀ b₀ g b pending) {i : Instruction}
    (hi : i.isAlloca = false) (hres : i.result? = some (.temp b.function.nextTemp))
    (hc : b.current = some id)
    (hlegal : i.Legal (b.function.surroundings callees strings) (b.known g)) :
    Laid callees strings g₀ b₀ g { b with function := b.function.assign id i } pending := by
  obtain ⟨j, k, hj, hk, _⟩ := h.cursor
  cases hc.symm.trans hj
  rw [known_eq hc hk] at hlegal
  refine { toGrown := h.toGrown.assign hi hc, before := h.before, promised := h.promised,
           certified := ?_, known := ?_ }
  · refine h.certified.add h.shaped.toNumbered hk hi hlegal (Nat.le_succ _) fun o ho => ?_
    rw [hres, Option.mem_some_iff] at ho
    exact ⟨ho.symm, Nat.lt_succ_self _⟩
  · intro x ty hx
    refine ⟨id, k.add i, hc, Function.block?_add_self hk i, ?_⟩
    rw [Block.body_add hi, Temps.after_append]
    exact .inl (known_eq hc hk ▸ h.known x ty hx)

/-- What an instruction defines is known behind it. -/
theorem known_assign (h : Grown b₀ b pending) {i : Instruction} (hi : i.isAlloca = false)
    (hres : i.result? = some (.temp b.function.nextTemp)) (hc : b.current = some id) :
    Builder.known { b with function := b.function.assign id i } g b.function.nextTemp
      i.resultType := by
  obtain ⟨j, k, hj, hk, _⟩ := h.cursor
  cases hc.symm.trans hj
  refine ⟨id, k.add i, hc, Function.block?_add_self hk i, ?_⟩
  rw [Block.body_add hi, Temps.after_append]
  exact .inr (by simp [definitions, hres])

/-- The block at hand ends. Its targets are blocks of the region that begin with no more than was
known where the region began. -/
theorem finish (h : Laid callees strings g₀ b₀ g b pending) {t : Terminator}
    (hc : b.current = some id)
    (hlegal : t.Legal (b.function.surroundings callees strings) (b.known g))
    (ht : ∀ s ∈ t.successors, b₀.function.nextBlock ≤ s ∧ s < b.function.nextBlock ∧
      g s = b₀.known g₀) :
    Laid callees strings g₀ b₀ g
      { b with function := b.function.updateBlock id (.finish t) } pending := by
  obtain ⟨j, k, hj, hk, _⟩ := h.cursor
  cases hc.symm.trans hj
  rw [known_eq hc hk] at hlegal
  refine { toGrown := h.toGrown.finish hc fun s hs => ⟨(ht s hs).1, (ht s hs).2.1⟩,
           before := h.before, promised := h.promised, certified := ?_, known := ?_ }
  · refine h.certified.finish hk hlegal fun s hs x ty hx => ?_
    rw [(ht s hs).2.2] at hx
    exact known_eq hc hk ▸ h.known x ty hx
  · exact fun x ty hx =>
      ⟨id, k.finish t, hc, Function.block?_finish_self hk t, known_eq hc hk ▸ h.known x ty hx⟩

/-- Work goes on in a pending block once the block at hand has ended. -/
theorem switch (h : Laid callees strings g₀ b₀ g b (id :: pending)) (hid : id ∉ pending)
    {j : Nat} (hj : b.current = some j) (hk : b.function.block? j = some k)
    (hset : k.terminator ≠ .unset) :
    Laid callees strings g₀ b₀ g { b with current := some id } pending where
  toGrown := h.toGrown.switch hid hj hk hset
  certified := h.certified
  before := h.before
  known x ty hx := by
    obtain ⟨_, l, hl, _⟩ := h.waiting id List.mem_cons_self
    refine ⟨id, l, rfl, hl, .inl ?_⟩
    rw [h.promised id List.mem_cons_self]
    exact hx
  promised i hi := h.promised i (List.mem_cons_of_mem _ hi)

end Laid

end TreeLang.Ir.Builder
