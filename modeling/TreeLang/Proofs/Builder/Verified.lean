import TreeLang.Proofs.Validity

namespace TreeLang.Ir

/-- An alloca has nothing but allocas before it, and is in the entry block. -/
theorem Function.Hoisted.prologue {f : Function} (h : f.Hoisted) {id : Nat} {k : Block}
    (hk : f.block? id = some k) {pre post : List Instruction} {i : Instruction}
    (hi : k.instructions = pre ++ i :: post) (ha : i.isAlloca = true) :
    id = f.entry ∧ ∀ j ∈ pre, j.isAlloca = true := by
  have hbody : i ∉ k.body := by
    intro hm
    rw [Block.not_alloca_of_mem_body hm] at ha
    cases ha
  by_cases he : id = f.entry
  · refine ⟨he, ?_⟩
    subst he
    rw [h.entry k hk] at hi
    rcases List.append_eq_append_iff.mp hi with ⟨as, _, hrest⟩ | ⟨bs, heq, _⟩
    · refine absurd ?_ hbody
      rw [hrest]
      exact List.mem_append_right _ List.mem_cons_self
    · intro j hj
      refine Function.isAlloca_of_mem_allocas (f := f) ?_
      rw [heq]
      exact List.mem_append_left _ hj
  · refine absurd ?_ hbody
    rw [← h.others id k hk he, hi]
    exact List.mem_append_right _ List.mem_cons_self

namespace Certified

variable {callees : String → Option External} {strings : Nat} {g : Knowledge} {f : Function}
  {id : Nat} {k : Block}

/-- An operand that a certificate allows has the type that it has in the function as a whole. -/
theorem typedIn (h : Certified callees strings g f) (hlive : f.Live) (hk : f.block? id = some k)
    {pre post : List Instruction} (hi : k.instructions = pre ++ post) {o : Operand} {ty : Ty}
    (ho : o.HasType (f.surroundings callees strings) ((g id).after pre) ty) : o.TypedIn f ty :=
  (Function.typeOf_iff h.nodup).mp (h.typeOf hlive hk hi ho)

theorem hasSlot {slot : Nat} {ty : Ty}
    (h : (f.surroundings callees strings).slots[slot]? = some ty) : f.HasSlot slot ty := by
  simpa [Function.surroundings, Function.HasSlot] using h

/-- The check accepts every instruction that is legal where it stands. -/
theorem accepts (h : Certified callees strings g f) (hlive : f.Live) (hk : f.block? id = some k)
    {pre post : List Instruction} {i : Instruction} (hi : k.instructions = pre ++ i :: post) :
    f.Accepts i := by
  have hlegal := h.legal_at hk hi
  cases i with
  | load => exact hasSlot hlegal
  | store => exact ⟨hasSlot hlegal.1, h.typedIn hlive hk hi hlegal.2⟩
  | alloca | binary | neg | cast | call => trivial

/-- A block that has ended ends as its function returns. -/
theorem ends_of_set (h : Certified callees strings g f) (hlive : f.Live) (hk : f.block? id = some k)
    (hset : k.terminator ≠ .unset) : f.Ends k.terminator := by
  have hlegal := h.ends id k hk
  rw [after_body] at hlegal
  have htyped : ∀ {o : Operand} {ty : Ty},
      o.HasType (f.surroundings callees strings) ((g id).after k.instructions) ty →
      o.TypedIn f ty := h.typedIn hlive hk (List.append_nil _).symm
  cases ht : k.terminator with
  | jump => trivial
  | unset => exact absurd ht hset
  | branch condition =>
    rw [ht] at hlegal
    exact htyped hlegal
  | ret value =>
    rw [ht] at hlegal
    cases value with
    | none => exact hlegal
    | some v => exact ⟨hlegal.1, htyped hlegal.2⟩

/-- A certified function is valid where all its blocks can be reached, have ended and lead on to
blocks of it. -/
theorem valid (h : Certified callees strings g f) (hlive : f.Live) (hh : f.Hoisted)
    (hnodup : (f.blocks.map (·.id)).Nodup) (hset : ∀ k ∈ f.blocks, k.terminator ≠ .unset)
    (htargets : ∀ id k, f.block? id = some k → ∀ t ∈ k.terminator.successors,
      ∃ k', f.block? t = some k') : f.Valid := by
  refine Function.valid_iff.mpr ⟨h.nodup, fun k hk => ?_⟩
  have hfind := Function.block?_of_mem hnodup hk
  refine ⟨⟨fun pre i post hi ha => hh.prologue hfind hi ha, fun i hi => ?_⟩,
    h.ends_of_set hlive hfind (hset k hk), fun t ht => ?_⟩
  · obtain ⟨pre, post, hsplit⟩ := List.append_of_mem hi
    refine ⟨fun o ho => ?_, h.accepts hlive hfind hsplit⟩
    obtain ⟨ty, hty⟩ := (h.legal_at hfind hsplit).operand ho
    exact ⟨ty, h.typedIn hlive hfind hsplit hty⟩
  · obtain ⟨k', hk'⟩ := htargets k.id k hfind t ht
    exact ⟨k', Function.mem_of_block? hk', Function.block?_id hk'⟩

end Certified

/-- A certified function is valid without its unreachable blocks, if the others have all ended. -/
theorem Builder.build_prune {callees : String → Option External} {strings : Nat} {g : Knowledge}
    {b : Builder} (h : Certified callees strings g b.function) (hs : b.function.Shaped)
    (hset : ∀ id k, b.function.block? id = some k → b.function.graph.Reached id →
      k.terminator ≠ .unset) : b.prune.build = .ok b.prune.function := by
  have hc := certified_prune h
  have hlive := live_prune (b := b)
  have hhoisted : b.prune.function.Hoisted :=
    ⟨fun k hk => hs.hoisted.entry k (block?_prune.mp hk).1,
      fun id k hk => hs.hoisted.others id k (block?_prune.mp hk).1⟩
  have hset : ∀ k ∈ b.prune.function.blocks, k.terminator ≠ .unset := by
    intro k hk
    obtain ⟨hk', hr⟩ := block?_prune.mp (Function.block?_of_mem (numbered_prune hs) hk)
    exact hset k.id k hk' hr
  have hverify : b.prune.function.verify = .ok () := Function.verify_eq_ok_iff.mpr
    (hc.valid hlive hhoisted (numbered_prune hs) hset fun _ _ hk _ ht => target_prune hs hk ht)
  simp only [build, hverify, bind, Except.bind, pure, Except.pure]

end TreeLang.Ir
