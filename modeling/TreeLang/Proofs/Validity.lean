import TreeLang.Proofs.Builder.Dominance
import TreeLang.Proofs.Outcome

namespace TreeLang.Ir

def Function.instructions (f : Function) : List Instruction :=
  f.blocks.flatMap (·.instructions)

/-- The type that an operand has in a function. A temporary has that of the instruction that defines
it, wherever this one stands; strings are not counted. -/
inductive Operand.TypedIn (f : Function) : Operand → Ty → Prop
  | temp {i : Instruction} {x : Nat} (hi : i ∈ f.instructions) (hx : i.result? = some (.temp x)) :
    TypedIn f (.temp x) i.resultType
  | param {n : Nat} {p : Param} (hp : f.params[n]? = some p) : TypedIn f (.param n) p.ty
  | constant (c : Constant) : TypedIn f (.constant c) c.ty
  | str (n : Nat) : TypedIn f (.str n) .ptr

def Function.HasSlot (f : Function) (slot : Nat) (ty : Ty) : Prop :=
  ∃ s, f.slots[slot]? = some s ∧ s.ty = ty

/-- A structurally valid function. -/
structure Function.Valid (f : Function) : Prop where
  /-- No temporary is the result of two instructions. -/
  definedOnce : f.instructions.Pairwise fun i j =>
    ∀ x, i.result? = some (.temp x) → j.result? ≠ some (.temp x)
  operands : ∀ i ∈ f.instructions, ∀ o ∈ i.operands, ∃ ty, o.TypedIn f ty
  /-- Allocas are the first instructions of the entry block. -/
  prologue : ∀ b ∈ f.blocks, ∀ pre i post, b.instructions = pre ++ i :: post → i.isAlloca = true →
    b.id = f.entry ∧ ∀ j ∈ pre, j.isAlloca = true
  loads : ∀ result slot ty, .load result slot ty ∈ f.instructions → f.HasSlot slot ty
  stores : ∀ slot value ty, .store slot value ty ∈ f.instructions →
    f.HasSlot slot ty ∧ value.TypedIn f ty
  ended : ∀ b ∈ f.blocks, b.terminator ≠ .unset
  /-- A value is returned exactly where the signature names a type for it. -/
  returnsNone : ∀ b ∈ f.blocks, b.terminator = .ret none → f.returns = .void
  returnsSome : ∀ b ∈ f.blocks, ∀ value, b.terminator = .ret (some value) →
    f.returns ≠ .void ∧ value.TypedIn f f.returns
  conditions : ∀ b ∈ f.blocks, ∀ condition thenBlock elseBlock,
    b.terminator = .branch condition thenBlock elseBlock → condition.TypedIn f .bool
  targets : ∀ b ∈ f.blocks, ∀ t ∈ b.terminator.successors, ∃ k ∈ f.blocks, k.id = t

theorem repeated?_eq_none_iff {seen : List Nat} {ds : List (Nat × Ty)} :
    repeated? seen ds = none ↔ (ds.map (·.1)).Nodup ∧ ∀ d ∈ ds, d.1 ∉ seen := by
  induction ds generalizing seen with
  | nil => simp [repeated?]
  | cons d ds ih =>
    obtain ⟨x, ty⟩ := d
    simp only [repeated?, List.map_cons, List.nodup_cons, List.forall_mem_cons]
    split
    · rename_i hseen
      exact ⟨nofun, fun h => absurd hseen h.2.1⟩
    · rename_i hseen
      rw [ih]
      constructor
      · rintro ⟨hnodup, hnew⟩
        refine ⟨⟨fun hx => ?_, hnodup⟩, hseen, fun d hd hm => hnew d hd (List.mem_cons_of_mem _ hm)⟩
        obtain ⟨d, hd, rfl⟩ := List.mem_map.mp hx
        exact hnew d hd List.mem_cons_self
      · rintro ⟨⟨hx, hnodup⟩, _, hnew⟩
        refine ⟨hnodup, fun d hd hm => ?_⟩
        rcases List.mem_cons.mp hm with rfl | hm
        · exact hx (List.mem_map.mpr ⟨d, hd, rfl⟩)
        · exact hnew d hd hm

theorem nodup_definitions_iff {is : List Instruction} : ((definitions is).map (·.1)).Nodup ↔
    is.Pairwise fun i j => ∀ x, i.result? = some (.temp x) → j.result? ≠ some (.temp x) := by
  induction is with
  | nil => simp [definitions]
  | cons i is ih =>
    have hmem : ∀ x, x ∈ (definitions is).map (·.1) ↔ ∃ j ∈ is, j.result? = some (.temp x) := by
      intro x
      simp only [List.mem_map, Prod.exists, exists_and_right, exists_eq_right, mem_definitions]
      constructor
      · rintro ⟨_, j, hj, hx, _⟩
        exact ⟨j, hj, hx⟩
      · rintro ⟨j, hj, hx⟩
        exact ⟨_, j, hj, hx, rfl⟩
    simp only [definitions, List.pairwise_cons]
    split
    · rename_i x hx
      rw [List.map_cons, List.nodup_cons, ih, hmem]
      refine and_congr_left fun _ => ⟨fun h j hj y hy hr => ?_, fun h => ?_⟩
      · rw [hx] at hy
        cases hy
        exact h ⟨j, hj, hr⟩
      · rintro ⟨j, hj, hr⟩
        exact h j hj x hx hr
    · rename_i hnone
      rw [ih]
      exact ⟨fun h => ⟨fun j _ x hx => absurd hx (hnone x), h⟩, fun h => h.2⟩

theorem mem_of_lookup {α : Type} {ds : List (Nat × α)} {x : Nat} {a : α} (h : ds.lookup x = some a) :
    (x, a) ∈ ds := by
  obtain ⟨before, behind, hsplit, _⟩ := List.lookup_eq_some_iff.mp h
  exact hsplit ▸ List.mem_append_right _ List.mem_cons_self

/-- A type that is found and then compared with the one expected. -/
theorem expected_iff {p : Ty → Prop} {ty : Ty} {fault : Ty → VerifyFault} :
    (∃ found, p found ∧
      (if found = ty then .ok () else .error (fault found) : Except VerifyFault Unit) = .ok ()) ↔
      p ty := by
  constructor
  · rintro ⟨found, hfound, heq⟩
    split at heq
    · rename_i hty
      exact hty ▸ hfound
    · cases heq
  · exact fun h => ⟨ty, h, if_pos rfl⟩

def Prologue (prologue : Prop) (is : List Instruction) : Prop :=
  ∀ pre i post, is = pre ++ i :: post → i.isAlloca = true →
    prologue ∧ ∀ j ∈ pre, j.isAlloca = true

/-- Allocas may stand where nothing else has come before. -/
theorem prologue_cons {prologue : Prop} {i : Instruction} {is : List Instruction} :
    Prologue prologue (i :: is) ↔
      (i.isAlloca = true → prologue) ∧ Prologue (prologue ∧ i.isAlloca = true) is := by
  constructor
  · refine fun h => ⟨fun hi => (h [] i is rfl hi).1, fun pre j post he hj => ?_⟩
    obtain ⟨hp, hpre⟩ := h (i :: pre) j post (congrArg (i :: ·) he) hj
    exact ⟨⟨hp, hpre i List.mem_cons_self⟩, fun k hk => hpre k (List.mem_cons_of_mem _ hk)⟩
  · rintro ⟨hi, h⟩ pre j post he hj
    cases pre with
    | nil =>
      cases he
      exact ⟨hi hj, fun k hk => absurd hk List.not_mem_nil⟩
    | cons k pre =>
      cases he
      obtain ⟨⟨hp, hk⟩, hpre⟩ := h pre j post rfl hj
      exact ⟨hp, List.forall_mem_cons.mpr ⟨hk, hpre⟩⟩

namespace Function

def Accepts (f : Function) : Instruction → Prop
  | .load _ slot ty => f.HasSlot slot ty
  | .store slot value ty => f.HasSlot slot ty ∧ value.TypedIn f ty
  | _ => True

def Ends (f : Function) : Terminator → Prop
  | .jump _ => True
  | .branch condition _ _ => condition.TypedIn f .bool
  | .ret none => f.returns = .void
  | .ret (some value) => f.returns ≠ .void ∧ value.TypedIn f f.returns
  | .unset => False

variable {f : Function} {id : Nat}

theorem verifyAccess_iff {slot : Nat} {ty : Ty} :
    f.verifyAccess slot ty = .ok () ↔ f.HasSlot slot ty := by
  unfold verifyAccess HasSlot slot?
  cases f.slots[slot]? with
  | none => simp
  | some s => simp

theorem verifyTargets_iff {ts : List Nat} :
    f.verifyTargets id ts = .ok () ↔ ∀ t ∈ ts, ∃ k ∈ f.blocks, k.id = t := by
  induction ts with
  | nil => simp [verifyTargets]
  | cons t ts ih =>
    rw [verifyTargets, List.forall_mem_cons, ← ih]
    split
    · rename_i hany
      simp only [List.any_eq_true, beq_iff_eq] at hany
      exact ⟨fun h => ⟨hany, h⟩, fun h => h.2⟩
    · rename_i hany
      simp only [List.any_eq_true, beq_iff_eq] at hany
      exact ⟨nofun, fun h => absurd h.1 hany⟩

section

variable (hnodup : (f.definitions.map (·.1)).Nodup)
include hnodup

/-- The check finds the type that the operand has. -/
theorem typeOf_iff {o : Operand} {ty : Ty} :
    f.typeOf f.definitions o = .ok ty ↔ o.TypedIn f ty := by
  constructor
  · intro ho
    cases o with
    | temp x =>
      simp only [typeOf] at ho
      split at ho
      · rename_i hlookup
        cases ho
        obtain ⟨i, hi, hx, rfl⟩ := mem_definitions.mp (mem_of_lookup hlookup)
        exact .temp hi hx
      · cases ho
    | param n =>
      simp only [typeOf] at ho
      split at ho
      · rename_i p hp
        cases ho
        exact .param hp
      · cases ho
    | constant c =>
      cases ho
      exact .constant c
    | str n =>
      cases ho
      exact .str n
  · intro ho
    cases ho with
    | temp hi hx =>
      simp [typeOf, lookup_of_nodup hnodup (mem_definitions.mpr ⟨_, hi, hx, rfl⟩)]
    | param hp => simp [typeOf, hp]
    | constant c => rfl
    | str n => rfl

theorem verifyOperands_iff {os : List Operand} :
    f.verifyOperands f.definitions os = .ok () ↔ ∀ o ∈ os, ∃ ty, o.TypedIn f ty := by
  induction os with
  | nil => simp [verifyOperands]
  | cons o os ih =>
    simp only [verifyOperands, bind_eq_ok, typeOf_iff hnodup, ih, List.forall_mem_cons,
      exists_and_right]

/-- A load and a store go to a slot of their type. -/
theorem verifyStorage_iff {i : Instruction} :
    f.verifyStorage f.definitions i = .ok () ↔ f.Accepts i := by
  cases i with
  | load result slot ty => exact verifyAccess_iff
  | store slot value ty =>
    simp only [verifyStorage, Accepts, bind_eq_ok, exists_unit, verifyAccess_iff,
      typeOf_iff hnodup, expected_iff]
  | alloca | binary | neg | cast | call => exact ⟨fun _ => trivial, fun _ => rfl⟩

/-- The order of instructions matters for allocas only. -/
theorem verifyInstructions_iff {prologue : Bool} {is : List Instruction} :
    f.verifyInstructions f.definitions id prologue is = .ok () ↔ Prologue (prologue = true) is ∧
      ∀ i ∈ is, (∀ o ∈ i.operands, ∃ ty, o.TypedIn f ty) ∧ f.Accepts i := by
  induction is generalizing prologue with
  | nil => simp [verifyInstructions, Prologue]
  | cons i is ih =>
    rw [prologue_cons, List.forall_mem_cons, verifyInstructions]
    split
    · rename_i hmis
      obtain ⟨ha, hp⟩ := Bool.and_eq_true_iff.mp hmis
      refine ⟨nofun, fun h => ?_⟩
      rw [h.1.1 ha] at hp
      cases hp
    · rename_i hplaced
      have hpro : i.isAlloca = true → prologue = true := by
        intro ha
        simpa [ha] using hplaced
      simp only [bind_eq_ok, exists_unit, verifyOperands_iff hnodup, verifyStorage_iff hnodup, ih,
        Bool.and_eq_true]
      constructor
      · rintro ⟨ho, hs, hpre, hrest⟩
        exact ⟨⟨hpro, hpre⟩, ⟨ho, hs⟩, hrest⟩
      · rintro ⟨⟨_, hpre⟩, ⟨ho, hs⟩, hrest⟩
        exact ⟨ho, hs, hpre, hrest⟩

/-- A terminator is there, leads to blocks of the function and returns what the function does. -/
theorem verifyTerminator_iff {b : Block} :
    f.verifyTerminator f.definitions b = .ok () ↔ f.Ends b.terminator := by
  unfold verifyTerminator
  cases b.terminator with
  | jump target => simp [Ends]
  | unset => simp [Ends]
  | branch condition thenBlock elseBlock =>
    simp only [Ends, bind_eq_ok, typeOf_iff hnodup]
    exact expected_iff
  | ret value =>
    cases value with
    | none => simp [verifyReturn, Ends]
    | some value =>
      simp only [verifyReturn, Ends]
      split
      · rename_i hvoid
        exact ⟨nofun, fun h => absurd hvoid h.1⟩
      · rename_i hvoid
        simp only [bind_eq_ok, typeOf_iff hnodup, expected_iff]
        exact ⟨fun h => ⟨hvoid, h⟩, fun h => h.2⟩

theorem verifyBlock_iff {b : Block} : f.verifyBlock f.definitions b = .ok () ↔
    (Prologue (b.id = f.entry) b.instructions ∧
      ∀ i ∈ b.instructions, (∀ o ∈ i.operands, ∃ ty, o.TypedIn f ty) ∧ f.Accepts i) ∧
    f.Ends b.terminator ∧ ∀ t ∈ b.terminator.successors, ∃ k ∈ f.blocks, k.id = t := by
  simp only [verifyBlock, bind_eq_ok, exists_unit, verifyInstructions_iff hnodup,
    verifyTerminator_iff hnodup, verifyTargets_iff, beq_iff_eq]

end

theorem verifyBlocks_iff {ds : List (Nat × Ty)} {bs : List Block} :
    f.verifyBlocks ds bs = .ok () ↔ ∀ b ∈ bs, f.verifyBlock ds b = .ok () := by
  induction bs with
  | nil => simp [verifyBlocks]
  | cons b bs ih => simp only [verifyBlocks, bind_eq_ok, exists_unit, ih, List.forall_mem_cons]

/-- The check collects the definitions of the whole body first, and then goes over its blocks. -/
theorem verify_eq_ok : f.verify = .ok () ↔ (f.definitions.map (·.1)).Nodup ∧
    ∀ b ∈ f.blocks, f.verifyBlock f.definitions b = .ok () := by
  have honce : repeated? [] f.definitions = none ↔ (f.definitions.map (·.1)).Nodup := by
    simp [repeated?_eq_none_iff]
  rw [← verifyBlocks_iff, ← honce]
  unfold verify
  cases repeated? [] f.definitions with
  | some x => simp
  | none =>
    cases f.verifyBlocks f.definitions f.blocks with
    | ok _ => exact ⟨fun _ => ⟨rfl, rfl⟩, fun _ => rfl⟩
    | error fault =>
      refine ⟨fun h => ?_, fun h => ?_⟩
      · cases h
      · cases h.2

/-- The check fails with its own kind of error, under the name of the function. -/
theorem verify_eq_error {e : Error} (h : f.verify = .error e) : ∃ fault, e = .verify f.name fault := by
  unfold verify at h
  split at h
  · cases h
    exact ⟨_, rfl⟩
  · cases hb : f.verifyBlocks f.definitions f.blocks with
    | ok u =>
      rw [hb] at h
      cases h
    | error fault =>
      rw [hb] at h
      cases h
      exact ⟨fault, rfl⟩

theorem valid_iff : f.Valid ↔ (f.definitions.map (·.1)).Nodup ∧ ∀ b ∈ f.blocks,
    (Prologue (b.id = f.entry) b.instructions ∧
      ∀ i ∈ b.instructions, (∀ o ∈ i.operands, ∃ ty, o.TypedIn f ty) ∧ f.Accepts i) ∧
    f.Ends b.terminator ∧ ∀ t ∈ b.terminator.successors, ∃ k ∈ f.blocks, k.id = t := by
  have hin : ∀ {i}, i ∈ f.instructions ↔ ∃ b ∈ f.blocks, i ∈ b.instructions := List.mem_flatMap
  constructor
  · intro h
    refine ⟨nodup_definitions_iff.mpr h.definedOnce, fun b hb =>
      ⟨⟨h.prologue b hb, fun i hi => ⟨h.operands i (hin.mpr ⟨b, hb, hi⟩), ?_⟩⟩, ?_, h.targets b hb⟩⟩
    · have hi : i ∈ f.instructions := hin.mpr ⟨b, hb, hi⟩
      cases i with
      | load result slot ty => exact h.loads result slot ty hi
      | store slot value ty => exact h.stores slot value ty hi
      | alloca | binary | neg | cast | call => trivial
    · cases ht : b.terminator with
      | jump target => trivial
      | unset => exact h.ended b hb ht
      | branch condition thenBlock elseBlock => exact h.conditions b hb _ _ _ ht
      | ret value =>
        cases value with
        | none => exact h.returnsNone b hb ht
        | some value => exact h.returnsSome b hb value ht
  · rintro ⟨hnodup, h⟩
    have haccepts : ∀ i ∈ f.instructions,
        (∀ o ∈ i.operands, ∃ ty, o.TypedIn f ty) ∧ f.Accepts i := by
      intro i hi
      obtain ⟨b, hb, hi⟩ := hin.mp hi
      exact (h b hb).1.2 i hi
    have hends : ∀ b ∈ f.blocks, ∀ t, b.terminator = t → f.Ends t :=
      fun b hb t ht => ht ▸ (h b hb).2.1
    exact
      { definedOnce := nodup_definitions_iff.mp hnodup
        operands := fun i hi => (haccepts i hi).1
        prologue := fun b hb => (h b hb).1.1
        loads := fun _ _ _ hi => (haccepts _ hi).2
        stores := fun _ _ _ hi => (haccepts _ hi).2
        ended := fun b hb => hends b hb _
        returnsNone := fun b hb => hends b hb _
        returnsSome := fun b hb _ => hends b hb _
        conditions := fun b hb _ _ _ => hends b hb _
        targets := fun b hb => (h b hb).2.2 }

theorem verify_eq_ok_iff : f.verify = .ok () ↔ f.Valid := by
  rw [verify_eq_ok, valid_iff]
  exact and_congr_right fun hnodup => forall₂_congr fun b _ => verifyBlock_iff hnodup

/-- The check passes exactly the valid functions, and refuses exactly the others by an error that
names the function. -/
theorem verify_decides_valid (f : Function) : (f.verify = .ok () ↔ f.Valid) ∧
    ((∃ fault, f.verify = .error (.verify f.name fault)) ↔ ¬ f.Valid) := by
  refine ⟨verify_eq_ok_iff, ?_⟩
  rw [← verify_eq_ok_iff]
  constructor
  · rintro ⟨fault, h⟩ hok
    rw [h] at hok
    cases hok
  · intro hinvalid
    cases hv : f.verify with
    | ok u => exact absurd hv hinvalid
    | error e =>
      obtain ⟨fault, rfl⟩ := verify_eq_error hv
      exact ⟨fault, rfl⟩

end Function

end TreeLang.Ir
