import TreeLang.Proofs.Builder.Effects

namespace TreeLang.Ir

namespace Operation

def makesBlock : Operation → Bool
  | createBlock _ => true
  | _ => false

def makesSlot : Operation → Bool
  | alloca .. => true
  | _ => false

variable {op : Operation} {f : Function}

/-- Only operations about the block at hand emit instructions. -/
theorem isLocal_of_instruction? {i : Instruction} (h : op.instruction? f = some i) :
    op.isLocal = true := by
  cases op with
  | createBlock | switchTo | alloca | prune => cases h
  | _ => rfl

theorem isLocal_of_terminator? {t : Terminator} (h : op.terminator? = some t) :
    op.isLocal = true := by
  cases op with
  | createBlock | switchTo | alloca | prune => cases h
  | _ => rfl

theorem makesBlock_of_isLocal (h : op.isLocal = true) : op.makesBlock = false := by
  cases op with
  | createBlock => cases h
  | _ => rfl

/-- An instruction that an operation emits is no alloca. -/
theorem isAlloca_of_instruction? {i : Instruction} (h : op.instruction? f = some i) :
    i.isAlloca = false := by
  cases op with
  | cast value source target =>
    simp only [instruction?] at h
    split at h
    · cases h
      rfl
    · cases h
  | createBlock | switchTo | alloca | jump | branch | ret | prune => cases h
  | load | store | binary | neg | call => cases h; rfl

end Operation

def Answer.block? : Answer → Option Nat
  | block id => some id
  | _ => none

/-- The numbers of the blocks that were made, as they were answered. -/
def numbers (answers : List (Except Error Answer)) : List Nat :=
  answers.filterMap fun answer => answer.toOption.bind Answer.block?

theorem numbers_error (e : Error) (answers : List (Except Error Answer)) :
    numbers (.error e :: answers) = numbers answers :=
  rfl

/-- Each answer has at most one number of a block. -/
theorem numbers_ok (a : Answer) (answers : List (Except Error Answer)) :
    numbers (.ok a :: answers) = a.block?.toList ++ numbers answers := by
  cases a <;> rfl

/-- The block as it is later. Once it has a terminator it keeps it. -/
structure Block.Later (k k' : Block) : Prop where
  label : k'.label = k.label
  body : k.body <+: k'.body
  terminator : k.terminator = .unset ∨ k'.terminator = k.terminator

namespace Block.Later

theorem refl (k : Block) : k.Later k := ⟨rfl, List.prefix_rfl, .inr rfl⟩

theorem trans {k k' k'' : Block} (h : k.Later k') (h' : k'.Later k'') : k.Later k'' where
  label := h'.label.trans h.label
  body := h.body.trans h'.body
  terminator := by
    rcases h.terminator with hu | ht
    · exact .inl hu
    · exact h'.terminator.imp (fun hu => ht ▸ hu) fun ht' => ht'.trans ht

theorem add {i : Instruction} (hi : i.isAlloca = false) (k : Block) : k.Later (k.add i) :=
  ⟨rfl, by rw [body_add hi]; exact List.prefix_append _ _, .inr rfl⟩

theorem hoist {a : Instruction} (ha : a.isAlloca = true) (k : Block) : k.Later (k.hoist a) :=
  ⟨rfl, body_hoist ha k ▸ List.prefix_rfl, .inr rfl⟩

/-- A terminator is set once; the block keeps it from then on. -/
theorem finish {k : Block} (hu : k.terminator = .unset) (t : Terminator) : k.Later (k.finish t) :=
  ⟨rfl, List.prefix_rfl, .inl hu⟩

end Block.Later

namespace Builder

variable {b b' b'' : Builder} {op : Operation} {a : Answer} {id : Nat} {k : Block}

/-- The builder as it is later. A number that was free for a block or a temporary may be taken, but
one that was taken never stands for another block: the block is gone, or is what has become of it. -/
structure Later (b b' : Builder) : Prop where
  entry : b'.function.entry = b.function.entry
  nextBlock : b.function.nextBlock ≤ b'.function.nextBlock
  nextTemp : b.function.nextTemp ≤ b'.function.nextTemp
  slots : b.function.slots <+: b'.function.slots
  block : ∀ id < b.function.nextBlock, ∀ k', b'.function.block? id = some k' →
    ∃ k, b.function.block? id = some k ∧ k.Later k'

namespace Later

theorem refl (b : Builder) : b.Later b :=
  ⟨rfl, Nat.le_refl _, Nat.le_refl _, List.prefix_rfl, fun _ _ k hk => ⟨k, hk, .refl k⟩⟩

theorem trans (h : b.Later b') (h' : b'.Later b'') : b.Later b'' where
  entry := h'.entry.trans h.entry
  nextBlock := Nat.le_trans h.nextBlock h'.nextBlock
  nextTemp := Nat.le_trans h.nextTemp h'.nextTemp
  slots := h.slots.trans h'.slots
  block id hid k'' hk'' := by
    obtain ⟨k', hk', hlater'⟩ := h'.block id (Nat.lt_of_lt_of_le hid h.nextBlock) k'' hk''
    obtain ⟨k, hk, hlater⟩ := h.block id hid k' hk'
    exact ⟨k, hk, hlater.trans hlater'⟩

theorem of_update {f : Function} {g : Block → Block}
    (hentry : f.entry = b.function.entry) (hnext : f.nextBlock = b.function.nextBlock)
    (htemp : b.function.nextTemp ≤ f.nextTemp) (hslots : b.function.slots <+: f.slots)
    (hfind : ∀ j, f.block? j = if j = id then (b.function.block? j).map g else b.function.block? j)
    (hg : ∀ k, b.function.block? id = some k → k.Later (g k)) :
    b.Later { b with function := f } where
  entry := hentry
  nextBlock := Nat.le_of_eq hnext.symm
  nextTemp := htemp
  slots := hslots
  block j _ k' hk' := by
    change f.block? j = some k' at hk'
    rw [hfind] at hk'
    split at hk'
    · rename_i hj
      subst hj
      obtain ⟨k, hk, rfl⟩ := Option.map_eq_some_iff.mp hk'
      exact ⟨k, hk, hg k hk⟩
    · exact ⟨k', hk', .refl k'⟩

theorem extend (b : Builder) (label : String) :
    b.Later { b with function := b.function.extend label } where
  entry := rfl
  nextBlock := Nat.le_succ _
  nextTemp := Nat.le_refl _
  slots := List.prefix_rfl
  block id hid k' hk' := by
    change (b.function.extend label).block? id = some k' at hk'
    rw [Function.block?_extend_or, if_neg (Nat.ne_of_lt hid), Option.or_none] at hk'
    exact ⟨k', hk', .refl k'⟩

/-- Pruning drops blocks and changes none that is left. -/
theorem prune (b : Builder) : b.Later b.prune where
  entry := rfl
  nextBlock := Nat.le_refl _
  nextTemp := Nat.le_refl _
  slots := List.prefix_rfl
  block _ _ k' hk' := ⟨k', (block?_prune.mp hk').1, .refl k'⟩

end Later

namespace Effect

/-- What holds of a new builder holds behind every effect. -/
theorem regular (h : b.Regular) (he : b.Effect op a b') : b'.Regular := by
  cases he with
  | createBlock label => exact h.extend label
  | switchTo hk => exact h.move hk
  | alloca name _ => exact h.reserve name _
  | keep => exact h
  | add hi hr _ _ hk => exact h.add hk (Operation.isAlloca_of_instruction? hi) hr
  | assign hi hr _ hk => exact h.assign hk (Operation.isAlloca_of_instruction? hi) hr
  | finish _ _ _ _ => exact h.finish _ _
  | prune => exact h.prune

/-- A later builder has what is left of the blocks of an earlier one, and each of them has only grown.
-/
theorem later (he : b.Effect op a b') : b.Later b' := by
  cases he with
  | createBlock label => exact .extend b label
  | switchTo | keep => exact ⟨rfl, Nat.le_refl _, Nat.le_refl _, List.prefix_rfl,
      fun _ _ k hk => ⟨k, hk, .refl k⟩⟩
  | alloca name _ =>
    exact .of_update rfl rfl (Nat.le_refl _) (List.prefix_append _ _)
      (fun _ => Function.block?_reserve) fun k _ => .hoist rfl k
  | add hi _ _ _ _ =>
    exact .of_update rfl rfl (Nat.le_refl _) List.prefix_rfl (fun _ => Function.block?_add)
      fun k _ => .add (Operation.isAlloca_of_instruction? hi) k
  | assign hi _ _ _ =>
    exact .of_update rfl rfl (Nat.le_succ _) List.prefix_rfl (fun _ => Function.block?_assign)
      fun k _ => .add (Operation.isAlloca_of_instruction? hi) k
  | finish _ _ hk hu =>
    refine .of_update rfl rfl (Nat.le_refl _) List.prefix_rfl (fun _ => Function.block?_finish)
      fun l hl => .finish ?_ _
    cases hk.symm.trans hl
    exact hu
  | prune => exact .prune b

/-- A block that is made takes the next number, and only the block at hand takes a temporary. -/
theorem counts (he : b.Effect op a b') :
    a.block?.toList = (if op.makesBlock then [b.function.nextBlock] else []) ∧
      b'.function.nextBlock = b.function.nextBlock + (if op.makesBlock then 1 else 0) ∧
      b'.function.nextTemp ≤ b.function.nextTemp + (if op.isLocal then 1 else 0) ∧
      b'.function.slots.length ≤ b.function.slots.length + (if op.makesSlot then 1 else 0) := by
  cases he with
  | createBlock => exact ⟨rfl, rfl, Nat.le_refl _, Nat.le_refl _⟩
  | switchTo | prune => exact ⟨rfl, rfl, Nat.le_refl _, Nat.le_refl _⟩
  | keep => exact ⟨rfl, rfl, Nat.le_succ _, Nat.le_refl _⟩
  | alloca name _ =>
    exact ⟨rfl, rfl, Nat.le_refl _, Nat.le_of_eq (List.length_append)⟩
  | add hi _ ha _ _ =>
    rw [Operation.makesBlock_of_isLocal (Operation.isLocal_of_instruction? hi)]
    refine ⟨?_, rfl, Nat.le_add_right _ _, Nat.le_add_right _ _⟩
    rcases ha with rfl | rfl <;> rfl
  | assign hi _ _ _ =>
    have hl := Operation.isLocal_of_instruction? hi
    rw [Operation.makesBlock_of_isLocal hl, hl]
    exact ⟨rfl, rfl, Nat.le_refl _, Nat.le_add_right _ _⟩
  | finish ht _ _ _ =>
    rw [Operation.makesBlock_of_isLocal (Operation.isLocal_of_terminator? ht)]
    exact ⟨rfl, rfl, Nat.le_add_right _ _, Nat.le_add_right _ _⟩

end Effect

theorem Refuses.makesBlock {e : Error} (h : b.Refuses op e) : op.makesBlock = false := by
  cases h with
  | missing | void | conversion => rfl
  | nowhere ho _ => exact Operation.makesBlock_of_isLocal ho
  | terminated ht _ _ _ => exact Operation.makesBlock_of_isLocal (Operation.isLocal_of_terminator? ht)

/-- An operation is refused with a reason and changes nothing, or is carried out and has its effect. -/
theorem step_cases (h : b.Regular) (op : Operation) :
    (∃ e, b.Refuses op e ∧ op.step b = (.error e, b)) ∨
      ∃ a b', b.Effect op a b' ∧ op.step b = (.ok a, b') := by
  rcases hs : op.step b with ⟨answer, b'⟩
  cases answer with
  | error e =>
    obtain ⟨rfl, hr⟩ := Operation.step_error h hs
    exact .inl ⟨e, hr, rfl⟩
  | ok a => exact .inr ⟨a, b', Operation.step_ok h hs, rfl⟩

/-- The run lemma of `regular`, those operations among them that are refused. -/
theorem perform_regular (h : b.Regular) (ops : List Operation) : (b.perform ops).2.Regular := by
  induction ops generalizing b with
  | nil => exact h
  | cons op ops ih =>
    rcases step_cases h op with ⟨e, _, hs⟩ | ⟨a, b', he, hs⟩
    · simpa only [perform, hs] using ih h
    · simpa only [perform, hs] using ih (he.regular h)

/-- The run lemma of `later`. -/
theorem perform_later (h : b.Regular) (ops : List Operation) : b.Later (b.perform ops).2 := by
  induction ops generalizing b with
  | nil => exact .refl b
  | cons op ops ih =>
    rcases step_cases h op with ⟨e, _, hs⟩ | ⟨a, b', he, hs⟩
    · simpa only [perform, hs] using ih h
    · simpa only [perform, hs] using he.later.trans (ih (he.regular h))

/-- Blocks are numbered in the order in which they are made, from the first number that is free. -/
theorem perform_counts (h : b.Regular) (ops : List Operation) :
    numbers (b.perform ops).1 =
        List.range' b.function.nextBlock (ops.countP Operation.makesBlock) ∧
      (b.perform ops).2.function.nextBlock =
        b.function.nextBlock + ops.countP Operation.makesBlock ∧
      (b.perform ops).2.function.nextTemp ≤
        b.function.nextTemp + ops.countP Operation.isLocal ∧
      (b.perform ops).2.function.slots.length ≤
        b.function.slots.length + ops.countP Operation.makesSlot := by
  induction ops generalizing b with
  | nil => exact ⟨rfl, rfl, Nat.le_refl _, Nat.le_refl _⟩
  | cons op ops ih =>
    simp only [List.countP_cons]
    rcases step_cases h op with ⟨e, hr, hs⟩ | ⟨a, b', he, hs⟩
    · obtain ⟨hnum, hblock, htemp, hslot⟩ := ih h
      simp only [perform, hs, hr.makesBlock]
      exact ⟨(numbers_error e _).trans hnum, hblock, by omega, by omega⟩
    · obtain ⟨hnum, hblock, htemp, hslot⟩ := ih (he.regular h)
      obtain ⟨ha, hb, ht, hl⟩ := he.counts
      simp only [perform, hs]
      refine ⟨?_, by omega, by omega, by omega⟩
      rw [numbers_ok, ha, hnum, hb]
      cases op.makesBlock with
      | false => rfl
      | true => exact (List.range'_succ ..).symm

/-- A builder under construction, whatever has been asked of it, also what it refused. Its blocks
have numbers of their own and the entry has exactly the allocas; what an operation emits goes to the
end of a block that exists; a refusal, of which there are five kinds, leaves it as it was; and a
number that has been given away never stands for anything else, nor does a terminator change. -/
theorem perform_start (name : String) (params : List Param) (returns : Ty) (ops : List Operation) :
    let answers := ((start name params returns).perform ops).1
    let b := ((start name params returns).perform ops).2
    (b.Regular ∧ ∀ k ∈ b.function.blocks, b.function.block? k.id = some k) ∧
      (numbers answers = List.range' 1 (ops.countP Operation.makesBlock) ∧
        b.function.nextBlock = 1 + ops.countP Operation.makesBlock ∧
        b.function.nextTemp ≤ ops.countP Operation.isLocal ∧
        b.function.slots.length ≤ ops.countP Operation.makesSlot) ∧
      (∀ op a b', op.step b = (.ok a, b') → b.Effect op a b') ∧
      (∀ op e b', op.step b = (.error e, b') → b' = b ∧ b.Refuses op e) ∧
      ∀ more, b.Later (b.perform more).2 := by
  have hstart : (start name params returns).Regular := .start name params returns
  have h := perform_regular hstart ops
  obtain ⟨hnum, hblock, htemp, hslot⟩ := perform_counts hstart ops
  refine ⟨⟨h, fun k hk => Function.block?_of_mem h.nodup hk⟩, ⟨hnum, hblock, ?_, ?_⟩,
    fun op a b' hs => Operation.step_ok h hs, fun op e b' hs => Operation.step_error h hs,
    perform_later h⟩
  · exact (Nat.zero_add _ ▸ htemp :)
  · exact (Nat.zero_add _ ▸ hslot :)

/-- An alloca goes to the top of an entry that has ended, before what is there. -/
example : (((start "f" [] .void).perform
      [.load 0 .i32, .ret none, .ret none, .alloca "x" .i32]).2.function.block? 0).map
        (·.instructions) = some [.alloca 0 .i32 "x", .load (.temp 0) 0 .i32] := by
  rfl

end Builder

end TreeLang.Ir
