import Mathlib.Data.Nat.Find
import TreeLang.Proofs.Assembly

namespace TreeLang.Ir

variable {m : Module} {f : Function}

section

variable {α : Type} {P Q : List α → α → Prop} {done xs : List α}

/-- Each element has the property, given what stands before it. -/
def Along (P : List α → α → Prop) (done : List α) : List α → Prop
  | [] => True
  | x :: xs => P done x ∧ Along P (done ++ [x]) xs

/-- The elements before one are those taken so far and those of the list in front of it. -/
theorem along_iff :
    Along P done xs ↔ ∀ pre x post, xs = pre ++ x :: post → P (done ++ pre) x := by
  induction xs generalizing done with
  | nil => simp [Along]
  | cons y ys ih =>
    rw [Along, ih]
    constructor
    · intro h pre x post he
      cases pre with
      | nil =>
        cases he
        rw [List.append_nil]
        exact h.1
      | cons z pre =>
        cases he
        have := h.2 pre x post rfl
        rwa [List.append_assoc] at this
    · intro h
      refine ⟨?_, fun pre x post he => ?_⟩
      · have := h [] y ys rfl
        rwa [List.append_nil] at this
      · have := h (y :: pre) x post (congrArg (y :: ·) he)
        rwa [List.append_assoc]

end

def Defines (is : List Instruction) (x : Nat) : Prop :=
  ∃ i ∈ is, i.result? = some (.temp x)

theorem defines_append {is js : List Instruction} {x : Nat} :
    Defines (is ++ js) x ↔ Defines is x ∨ Defines js x := by
  simp only [Defines, List.mem_append, or_and_right, exists_or]

def UsesDefined (before : List Instruction) (i : Instruction) : Prop :=
  ∀ x, .temp x ∈ i.operands → Defines before x

def Block.code (done : List Block) : List Instruction :=
  done.flatMap (·.instructions)

/-- Behind the blocks `done`, every temporary that the block uses has been defined before the use. -/
def Block.Follows (done : List Block) (k : Block) : Prop :=
  Along UsesDefined (Block.code done) k.instructions ∧
    ∀ x, .temp x ∈ k.terminator.operands → Defines (Block.code (done ++ [k])) x

/-- Every use of a temporary stands behind a definition of it. -/
def Function.InOrder (f : Function) : Prop :=
  Along Block.Follows [] f.blocks

/-- On every path from the entry to a use of a temporary, its definition is executed before. -/
def Function.Dominated (f : Function) : Prop :=
  ∀ k ∈ f.blocks,
    (∀ pre i post, k.instructions = pre ++ i :: post → ∀ x, .temp x ∈ i.operands →
      f.DefinedBefore k pre x) ∧
    ∀ x, .temp x ∈ k.terminator.operands → f.DefinedBefore k k.instructions x

/-- What machine code asks of an instruction, apart from its operands and its slot. -/
def Module.Permits (m : Module) : Instruction → Prop
  | .alloca _ ty _ => ty ≠ .void
  | .load .. | .store .. | .neg .. => True
  | .binary op _ _ _ ty => op.isComparison = true → ty ≠ .ptr ∧ ty ≠ .void
  | .cast _ _ source target => source = target ∨
    (source, target) ∈ [(.i32, .f64), (.f64, .i32), (.bool, .i32), (.bool, .f64)]
  | .call result callee args _ => ∃ x, m.callee? callee = some x ∧ x.accepts args.length = true ∧
    (result.isSome = true → x.returns ≠ .void)

def Instruction.slot? : Instruction → Option Nat
  | .load _ slot _ | .store slot _ _ => some slot
  | _ => none

/-- A parameter is one of the function, and a string one of the module. -/
def Operand.Declared (m : Module) (f : Function) : Operand → Prop
  | .param n => n < f.params.length
  | .str n => n < m.strings.length
  | .temp _ | .constant _ => True

def Allocates (is : List Instruction) (slot : Nat) : Prop :=
  ∃ ty name, .alloca slot ty name ∈ is

/-- What is asked of an instruction behind others, its temporaries apart. -/
structure Module.Ready (m : Module) (f : Function) (before : List Instruction) (i : Instruction) :
    Prop where
  permits : m.Permits i
  declared : ∀ o ∈ i.operands, o.Declared m f
  slot : ∀ s ∈ i.slot?, Allocates before s

structure Known.Tracks (k : Known) (f : Function) (is : List Instruction) : Prop where
  temps : ∀ x, .temp x ∈ k.values ↔ Defines is x
  params : ∀ n < f.params.length, .param n ∈ k.values
  slots : ∀ s, Allocates is s → s ∈ k.slots

def Known.take (k : Known) (i : Instruction) : Known where
  values := i.result?.toList ++ k.values
  slots := match i with
    | .alloca slot _ _ => slot :: k.slots
    | _ => k.slots

namespace Known

variable {k k' : Known} {is before : List Instruction} {i : Instruction}

/-- An instruction makes known what it defines and the slot that it allocates. -/
theorem Tracks.take (h : k.Tracks f is) (i : Instruction) : (k.take i).Tracks f (is ++ [i]) where
  temps x := by
    rw [defines_append, ← h.temps]
    simp only [Known.take, List.mem_append, Option.mem_toList, Defines, List.mem_singleton,
      exists_eq_left]
    exact or_comm
  params n hn := List.mem_append_right _ (h.params n hn)
  slots s hs := by
    obtain ⟨ty, name, hm⟩ := hs
    rcases List.mem_append.mp hm with hm | hm
    · have := h.slots s ⟨ty, name, hm⟩
      unfold Known.take
      cases i <;> simp [this]
    · rw [← List.mem_singleton.mp hm]
      exact List.mem_cons_self

/-- An operand is taken exactly if it is no temporary, or a temporary that has been defined before. -/
theorem Tracks.operand_iff (h : k.Tracks f is) {o : Operand} (ho : o.Declared m f) :
    k.operand m o = .ok () ↔ ∀ x, o = .temp x → Defines is x := by
  cases o with
  | temp x =>
    unfold Known.operand
    simp [← h.temps]
  | param n => simp [Known.operand, h.params n ho]
  | constant c => simp [Known.operand]
  | str n =>
    have hn : n < m.strings.length := ho
    simp [Known.operand, hn]

/-- Behind operands that are taken the walk goes on. -/
theorem operand_of_bind {o : Operand} {α : Type} {x : Except Error α} {y : α}
    (h : (do k.operand m o; x) = .ok y) : k.operand m o = .ok () ∧ x = .ok y := by
  cases ho : k.operand m o with
  | error e =>
    rw [ho] at h
    cases h
  | ok u =>
    rw [ho] at h
    exact ⟨rfl, h⟩

theorem slot_of_bind {s : Nat} {α : Type} {x : Except Error α} {y : α}
    (h : (do k.slot s; x) = .ok y) : x = .ok y := by
  cases hs : k.slot s with
  | error e =>
    rw [hs] at h
    cases h
  | ok u =>
    rw [hs] at h
    exact h

/-- Where an instruction is assembled, its operands are known. -/
theorem operands_of_assemble (h : m.assembleInstruction k i = .ok k') :
    ∀ o ∈ i.operands, k.operand m o = .ok () := by
  cases i with
  | alloca => exact fun o ho => absurd ho List.not_mem_nil
  | load => exact fun o ho => absurd ho List.not_mem_nil
  | store slot value ty =>
    have hv := operand_of_bind (slot_of_bind h)
    intro o ho
    rw [List.mem_singleton.mp ho]
    exact hv.1
  | binary op result left right ty =>
    obtain ⟨hl, h⟩ := operand_of_bind h
    obtain ⟨hr, _⟩ := operand_of_bind h
    intro o ho
    rcases List.mem_cons.mp ho with rfl | ho
    · exact hl
    · rw [List.mem_singleton.mp ho]
      exact hr
  | neg result operand ty =>
    intro o ho
    rw [List.mem_singleton.mp ho]
    exact (operand_of_bind h).1
  | cast result value source target =>
    intro o ho
    rw [List.mem_singleton.mp ho]
    exact (operand_of_bind h).1
  | call result callee args returns =>
    unfold Module.assembleInstruction at h
    cases hlink : m.linkage? callee with
    | none =>
      simp only [hlink] at h
      cases h
    | some link =>
      simp only [hlink] at h
      split at h
      · cases h
      · cases hargs : args.forM (k.operand m) with
        | error e =>
          rw [hargs] at h
          cases h
        | ok u => exact forM_eq_ok.mp hargs

theorem Tracks.slot (h : k.Tracks f before) {s : Nat} (hs : Allocates before s) :
    k.slot s = .ok () :=
  if_pos (h.slots s hs)

/-- An instruction whose operands are all taken is assembled, and makes known what it defines. -/
theorem Tracks.assemble (h : k.Tracks f before) (hr : m.Ready f before i)
    (ho : ∀ o ∈ i.operands, k.operand m o = .ok ()) :
    m.assembleInstruction k i = .ok (k.take i) := by
  have hp := hr.permits
  cases i with
  | alloca slot ty name =>
    have hv : ty ≠ .void := hp
    simp [Module.assembleInstruction, hv, Known.take, Instruction.result?]
  | load result slot ty =>
    have hs := h.slot (hr.slot slot rfl)
    simp [Module.assembleInstruction, hs, bind, Except.bind, pure, Except.pure, Known.take,
      Instruction.result?, Known.define]
  | store slot value ty =>
    have hs := h.slot (hr.slot slot rfl)
    have hv := ho value List.mem_cons_self
    simp [Module.assembleInstruction, hs, hv, bind, Except.bind, pure, Except.pure, Known.take,
      Instruction.result?]
  | binary op result left right ty =>
    have hl := ho left List.mem_cons_self
    have hright := ho right (List.mem_cons_of_mem _ List.mem_cons_self)
    have hty : ¬ (op.isComparison = true ∧ (ty = .ptr ∨ ty = .void)) := by
      intro hcmp
      rcases hcmp.2 with he | he
      · exact (hp hcmp.1).1 he
      · exact (hp hcmp.1).2 he
    simp [Module.assembleInstruction, hl, hright, hty, bind, Except.bind, pure, Except.pure,
      Known.take, Instruction.result?, Known.define]
  | neg result operand ty =>
    have hv := ho operand List.mem_cons_self
    simp [Module.assembleInstruction, hv, bind, Except.bind, pure, Except.pure, Known.take,
      Instruction.result?, Known.define]
  | cast result value source target =>
    have hv := ho value List.mem_cons_self
    have hcast : source = target ∨
      (source, target) ∈ [(Ty.i32, Ty.f64), (.f64, .i32), (.bool, .i32), (.bool, .f64)] := hp
    simp only [Module.assembleInstruction, hv, bind, Except.bind]
    cases source <;> cases target <;> first | rfl | simp at hcast
  | call result callee args returns =>
    obtain ⟨x, hx, hacc, hres⟩ := hp
    obtain ⟨link, hlink, hret, hfixed⟩ := Module.linkage_of_callee hx
    have hcount : ¬ args.length < link.fixed.getD 0 := Nat.not_lt.mpr (hfixed _ hacc)
    have hargs : args.forM (k.operand m) = .ok () := forM_eq_ok.mpr ho
    cases result with
    | none => simp [Module.assembleInstruction, hlink, hcount, hargs, bind, Except.bind, pure,
        Except.pure, Known.take, Instruction.result?]
    | some o =>
      have hvoid : link.returns ≠ .void := hret ▸ hres rfl
      simp [Module.assembleInstruction, hlink, hcount, hargs, hvoid, bind, Except.bind, pure,
        Except.pure, Known.take, Instruction.result?, Known.define]

/-- Behind what makes it ready, an instruction is assembled if what it uses has been defined. -/
theorem Tracks.assemble_iff (h : k.Tracks f before) (hr : m.Ready f before i) :
    m.assembleInstruction k i = .ok k' ↔ UsesDefined before i ∧ k' = k.take i := by
  have hops : UsesDefined before i ↔ ∀ o ∈ i.operands, k.operand m o = .ok () := by
    constructor
    · intro hu o ho
      exact (h.operand_iff (hr.declared o ho)).mpr fun x hx => hu x (hx ▸ ho)
    · intro hk x hx
      exact (h.operand_iff (hr.declared _ hx)).mp (hk _ hx) x rfl
  constructor
  · intro hk
    have ho := operands_of_assemble hk
    rw [h.assemble hr ho] at hk
    exact ⟨hops.mpr ho, (Except.ok.inj hk).symm⟩
  · intro hk
    rw [h.assemble hr (hops.mp hk.1), hk.2]

theorem Tracks.instructions_iff (h : k.Tracks f before) (hr : Along (m.Ready f) before is) :
    is.foldlM m.assembleInstruction k = .ok k' ↔
      Along UsesDefined before is ∧ k' = is.foldl Known.take k := by
  induction is generalizing k before with
  | nil => simp [Along, pure, Except.pure, eq_comm]
  | cons i is ih =>
    rw [List.foldlM_cons, Along]
    constructor
    · intro hk
      cases hi : m.assembleInstruction k i with
      | error e =>
        rw [hi] at hk
        cases hk
      | ok k₁ =>
        rw [hi] at hk
        obtain ⟨hu, rfl⟩ := (h.assemble_iff hr.1).mp hi
        obtain ⟨hus, hk'⟩ := (ih (h.take i) hr.2).mp hk
        exact ⟨⟨hu, hus⟩, hk'⟩
    · intro hk
      obtain ⟨⟨hu, hus⟩, hk'⟩ := hk
      rw [(h.assemble_iff hr.1).mpr ⟨hu, rfl⟩]
      exact (ih (h.take i) hr.2).mpr ⟨hus, hk'⟩

theorem Tracks.instructions (h : k.Tracks f before) (is : List Instruction) :
    (is.foldl Known.take k).Tracks f (before ++ is) := by
  induction is generalizing k before with
  | nil => rwa [List.append_nil]
  | cons i is ih =>
    have := ih (h.take i)
    rwa [List.append_assoc] at this

end Known

/-- What machine code asks for where the blocks of a function stand in any order: the module has what
the function names, the function has what its blocks name, and its entry has the slots. -/
structure Module.Hosts (m : Module) (f : Function) : Prop where
  nodup : (f.blocks.map (·.id)).Nodup
  permits : ∀ k ∈ f.blocks, ∀ i ∈ k.instructions, m.Permits i
  declared : ∀ k ∈ f.blocks, ∀ i ∈ k.instructions, ∀ o ∈ i.operands, o.Declared m f
  declaredEnd : ∀ k ∈ f.blocks, ∀ o ∈ k.terminator.operands, o.Declared m f
  /-- A slot is made in the entry block, in front of what uses it there. -/
  slots : ∀ e ∈ f.blocks, e.id = f.entry → ∀ k ∈ f.blocks, ∀ pre i post,
    k.instructions = pre ++ i :: post → ∀ s ∈ i.slot?,
      Allocates e.instructions s ∧ (k = e → Allocates pre s)
  ended : ∀ k ∈ f.blocks, k.terminator ≠ .unset
  targets : ∀ k ∈ f.blocks, ∀ t ∈ k.terminator.successors, f.target t = .ok ()

/-- The blocks begin with the entry. -/
def Function.EntryFirst (f : Function) : Prop :=
  ∃ e rest, f.blocks = e :: rest ∧ e.id = f.entry

section

variable {k k' : Known} {b : Block} {done : List Block}

/-- The slots of a piece of code are those of its parts. -/
theorem allocates_append {is js : List Instruction} {s : Nat} :
    Allocates (is ++ js) s ↔ Allocates is s ∨ Allocates js s := by
  simp only [Allocates, List.mem_append, exists_or]

theorem Block.code_append (ks : List Block) (b : Block) :
    Block.code (ks ++ [b]) = Block.code ks ++ b.instructions := by
  simp [Block.code]

/-- Behind the entry, or in it, the instructions of a block are ready. -/
theorem Module.Hosts.ready (h : m.Hosts f) (hb : b ∈ f.blocks)
    (hentry : b.id = f.entry ∨ ∃ e ∈ done, e ∈ f.blocks ∧ e.id = f.entry) :
    Along (m.Ready f) (Block.code done) b.instructions := by
  refine along_iff.mpr fun pre i post hi => ?_
  have hmem : i ∈ b.instructions := hi ▸ List.mem_append_right _ List.mem_cons_self
  refine ⟨h.permits b hb i hmem, h.declared b hb i hmem, fun s hs => ?_⟩
  rcases hentry with he | ⟨e, hdone, hmem, he⟩
  · exact allocates_append.mpr (.inr ((h.slots b hb he b hb pre i post hi s hs).2 rfl))
  · obtain ⟨ty, name, ha⟩ := (h.slots e hmem he b hb pre i post hi s hs).1
    exact allocates_append.mpr (.inl ⟨ty, name, List.mem_flatMap.mpr ⟨e, hdone, ha⟩⟩)

/-- A terminator is taken where its operands have been defined before; its targets may come later. -/
theorem Known.Tracks.terminator_iff (h : k.Tracks f (Block.code (done ++ [b]))) (hm : m.Hosts f)
    (hb : b ∈ f.blocks) : m.assembleTerminator f k b.terminator = .ok () ↔
      ∀ x, .temp x ∈ b.terminator.operands → Defines (Block.code (done ++ [b])) x := by
  have hset := hm.ended b hb
  have htarget := hm.targets b hb
  have hdecl := hm.declaredEnd b hb
  cases ht : b.terminator with
  | unset => exact absurd ht hset
  | jump target =>
    rw [ht] at htarget
    have hok : f.target target = .ok () := htarget target List.mem_cons_self
    simp [Module.assembleTerminator, hok, Terminator.operands]
  | branch condition thenBlock elseBlock =>
    rw [ht] at htarget hdecl
    have hthen : f.target thenBlock = .ok () := htarget thenBlock List.mem_cons_self
    have helse : f.target elseBlock = .ok () :=
      htarget elseBlock (List.mem_cons_of_mem _ List.mem_cons_self)
    have hiff := h.operand_iff (hdecl condition List.mem_cons_self)
    have hcode : m.assembleTerminator f k (.branch condition thenBlock elseBlock) = .ok () ↔
        k.operand m condition = .ok () := by
      unfold Module.assembleTerminator
      cases hc : k.operand m condition <;> simp [hthen, helse, hc, bind, Except.bind]
    rw [hcode, hiff]
    simp [Terminator.operands, eq_comm]
  | ret value =>
    rw [ht] at hdecl
    cases value with
    | none => simp [Module.assembleTerminator, Terminator.operands]
    | some v =>
      rw [show m.assembleTerminator f k (.ret (some v)) = k.operand m v from rfl,
        h.operand_iff (hdecl v List.mem_cons_self)]
      simp [Terminator.operands, eq_comm]

def Known.enter (k : Known) (f : Function) (b : Block) : Known :=
  if b.id = f.entry then { k with values := (List.range f.params.length).map .param ++ k.values }
  else k

/-- Behind others, a block is assembled if what it uses has been defined. -/
theorem Known.Tracks.block_iff (h : (k.enter f b).Tracks f (Block.code done)) (hm : m.Hosts f)
    (hb : b ∈ f.blocks) (hentry : b.id = f.entry ∨ ∃ e ∈ done, e ∈ f.blocks ∧ e.id = f.entry) :
    m.assembleBlock f k b = .ok k' ↔
      b.Follows done ∧ k' = b.instructions.foldl Known.take (k.enter f b) := by
  have hk : (b.instructions.foldl Known.take (k.enter f b)).Tracks f (Block.code (done ++ [b])) := by
    rw [Block.code_append]
    exact h.instructions b.instructions
  have hend := hk.terminator_iff hm hb
  rw [show m.assembleBlock f k b = (do
    let k ← b.instructions.foldlM m.assembleInstruction (k.enter f b)
    m.assembleTerminator f k b.terminator
    return k) from rfl]
  constructor
  · intro hok
    cases hfold : b.instructions.foldlM m.assembleInstruction (k.enter f b) with
    | error e =>
      rw [hfold] at hok
      cases hok
    | ok k₁ =>
      obtain ⟨hu, rfl⟩ := (h.instructions_iff (hm.ready hb hentry)).mp hfold
      rw [hfold] at hok
      cases hterm : m.assembleTerminator f (b.instructions.foldl Known.take (k.enter f b))
          b.terminator with
      | error e => simp [bind, Except.bind, hterm] at hok
      | ok u =>
        simp only [bind, Except.bind, hterm, pure, Except.pure, Except.ok.injEq] at hok
        exact ⟨⟨hu, hend.mp hterm⟩, hok.symm⟩
  · intro hok
    obtain ⟨⟨hu, hlast⟩, rfl⟩ := hok
    rw [(h.instructions_iff (hm.ready hb hentry)).mpr ⟨hu, rfl⟩]
    simp [bind, Except.bind, hend.mpr hlast, pure, Except.pure]

theorem Known.Tracks.block (h : (k.enter f b).Tracks f (Block.code done)) :
    (b.instructions.foldl Known.take (k.enter f b)).Tracks f (Block.code (done ++ [b])) := by
  rw [Block.code_append]
  exact h.instructions b.instructions

/-- The blocks behind the entry are assembled if each of them follows those before it. -/
theorem Known.Tracks.blocks_iff {bs : List Block} (h : k.Tracks f (Block.code done))
    (hm : m.Hosts f) (hbs : ∀ b ∈ bs, b ∈ f.blocks ∧ b.id ≠ f.entry)
    (hentry : ∃ e ∈ done, e ∈ f.blocks ∧ e.id = f.entry) :
    (∃ k', bs.foldlM (m.assembleBlock f) k = .ok k') ↔ Along Block.Follows done bs := by
  induction bs generalizing k done with
  | nil => simp [Along, pure, Except.pure]
  | cons b bs ih =>
    obtain ⟨hb, hne⟩ := hbs b List.mem_cons_self
    have henter : k.enter f b = k := if_neg hne
    have hk : (k.enter f b).Tracks f (Block.code done) := henter.symm ▸ h
    have hrest := ih hk.block (fun c hc => hbs c (List.mem_cons_of_mem _ hc)) <| by
      obtain ⟨e, he, hentry⟩ := hentry
      exact ⟨e, List.mem_append_left _ he, hentry⟩
    rw [List.foldlM_cons, Along, ← hrest]
    constructor
    · intro hok
      obtain ⟨k', hok⟩ := hok
      cases hblock : m.assembleBlock f k b with
      | error e =>
        rw [hblock] at hok
        cases hok
      | ok k₁ =>
        obtain ⟨hfollows, rfl⟩ := (hk.block_iff hm hb (.inr hentry)).mp hblock
        rw [hblock] at hok
        exact ⟨hfollows, k', hok⟩
    · intro hok
      obtain ⟨hfollows, k', hok⟩ := hok
      refine ⟨k', ?_⟩
      rw [(hk.block_iff hm hb (.inr hentry)).mpr ⟨hfollows, rfl⟩]
      exact hok

/-- A function that begins with its entry is assembled if its uses stand behind their definitions. -/
theorem Module.Hosts.assemble_iff (hm : m.Hosts f) (hfirst : f.EntryFirst) :
    m.assembleFunction f = .ok () ↔ f.InOrder := by
  obtain ⟨e, rest, hblocks, he⟩ := hfirst
  have hmem : e ∈ f.blocks := hblocks ▸ List.mem_cons_self
  have hrest : ∀ b ∈ rest, b ∈ f.blocks ∧ b.id ≠ f.entry := by
    intro b hb
    refine ⟨hblocks ▸ List.mem_cons_of_mem _ hb, fun hbe => ?_⟩
    have hnodup := hm.nodup
    rw [hblocks, List.map_cons, List.nodup_cons] at hnodup
    exact hnodup.1 (he.trans hbe.symm ▸ List.mem_map_of_mem hb)
  have hstart : (Known.none.enter f e).Tracks f (Block.code []) := by
    rw [Known.enter, if_pos he]
    refine ⟨fun x => ?_, fun n hn => ?_, fun s hs => ?_⟩
    · simp [Known.none, Defines, Block.code]
    · exact List.mem_append_left _ (List.mem_map_of_mem (List.mem_range.mpr hn))
    · obtain ⟨ty, name, ha⟩ := hs
      exact absurd ha List.not_mem_nil
  have htarget : f.target f.entry = .ok () :=
    if_pos (List.any_eq_true.mpr ⟨e, hmem, by simp [he]⟩)
  have hbehind := hstart.block.blocks_iff hm hrest ⟨e, List.mem_singleton.mpr rfl, hmem, he⟩
  unfold Module.assembleFunction Function.InOrder
  rw [htarget, hblocks, List.foldlM_cons, Along, ← hbehind]
  constructor
  · intro hok
    cases hfirst : m.assembleBlock f Known.none e with
    | error err =>
      rw [hfirst] at hok
      cases hok
    | ok k₁ =>
      obtain ⟨hfollows, rfl⟩ := (hstart.block_iff hm hmem (.inl he)).mp hfirst
      refine ⟨hfollows, ?_⟩
      rw [hfirst] at hok
      cases hfold : rest.foldlM (m.assembleBlock f)
          (e.instructions.foldl Known.take (Known.none.enter f e)) with
      | error err => simp [bind, Except.bind, hfold] at hok
      | ok k' => exact ⟨k', rfl⟩
  · intro hok
    obtain ⟨hfollows, k', hok⟩ := hok
    rw [(hstart.block_iff hm hmem (.inl he)).mpr ⟨hfollows, rfl⟩]
    simp [bind, Except.bind, hok, pure, Except.pure]

end

namespace Function

variable {k : Block} {ks : List Block}

theorem Path.shorter (h : f.Path ks k) : ∀ k' ∈ ks, ∃ ks', f.Path ks' k' ∧ ks'.length < ks.length := by
  induction h with
  | entry => exact fun k' hk' => absurd hk' List.not_mem_nil
  | @edge ks k k' t h ht hk ih =>
    intro k'' hk''
    rw [List.length_append, List.length_singleton]
    rcases List.mem_append.mp hk'' with hk'' | hk''
    · obtain ⟨ks', hp, hlt⟩ := ih k'' hk''
      exact ⟨ks', hp, by omega⟩
    · rw [List.mem_singleton.mp hk'']
      exact ⟨ks, h, by omega⟩

open Classical in
noncomputable def distance (f : Function) (k : Block) : Nat :=
  if h : ∃ n ks, f.Path ks k ∧ ks.length = n then Nat.find h else 0

/-- A block that can be reached has a shortest path to it, whose length is its distance. -/
theorem exists_shortest (h : f.Path ks k) : ∃ ks, f.Path ks k ∧ ks.length = f.distance k := by
  classical
  have hex : ∃ n ks, f.Path ks k ∧ ks.length = n := ⟨ks.length, ks, h, rfl⟩
  rw [distance, dif_pos hex]
  exact Nat.find_spec hex

theorem distance_le (h : f.Path ks k) : f.distance k ≤ ks.length := by
  classical
  have hex : ∃ n ks, f.Path ks k ∧ ks.length = n := ⟨ks.length, ks, h, rfl⟩
  rw [distance, dif_pos hex]
  exact Nat.find_min' hex ⟨ks, h, rfl⟩

/-- The blocks of a function can be put in an order in which a path leads to each of them through
blocks that stand before it. -/
theorem exists_order (h : f.Live) (hnodup : (f.blocks.map (·.id)).Nodup) : ∃ bs : List Block,
    bs.Perm f.blocks ∧ ∀ done k rest, bs = done ++ k :: rest →
      ∃ ks, f.Path ks k ∧ ∀ k' ∈ ks, k' ∈ done := by
  classical
  let le : Block → Block → Bool := fun a b => decide (f.distance a ≤ f.distance b)
  have hperm : (f.blocks.mergeSort le).Perm f.blocks := List.mergeSort_perm _ _
  have hsorted : (f.blocks.mergeSort le).Pairwise fun a b => le a b = true := by
    apply List.pairwise_mergeSort
    · intro a b c hab hbc
      simp only [le, decide_eq_true_eq] at *
      omega
    · intro a b
      simp only [le, Bool.or_eq_true, decide_eq_true_eq]
      omega
  refine ⟨_, hperm, fun done k rest hsplit => ?_⟩
  have hk : k ∈ f.blocks :=
    hperm.mem_iff.mp (hsplit ▸ List.mem_append_right _ List.mem_cons_self)
  obtain ⟨ks₀, hp₀⟩ := h k.id k (block?_of_mem hnodup hk)
  obtain ⟨ks, hp, hlen⟩ := exists_shortest hp₀
  refine ⟨ks, hp, fun k' hk' => ?_⟩
  -- a block on the way is nearer, so it does not stand behind
  obtain ⟨ks', hp', hlt⟩ := hp.shorter k' hk'
  have hnear := distance_le hp'
  have hin : k' ∈ done ++ k :: rest := hsplit ▸ hperm.mem_iff.mpr (hp.mem k' hk')
  rcases List.mem_append.mp hin with hin | hin
  · exact hin
  · rcases List.mem_cons.mp hin with rfl | hin
    · omega
    · rw [hsplit] at hsorted
      have hfar := (List.pairwise_cons.mp (List.pairwise_append.mp hsorted).2.1).1 k' hin
      simp only [le, decide_eq_true_eq] at hfar
      omega

end Function

theorem Function.HasSlot.lt {s : Nat} {ty : Ty} (h : f.HasSlot s ty) : s < f.slots.length := by
  obtain ⟨slot, hslot, _⟩ := h
  exact (List.getElem?_eq_some_iff.mp hslot).1

/-- An operand that has a type in the function is one that machine code can name. -/
theorem Operand.TypedIn.declared {o : Operand} {ty : Ty} (h : o.TypedIn f ty)
    (hs : ∀ n, o = .str n → n < m.strings.length) : o.Declared m f := by
  cases h with
  | temp => trivial
  | constant c => trivial
  | str n => exact hs n rfl
  | param hp => exact (List.getElem?_eq_some_iff.mp hp).1

namespace Function.Valid

theorem slot_lt (h : f.Valid) {i : Instruction} (hi : i ∈ f.instructions) :
    ∀ s ∈ i.slot?, s < f.slots.length := by
  intro s hs
  cases i with
  | load result slot ty =>
    cases hs
    exact (h.loads result s ty hi).lt
  | store slot value ty =>
    cases hs
    exact (h.stores s value ty hi).1.lt
  | alloca | binary | neg | cast | call => cases hs

theorem typed_end (h : f.Valid) {b : Block} (hb : b ∈ f.blocks) :
    ∀ o ∈ b.terminator.operands, ∃ ty, o.TypedIn f ty := by
  cases ht : b.terminator with
  | unset => exact fun o ho => absurd ho List.not_mem_nil
  | jump target => exact fun o ho => absurd ho List.not_mem_nil
  | branch condition thenBlock elseBlock =>
    intro o ho
    rw [List.mem_singleton.mp ho]
    exact ⟨.bool, h.conditions b hb _ _ _ ht⟩
  | ret value =>
    cases value with
    | none => exact fun o ho => absurd ho List.not_mem_nil
    | some v =>
      intro o ho
      rw [List.mem_singleton.mp ho]
      exact ⟨f.returns, (h.returnsSome b hb v ht).2⟩

end Function.Valid

/-- A function that has passed its check is hosted by a module that has its callees and strings. -/
theorem hosts_of_verify (hverify : f.verify = .ok ()) (hnodup : (f.blocks.map (·.id)).Nodup)
    (hslots : ∀ e ∈ f.blocks, e.id = f.entry → ∀ s < f.slots.length, Allocates e.instructions s)
    (hpermits : ∀ k ∈ f.blocks, ∀ i ∈ k.instructions, m.Permits i)
    (hstrings : ∀ k ∈ f.blocks, ∀ n, k.Names (.str n) → n < m.strings.length) : m.Hosts f := by
  have hvalid := Function.verify_eq_ok_iff.mp hverify
  have hin : ∀ {k i}, k ∈ f.blocks → i ∈ k.instructions → i ∈ f.instructions :=
    fun hk hi => List.mem_flatMap.mpr ⟨_, hk, hi⟩
  refine ⟨hnodup, hpermits, ?_, ?_, ?_, hvalid.ended, fun k hk t ht => ?_⟩
  · intro k hk i hi o ho
    obtain ⟨ty, hty⟩ := hvalid.operands i (hin hk hi) o ho
    exact hty.declared fun n hn => hstrings k hk n (.inl ⟨i, hi, .inl (hn ▸ ho)⟩)
  · intro k hk o ho
    obtain ⟨ty, hty⟩ := hvalid.typed_end hk o ho
    exact hty.declared fun n hn => hstrings k hk n (.inr (hn ▸ ho))
  · intro e he hentry k hk pre i post hsplit s hs
    have hi : i ∈ k.instructions := hsplit ▸ List.mem_append_right _ List.mem_cons_self
    obtain ⟨ty, name, ha⟩ := hslots e he hentry s (hvalid.slot_lt (hin hk hi) s hs)
    refine ⟨⟨ty, name, ha⟩, fun hke => ⟨ty, name, ?_⟩⟩
    -- what reads or writes a slot is no alloca, so no alloca stands behind it
    subst hke
    rw [hsplit] at ha
    rcases List.mem_append.mp ha with ha | ha
    · exact ha
    · rcases List.mem_cons.mp ha with rfl | ha
      · cases hs
      · obtain ⟨pre', post', rfl⟩ := List.append_of_mem ha
        have hbehind := (hvalid.prologue k hk (pre ++ i :: pre') (.alloca s ty name) post'
          (by simp [hsplit]) rfl).2 i (by simp)
        cases i with
        | alloca => cases hs
        | load | store | binary | neg | cast | call => cases hbehind
  · obtain ⟨k', hk', rfl⟩ := hvalid.targets k hk t ht
    have hany : f.blocks.any (·.id == k'.id) = true :=
      List.any_eq_true.mpr ⟨k', hk', beq_self_eq_true _⟩
    exact if_pos hany

/-- The order within a block and that of the blocks are both that of the walk. -/
theorem inOrder_iff : f.InOrder ↔ ∀ done k rest, f.blocks = done ++ k :: rest →
    (∀ pre i post, k.instructions = pre ++ i :: post → ∀ x, .temp x ∈ i.operands →
      Defines (Block.code done ++ pre) x) ∧
    ∀ x, .temp x ∈ k.terminator.operands → Defines (Block.code done ++ k.instructions) x := by
  simp only [Function.InOrder, along_iff, Block.Follows, UsesDefined, Block.code_append,
    List.nil_append]

/-- The order of the blocks plays no part in what the module and the function have. -/
theorem Module.Hosts.reorder (h : m.Hosts f) {bs : List Block} (hperm : bs.Perm f.blocks) :
    m.Hosts { f with blocks := bs } where
  nodup := (hperm.map _).nodup_iff.mpr h.nodup
  permits k hk := h.permits k (hperm.mem_iff.mp hk)
  declared k hk := h.declared k (hperm.mem_iff.mp hk)
  declaredEnd k hk := h.declaredEnd k (hperm.mem_iff.mp hk)
  slots e he hentry k hk := h.slots e (hperm.mem_iff.mp he) hentry k (hperm.mem_iff.mp hk)
  ended k hk := h.ended k (hperm.mem_iff.mp hk)
  targets k hk t ht := by
    have hany := h.targets k (hperm.mem_iff.mp hk) t ht
    unfold Function.target at hany ⊢
    rwa [hperm.any_eq]

/-- In an order in which a path leads to each block through those before it, definitions that dominate
their uses stand before them. -/
theorem inOrder_of_dominated (h : f.Dominated) {bs : List Block} (hperm : bs.Perm f.blocks)
    (hpaths : ∀ done k rest, bs = done ++ k :: rest → ∃ ks, f.Path ks k ∧ ∀ k' ∈ ks, k' ∈ done) :
    Function.InOrder { f with blocks := bs } := by
  refine inOrder_iff.mpr fun done k rest hblocks => ?_
  have hsplit : bs = done ++ k :: rest := hblocks
  have hk : k ∈ f.blocks :=
    hperm.mem_iff.mp (hsplit ▸ List.mem_append_right _ List.mem_cons_self)
  obtain ⟨ks, hp, hdone⟩ := hpaths done k rest hsplit
  have hdefines : ∀ pre x, f.DefinedBefore k pre x → Defines (Block.code done ++ pre) x := by
    intro pre x hdom
    obtain ⟨i, hi, hr⟩ := hdom ks hp
    refine ⟨i, ?_, hr⟩
    rcases List.mem_append.mp hi with hi | hi
    · obtain ⟨k', hk', hi⟩ := List.mem_flatMap.mp hi
      exact List.mem_append_left _ (List.mem_flatMap.mpr ⟨k', hdone k' hk', hi⟩)
    · exact List.mem_append_right _ hi
  exact ⟨fun pre i post hi x hx => hdefines pre x ((h k hk).1 pre i post hi x hx),
    fun x hx => hdefines _ x ((h k hk).2 x hx)⟩

/-- Of the functions that have passed their check and name only what the module has, exactly those are
assembled in which every use of a temporary stands behind its definition, in the order of the blocks.
Where all blocks can be reached and definitions dominate their uses, some order of the blocks is such
an order. -/
theorem assembled_iff_inOrder (hverify : f.verify = .ok ()) (hfirst : f.EntryFirst)
    (hnodup : (f.blocks.map (·.id)).Nodup)
    (hslots : ∀ e ∈ f.blocks, e.id = f.entry → ∀ s < f.slots.length, Allocates e.instructions s)
    (hpermits : ∀ k ∈ f.blocks, ∀ i ∈ k.instructions, m.Permits i)
    (hstrings : ∀ k ∈ f.blocks, ∀ n, k.Names (.str n) → n < m.strings.length) :
    (m.assembleFunction f = .ok () ↔ f.InOrder) ∧ (f.Live → f.Dominated →
      ∃ bs : List Block, bs.Perm f.blocks ∧ m.assembleFunction { f with blocks := bs } = .ok ()) := by
  have hm := hosts_of_verify hverify hnodup hslots hpermits hstrings
  refine ⟨hm.assemble_iff hfirst, fun hlive hdom => ?_⟩
  obtain ⟨bs, hperm, hpaths⟩ := Function.exists_order hlive hnodup
  refine ⟨bs, hperm, ((hm.reorder hperm).assemble_iff ?_).mpr (inOrder_of_dominated hdom hperm hpaths)⟩
  -- only the entry has a path through no block at all
  cases hbs : bs with
  | nil =>
    obtain ⟨e, rest, hblocks, _⟩ := hfirst
    rw [hbs, hblocks] at hperm
    exact absurd hperm.length_eq (by simp)
  | cons e rest =>
    obtain ⟨ks, hp, hnone⟩ := hpaths [] e rest hbs
    have hks : ks = [] := List.eq_nil_iff_forall_not_mem.mpr fun k hk =>
      absurd (hnone k hk) List.not_mem_nil
    subst hks
    refine ⟨e, rest, rfl, ?_⟩
    generalize hnil : ([] : List Block) = ks at hp
    cases hp with
    | entry he => exact Function.block?_id he
    | edge => simp at hnil

/-- Computes a sum in its last block and returns it in the one before. -/
def detour : Function where
  name := "main"
  params := []
  returns := .i32
  entry := 0
  blocks := [⟨0, "entry", [], .jump 2⟩, ⟨1, "use", [], .ret (some (.temp 0))⟩,
    ⟨2, "def", [.binary .add (.temp 0) (.constant (.i32 1)) (.constant (.i32 2)) .i32], .jump 1⟩]
  slots := []
  nextBlock := 3
  nextTemp := 1

theorem detour_live : detour.Live := by
  have hentry : detour.Path [] ⟨0, "entry", [], .jump 2⟩ := .entry rfl
  have hdef := hentry.edge (t := 2) (by decide) rfl
  have huse := hdef.edge (t := 1) (by decide) rfl
  intro id k hk
  have hmem := Function.mem_of_block? hk
  simp only [detour, List.mem_cons, List.not_mem_nil, or_false] at hmem
  rcases hmem with rfl | rfl | rfl
  · exact ⟨_, hentry⟩
  · exact ⟨_, huse⟩
  · exact ⟨_, hdef⟩

/-- Every use is dominated by its definition, which stands behind it all the same. -/
theorem detour_dominated : detour.Dominated := by
  intro k hk
  simp only [detour, List.mem_cons, List.not_mem_nil, or_false] at hk
  rcases hk with rfl | rfl | rfl
  · exact ⟨fun pre i post hi => by simp at hi, fun x hx => by cases hx⟩
  · refine ⟨fun pre i post hi => by simp at hi, fun x hx ks hp => ?_⟩
    cases hp with
    | entry he => cases he
    | @edge ks k _ t hp ht hk =>
      -- only the last block leads here
      obtain rfl : 1 = t := Function.block?_id hk
      have hmem := Function.mem_of_block? hp.block?
      simp only [detour, List.mem_cons, List.not_mem_nil, or_false] at hmem
      rcases hmem with rfl | rfl | rfl
      · simp [Terminator.successors] at ht
      · simp [Terminator.successors] at ht
      · cases List.mem_singleton.mp hx
        exact ⟨_, List.mem_append_left _ (List.mem_flatMap.mpr
          ⟨_, List.mem_append_right _ List.mem_cons_self, List.mem_cons_self⟩), rfl⟩
  · refine ⟨fun pre i post hi x hx => ?_, fun x hx => by cases hx⟩
    have hmem : i ∈ pre ++ i :: post := List.mem_append_right _ List.mem_cons_self
    rw [← hi] at hmem
    rw [List.mem_singleton.mp hmem] at hx
    simp [Instruction.operands] at hx

/-- The sum dominates its use, but stands behind it: the function passes its check and is not
assembled, as it would be with its blocks in another order. -/
theorem assembled_iff_inOrder_detour :
    let m : Module := ⟨"m", [detour], [], []⟩
    detour.verify = .ok () ∧ detour.Dominated ∧
      m.assembleFunction detour = .error (.code (.undefinedValue (.temp 0))) ∧ ¬ detour.InOrder ∧
      ∃ bs : List Block, bs.Perm detour.blocks ∧
        m.assembleFunction { detour with blocks := bs } = .ok () := by
  intro m
  have hverify : detour.verify = .ok () := rfl
  have herror : m.assembleFunction detour = .error (.code (.undefinedValue (.temp 0))) := rfl
  have h : (m.assembleFunction detour = .ok () ↔ detour.InOrder) ∧ (detour.Live → detour.Dominated →
      ∃ bs : List Block, bs.Perm detour.blocks ∧
        m.assembleFunction { detour with blocks := bs } = .ok ()) := by
    apply assembled_iff_inOrder hverify ⟨_, _, rfl, rfl⟩ (by decide)
    · exact fun _ _ _ s hs => absurd hs (Nat.not_lt_zero s)
    · intro k hk i hi
      simp only [detour, List.mem_cons, List.not_mem_nil, or_false] at hk
      rcases hk with rfl | rfl | rfl
      · cases hi
      · cases hi
      · rw [List.mem_singleton.mp hi]
        exact nofun
    · intro k hk n hn
      simp only [detour, List.mem_cons, List.not_mem_nil, or_false] at hk
      rcases hk with rfl | rfl | rfl
      · simp [Block.Names, Terminator.operands] at hn
      · simp [Block.Names, Terminator.operands] at hn
      · simp [Block.Names, Instruction.operands, Instruction.result?, Terminator.operands] at hn
  refine ⟨hverify, detour_dominated, herror, fun hin => ?_, h.2 detour_live detour_dominated⟩
  have hok := h.1.mpr hin
  rw [herror] at hok
  cases hok

end TreeLang.Ir
