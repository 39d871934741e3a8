import TreeLang.Proofs.Builder.Steps

namespace TreeLang.Ir

variable (ρ : Nat → Nat)

def Operand.renumber : Operand → Operand
  | .str id => .str (ρ id)
  | .temp id => .temp id
  | .param index => .param index
  | .constant value => .constant value

namespace Instruction

def renumber : Instruction → Instruction
  | .alloca slot ty name => .alloca slot ty name
  | .load result slot ty => .load (result.renumber ρ) slot ty
  | .store slot value ty => .store slot (value.renumber ρ) ty
  | .binary op result left right ty =>
    .binary op (result.renumber ρ) (left.renumber ρ) (right.renumber ρ) ty
  | .neg result operand ty => .neg (result.renumber ρ) (operand.renumber ρ) ty
  | .cast result value source target =>
    .cast (result.renumber ρ) (value.renumber ρ) source target
  | .call result callee args returns =>
    .call (result.map (·.renumber ρ)) callee (args.map (·.renumber ρ)) returns

variable (i : Instruction)

@[simp] theorem isAlloca_renumber : (i.renumber ρ).isAlloca = i.isAlloca := by
  cases i <;> rfl

@[simp] theorem resultType_renumber : (i.renumber ρ).resultType = i.resultType := by
  cases i <;> rfl

@[simp] theorem result?_renumber : (i.renumber ρ).result? = i.result?.map (·.renumber ρ) := by
  cases i <;> rfl

@[simp] theorem operands_renumber :
    (i.renumber ρ).operands = i.operands.map (·.renumber ρ) := by
  cases i <;> rfl

end Instruction

def Terminator.renumber : Terminator → Terminator
  | .jump target => .jump target
  | .branch condition thenBlock elseBlock => .branch (condition.renumber ρ) thenBlock elseBlock
  | .ret value => .ret (value.map (·.renumber ρ))
  | .unset => .unset

@[simp] theorem Terminator.successors_renumber (t : Terminator) :
    (t.renumber ρ).successors = t.successors := by
  cases t <;> rfl

theorem Terminator.renumber_eq_unset {t : Terminator} : t.renumber ρ = .unset ↔ t = .unset := by
  cases t <;> simp [renumber]

namespace Block

def renumber (k : Block) : Block :=
  ⟨k.id, k.label, k.instructions.map (·.renumber ρ), k.terminator.renumber ρ⟩

@[simp] theorem id_renumber (k : Block) : (k.renumber ρ).id = k.id := rfl

@[simp] theorem isTerminated_renumber (k : Block) : (k.renumber ρ).isTerminated = k.isTerminated := by
  simp [isTerminated, renumber, Terminator.renumber_eq_unset]

theorem renumber_add (i : Instruction) (k : Block) :
    (k.add i).renumber ρ = (k.renumber ρ).add (i.renumber ρ) := by
  simp [add, renumber]

theorem renumber_finish (t : Terminator) (k : Block) :
    (k.finish t).renumber ρ = (k.renumber ρ).finish (t.renumber ρ) := rfl

theorem insertAlloca_renumber (a : Instruction) (is : List Instruction) :
    Builder.insertAlloca (a.renumber ρ) (is.map (·.renumber ρ)) =
      (Builder.insertAlloca a is).map (·.renumber ρ) := by
  induction is with
  | nil => rfl
  | cons i is ih =>
    simp only [List.map_cons, Builder.insertAlloca, Instruction.isAlloca_renumber, ih]
    split <;> rfl

theorem renumber_hoist (a : Instruction) (k : Block) :
    (k.hoist a).renumber ρ = (k.renumber ρ).hoist (a.renumber ρ) := by
  simp [hoist, renumber, insertAlloca_renumber]

end Block

namespace Function

def renumber (f : Function) : Function :=
  { f with blocks := f.blocks.map (·.renumber ρ) }

variable (f : Function)

theorem block?_renumber (id : Nat) : (f.renumber ρ).block? id = (f.block? id).map (·.renumber ρ) := by
  unfold block? renumber
  rw [List.find?_map]
  rfl

theorem updateBlock_renumber (id : Nat) {change change' : Block → Block}
    (h : ∀ k : Block, (change k).renumber ρ = change' (k.renumber ρ)) :
    (f.renumber ρ).updateBlock id change' = (f.updateBlock id change).renumber ρ := by
  unfold updateBlock renumber
  simp only [List.map_map]
  congr 1
  refine List.map_congr_left fun k _ => ?_
  change (if k.id == id then change' (k.renumber ρ) else k.renumber ρ) =
    (if k.id == id then change k else k).renumber ρ
  split
  · exact (h k).symm
  · rfl

/-- The graph of a function does not depend on its strings. -/
theorem graph_renumber : (f.renumber ρ).graph = f.graph := by
  simp [graph, renumber, Block.renumber, Function.comp_def]

theorem reserve_renumber (name : String) (ty : Ty) :
    (f.renumber ρ).reserve name ty = (f.reserve name ty).renumber ρ :=
  updateBlock_renumber ρ { f with slots := f.slots ++ [⟨name, ty⟩] } f.entry
    fun k => Block.renumber_hoist ρ _ k

theorem extend_renumber (label : String) :
    (f.renumber ρ).extend label = (f.extend label).renumber ρ := by
  simp [extend, renumber, Block.renumber, Block.empty, Terminator.renumber]

theorem assign_renumber (id : Nat) (i : Instruction) :
    (f.renumber ρ).assign id (i.renumber ρ) = (f.assign id i).renumber ρ := by
  unfold assign
  rw [f.updateBlock_renumber ρ id (Block.renumber_add ρ i)]
  rfl

theorem definitions_renumber (is : List Instruction) :
    Ir.definitions (is.map (·.renumber ρ)) = Ir.definitions is := by
  induction is with
  | nil => rfl
  | cons i is ih =>
    simp only [List.map_cons, Ir.definitions, Instruction.result?_renumber,
      Instruction.resultType_renumber, ih]
    cases i.result? with
    | none => rfl
    | some o => cases o <;> rfl

@[simp] theorem renumber_definitions : (f.renumber ρ).definitions = f.definitions := by
  have hbody : (f.renumber ρ).blocks.flatMap (·.instructions) =
      (f.blocks.flatMap (·.instructions)).map (·.renumber ρ) := by
    simp [renumber, Block.renumber, List.flatMap_map, List.map_flatMap]
  unfold definitions
  rw [hbody, definitions_renumber]

variable (defined : List (Nat × Ty))

theorem typeOf_renumber (o : Operand) :
    (f.renumber ρ).typeOf defined (o.renumber ρ) = f.typeOf defined o := by
  cases o <;> rfl

theorem verifyOperands_renumber (os : List Operand) :
    (f.renumber ρ).verifyOperands defined (os.map (·.renumber ρ)) = f.verifyOperands defined os := by
  induction os with
  | nil => rfl
  | cons o os ih => simp only [List.map_cons, verifyOperands, typeOf_renumber, ih]

theorem verifyStorage_renumber (i : Instruction) :
    (f.renumber ρ).verifyStorage defined (i.renumber ρ) = f.verifyStorage defined i := by
  cases i with
  | store slot value ty =>
    simp only [Instruction.renumber, verifyStorage, typeOf_renumber]
    rfl
  | alloca | load | binary | neg | cast | call => rfl

theorem verifyInstructions_renumber (id : Nat) (prologue : Bool) (is : List Instruction) :
    (f.renumber ρ).verifyInstructions defined id prologue (is.map (·.renumber ρ)) =
      f.verifyInstructions defined id prologue is := by
  induction is generalizing prologue with
  | nil => rfl
  | cons i is ih =>
    simp only [List.map_cons, verifyInstructions, Instruction.isAlloca_renumber,
      Instruction.operands_renumber, verifyOperands_renumber, verifyStorage_renumber, ih]

theorem verifyTerminator_renumber (k : Block) :
    (f.renumber ρ).verifyTerminator defined (k.renumber ρ) = f.verifyTerminator defined k := by
  unfold verifyTerminator
  cases ht : k.terminator with
  | jump | unset => simp [Block.renumber, ht, Terminator.renumber]
  | branch => simp only [Block.renumber, ht, Terminator.renumber, typeOf_renumber]
  | ret value =>
    simp only [Block.renumber, ht, Terminator.renumber]
    cases value with
    | none => rfl
    | some value =>
      simp only [Option.map_some, verifyReturn, typeOf_renumber]
      rfl

theorem verifyTargets_renumber (id : Nat) (targets : List Nat) :
    (f.renumber ρ).verifyTargets id targets = f.verifyTargets id targets := by
  induction targets with
  | nil => rfl
  | cons target targets ih =>
    unfold verifyTargets
    rw [ih]
    simp [renumber, List.any_map, Function.comp_def]

theorem verifyBlocks_renumber (ks : List Block) :
    (f.renumber ρ).verifyBlocks defined (ks.map (·.renumber ρ)) = f.verifyBlocks defined ks := by
  induction ks with
  | nil => rfl
  | cons k ks ih =>
    have hk : (f.renumber ρ).verifyBlock defined (k.renumber ρ) = f.verifyBlock defined k := by
      unfold verifyBlock
      rw [verifyTerminator_renumber, verifyTargets_renumber]
      simp only [Block.renumber, verifyInstructions_renumber, Terminator.successors_renumber]
      rfl
    simp only [List.map_cons, verifyBlocks, hk, ih]

/-- A function is verified with the same result, as no rule looks at the number of a string. -/
theorem verify_renumber : (f.renumber ρ).verify = f.verify := by
  unfold verify
  rw [renumber_definitions]
  have hblocks : (f.renumber ρ).blocks = f.blocks.map (·.renumber ρ) := rfl
  rw [hblocks, verifyBlocks_renumber]
  rfl

end Function

namespace Builder

def renumber (b : Builder) : Builder := ⟨b.function.renumber ρ, b.current⟩

variable {ρ} {b b' : Builder}

@[simp] theorem isTerminated_renumber : (b.renumber ρ).isTerminated = b.isTerminated := by
  unfold isTerminated
  cases hc : b.current with
  | none => simp [renumber, hc]
  | some id =>
    simp only [renumber, hc, Option.bind_some, Function.block?_renumber]
    cases b.function.block? id <;> simp

@[simp] theorem isReachable_renumber (id : Nat) :
    (b.renumber ρ).isReachable id = b.isReachable id := by
  unfold isReachable renumber
  rw [Function.graph_renumber]

theorem append_renumber {i : Instruction} (h : b.append i = .ok b') :
    (b.renumber ρ).append (i.renumber ρ) = .ok (b'.renumber ρ) := by
  obtain ⟨id, hid, rfl⟩ := append_eq_ok.mp h
  refine append_eq_ok.mpr ⟨id, hid, ?_⟩
  simp only [renumber]
  rw [b.function.updateBlock_renumber ρ id (Block.renumber_add ρ i)]

/-- An instruction with a result is added under the same temporary. -/
theorem define_renumber {i i' : Operand → Instruction} {v : Operand} (h : b.define i = .ok (v, b'))
    (hi : ∀ id, (i (.temp id)).renumber ρ = i' (.temp id)) :
    (b.renumber ρ).define i' = .ok (v.renumber ρ, b'.renumber ρ) := by
  obtain ⟨rfl, id, hid, rfl⟩ := define_eq_ok.mp h
  refine define_eq_ok.mpr ⟨rfl, id, hid, ?_⟩
  simp only [renumber, Operand.renumber]
  rw [← hi]
  simp only [← Function.assign_renumber]

theorem terminate_renumber {t : Terminator} (h : b.terminate t = .ok b') :
    (b.renumber ρ).terminate (t.renumber ρ) = .ok (b'.renumber ρ) := by
  obtain ⟨id, k, hid, hk, hu, rfl⟩ := terminate_eq_ok.mp h
  refine terminate_eq_ok.mpr ⟨id, k.renumber ρ, hid, ?_, (Terminator.renumber_eq_unset ρ).mpr hu, ?_⟩
  · simp only [renumber, Function.block?_renumber, hk, Option.map_some]
  · simp only [renumber]
    rw [b.function.updateBlock_renumber ρ id (Block.renumber_finish ρ t)]

/-- A slot is reserved and hoisted to the same place. -/
theorem alloca_renumber {name : String} {ty : Ty} {slot : Nat}
    (h : b.alloca name ty = .ok (slot, b')) :
    (b.renumber ρ).alloca name ty = .ok (slot, b'.renumber ρ) := by
  obtain ⟨hty, rfl, rfl⟩ := alloca_eq_ok.mp h
  refine alloca_eq_ok.mpr ⟨hty, rfl, ?_⟩
  simp only [renumber, Function.reserve_renumber]

theorem createBlock_renumber (label : String) :
    (b.renumber ρ).createBlock label = ((b.createBlock label).1, (b.createBlock label).2.renumber ρ) :=
  congrArg (Prod.mk _) (congrArg (Builder.mk · b.current) (b.function.extend_renumber ρ label))

theorem switchTo_renumber {id : Nat} (h : b.switchTo id = .ok b') :
    (b.renumber ρ).switchTo id = .ok (b'.renumber ρ) := by
  obtain ⟨⟨k, hk, hid⟩, rfl⟩ := switchTo_eq_ok.mp h
  exact switchTo_eq_ok.mpr ⟨⟨k.renumber ρ, List.mem_map_of_mem hk, hid⟩, rfl⟩

/-- Pruning keeps the same blocks. -/
theorem prune_renumber : (b.renumber ρ).prune = b.prune.renumber ρ := by
  unfold prune
  simp only [renumber, Function.graph_renumber]
  simp only [Function.renumber, List.filter_map, List.any_map]
  rfl

/-- The finished function differs in the numbers of its strings only. -/
theorem build_renumber {F : Function} (h : b.prune.build = .ok F) :
    (b.renumber ρ).prune.build = .ok (F.renumber ρ) := by
  rw [prune_renumber]
  obtain ⟨hv, rfl⟩ := build_eq_ok.mp h
  exact build_eq_ok.mpr ⟨(Function.verify_renumber ρ _).trans hv, rfl⟩

end Builder

end TreeLang.Ir
