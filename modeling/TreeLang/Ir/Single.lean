import TreeLang.Ir.Module

namespace TreeLang.Ir

/-- What has been defined so far, and the names that stand for others. -/
structure Renaming where
  defined : List Operand
  /-- What each name stands for that has been defined again or is another name of a value. -/
  current : List (Operand × Operand)
  /-- The first temporary that is not in use. -/
  fresh : Nat
  deriving DecidableEq

namespace Renaming

/-- Constants and strings stand for themselves. -/
def use (r : Renaming) : Operand → Operand
  | .constant c => .constant c
  | .str id => .str id
  | v => (r.current.lookup v).getD v

def define (r : Renaming) (v : Operand) : Operand × Renaming :=
  if v ∈ r.defined then
    (.temp r.fresh, { r with
      current := (v, .temp r.fresh) :: r.current
      fresh := r.fresh + 1 })
  else (v, { r with defined := v :: r.defined })

/-- Lets the result of a copy stand for what is copied. -/
def copy (r : Renaming) (result : Operand) : Operand → Renaming
  | .constant _ | .str _ => r
  | value => { r with current := (result, value) :: r.current }

def instruction (r : Renaming) : Instruction → Instruction × Renaming
  | .alloca slot ty name => (.alloca slot ty name, r)
  | .load result slot ty =>
    let (result, next) := r.define result
    (.load result slot ty, next)
  | .store slot value ty => (.store slot (r.use value) ty, r)
  | .binary op result left right ty =>
    let (result, next) := r.define result
    (.binary op result (r.use left) (r.use right) ty, next)
  | .neg result operand ty =>
    let (result, next) := r.define result
    (.neg result (r.use operand) ty, next)
  | .cast result value source target =>
    let value := r.use value
    let (name, next) := r.define result
    (.cast name value source target, if source = target then next.copy result value else next)
  | .call none callee args returns => (.call none callee (args.map r.use) returns, r)
  | .call (some result) callee args returns =>
    let (result, next) := r.define result
    (.call (some result) callee (args.map r.use) returns, next)

def instructions (r : Renaming) : List Instruction → List Instruction × Renaming
  | [] => ([], r)
  | i :: is =>
    let (i, r) := r.instruction i
    let (is, r) := r.instructions is
    (i :: is, r)

def terminator (r : Renaming) : Terminator → Terminator
  | .branch condition thenBlock elseBlock => .branch (r.use condition) thenBlock elseBlock
  | .ret (some value) => .ret (some (r.use value))
  | t => t

def blocks (r : Renaming) : List Block → List Block
  | [] => []
  | b :: bs =>
    let (is, r) := r.instructions b.instructions
    { b with instructions := is, terminator := r.terminator b.terminator } :: r.blocks bs

end Renaming

/-- The values that the instructions define, in order. -/
def definedBy (is : List Instruction) : List Operand :=
  is.flatMap (·.result?.toList)

theorem definedBy_cons (i : Instruction) (is : List Instruction) :
    definedBy (i :: is) = i.result?.toList ++ definedBy is := by
  simp [definedBy]

namespace Function

/-- The values that the function defines, block by block. -/
def results (f : Function) : List Operand :=
  f.blocks.flatMap fun b => definedBy b.instructions

/-- A number above those of all temporaries that the function defines. -/
def temporaries (f : Function) : Nat :=
  f.results.foldl (fun n v => match v with
    | .temp id => max n (id + 1)
    | _ => n) 0

/-- The incoming arguments count as defined. -/
def single (f : Function) : Function :=
  { f with blocks :=
      Renaming.blocks ⟨(List.range f.params.length).map .param, [], f.temporaries⟩ f.blocks }

end Function

/-- The module in single assignment. A use of a value means the definition that comes last before it,
when blocks are taken in the order in which they were made, whatever path leads to the use. Where a
function defines a value again, the new definition and the uses behind it take a temporary of their own.
A cast to the same type defines nothing: its result is another name of the value. A function that
defines nothing twice and has no such cast stays as it is. -/
def Module.single (m : Module) : Module :=
  { m with functions := m.functions.map Function.single }

namespace Renaming

theorem use_of_current_nil {r : Renaming} (h : r.current = []) (v : Operand) : r.use v = v := by
  cases v <;> simp [use, h]

theorem map_use_of_current_nil {r : Renaming} (h : r.current = []) (vs : List Operand) :
    vs.map r.use = vs :=
  (List.map_congr_left fun v _ => use_of_current_nil h v).trans (List.map_id vs)

theorem define_of_not_mem {r : Renaming} {v : Operand} (h : v ∉ r.defined) :
    (r.define v).1 = v ∧ (r.define v).2.current = r.current ∧
      (r.define v).2.defined ⊆ v :: r.defined := by
  simp [define, h]

/-- An instruction that defines nothing again and is no copy stays as it is. -/
theorem instruction_eq_self {r : Renaming} (hc : r.current = []) {i : Instruction}
    (plain : i.isCopy = false) (h : ∀ v ∈ i.result?, v ∉ r.defined) :
    (r.instruction i).1 = i ∧ (r.instruction i).2.current = [] ∧
      (r.instruction i).2.defined ⊆ i.result?.toList ++ r.defined := by
  cases i with
  | alloca => simp [instruction, hc]
  | store => simp [instruction, hc, use_of_current_nil hc]
  | load result =>
    have hd := define_of_not_mem (h result (by simp [Instruction.result?]))
    simp_all [instruction, Instruction.result?]
  | binary op result =>
    have hd := define_of_not_mem (h result (by simp [Instruction.result?]))
    simp_all [instruction, Instruction.result?, use_of_current_nil hc]
  | neg result =>
    have hd := define_of_not_mem (h result (by simp [Instruction.result?]))
    simp_all [instruction, Instruction.result?, use_of_current_nil hc]
  | cast result value source target =>
    have hd := define_of_not_mem (h result (by simp [Instruction.result?]))
    have hne : source ≠ target := by simpa [Instruction.isCopy] using plain
    simp_all [instruction, Instruction.result?, use_of_current_nil hc]
  | call result =>
    cases result with
    | none => simp [instruction, hc, map_use_of_current_nil hc]
    | some result =>
      have hd := define_of_not_mem (h result (by simp [Instruction.result?]))
      simp_all [instruction, Instruction.result?, map_use_of_current_nil hc]

theorem instructions_eq_self {is : List Instruction} {r : Renaming} (hc : r.current = [])
    (plain : ∀ i ∈ is, i.isCopy = false) (distinct : (definedBy is).Nodup)
    (h : ∀ v ∈ definedBy is, v ∉ r.defined) :
    (r.instructions is).1 = is ∧ (r.instructions is).2.current = [] ∧
      (r.instructions is).2.defined ⊆ definedBy is ++ r.defined := by
  induction is generalizing r with
  | nil => simp [instructions, hc, definedBy]
  | cons i is ih =>
    rw [definedBy_cons] at distinct h ⊢
    obtain ⟨-, tail, apart⟩ := List.nodup_append.mp distinct
    obtain ⟨hi, hic, hid⟩ :=
      instruction_eq_self hc (plain i List.mem_cons_self) fun v hv => h v (by simp_all)
    obtain ⟨his, hisc, hisd⟩ := ih hic (fun i hi => plain i (.tail _ hi)) tail fun v hv hm =>
      (List.mem_append.mp (hid hm)).elim (fun first => apart v first v hv rfl)
        (h v (List.mem_append_right _ hv))
    refine ⟨by simp [instructions, hi, his], by simp [instructions, hisc], fun v hv => ?_⟩
    rcases List.mem_append.mp (hisd hv) with hv | hv
    · simp [hv]
    · rcases List.mem_append.mp (hid hv) with hv | hv <;> simp [List.mem_append, hv]

theorem terminator_eq_self {r : Renaming} (hc : r.current = []) (t : Terminator) :
    r.terminator t = t := by
  cases t with
  | branch => simp [terminator, use_of_current_nil hc]
  | ret value => cases value <;> simp [terminator, use_of_current_nil hc]
  | jump | unset => rfl

theorem blocks_eq_self {bs : List Block} {r : Renaming} (hc : r.current = [])
    (plain : ∀ b ∈ bs, ∀ i ∈ b.instructions, i.isCopy = false)
    (distinct : (bs.flatMap fun b => definedBy b.instructions).Nodup)
    (h : ∀ v ∈ bs.flatMap fun b => definedBy b.instructions, v ∉ r.defined) :
    r.blocks bs = bs := by
  induction bs generalizing r with
  | nil => rfl
  | cons b bs ih =>
    rw [List.flatMap_cons] at distinct h
    obtain ⟨head, tail, apart⟩ := List.nodup_append.mp distinct
    obtain ⟨hi, hic, hid⟩ :=
      instructions_eq_self hc (plain b List.mem_cons_self) head fun v hv => h v (by simp [hv])
    have rest := ih hic (fun b hb => plain b (.tail _ hb)) tail fun v hv hm =>
      (List.mem_append.mp (hid hm)).elim (fun first => apart v first v hv rfl)
        (h v (List.mem_append_right _ hv))
    simp [blocks, hi, terminator_eq_self hic, rest]

end Renaming

/-- A function without copies that defines nothing twice, and no argument, is in single assignment
already. -/
theorem Function.single_eq_self {f : Function}
    (plain : ∀ b ∈ f.blocks, ∀ i ∈ b.instructions, i.isCopy = false) (distinct : f.results.Nodup)
    (own : ∀ n < f.params.length, .param n ∉ f.results) : f.single = f := by
  have h : Renaming.blocks ⟨(List.range f.params.length).map .param, [], f.temporaries⟩ f.blocks =
      f.blocks :=
    Renaming.blocks_eq_self rfl plain distinct fun v hv hm => by
      obtain ⟨n, hn, rfl⟩ := List.mem_map.mp hm
      exact own n (List.mem_range.mp hn) hv
  simp [single, h]

end TreeLang.Ir
