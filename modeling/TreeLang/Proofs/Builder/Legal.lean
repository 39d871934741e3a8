import TreeLang.Proofs.Builder.Blocks

namespace TreeLang.Ir

/-- The temporaries that hold a value at some point of a function, with their types. -/
abbrev Temps := Nat → Ty → Prop

/-- What the instructions of a function may name besides temporaries. -/
structure Surroundings where
  params : List Ty
  returns : Ty
  slots : List Ty
  strings : Nat
  callees : String → Option External

def Temps.after (known : Temps) (is : List Instruction) : Temps :=
  fun id ty => known id ty ∨ (id, ty) ∈ definitions is

inductive Operand.HasType (e : Surroundings) (known : Temps) : Operand → Ty → Prop
  | temp {id : Nat} {ty : Ty} (h : known id ty) : HasType e known (.temp id) ty
  | param {i : Nat} {ty : Ty} (h : e.params[i]? = some ty) : HasType e known (.param i) ty
  | constant (c : Constant) : HasType e known (.constant c) c.ty
  | str {id : Nat} (h : id < e.strings) : HasType e known (.str id) .ptr

/-- A fixed argument has the type of its parameter, a trailing one is a number or a string. -/
def Operand.IsArgument (e : Surroundings) (known : Temps) (expected : Option Ty) (o : Operand) :
    Prop :=
  ∃ ty, o.HasType e known ty ∧ ty ∈ expected.elim [.i32, .f64, .ptr] (fun p => [p])

def Terminator.operands : Terminator → List Operand
  | .branch condition _ _ => [condition]
  | .ret (some value) => [value]
  | .jump _ | .ret none | .unset => []

def Instruction.Legal (e : Surroundings) (known : Temps) : Instruction → Prop
  | .alloca .. => True
  | .load _ slot ty => e.slots[slot]? = some ty
  | .store slot value ty => e.slots[slot]? = some ty ∧ value.HasType e known ty
  | .binary _ _ left right ty =>
    ty.isNumeric = true ∧ left.HasType e known ty ∧ right.HasType e known ty
  | .neg _ operand ty => ty.isNumeric = true ∧ operand.HasType e known ty
  | .cast _ value source target =>
    Builder.isConversion source target = true ∧ value.HasType e known source
  | .call result callee args returns => ∃ x, e.callees callee = some x ∧
    x.accepts args.length = true ∧ returns = x.returns ∧ (result = none ↔ returns = .void) ∧
    ∀ (i : Nat) (o : Operand), args[i]? = some o → o.IsArgument e known x.params[i]?

def Terminator.Legal (e : Surroundings) (known : Temps) : Terminator → Prop
  | .jump _ | .unset => True
  | .branch condition _ _ => condition.HasType e known .bool
  | .ret none => e.returns = .void
  | .ret (some value) => e.returns ≠ .void ∧ value.HasType e known e.returns

/-- Each instruction is legal behind those before it. -/
def LegalCode (e : Surroundings) (known : Temps) : List Instruction → Prop
  | [] => True
  | i :: is => i.Legal e known ∧ LegalCode e (known.after [i]) is

/-- The definitions of a piece of code are those of its parts. -/
theorem definitions_append (is js : List Instruction) :
    definitions (is ++ js) = definitions is ++ definitions js := by
  induction is with
  | nil => rfl
  | cons i is ih =>
    simp only [List.cons_append, definitions]
    split <;> simp [ih]

theorem definitions_filter (is : List Instruction) :
    definitions (is.filter (!·.isAlloca)) = definitions is := by
  induction is with
  | nil => rfl
  | cons i is ih =>
    by_cases hi : i.isAlloca = true
    · simp [hi, definitions, Instruction.result?_of_isAlloca hi, ih]
    · simp only [List.filter_cons, hi, definitions]
      simp [definitions, ih]

/-- A definition is the result of an instruction, with its type. -/
theorem mem_definitions {is : List Instruction} {x : Nat} {ty : Ty} :
    (x, ty) ∈ definitions is ↔ ∃ i ∈ is, i.result? = some (.temp x) ∧ i.resultType = ty := by
  induction is with
  | nil => simp [definitions]
  | cons i is ih =>
    simp only [definitions, List.mem_cons, exists_eq_or_imp]
    split
    · rename_i y hy
      rw [List.mem_cons, ih, hy]
      simp only [Prod.mk.injEq, Option.some.injEq, Operand.temp.injEq]
      refine or_congr_left ?_
      exact ⟨fun h => ⟨h.1.symm, h.2.symm⟩, fun h => ⟨h.1.symm, h.2.symm⟩⟩
    · rename_i hne
      rw [ih]
      refine ⟨.inr, fun h => h.resolve_left fun h => ?_⟩
      exact hne x h.1

theorem Function.mem_definitions_of_block {f : Function} {k : Block} (hk : k ∈ f.blocks)
    {d : Nat × Ty} (hd : d ∈ Ir.definitions k.instructions) : d ∈ f.definitions := by
  obtain ⟨x, ty⟩ := d
  obtain ⟨i, hi, hr⟩ := Ir.mem_definitions.mp hd
  exact Ir.mem_definitions.mpr ⟨i, List.mem_flatMap.mpr ⟨k, hk, hi⟩, hr⟩

theorem Block.definitions_body (k : Block) : definitions k.body = definitions k.instructions :=
  definitions_filter k.instructions

@[simp] theorem Temps.after_nil (known : Temps) : known.after [] = known := by
  funext id ty
  simp [after, definitions]

/-- What is known behind a piece of code is known part by part. -/
theorem Temps.after_append (known : Temps) (is js : List Instruction) :
    known.after (is ++ js) = (known.after is).after js := by
  funext id ty
  simp [after, definitions_append, or_assoc]

/-- The more is known in front, the more is known behind. -/
theorem Temps.after_mono {known known' : Temps} (h : ∀ id ty, known id ty → known' id ty)
    (is : List Instruction) {id : Nat} {ty : Ty} (hk : known.after is id ty) :
    known'.after is id ty :=
  hk.imp_left (h id ty)

structure Surroundings.Within (e e' : Surroundings) : Prop where
  params : e'.params = e.params
  returns : e'.returns = e.returns
  slots : e.slots <+: e'.slots
  strings : e.strings ≤ e'.strings
  callees : e'.callees = e.callees

section Mono

variable {e e' : Surroundings} {known known' : Temps}

theorem getElem?_of_extended {α : Type} {as bs : List α} (h : as <+: bs) {i : Nat} {a : α}
    (ha : as[i]? = some a) : bs[i]? = some a := by
  obtain ⟨cs, rfl⟩ := h
  rw [List.getElem?_append_left (List.getElem?_eq_some_iff.mp ha).1]
  exact ha

theorem Operand.HasType.mono (he : e.Within e') (hk : ∀ id ty, known id ty → known' id ty)
    {o : Operand} {ty : Ty} (h : o.HasType e known ty) : o.HasType e' known' ty := by
  cases h with
  | temp h => exact .temp (hk _ _ h)
  | param h => exact .param (he.params ▸ h)
  | constant c => exact .constant c
  | str h => exact .str (Nat.lt_of_lt_of_le h he.strings)

/-- An instruction stays legal where more is known and more is there to be named. -/
theorem Instruction.Legal.mono (he : e.Within e') (hk : ∀ id ty, known id ty → known' id ty)
    {i : Instruction} (h : i.Legal e known) : i.Legal e' known' := by
  cases i with
  | alloca => trivial
  | load => exact getElem?_of_extended he.slots h
  | store => exact ⟨getElem?_of_extended he.slots h.1, h.2.mono he hk⟩
  | binary => exact ⟨h.1, h.2.1.mono he hk, h.2.2.mono he hk⟩
  | neg => exact ⟨h.1, h.2.mono he hk⟩
  | cast => exact ⟨h.1, h.2.mono he hk⟩
  | call =>
    obtain ⟨x, hx, hacc, hret, hres, hargs⟩ := h
    refine ⟨x, he.callees ▸ hx, hacc, hret, hres, fun i o ho => ?_⟩
    obtain ⟨ty, hty, hm⟩ := hargs i o ho
    exact ⟨ty, hty.mono he hk, hm⟩

theorem Terminator.Legal.mono (he : e.Within e') (hk : ∀ id ty, known id ty → known' id ty)
    {t : Terminator} (h : t.Legal e known) : t.Legal e' known' := by
  cases t with
  | jump | unset => trivial
  | branch => exact Operand.HasType.mono he hk h
  | ret value =>
    cases value with
    | none => exact he.returns.trans h
    | some v => exact ⟨he.returns ▸ h.1, he.returns ▸ h.2.mono he hk⟩

theorem LegalCode.mono {is : List Instruction} (he : e.Within e')
    (hk : ∀ id ty, known id ty → known' id ty) (h : LegalCode e known is) :
    LegalCode e' known' is := by
  induction is generalizing known known' with
  | nil => trivial
  | cons i is ih =>
    exact ⟨h.1.mono he hk, ih (fun id ty hid => Temps.after_mono hk [i] hid) h.2⟩

end Mono

variable {e : Surroundings} {known : Temps}

/-- Code is legal part by part, the second one behind what the first defines. -/
theorem legalCode_append {is js : List Instruction} :
    LegalCode e known (is ++ js) ↔ LegalCode e known is ∧ LegalCode e (known.after is) js := by
  induction is generalizing known with
  | nil => simp [LegalCode]
  | cons i is ih =>
    have hafter : known.after (i :: is) = (known.after [i]).after is :=
      Temps.after_append known [i] is
    simp only [List.cons_append, LegalCode, ih, hafter, and_assoc]

/-- An instruction in the midst of legal code is legal behind what stands before it. -/
theorem LegalCode.at {pre post : List Instruction} {i : Instruction}
    (h : LegalCode e known (pre ++ i :: post)) : i.Legal e (known.after pre) :=
  (legalCode_append.mp h).2.1

theorem Operand.HasType.of_temp {x : Nat} {ty : Ty}
    (h : (Operand.temp x).HasType e known ty) : known x ty := by
  cases h
  assumption

/-- The operands of a legal instruction have types. -/
theorem Instruction.Legal.operand {i : Instruction} (h : i.Legal e known)
    {o : Operand} (ho : o ∈ i.operands) : ∃ ty, o.HasType e known ty := by
  cases i with
  | alloca => cases ho
  | load => cases ho
  | store slot value ty =>
    rw [List.mem_singleton.mp ho]
    exact ⟨ty, h.2⟩
  | binary op result left right ty =>
    rcases List.mem_cons.mp ho with rfl | ho
    · exact ⟨ty, h.2.1⟩
    · rw [List.mem_singleton.mp ho]
      exact ⟨ty, h.2.2⟩
  | neg result operand ty =>
    rw [List.mem_singleton.mp ho]
    exact ⟨ty, h.2⟩
  | cast result value source target =>
    rw [List.mem_singleton.mp ho]
    exact ⟨source, h.2⟩
  | call result callee args returns =>
    obtain ⟨x, _, _, _, _, hargs⟩ := h
    obtain ⟨n, hn⟩ := List.mem_iff_getElem?.mp ho
    obtain ⟨ty, hty, _⟩ := hargs n o hn
    exact ⟨ty, hty⟩

theorem Terminator.Legal.operand {t : Terminator}
    (h : t.Legal e known) {o : Operand} (ho : o ∈ t.operands) :
    ∃ ty, o.HasType e known ty := by
  cases t with
  | jump | unset => cases ho
  | branch condition =>
    rw [List.mem_singleton.mp ho]
    exact ⟨.bool, h⟩
  | ret value =>
    cases value with
    | none => cases ho
    | some v =>
      rw [List.mem_singleton.mp ho]
      exact ⟨e.returns, h.2⟩

theorem Surroundings.Within.refl (e : Surroundings) : e.Within e :=
  ⟨rfl, rfl, List.prefix_rfl, Nat.le_refl _, rfl⟩

end TreeLang.Ir
