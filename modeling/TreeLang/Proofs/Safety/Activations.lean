import TreeLang.Proofs.Builder.Verified
import TreeLang.Proofs.Lowered
import TreeLang.Proofs.Simulation.Steps

namespace TreeLang

namespace Machine

open Ir (Operand Module Instruction Terminator)

namespace Activation

variable {m : Module} {a : Activation}

def Holds (m : Module) (a : Activation) (o : Operand) (ty : Ir.Ty) : Prop :=
  ∃ v, a.value m o = .ok v ∧ v.ty = ty

def Keeps (a : Activation) (slot : Nat) (ty : Ir.Ty) : Prop :=
  ∃ v, a.slots.lookup slot = some v ∧ v.ty = ty

def Leads (a : Activation) (target : Nat) : Prop :=
  ∃ k, a.function.block? target = some k ∧ k.terminator ≠ .unset

/-- The instruction finds what it works on, in exactly the types that it works on. A call finds its
callee, and as many arguments as that takes; it asks for a result exactly if the callee returns
one. -/
def CanExecute (m : Module) (a : Activation) : Instruction → Prop
  | .alloca _ ty _ => ty ≠ .void
  | .load _ slot ty => a.Keeps slot ty
  | .store slot value ty => a.Keeps slot ty ∧ a.Holds m value ty
  | .binary _ _ left right ty =>
    (ty = .i32 ∨ ty = .f64) ∧ a.Holds m left ty ∧ a.Holds m right ty
  | .neg _ operand ty => (ty = .i32 ∨ ty = .f64) ∧ a.Holds m operand ty
  | .cast _ value source target =>
    (source, target) ∈ [(.i32, .f64), (.f64, .i32), (.bool, .i32), (.bool, .f64)] ∧
      a.Holds m value source
  | .call result callee args returns => ∃ x, m.callee? callee = some x ∧
    x.accepts args.length = true ∧ returns = x.returns ∧ (result = none ↔ returns = .void) ∧
    (∀ (n : Nat) (o : Operand) (ty : Ir.Ty), args[n]? = some o → x.params[n]? = some ty →
      a.Holds m o ty) ∧
    ∀ (n : Nat) (o : Operand), args[n]? = some o → x.params.length ≤ n →
      a.Holds m o .i32 ∨ a.Holds m o .f64 ∨ a.Holds m o .ptr

/-- The terminator finds its targets and its operand. A value is returned exactly if the function
returns one, and of its type. -/
def CanEnd (m : Module) (a : Activation) : Terminator → Prop
  | .jump target => a.Leads target
  | .branch condition thenBlock elseBlock =>
    a.Holds m condition .bool ∧ a.Leads thenBlock ∧ a.Leads elseBlock
  | .ret none => a.function.returns = .void
  | .ret (some value) => a.function.returns ≠ .void ∧ a.Holds m value a.function.returns
  | .unset => False

end Activation

/-- On words of one width an operator has a result, unless it is a division that has none. -/
theorem onInts_typed (op : Ir.BinOp) (a b : Int32) :
    (∃ v, onInts op a b = .ok v ∧ v.ty = if op.isComparison then .bool else .i32) ∨
      op = .div ∧ (b = 0 ∨ (a = Int32.minValue ∧ b = -1)) ∧ onInts op a b = .error .division := by
  cases op with
  | div =>
    by_cases h : b = 0 ∨ (a = Int32.minValue ∧ b = -1)
    · exact .inr ⟨rfl, h, if_pos h⟩
    · exact .inl ⟨_, if_neg h, rfl⟩
  | _ => exact .inl ⟨_, rfl, rfl⟩

theorem ty_onDoubles (op : Ir.BinOp) (x y : Double) :
    (onDoubles op x y).ty = if op.isComparison then .bool else .f64 := by
  cases op <;> rfl

theorem eq_i32_of_ty {v : Value} (h : v.ty = .i32) : ∃ n, v = .i32 n := by
  cases v with
  | i32 n => exact ⟨n, rfl⟩
  | _ => cases h

theorem eq_f64_of_ty {v : Value} (h : v.ty = .f64) : ∃ x, v = .f64 x := by
  cases v with
  | f64 x => exact ⟨x, rfl⟩
  | _ => cases h

theorem eq_bool_of_ty {v : Value} (h : v.ty = .bool) : ∃ w, v = .bool w := by
  cases v with
  | bool w => exact ⟨w, rfl⟩
  | _ => cases h

theorem eq_ptr_of_ty {v : Value} (h : v.ty = .ptr) : ∃ target, v = .ptr target := by
  cases v with
  | ptr target => exact ⟨target, rfl⟩
  | _ => cases h

theorem exists_zero? {ty : Ir.Ty} (h : ty ≠ .void) : ∃ v, Value.zero? ty = some v := by
  cases ty with
  | void => exact absurd rfl h
  | bool | i32 | f64 | ptr => exact ⟨_, rfl⟩

/-- An operation on two numbers of one type gives a value of its result type, unless it is a division of
integers without a result. -/
theorem binary_typed (op : Ir.BinOp) {ty : Ir.Ty} {l r : Value} (hty : ty.isNumeric = true)
    (hl : l.ty = ty) (hr : r.ty = ty) :
    (∃ v, binary op ty l r = .ok v ∧ v.ty = if op.isComparison then .bool else ty) ∨
      op = .div ∧ ty = .i32 ∧ (∃ a b, l = .i32 a ∧ r = .i32 b ∧
        (b = 0 ∨ (a = Int32.minValue ∧ b = -1))) ∧ binary op ty l r = .error .division := by
  cases ty with
  | i32 =>
    obtain ⟨a, rfl⟩ := eq_i32_of_ty hl
    obtain ⟨b, rfl⟩ := eq_i32_of_ty hr
    have hwords : binary op .i32 (.i32 a) (.i32 b) = onInts op a b := rfl
    rw [hwords]
    rcases onInts_typed op a b with hv | ⟨hop, hab, herr⟩
    · exact .inl hv
    · exact .inr ⟨hop, rfl, ⟨a, b, rfl, rfl, hab⟩, herr⟩
  | f64 =>
    obtain ⟨x, rfl⟩ := eq_f64_of_ty hl
    obtain ⟨y, rfl⟩ := eq_f64_of_ty hr
    exact .inl ⟨onDoubles op x y, rfl, ty_onDoubles op x y⟩
  | bool | ptr | void => cases hty

theorem negate_typed {ty : Ir.Ty} {v : Value} (hty : ty.isNumeric = true) (hv : v.ty = ty) :
    ∃ u, negate ty v = .ok u ∧ u.ty = ty := by
  cases ty with
  | i32 =>
    obtain ⟨n, rfl⟩ := eq_i32_of_ty hv
    exact ⟨_, rfl, rfl⟩
  | f64 =>
    obtain ⟨x, rfl⟩ := eq_f64_of_ty hv
    exact ⟨_, rfl, rfl⟩
  | bool | ptr | void => cases hty

/-- A conversion gives a value of its target type. -/
theorem cast_typed {source target : Ir.Ty} {v : Value}
    (hconv : Ir.Builder.isConversion source target = true) (hv : v.ty = source) :
    ∃ u, cast source target v = .ok u ∧ u.ty = target := by
  cases source with
  | i32 =>
    obtain ⟨n, rfl⟩ := eq_i32_of_ty hv
    cases target with
    | f64 => exact ⟨_, rfl, rfl⟩
    | _ => cases hconv
  | f64 =>
    obtain ⟨x, rfl⟩ := eq_f64_of_ty hv
    cases target with
    | i32 => exact ⟨_, rfl, rfl⟩
    | _ => cases hconv
  | bool =>
    obtain ⟨w, rfl⟩ := eq_bool_of_ty hv
    cases target with
    | i32 | f64 => exact ⟨_, rfl, rfl⟩
    | _ => cases hconv
  | ptr | void => cases target <;> cases hconv

end Machine

namespace Machine.Activation

open Ir (Operand Module Instruction Terminator Knowledge External Temps Surroundings)

/-- Whatever is known to hold a value of a type does. -/
structure Meets (m : Module) (e : Surroundings) (known : Temps) (a : Activation) : Prop where
  temps : ∀ x ty, known x ty → a.Holds m (.temp x) ty
  params : ∀ i ty, e.params[i]? = some ty → a.Holds m (.param i) ty
  slots : ∀ i ty, e.slots[i]? = some ty → a.Keeps i ty

/-- The activation has executed the instructions `pre` of a block, and meets what is known behind
them. -/
structure Placed (callees : String → Option External) (m : Module) (g : Knowledge) (id : Nat)
    (k : Ir.Block) (pre : List Instruction) (a : Activation) : Prop where
  block : a.function.block? id = some k
  code : k.instructions = pre ++ a.code
  terminator : a.terminator = k.terminator
  meets : a.Meets m (a.function.surroundings callees m.strings.length) ((g id).after pre)

/-- The activation is at some place of a function with a certificate. -/
def Running (callees : String → Option External) (m : Module) (a : Activation) : Prop :=
  ∃ g id k pre, a.function.Sturdy callees m.strings.length g ∧ a.Placed callees m g id k pre

variable {callees : String → Option External} {m : Module} {g : Knowledge} {id : Nat}
  {k : Ir.Block} {pre code : List Instruction} {i : Instruction} {a : Activation} {o : Operand}
  {ty : Ir.Ty} {v : Value}

/-- An operand of a type has a value of it, where everything known is met. -/
theorem Meets.holds {e : Surroundings} {known : Temps} (h : a.Meets m e known)
    (hs : e.strings = m.strings.length) (ho : o.HasType e known ty) : a.Holds m o ty := by
  cases ho with
  | temp hx => exact h.temps _ _ hx
  | param hp => exact h.params _ _ hp
  | constant c => exact ⟨.ofConstant c, rfl, Value.ty_ofConstant c⟩
  | @str id hid =>
    have hlt : id < m.strings.length := hs ▸ hid
    refine ⟨.ofText id m.strings[id], ?_, rfl⟩
    simp [value, List.getElem?_eq_getElem hlt]

namespace Placed

theorem holds (h : a.Placed callees m g id k pre)
    (ho : o.HasType (a.function.surroundings callees m.strings.length) ((g id).after pre) ty) :
    a.Holds m o ty :=
  h.meets.holds rfl ho

/-- The next instruction of an activation is one of its function, and so is legal there. -/
theorem legal (h : a.Placed callees m g id k pre)
    (hF : a.function.Sturdy callees m.strings.length g) (hcode : a.code = i :: code) :
    i.Legal (a.function.surroundings callees m.strings.length) ((g id).after pre) :=
  hF.certified.legal_at h.block (hcode ▸ h.code)

/-- The allocas of a function are those of its slots. -/
theorem alloca (h : a.Placed callees m g id k pre)
    (hF : a.function.Sturdy callees m.strings.length g) {slot : Nat} {name : String}
    (hcode : a.code = .alloca slot ty name :: code) :
    (a.function.surroundings callees m.strings.length).slots[slot]? = some ty ∧ ty ≠ .void := by
  have hsplit := hcode ▸ h.code
  have hmem : Instruction.alloca slot ty name ∈ k.instructions := by
    rw [hsplit]
    exact List.mem_append_right _ List.mem_cons_self
  have hid : id = a.function.entry := (hF.hoisted.prologue h.block hsplit rfl).1
  subst hid
  rw [hF.hoisted.entry k h.block] at hmem
  rcases List.mem_append.mp hmem with hmem | hmem
  · obtain ⟨n, hn, he⟩ := List.mem_mapIdx.mp hmem
    obtain ⟨rfl, rfl, rfl⟩ := Instruction.alloca.inj he
    refine ⟨?_, (hF.certified.slots _ (List.getElem_mem hn)).1⟩
    simp [Ir.Function.surroundings, List.getElem?_eq_getElem hn]
  · have := Ir.Block.not_alloca_of_mem_body hmem
    cases this

theorem canExecute (h : a.Placed callees m g id k pre)
    (hF : a.function.Sturdy callees m.strings.length g)
    (hm : ∀ name x, callees name = some x → m.callee? name = some x) (hcode : a.code = i :: code) :
    a.CanExecute m i := by
  have hlegal := h.legal hF hcode
  have hnum : ∀ {ty : Ir.Ty}, ty.isNumeric = true → ty = .i32 ∨ ty = .f64 := by
    intro ty hn
    cases ty <;> simp_all [Ir.Ty.isNumeric]
  cases i with
  | alloca slot ty name => exact (h.alloca hF hcode).2
  | load result slot ty => exact h.meets.slots slot ty hlegal
  | store slot value ty => exact ⟨h.meets.slots slot ty hlegal.1, h.holds hlegal.2⟩
  | binary => exact ⟨hnum hlegal.1, h.holds hlegal.2.1, h.holds hlegal.2.2⟩
  | neg => exact ⟨hnum hlegal.1, h.holds hlegal.2⟩
  | cast result value source target =>
    refine ⟨?_, h.holds hlegal.2⟩
    have hconv := hlegal.1
    cases source <;> cases target <;> simp_all [Ir.Builder.isConversion]
  | call result callee args returns =>
    obtain ⟨x, hx, hacc, hret, hres, hargs⟩ := hlegal
    refine ⟨x, hm callee x hx, hacc, hret, hres, ?_, ?_⟩
    · intro n o ty ho hp
      obtain ⟨ty', hty, hmem⟩ := hargs n o ho
      rw [hp] at hmem
      obtain rfl := List.mem_singleton.mp hmem
      exact h.holds hty
    · intro n o ho hn
      obtain ⟨ty', hty, hmem⟩ := hargs n o ho
      rw [List.getElem?_eq_none hn] at hmem
      have hmem : ty' ∈ [Ir.Ty.i32, .f64, .ptr] := hmem
      simp only [List.mem_cons, List.not_mem_nil, or_false] at hmem
      rcases hmem with rfl | rfl | rfl
      · exact .inl (h.holds hty)
      · exact .inr (.inl (h.holds hty))
      · exact .inr (.inr (h.holds hty))

theorem leads (h : a.Placed callees m g id k pre)
    (hF : a.function.Sturdy callees m.strings.length g) {t : Nat}
    (ht : t ∈ a.terminator.successors) : a.Leads t := by
  rw [h.terminator] at ht
  obtain ⟨k', hk'⟩ := hF.targets id k h.block t ht
  exact ⟨k', hk', hF.ended t k' hk'⟩

theorem canEnd (h : a.Placed callees m g id k pre)
    (hF : a.function.Sturdy callees m.strings.length g) (hcode : a.code = []) :
    a.CanEnd m a.terminator := by
  have hlegal := hF.certified.ends id k h.block
  have hall : k.instructions = pre := by
    have := h.code
    rwa [hcode, List.append_nil] at this
  rw [Ir.Certified.after_body, hall, ← h.terminator] at hlegal
  have hleads : ∀ t ∈ a.terminator.successors, a.Leads t := fun t ht => h.leads hF ht
  have hset := hF.ended id k h.block
  rw [← h.terminator] at hset
  cases ht : a.terminator with
  | unset => exact hset ht
  | jump target =>
    rw [ht] at hleads
    exact hleads target List.mem_cons_self
  | branch condition thenBlock elseBlock =>
    rw [ht] at hleads hlegal
    exact ⟨h.holds hlegal, hleads thenBlock List.mem_cons_self,
      hleads elseBlock (List.mem_cons_of_mem _ List.mem_cons_self)⟩
  | ret value =>
    rw [ht] at hlegal
    cases value with
    | none => exact hlegal
    | some o => exact ⟨hlegal.1, h.holds hlegal.2⟩

theorem split (h : a.Placed callees m g id k pre) (hcode : a.code = i :: code) :
    k.instructions = (pre ++ [i]) ++ code := by
  rw [h.code, hcode, List.append_assoc]
  rfl

/-- Behind an instruction that defines nothing, its slots are all that may have changed. -/
theorem pass (h : a.Placed callees m g id k pre) (hcode : a.code = i :: code)
    (hi : i.result? = none) {slots : List (Nat × Value)}
    (hslots : ∀ n ty, (a.function.surroundings callees m.strings.length).slots[n]? = some ty →
      ∃ v, slots.lookup n = some v ∧ v.ty = ty) :
    ({ a with code := code, slots := slots } : Activation).Placed callees m g id k (pre ++ [i]) := by
  have hvalue : ∀ o, ({ a with code := code, slots := slots } : Activation).value m o =
      a.value m o := by
    intro o
    cases o <;> rfl
  refine ⟨h.block, h.split hcode, h.terminator, ?_, ?_, hslots⟩
  · intro x ty hx
    unfold Holds
    rw [hvalue]
    rw [Temps.after_append] at hx
    rcases hx with hx | hx
    · exact h.meets.temps x ty hx
    · simp [Ir.definitions, hi] at hx
  · intro n ty hn
    unfold Holds
    rw [hvalue]
    exact h.meets.params n ty hn

/-- Behind an instruction that defines a temporary, it has a value of the type of the definition. No
other instruction defines it, so nothing else is known of it. -/
theorem define (h : a.Placed callees m g id k pre)
    (hF : a.function.Sturdy callees m.strings.length g) (hcode : a.code = i :: code)
    (hi : i.result? = some o) (hv : v.ty = i.resultType) :
    (({ a with code := code } : Activation).define o v).Placed callees m g id k (pre ++ [i]) := by
  have hmem : i ∈ k.instructions := by
    rw [h.split hcode]
    exact List.mem_append_left _ (List.mem_append_right _ (List.mem_singleton.mpr rfl))
  have hbody := Ir.Block.mem_body_of_result? hmem hi
  obtain ⟨n, rfl⟩ := hF.certified.results id k h.block i hbody o hi
  have hdef : (n, i.resultType) ∈ a.function.definitions :=
    Ir.Function.mem_definitions_of_block (Ir.Function.mem_of_block? h.block)
      (Ir.mem_definitions.mpr ⟨i, hmem, hi, rfl⟩)
  refine ⟨h.block, h.split hcode, h.terminator, ?_, ?_, h.meets.slots⟩
  · intro x ty hx
    by_cases hxn : x = n
    · subst hxn
      have hm := hF.certified.mem_definitions hF.live h.block (h.split hcode) hx
      have hlookup := Ir.lookup_of_nodup hF.certified.nodup hm
      rw [Ir.lookup_of_nodup hF.certified.nodup hdef] at hlookup
      exact ⟨v, value_define_self _ x v, hv.trans (Option.some.inj hlookup)⟩
    · have hne : Operand.temp x ≠ .temp n := fun he => hxn (Operand.temp.inj he)
      rw [Temps.after_append] at hx
      have hknown : (g id).after pre x ty := by
        rcases hx with hx | hx
        · exact hx
        · obtain ⟨j, hj, hr, _⟩ := Ir.mem_definitions.mp hx
          rw [List.mem_singleton.mp hj, hi] at hr
          exact absurd (Operand.temp.inj (Option.some.inj hr)).symm hxn
      obtain ⟨u, hu, huty⟩ := h.meets.temps x ty hknown
      exact ⟨u, (value_define_other _ v hne).trans ((value_code a code _).trans hu), huty⟩
  · intro p ty hp
    obtain ⟨u, hu, huty⟩ := h.meets.params p ty hp
    have hne : Operand.param p ≠ .temp n := by simp
    exact ⟨u, (value_define_other _ v hne).trans ((value_code a code _).trans hu), huty⟩

theorem keeps_update (h : a.Placed callees m g id k pre) {slot : Nat}
    (hslot : (a.function.surroundings callees m.strings.length).slots[slot]? = some ty)
    (hv : v.ty = ty) (n : Nat) (ty' : Ir.Ty)
    (hn : (a.function.surroundings callees m.strings.length).slots[n]? = some ty') :
    ∃ u, (update slot v a.slots).lookup n = some u ∧ u.ty = ty' := by
  by_cases he : n = slot
  · subst he
    cases hslot.symm.trans hn
    exact ⟨v, lookup_update n v a.slots, hv⟩
  · obtain ⟨u, hu, huty⟩ := h.meets.slots n ty' hn
    exact ⟨u, (lookup_update_other v a.slots he).trans hu, huty⟩

/-- An instruction that is no call leads to the next place, or is a division without a result. -/
theorem execute (h : a.Placed callees m g id k pre)
    (hF : a.function.Sturdy callees m.strings.length g) (hcode : a.code = i :: code)
    (hcall : i.isCall = false) :
    (∃ a', ({ a with code := code } : Activation).execute m i = .ok a' ∧
      a'.function = a.function ∧ a'.Placed callees m g id k (pre ++ [i])) ∨
    ∃ result left right x y, i = .binary .div result left right .i32 ∧
      a.value m left = .ok (.i32 x) ∧ a.value m right = .ok (.i32 y) ∧
      (y = 0 ∨ (x = Int32.minValue ∧ y = -1)) ∧
      ({ a with code := code } : Activation).execute m i = .error .division := by
  have hlegal := h.legal hF hcode
  cases i with
  | call => cases hcall
  | alloca slot ty name =>
    obtain ⟨hslot, hvoid⟩ := h.alloca hF hcode
    obtain ⟨v, hv⟩ := exists_zero? hvoid
    refine .inl ⟨{ a with code := code, slots := update slot v a.slots }, ?_, rfl, ?_⟩
    · simp [Activation.execute, hv]
    · exact h.pass hcode rfl (h.keeps_update hslot (Value.ty_of_zero? hv))
  | load result slot ty =>
    obtain ⟨v, hv, hty⟩ := h.meets.slots slot ty hlegal
    exact .inl ⟨_, execute_load hv, rfl, h.define hF hcode rfl hty⟩
  | store slot value ty =>
    obtain ⟨u, hu, huty⟩ := h.meets.slots slot ty hlegal.1
    obtain ⟨v, hv, hvty⟩ := h.holds hlegal.2
    refine .inl ⟨_, execute_store ((value_code a code _).trans hv) hu (hvty.trans huty.symm), rfl, ?_⟩
    exact h.pass hcode rfl (h.keeps_update hlegal.1 hvty)
  | binary op result left right ty =>
    obtain ⟨x, hx, hxty⟩ := h.holds hlegal.2.1
    obtain ⟨y, hy, hyty⟩ := h.holds hlegal.2.2
    have hexec : ({ a with code := code } : Activation).execute m (.binary op result left right ty) =
        (binary op ty x y).map (({ a with code := code } : Activation).define result) :=
      execute_binary ((value_code a code _).trans hx) ((value_code a code _).trans hy)
    rcases binary_typed op hlegal.1 hxty hyty with
      ⟨v, hv, hty⟩ | ⟨rfl, rfl, ⟨x', y', rfl, rfl, hxy⟩, herr⟩
    · rw [hv] at hexec
      exact .inl ⟨_, hexec, rfl, h.define hF hcode rfl hty⟩
    · rw [herr] at hexec
      exact .inr ⟨result, left, right, x', y', rfl, hx, hy, hxy, hexec⟩
  | neg result operand ty =>
    obtain ⟨x, hx, hxty⟩ := h.holds hlegal.2
    obtain ⟨v, hv, hty⟩ := negate_typed hlegal.1 hxty
    have hexec : ({ a with code := code } : Activation).execute m (.neg result operand ty) =
        (negate ty x).map (({ a with code := code } : Activation).define result) :=
      execute_neg ((value_code a code _).trans hx)
    rw [hv] at hexec
    exact .inl ⟨_, hexec, rfl, h.define hF hcode rfl hty⟩
  | cast result value source target =>
    obtain ⟨x, hx, hxty⟩ := h.holds hlegal.2
    obtain ⟨v, hv, hty⟩ := cast_typed hlegal.1 hxty
    have hexec : ({ a with code := code } : Activation).execute m (.cast result value source target) =
        (cast source target x).map (({ a with code := code } : Activation).define result) :=
      execute_cast ((value_code a code _).trans hx)
    rw [hv] at hexec
    exact .inl ⟨_, hexec, rfl, h.define hF hcode rfl hty⟩

/-- At the end of a block, each target can be jumped to. -/
theorem jump (h : a.Placed callees m g id k pre)
    (hF : a.function.Sturdy callees m.strings.length g) (hcode : a.code = []) {t : Nat}
    (ht : t ∈ a.terminator.successors) :
    ∃ a', a.jump t = .ok a' ∧ a'.function = a.function ∧ a'.Running callees m := by
  rw [h.terminator] at ht
  obtain ⟨k', hk'⟩ := hF.targets id k h.block t ht
  have hall : k.instructions = pre := by
    have := h.code
    rwa [hcode, List.append_nil] at this
  refine ⟨{ a with code := k'.instructions, terminator := k'.terminator }, ?_, rfl,
    g, t, k', [], hF, hk', rfl, rfl, ?_, ?_, h.meets.slots⟩
  · simp [Activation.jump, hk']
  · intro x ty hx
    rw [Temps.after_nil] at hx
    have hknown := hF.certified.edges id k h.block t ht x ty hx
    rw [Ir.Certified.after_body, hall] at hknown
    exact h.meets.temps x ty hknown
  · exact h.meets.params

end Placed

/-- Every slot is there at first, and holds the zero of its type. -/
theorem lookup_zeroed {ss : List Ir.Slot} (hss : ∀ s ∈ ss, s.ty ≠ .void) (offset : Nat) {n : Nat}
    (hn : (ss.map (·.ty))[n]? = some ty) :
    ∃ v, ((ss.mapIdx fun i s => Instruction.alloca (offset + i) s.ty s.name).filterMap
      zeroed?).lookup (offset + n) = some v ∧ Value.zero? ty = some v := by
  induction ss generalizing offset n with
  | nil => cases hn
  | cons s ss ih =>
    obtain ⟨z, hz⟩ := exists_zero? (hss s List.mem_cons_self)
    cases n with
    | zero =>
      have hty : s.ty = ty := by simpa using hn
      exact ⟨z, by simp [zeroed?, hz], hty ▸ hz⟩
    | succ n =>
      have hne : (offset + (n + 1) == offset) = false := by simp
      have hshift : (fun (i : Nat) (s : Ir.Slot) =>
          Instruction.alloca (offset + (i + 1)) s.ty s.name) =
          fun i s => .alloca (offset + 1 + i) s.ty s.name := by
        funext i s
        congr 1
        omega
      obtain ⟨v, hv, hty⟩ := ih (fun s hs => hss s (List.mem_cons_of_mem _ hs)) (offset + 1)
        (by simpa using hn)
      refine ⟨v, ?_, hty⟩
      rw [List.mapIdx_cons, List.filterMap_cons]
      simp only [zeroed?, Nat.add_zero, hz, Option.map_some, List.lookup_cons, hne, hshift]
      rw [show offset + (n + 1) = offset + 1 + n by omega]
      exact hv

/-- All slots are made by the allocas of the first block. -/
theorem zeroedSlots_eq {F : Ir.Function} (hh : F.Hoisted) (hnd : (F.blocks.map (·.id)).Nodup)
    {K : Ir.Block} {Ks : List Ir.Block} (hblocks : F.blocks = K :: Ks) (hK : K.id = F.entry) :
    zeroedSlots F = F.allocas.filterMap zeroed? := by
  have hbody : ∀ is : List Instruction, (∀ i ∈ is, i.isAlloca = false) →
      is.filterMap zeroed? = [] := by
    intro is his
    refine List.filterMap_eq_nil_iff.mpr fun i hi => ?_
    have hno := his i hi
    cases i with
    | alloca => cases hno
    | _ => rfl
  have hfind : ∀ k ∈ F.blocks, F.block? k.id = some k := fun k hk =>
    Ir.Function.block?_of_mem hnd hk
  have hentry := hh.entry K (hK ▸ hfind K (hblocks ▸ List.mem_cons_self))
  have hrest : Ks.flatMap (fun b => b.instructions.filterMap zeroed?) = [] := by
    refine List.flatMap_eq_nil_iff.mpr fun k hk => hbody _ fun i hi => ?_
    have hmem : k ∈ F.blocks := hblocks ▸ List.mem_cons_of_mem _ hk
    have hne : k.id ≠ F.entry := by
      rw [hblocks, List.map_cons, List.nodup_cons] at hnd
      rw [← hK]
      exact fun he => hnd.1 (List.mem_map.mpr ⟨k, hk, he⟩)
    rw [hh.others k.id k (hfind k hmem) hne] at hi
    exact Ir.Block.not_alloca_of_mem_body hi
  unfold zeroedSlots
  rw [hblocks, List.flatMap_cons, hrest, hentry, List.filterMap_append,
    hbody _ fun i hi => Ir.Block.not_alloca_of_mem_body hi, List.append_nil, List.append_nil]

/-- At the beginning of a function, each slot holds the zero of its type. -/
theorem keeps_zeroed {F : Ir.Function} (hF : F.Sturdy callees m.strings.length g) {n : Nat}
    (hn : (F.surroundings callees m.strings.length).slots[n]? = some ty) :
    ∃ v, (zeroedSlots F).lookup n = some v ∧ Value.zero? ty = some v := by
  obtain ⟨K, Ks, hblocks, hK⟩ := hF.first
  have hzeroed := zeroedSlots_eq hF.hoisted hF.nodup hblocks
    (hF.entry.symm ▸ Ir.Function.block?_id hK)
  have hlookup := lookup_zeroed (fun s hs => (hF.certified.slots s hs).1) 0 hn
  simp only [Nat.zero_add] at hlookup
  rw [hzeroed]
  exact hlookup

theorem lookup_arguments {args : List Value} {n : Nat} (hn : args[n]? = some v) (offset : Nat) :
    (args.mapIdx fun i v => (Operand.param (offset + i), v)).lookup (.param (offset + n)) =
      some v := by
  induction args generalizing offset n with
  | nil => cases hn
  | cons x xs ih =>
    cases n with
    | zero =>
      cases hn
      simp
    | succ n =>
      have hne : (Operand.param (offset + (n + 1)) == Operand.param offset) = false := by simp
      have hshift : (fun (i : Nat) (v : Value) => (Operand.param (offset + (i + 1)), v)) =
          fun i v => (.param (offset + 1 + i), v) := by
        funext i v
        rw [show offset + (i + 1) = offset + 1 + i by omega]
      rw [List.mapIdx_cons, List.lookup_cons]
      simp only [Nat.add_zero, hne, hshift]
      rw [show offset + (n + 1) = offset + 1 + n by omega]
      exact ih hn (offset + 1)

/-- A function that gets arguments of the types of its parameters begins. -/
theorem start_running {F : Ir.Function} (hF : F.Sturdy callees m.strings.length g)
    {args : List Value} (hargs : args.map Value.ty = F.params.map (·.ty)) :
    ∃ a, start F args = .ok a ∧ a.function = F ∧ a.Running callees m := by
  obtain ⟨K, Ks, hblocks, hK⟩ := hF.first
  refine ⟨⟨F, K.instructions, K.terminator, args.mapIdx fun i v => (.param i, v), zeroedSlots F⟩,
    by simp [start, hblocks, hargs], rfl, g, 0, K, [], hF, hK, rfl, rfl, ?_, ?_, ?_⟩
  · intro x ty hx
    rw [Temps.after_nil, ← hF.entry] at hx
    exact absurd hx (hF.certified.entry x ty)
  · intro n ty hn
    have hn : (F.params.map (·.ty))[n]? = some ty := hn
    rw [← hargs, List.getElem?_map, Option.map_eq_some_iff] at hn
    obtain ⟨v, hv, hty⟩ := hn
    have hlookup := lookup_arguments hv 0
    simp only [Nat.zero_add] at hlookup
    exact ⟨v, by simp [value, hlookup], hty⟩
  · intro n ty hn
    obtain ⟨v, hv, hz⟩ := keeps_zeroed hF hn
    exact ⟨v, hv, Value.ty_of_zero? hz⟩

end Machine.Activation

end TreeLang
