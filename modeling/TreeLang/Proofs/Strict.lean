import TreeLang.Proofs.Builder.Finished
import TreeLang.Proofs.Lowering.Programs

namespace TreeLang.Ir

/-- What a name may be called as: a function of the module, or else an external. -/
def Module.callee? (m : Module) (name : String) : Option External :=
  match m.function? name with
  | some f => some ⟨f.name, f.params.map (·.ty), f.returns, false⟩
  | none => m.external? name

/-- The operand has the type, by its definition if it is a temporary. -/
def Function.OfType (f : Function) (o : Operand) (ty : Ty) : Prop :=
  f.typeOf f.definitions o = .ok ty

def Block.Names (k : Block) (o : Operand) : Prop :=
  (∃ i ∈ k.instructions, o ∈ i.operands ∨ o ∈ i.result?) ∨ o ∈ k.terminator.operands

/-- The operands of the instruction have exactly the types that it works on. -/
def Module.Types (m : Module) (f : Function) : Instruction → Prop
  | .alloca .. | .load .. => True
  | .store _ value ty => f.OfType value ty
  | .binary _ _ left right ty => (ty = .i32 ∨ ty = .f64) ∧ f.OfType left ty ∧ f.OfType right ty
  | .neg _ operand ty => (ty = .i32 ∨ ty = .f64) ∧ f.OfType operand ty
  | .cast _ value source target => f.OfType value source ∧
    (source, target) ∈ [(.i32, .f64), (.f64, .i32), (.bool, .i32), (.bool, .f64)]
  | .call _ callee args returns => ∃ x, m.callee? callee = some x ∧
    x.accepts args.length = true ∧ returns = x.returns ∧
    (∀ (n : Nat) (o : Operand) (ty : Ty), args[n]? = some o → x.params[n]? = some ty →
      f.OfType o ty) ∧
    ∀ (n : Nat) (o : Operand), args[n]? = some o → x.params.length ≤ n →
      f.OfType o .i32 ∨ f.OfType o .f64 ∨ f.OfType o .ptr

structure Module.Strict (m : Module) (f : Function) : Prop where
  /-- Every temporary has exactly one definition. -/
  once : ∀ k ∈ f.blocks, ∀ x, k.Names (.temp x) → f.results.count (.temp x) = 1
  /-- On every path from the entry to a use of a temporary, its definition is executed before. -/
  dominated : ∀ k ∈ f.blocks, ∀ pre i post, k.instructions = pre ++ i :: post →
    ∀ x, .temp x ∈ i.operands → f.DefinedBefore k pre x
  dominatedEnd : ∀ k ∈ f.blocks, ∀ x, .temp x ∈ k.terminator.operands →
    f.DefinedBefore k k.instructions x
  typed : ∀ k ∈ f.blocks, ∀ i ∈ k.instructions, m.Types f i
  /-- Only casts and branches take a `bool`. -/
  bools : ∀ k ∈ f.blocks, ∀ i ∈ k.instructions, ∀ o ∈ i.operands, f.OfType o .bool →
    ∃ result target, i = .cast result o .bool target
  boolsEnd : ∀ k ∈ f.blocks, ∀ o ∈ k.terminator.operands, f.OfType o .bool →
    ∃ thenBlock elseBlock, k.terminator = .branch o thenBlock elseBlock
  /-- Every string is one of the module. -/
  strings : ∀ k ∈ f.blocks, ∀ n, k.Names (.str n) → n < m.strings.length

section

variable {callees : String → Option External} {strings : Nat} {g : Knowledge} {f : Function}
  {id : Nat} {k : Block} {pre post : List Instruction} {i : Instruction}

namespace Certified

/-- Every operand of certified code has the type that the certificate says, where it is used. -/
theorem operand (h : Certified callees strings g f) (hk : f.block? id = some k) {o : Operand}
    (ho : (∃ pre i post, k.instructions = pre ++ i :: post ∧ o ∈ i.operands) ∨
      o ∈ k.terminator.operands) :
    ∃ pre post ty, k.instructions = pre ++ post ∧
      o.HasType (f.surroundings callees strings) ((g id).after pre) ty := by
  rcases ho with ⟨pre, i, post, hi, ho⟩ | ho
  · obtain ⟨ty, hty⟩ := (h.legal_at hk hi).operand ho
    exact ⟨pre, i :: post, ty, hi, hty⟩
  · obtain ⟨ty, hty⟩ := (h.ends id k hk).operand ho
    refine ⟨k.instructions, [], ty, (List.append_nil _).symm, ?_⟩
    rw [← after_body]
    exact hty

/-- Every temporary that is named is among the results, once. -/
theorem count_results (h : Certified callees strings g f) (hlive : f.Live)
    (hnodup : (f.blocks.map (·.id)).Nodup) (hk : k ∈ f.blocks) {x : Nat}
    (hx : k.Names (.temp x)) : f.results.count (.temp x) = 1 := by
  have hall := h.results_eq hnodup
  have hmem : Operand.temp x ∈ f.results := by
    have hfind := Function.block?_of_mem hnodup hk
    have hdef : ∃ ty, (x, ty) ∈ f.definitions := by
      rcases hx with ⟨i, hi, ho | ho⟩ | ho
      · obtain ⟨pre, post, hi⟩ := List.append_of_mem hi
        obtain ⟨pre, post, ty, hsplit, hty⟩ := h.operand hfind (.inl ⟨pre, i, post, hi, ho⟩)
        exact ⟨ty, h.mem_definitions hlive hfind hsplit hty.of_temp⟩
      · exact ⟨i.resultType, Function.mem_definitions_of_block hk
          (Ir.mem_definitions.mpr ⟨i, hi, ho, rfl⟩)⟩
      · obtain ⟨pre, post, ty, hsplit, hty⟩ := h.operand hfind (.inr ho)
        exact ⟨ty, h.mem_definitions hlive hfind hsplit hty.of_temp⟩
    obtain ⟨ty, hdef⟩ := hdef
    rw [hall]
    exact List.mem_map.mpr ⟨(x, ty), hdef, rfl⟩
  rw [(h.nodup_results hnodup).count, if_pos hmem]

/-- In a function that can be reached throughout, the certificate's types are those of the definitions.
-/
theorem ofType (h : Certified callees strings g f) (hlive : f.Live) (hk : f.block? id = some k)
    (hi : k.instructions = pre ++ post) {o : Operand} {ty : Ty}
    (ho : o.HasType (f.surroundings callees strings) ((g id).after pre) ty) : f.OfType o ty :=
  h.typeOf hlive hk hi ho

/-- No slot, no operator and no parameter holds a `bool`. -/
theorem bool_operand (h : Certified callees strings g f) (hlive : f.Live)
    (hparams : ∀ name x, callees name = some x → ∀ ty ∈ x.params, ty ≠ .bool)
    (hk : f.block? id = some k) (hi : k.instructions = pre ++ i :: post) {o : Operand}
    (ho : o ∈ i.operands) (hbool : f.OfType o .bool) :
    ∃ result target, i = .cast result o .bool target := by
  have hlegal := h.legal_at hk hi
  have hunique : ∀ ty, o.HasType (f.surroundings callees strings) ((g id).after pre) ty →
      ty = .bool := by
    intro ty hty
    have := (h.ofType hlive hk hi hty).symm.trans hbool
    exact Except.ok.inj this
  cases i with
  | alloca => cases ho
  | load => cases ho
  | store slot value ty =>
    obtain rfl := List.mem_singleton.mp ho
    have hty := hlegal.1
    simp only [Function.surroundings, List.getElem?_map, Option.map_eq_some_iff] at hty
    obtain ⟨s, hs, rfl⟩ := hty
    exact absurd (hunique _ hlegal.2) (h.slots s (List.mem_of_getElem? hs)).2
  | binary op result left right ty =>
    have hty : ty = .bool := by
      rcases List.mem_cons.mp ho with rfl | ho
      · exact hunique ty hlegal.2.1
      · obtain rfl := List.mem_singleton.mp ho
        exact hunique ty hlegal.2.2
    have hnum := hlegal.1
    rw [hty] at hnum
    cases hnum
  | neg result operand ty =>
    obtain rfl := List.mem_singleton.mp ho
    have hnum := hlegal.1
    rw [hunique ty hlegal.2] at hnum
    cases hnum
  | cast result value source target =>
    obtain rfl := List.mem_singleton.mp ho
    exact ⟨result, target, by rw [hunique source hlegal.2]⟩
  | call result callee args returns =>
    obtain ⟨x, hx, _, _, _, hargs⟩ := hlegal
    obtain ⟨n, hn⟩ := List.mem_iff_getElem?.mp ho
    obtain ⟨ty, hty, hm⟩ := hargs n o hn
    rw [hunique ty hty] at hm
    cases hp : x.params[n]? with
    | none => simp [hp] at hm
    | some p =>
      rw [hp] at hm
      obtain rfl := List.mem_singleton.mp hm
      exact absurd rfl (hparams callee x hx .bool (List.mem_of_getElem? hp))

/-- A comparison at the end of a block is the condition of a branch. -/
theorem bool_terminator (h : Certified callees strings g f) (hlive : f.Live)
    (hk : f.block? id = some k) {o : Operand} (ho : o ∈ k.terminator.operands)
    (hbool : f.OfType o .bool) :
    ∃ thenBlock elseBlock, k.terminator = .branch o thenBlock elseBlock := by
  have hlegal := h.ends id k hk
  rw [after_body] at hlegal
  cases ht : k.terminator with
  | jump => rw [ht] at ho; cases ho
  | unset => rw [ht] at ho; cases ho
  | branch condition thenBlock elseBlock =>
    rw [ht] at ho
    obtain rfl := List.mem_singleton.mp ho
    exact ⟨thenBlock, elseBlock, rfl⟩
  | ret value =>
    rw [ht] at ho hlegal
    cases value with
    | none => cases ho
    | some v =>
      obtain rfl := List.mem_singleton.mp ho
      have hty := h.ofType hlive hk (List.append_nil _).symm hlegal.2
      exact absurd (Except.ok.inj (hty.symm.trans hbool)) h.returns

/-- The operands of an instruction have the types that it works on. -/
theorem types {m : Module} (h : Certified callees strings g f) (hlive : f.Live)
    (hcallees : ∀ name x, callees name = some x → m.callee? name = some x)
    (hk : f.block? id = some k) (hi : k.instructions = pre ++ i :: post) : m.Types f i := by
  have hlegal := h.legal_at hk hi
  have hty : ∀ {o : Operand} {ty : Ty},
      o.HasType (f.surroundings callees strings) ((g id).after pre) ty → f.OfType o ty :=
    h.ofType hlive hk hi
  have hnum : ∀ {ty : Ty}, ty.isNumeric = true → ty = .i32 ∨ ty = .f64 := by
    intro ty hn
    cases ty <;> simp_all [Ty.isNumeric]
  cases i with
  | alloca => trivial
  | load => trivial
  | store => exact hty hlegal.2
  | binary => exact ⟨hnum hlegal.1, hty hlegal.2.1, hty hlegal.2.2⟩
  | neg => exact ⟨hnum hlegal.1, hty hlegal.2⟩
  | cast result value source target =>
    refine ⟨hty hlegal.2, ?_⟩
    have hconv := hlegal.1
    cases source <;> cases target <;> simp_all [Builder.isConversion]
  | call result callee args returns =>
    obtain ⟨x, hx, hacc, hret, _, hargs⟩ := hlegal
    refine ⟨x, hcallees callee x hx, hacc, hret, ?_, ?_⟩
    · intro n o ty ho hp
      obtain ⟨ty', hty', hm⟩ := hargs n o ho
      rw [hp] at hm
      obtain rfl := List.mem_singleton.mp hm
      exact hty hty'
    · -- a variadic callee takes numbers and strings behind its parameters
      intro n o ho hn
      obtain ⟨ty', hty', hm⟩ := hargs n o ho
      rw [List.getElem?_eq_none hn] at hm
      have hm : ty' ∈ [Ty.i32, Ty.f64, Ty.ptr] := hm
      simp only [List.mem_cons, List.not_mem_nil, or_false] at hm
      rcases hm with rfl | rfl | rfl
      · exact .inl (hty hty')
      · exact .inr (.inl (hty hty'))
      · exact .inr (.inr (hty hty'))

/-- No instruction defines a string, and one that is used is there. -/
theorem str_lt (h : Certified callees strings g f) (hk : f.block? id = some k) {n : Nat}
    (hn : k.Names (.str n)) : n < strings := by
  have huse : (∃ pre i post, k.instructions = pre ++ i :: post ∧ .str n ∈ i.operands) ∨
      .str n ∈ k.terminator.operands := by
    rcases hn with ⟨i, hi, ho | ho⟩ | ho
    · obtain ⟨pre, post, hsplit⟩ := List.append_of_mem hi
      exact .inl ⟨pre, i, post, hsplit, ho⟩
    · obtain ⟨x, hx⟩ := h.results id k hk i (Block.mem_body_of_result? hi ho) _ ho
      cases hx
    · exact .inr ho
  obtain ⟨pre, post, ty, _, hty⟩ := h.operand hk huse
  cases hty
  assumption

/-- A certified function all of whose blocks can be reached is strictly typed in a module that has
the callees of the certificate. -/
theorem strict {m : Module} (h : Certified callees m.strings.length g f) (hlive : f.Live)
    (hnodup : (f.blocks.map (·.id)).Nodup)
    (hcallees : ∀ name x, callees name = some x →
      m.callee? name = some x ∧ ∀ ty ∈ x.params, ty ≠ .bool) : m.Strict f where
  once k hk x hx := h.count_results hlive hnodup hk hx
  dominated k hk pre i post hi x hx := by
    obtain ⟨ty, hty⟩ := (h.legal_at (Function.block?_of_mem hnodup hk) hi).operand hx
    exact h.definedBefore hty.of_temp
  dominatedEnd k hk x hx := by
    obtain ⟨ty, hty⟩ := (h.ends k.id k (Function.block?_of_mem hnodup hk)).operand hx
    have hknown := hty.of_temp
    rw [after_body] at hknown
    exact h.definedBefore hknown
  typed k hk i hi := by
    obtain ⟨pre, post, hsplit⟩ := List.append_of_mem hi
    exact h.types hlive (fun name x hx => (hcallees name x hx).1)
      (Function.block?_of_mem hnodup hk) hsplit
  bools k hk i hi o ho hb := by
    obtain ⟨pre, post, hsplit⟩ := List.append_of_mem hi
    exact h.bool_operand hlive (fun name x hx => (hcallees name x hx).2)
      (Function.block?_of_mem hnodup hk) hsplit ho hb
  boolsEnd k hk o ho hb :=
    h.bool_terminator hlive (Function.block?_of_mem hnodup hk) ho hb
  strings k hk n hn := h.str_lt (Function.block?_of_mem hnodup hk) hn

end Certified

end

end TreeLang.Ir

namespace TreeLang.Lowering

open TreeLang.Tree (Ty Expr Stmt FunctionDecl nestedFunctions)
open Typing (Registry Callee)
open Ir (Knowledge Certified)
open Lower

/-- A compiled function has the signature it was declared with, and a certificate. -/
theorem Compiled.certified {r : Registry} {literals : Nat} {name : String}
    {params : List Tree.Param} {returns : Ty} {body : List Stmt} {ending : Option Typed → Ending}
    {strings : List String} {F : Ir.Function}
    (h : Compiled r literals name params returns body ending strings F) :
    F.name = name ∧ F.params.map (·.ty) = params.map (·.ty.toIr) ∧ F.returns = returns.toIr ∧
      F.Live ∧ (F.blocks.map (·.id)).Nodup ∧
      ∃ g, Certified (callees r) strings.length g F := by
  cases h with
  | @intro c d d' d'' v g g' count enter inside lower lowered close laid build hpre =>
    obtain ⟨_, rfl⟩ := Ir.Builder.build_eq_ok.mp build
    refine ⟨laid.name, ?_, laid.returns, Ir.Builder.live_prune, Ir.Builder.numbered_prune laid.shaped,
      g', (Ir.Builder.certified_prune laid.certified).mono hpre.length_le⟩
    change d''.top.builder.function.params.map (·.ty) = _
    rw [laid.params]
    simp [Ir.Builder.start, Ir.Function.empty]

theorem callees_types {r : Registry} {name : String} {x : Ir.External} (h : callees r name = some x) :
    ∀ ty ∈ x.params, ty ≠ .bool := by
  unfold callees at h
  split at h
  · cases h
    intro ty hty
    obtain ⟨p, _, rfl⟩ := List.mem_map.mp hty
    exact Ty.toIr_ne_bool p.ty
  · exact (prototype_types x (List.mem_of_find?_eq_some h)).2

/-- A function is found by its name, as no other has it. -/
theorem function?_of_mem {m : Ir.Module} (h : (m.functions.map (·.name)).Nodup) {F : Ir.Function}
    (hF : F ∈ m.functions) : m.function? F.name = some F := by
  unfold Ir.Module.function?
  generalize m.functions = Fs at h hF
  induction Fs with
  | nil => cases hF
  | cons x xs ih =>
    obtain ⟨hx, hxs⟩ := List.nodup_cons.mp h
    rcases List.mem_cons.mp hF with rfl | hm
    · simp
    · have hne : x.name ≠ F.name := fun he => hx (List.mem_map.mpr ⟨F, hm, he.symm⟩)
      simpa [List.find?_cons, hne] using ih hxs hm

namespace Produced

variable {program : Tree.Block} {m : Ir.Module} {main : Ir.Function}

/-- A declared function is found in the module under its name. -/
theorem function? (h : Produced program m main) {d : FunctionDecl}
    (hd : d ∈ nestedFunctions program) : ∃ F, m.function? d.name = some F ∧
      FunctionDecl.Compiled (registry program) d m.strings F := by
  obtain ⟨F, hF, hname, hc⟩ := h.found d hd
  exact ⟨F, hname ▸ function?_of_mem h.names hF, hc⟩

/-- No function of the module has the name of a prototype that the program does not declare. -/
theorem function?_prototype (h : Produced program m main) {name : String} {x : Ir.External}
    (hr : (registry program).get? name = none) (hx : Ir.prototype? name = some x) :
    m.function? name = none := by
  refine List.find?_eq_none.mpr fun F hF => ?_
  rw [beq_iff_eq]
  rintro rfl
  rcases h.made F hF with rfl | ⟨d, hd, hname, _⟩
  · rw [h.entry.2.1] at hx
    cases hx
  · rw [hname, h.registered d hd] at hr
    cases hr

/-- The module has every callee that its instructions may name. -/
theorem callee? (h : Produced program m main) {name : String} {x : Ir.External}
    (hx : callees (registry program) name = some x) : m.callee? name = some x := by
  unfold callees at hx
  unfold Ir.Module.callee?
  split at hx
  · rename_i d hd
    cases hx
    have hname : d.name = name := by simpa using List.find?_some hd
    obtain ⟨F, hF, _, hc⟩ := h.function? (List.mem_of_find?_eq_some hd)
    obtain ⟨hn, hparams, hreturns, _⟩ := hc.certified
    rw [← hname, hF]
    simp [signature, hn, hparams, hreturns]
  · rename_i hr
    rw [h.function?_prototype hr hx]
    exact (h.externals name hr).trans hx

end Produced

/-- Whatever program is lowered, type-checked or not, the functions of the module are strictly
typed. -/
theorem lower_strict {program : Tree.Block} {name : String} {m : Ir.Module}
    (h : lower program name = .ok m) : ∀ f ∈ m.functions, m.Strict f := by
  obtain ⟨main, hp⟩ := lower_produces h
  intro f hf
  have hc : f.Live ∧ (f.blocks.map (·.id)).Nodup ∧
      ∃ g, Certified (callees (registry program)) m.strings.length g f := by
    rcases hp.made f hf with rfl | ⟨d, _, _, _, hd⟩
    · exact hp.entry.2.2.certified.2.2.2
    · exact hd.certified.2.2.2
  obtain ⟨hlive, hnodup, g, hg⟩ := hc
  exact hg.strict hlive hnodup fun callee x hx => ⟨hp.callee? hx, callees_types hx⟩

/-- A comparison as the operand of a sum: the `bool` is widened first. -/
theorem lower_strict_comparison : ∃ m,
    lower [.ret (some (.binary .add (.int 1) (.binary .lt (.int 2) (.int 3))))] "sum" = .ok m ∧
      ∀ f ∈ m.functions, m.Strict f := by
  have hok : (lower [.ret (some (.binary .add (.int 1) (.binary .lt (.int 2) (.int 3))))]
      "sum").isOk = true := by decide +kernel
  cases h : lower [.ret (some (.binary .add (.int 1) (.binary .lt (.int 2) (.int 3))))] "sum" with
  | error d =>
    rw [h] at hok
    cases hok
  | ok m => exact ⟨m, rfl, lower_strict h⟩

end TreeLang.Lowering
