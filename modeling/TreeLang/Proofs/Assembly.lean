import TreeLang.Ir.Assemble
import TreeLang.Proofs.Lowered

namespace TreeLang

namespace Ir

variable {callees : String → Option External} {m : Module} {F : Function} {g : Knowledge}
  {e : Surroundings} {known : Temps} {k : Known} {i : Instruction} {id : Nat}

/-- Whatever is known to hold a value is known to the assembly. -/
structure Known.Covers (e : Surroundings) (known : Temps) (k : Known) : Prop where
  temps : ∀ x ty, known x ty → .temp x ∈ k.values
  params : ∀ n ty, e.params[n]? = some ty → .param n ∈ k.values
  slots : ∀ n ty, e.slots[n]? = some ty → n ∈ k.slots

namespace Known.Covers

/-- What a function has at a point of its body the assembler has recorded when it comes to that point.
-/
theorem slot (h : k.Covers e known) {n : Nat} {ty : Ty} (hn : e.slots[n]? = some ty) :
    k.slot n = .ok () :=
  if_pos (h.slots n ty hn)

theorem operand (h : k.Covers e known) (hs : e.strings = m.strings.length) {o : Operand} {ty : Ty}
    (ho : o.HasType e known ty) : k.operand m o = .ok () := by
  cases ho with
  | temp hx => exact if_pos (h.temps _ _ hx)
  | param hp => exact if_pos (h.params _ _ hp)
  | constant c => rfl
  | str hid => exact if_pos (hs ▸ hid)

theorem define (h : k.Covers e known) {x : Nat} (hi : i.result? = some (.temp x)) :
    (k.define (.temp x)).Covers e (known.after [i]) := by
  refine ⟨fun y ty hy => ?_, fun n ty hn => List.mem_cons_of_mem _ (h.params n ty hn), h.slots⟩
  rcases hy with hy | hy
  · exact List.mem_cons_of_mem _ (h.temps y ty hy)
  · obtain ⟨j, hj, hr, _⟩ := mem_definitions.mp hy
    rw [List.mem_singleton.mp hj, hi] at hr
    cases hr
    exact List.mem_cons_self

theorem pass (h : k.Covers e known) (hi : i.result? = .none) : k.Covers e (known.after [i]) := by
  refine ⟨fun y ty hy => ?_, h.params, h.slots⟩
  rcases hy with hy | hy
  · exact h.temps y ty hy
  · simp [definitions, hi] at hy

end Known.Covers

/-- A callee has a linkage, which asks for no more arguments than it accepts. -/
theorem Module.linkage_of_callee {name : String} {x : External} (h : m.callee? name = some x) :
    ∃ link, m.linkage? name = some link ∧ link.returns = x.returns ∧
      ∀ n, x.accepts n = true → link.fixed.getD 0 ≤ n := by
  unfold callee? at h
  unfold linkage?
  cases hf : m.function? name with
  | some F =>
    rw [hf] at h
    cases h
    exact ⟨_, rfl, rfl, fun n _ => Nat.zero_le n⟩
  | none =>
    rw [hf] at h
    refine ⟨⟨if x.variadic then some x.params.length else none, x.returns⟩, by simp [h], rfl, ?_⟩
    intro n hn
    cases hv : x.variadic with
    | false => exact Nat.zero_le n
    | true => simpa [External.accepts, hv] using hn

theorem forM_eq_ok {α ε : Type} {f : α → Except ε Unit} {xs : List α} :
    xs.forM f = .ok () ↔ ∀ x ∈ xs, f x = .ok () := by
  induction xs with
  | nil => exact ⟨fun _ _ hx => (List.not_mem_nil hx).elim, fun _ => rfl⟩
  | cons x xs ih =>
    rw [show (x :: xs).forM f = (f x >>= fun _ => xs.forM f) from rfl, List.forall_mem_cons]
    cases hx : f x with
    | error e => simp [bind, Except.bind]
    | ok _ => simpa [bind, Except.bind] using ih

/-- The first fault is the answer, so it is the fault of one of them. -/
theorem mem_of_forM_eq_error {α ε : Type} {f : α → Except ε Unit} {xs : List α} {e : ε}
    (h : xs.forM f = .error e) : ∃ x ∈ xs, f x = .error e := by
  induction xs with
  | nil => cases h
  | cons x xs ih =>
    rw [show (x :: xs).forM f = (f x >>= fun _ => xs.forM f) from rfl] at h
    cases hx : f x with
    | error e' =>
      rw [hx] at h
      cases h
      exact ⟨x, List.mem_cons_self, hx⟩
    | ok _ =>
      rw [hx] at h
      obtain ⟨y, hy, he⟩ := ih h
      exact ⟨y, List.mem_cons_of_mem _ hy, he⟩

/-- Some element fails, but not always the first that could. -/
theorem forM_error_of_mem {α ε : Type} {f : α → Except ε Unit} {xs : List α} {x : α} {e : ε}
    (hx : x ∈ xs) (h : f x = .error e) : ∃ e', xs.forM f = .error e' := by
  cases hf : xs.forM f with
  | error e' => exact ⟨e', rfl⟩
  | ok u =>
    rw [forM_eq_ok.mp hf x hx] at h
    cases h

def Module.Provides (m : Module) (callees : String → Option External) : Prop :=
  ∀ name x, callees name = some x → m.callee? name = some x

/-- The callee of a call is provided by the module, as a function or as an external, with as many
parameters as there are arguments. -/
theorem Known.Covers.call (h : k.Covers e known) (hs : e.strings = m.strings.length)
    (hm : m.Provides e.callees) {result : Option Operand} {callee : String} {args : List Operand}
    {returns : Ty} (hlegal : (Instruction.call result callee args returns).Legal e known)
    (hresult : ∀ o ∈ result, ∃ x, o = .temp x) :
    ∃ k', m.assembleInstruction k (.call result callee args returns) = .ok k' ∧
      k'.Covers e (known.after [.call result callee args returns]) := by
  obtain ⟨x, hx, hacc, hret, hres, hargs⟩ := hlegal
  obtain ⟨link, hlink, hlret, hfixed⟩ := Module.linkage_of_callee (hm callee x hx)
  have hcount : ¬ args.length < link.fixed.getD 0 := Nat.not_lt.mpr (hfixed _ hacc)
  have hknown : args.forM (k.operand m) = .ok () := forM_eq_ok.mpr fun o ho => by
    obtain ⟨n, hn⟩ := List.mem_iff_getElem?.mp ho
    obtain ⟨ty, hty, _⟩ := hargs n o hn
    exact h.operand hs hty
  unfold Module.assembleInstruction
  simp only [hlink, hcount, if_false, hknown]
  cases result with
  | none => exact ⟨k, rfl, h.pass rfl⟩
  | some o =>
    obtain ⟨t, rfl⟩ := hresult o rfl
    have hvoid : link.returns ≠ .void := by
      rw [hlret, ← hret]
      intro hv
      have := hres.mpr hv
      cases this
    refine ⟨k.define (.temp t), ?_, h.define rfl⟩
    simp [bind, Except.bind, pure, Except.pure, hvoid]

/-- A legal instruction that makes no slot is assembled. -/
theorem Known.Covers.instruction (h : k.Covers e known) (hs : e.strings = m.strings.length)
    (hm : m.Provides e.callees) (hi : i.isAlloca = false) (hlegal : i.Legal e known)
    (hresult : ∀ o ∈ i.result?, ∃ x, o = .temp x) :
    ∃ k', m.assembleInstruction k i = .ok k' ∧ k'.Covers e (known.after [i]) := by
  cases i with
  | alloca => cases hi
  | load result slot ty =>
    obtain ⟨x, rfl⟩ := hresult result rfl
    refine ⟨k.define (.temp x), ?_, h.define rfl⟩
    simp [Module.assembleInstruction, h.slot hlegal, bind, Except.bind, pure, Except.pure]
  | store slot value ty =>
    refine ⟨k, ?_, h.pass rfl⟩
    simp [Module.assembleInstruction, h.slot hlegal.1, h.operand hs hlegal.2, bind, Except.bind,
      pure, Except.pure]
  | binary op result left right ty =>
    obtain ⟨x, rfl⟩ := hresult result rfl
    refine ⟨k.define (.temp x), ?_, h.define rfl⟩
    have hcomparable : ¬ (op.isComparison = true ∧ (ty = .ptr ∨ ty = .void)) := by
      rintro ⟨_, rfl | rfl⟩
      · cases hlegal.1
      · cases hlegal.1
    simp [Module.assembleInstruction, h.operand hs hlegal.2.1, h.operand hs hlegal.2.2,
      hcomparable, bind, Except.bind, pure, Except.pure]
  | neg result operand ty =>
    obtain ⟨x, rfl⟩ := hresult result rfl
    refine ⟨k.define (.temp x), ?_, h.define rfl⟩
    simp [Module.assembleInstruction, h.operand hs hlegal.2, bind, Except.bind, pure, Except.pure]
  | cast result value source target =>
    obtain ⟨x, rfl⟩ := hresult result rfl
    refine ⟨k.define (.temp x), ?_, h.define rfl⟩
    have hconv := hlegal.1
    simp only [Module.assembleInstruction, h.operand hs hlegal.2]
    cases source <;> cases target <;> first | rfl | cases hconv
  | call => exact h.call hs hm hlegal hresult

/-- An instruction adds its result to what is known before the next. -/
theorem Known.Covers.instructions {is : List Instruction} (h : k.Covers e known)
    (hs : e.strings = m.strings.length) (hm : m.Provides e.callees)
    (hlegal : LegalCode e known is)
    (his : ∀ i ∈ is, i.isAlloca = false ∧ ∀ o ∈ i.result?, ∃ x, o = .temp x) :
    ∃ k', is.foldlM m.assembleInstruction k = .ok k' ∧ k'.Covers e (known.after is) := by
  induction is generalizing k known with
  | nil => exact ⟨k, rfl, by rwa [Temps.after_nil]⟩
  | cons i is ih =>
    obtain ⟨hi, hresult⟩ := his i List.mem_cons_self
    obtain ⟨k₁, hk₁, hc₁⟩ := h.instruction hs hm hi hlegal.1 hresult
    obtain ⟨k', hk', hc'⟩ := ih hc₁ hlegal.2 fun j hj => his j (List.mem_cons_of_mem _ hj)
    refine ⟨k', ?_, ?_⟩
    · rw [List.foldlM_cons, hk₁]
      exact hk'
    · rw [show i :: is = [i] ++ is from rfl, Temps.after_append]
      exact hc'

/-- The allocas at the top of a function make its slots known. -/
theorem assemble_allocas {ss : List Slot} (hss : ∀ s ∈ ss, s.ty ≠ .void) (offset : Nat) (k : Known) :
    ∃ k', (ss.mapIdx fun n s => Instruction.alloca (offset + n) s.ty s.name).foldlM
        m.assembleInstruction k = .ok k' ∧ k'.values = k.values ∧ k.slots ⊆ k'.slots ∧
      ∀ n < ss.length, offset + n ∈ k'.slots := by
  induction ss generalizing offset k with
  | nil => exact ⟨k, rfl, rfl, List.Subset.refl _, fun n hn => absurd hn (Nat.not_lt_zero n)⟩
  | cons s ss ih =>
    have hshift : (fun (n : Nat) (s : Slot) =>
        Instruction.alloca (offset + (n + 1)) s.ty s.name) =
        fun n s => .alloca (offset + 1 + n) s.ty s.name := by
      funext n s
      congr 1
      omega
    obtain ⟨k', hk', hvalues, hsub, hall⟩ := ih (fun t ht => hss t (List.mem_cons_of_mem _ ht))
      (offset + 1) { k with slots := offset :: k.slots }
    refine ⟨k', ?_, hvalues, fun n hn => hsub (List.mem_cons_of_mem _ hn), fun n hn => ?_⟩
    · have hv := hss s List.mem_cons_self
      rw [List.mapIdx_cons, List.foldlM_cons]
      simp only [Nat.add_zero, Module.assembleInstruction, hv, if_false, hshift]
      exact hk'
    · cases n with
      | zero => exact hsub List.mem_cons_self
      | succ n =>
        have := hall n (Nat.lt_of_succ_lt_succ hn)
        rwa [show offset + (n + 1) = offset + 1 + n by omega]

def definedIn (ks : List Block) : Temps :=
  fun x ty => (x, ty) ∈ definitions (ks.flatMap (·.instructions))

/-- Block after block, in the order in which they were made. -/
theorem definedIn_next (ks : List Block) (K : Block) :
    (definedIn ks).after K.body = definedIn (ks ++ [K]) := by
  funext x ty
  simp [Temps.after, definedIn, definitions_append, Block.definitions_body]

namespace Function.Sturdy

variable {K : Block} {done rest : List Block}

theorem target (h : F.Sturdy callees m.strings.length g) {t : Nat} (hK : F.block? id = some K)
    (ht : t ∈ K.terminator.successors) : F.target t = .ok () := by
  obtain ⟨K', hK'⟩ := h.targets id K hK t ht
  exact if_pos (List.any_eq_true.mpr ⟨K', mem_of_block? hK', by simp [block?_id hK']⟩)

/-- A terminator uses what its block knows at its end, and its targets are blocks of the function. -/
theorem terminator (h : F.Sturdy callees m.strings.length g) (hK : F.block? id = some K)
    (hk : k.Covers (F.surroundings callees m.strings.length) known)
    (hlegal : K.terminator.Legal (F.surroundings callees m.strings.length) known) :
    m.assembleTerminator F k K.terminator = .ok () := by
  have hset := h.ended id K hK
  have htarget : ∀ t ∈ K.terminator.successors, F.target t = .ok () := fun t ht => h.target hK ht
  cases ht : K.terminator with
  | unset => exact absurd ht hset
  | jump target =>
    rw [ht] at htarget
    exact htarget target List.mem_cons_self
  | branch condition thenBlock elseBlock =>
    rw [ht] at htarget hlegal
    have hthen := htarget thenBlock List.mem_cons_self
    have helse := htarget elseBlock (List.mem_cons_of_mem _ List.mem_cons_self)
    simp [Module.assembleTerminator, hk.operand rfl hlegal, hthen, helse, bind, Except.bind]
  | ret value =>
    rw [ht] at hlegal
    cases value with
    | none => rfl
    | some v => exact hk.operand rfl hlegal.2

/-- What is known at the beginning of a block is defined in the blocks before it. -/
theorem known_before (h : F.Sturdy callees m.strings.length g)
    (hblocks : F.blocks = done ++ K :: rest) {x : Nat} {ty : Ty} (hx : g K.id x ty) :
    definedIn done x ty := by
  have hmem : K ∈ F.blocks := hblocks ▸ List.mem_append_right _ List.mem_cons_self
  have hK := block?_of_mem h.nodup hmem
  -- the temporary is defined on a path to the block
  obtain ⟨ks, hpath⟩ := h.live K.id K hK
  obtain ⟨i, hi, hr⟩ := mem_definitions.mp (h.certified.known_of_path hpath hx)
  obtain ⟨K', hK', hi⟩ := List.mem_flatMap.mp hi
  have hin := hpath.mem K' hK'
  have hlt : K'.id < K.id := (h.certified.ordered K.id K hK x ty hx).2 K'.id K' ty
    (block?_of_mem h.nodup hin) (mem_definitions.mpr ⟨i, hi, hr⟩)
  -- and the blocks of lesser numbers come first
  have hdone : K' ∈ done := by
    have hsorted := h.sorted
    rw [hblocks, List.map_append, List.map_cons] at hsorted
    rw [hblocks] at hin
    rcases List.mem_append.mp hin with hin | hin
    · exact hin
    · rcases List.mem_cons.mp hin with rfl | hin
      · exact absurd hlt (Nat.lt_irrefl _)
      · have hafter := (List.pairwise_cons.mp (List.pairwise_append.mp hsorted).2.1).1 K'.id
          (List.mem_map_of_mem hin)
        omega
  exact mem_definitions.mpr ⟨i, List.mem_flatMap.mpr ⟨K', hdone, hi⟩, hr⟩

/-- Behind the blocks before it, a block is assembled once its slots are there. -/
theorem body (h : F.Sturdy callees m.strings.length g) (hm : m.Provides callees)
    (hblocks : F.blocks = done ++ K :: rest)
    (hk : k.Covers (F.surroundings callees m.strings.length) (definedIn done)) :
    ∃ k', K.body.foldlM m.assembleInstruction k = .ok k' ∧
      k'.Covers (F.surroundings callees m.strings.length) (definedIn (done ++ [K])) ∧
      m.assembleTerminator F k' K.terminator = .ok () := by
  have hmem : K ∈ F.blocks := hblocks ▸ List.mem_append_right _ List.mem_cons_self
  have hK := block?_of_mem h.nodup hmem
  have his : ∀ i ∈ K.body, i.isAlloca = false ∧ ∀ o ∈ i.result?, ∃ x, o = .temp x :=
    fun i hi => ⟨Block.not_alloca_of_mem_body hi, h.certified.results K.id K hK i hi⟩
  have hbefore : ∀ x ty, g K.id x ty → definedIn done x ty := fun x ty hx => h.known_before hblocks hx
  have hcode := (h.certified.code K.id K hK).mono (.refl _) hbefore
  have hend := (h.certified.ends K.id K hK).mono (.refl _)
    fun x ty hx => Temps.after_mono hbefore K.body hx
  obtain ⟨k', hk', hc'⟩ := hk.instructions rfl hm hcode his
  refine ⟨k', hk', ?_, h.terminator hK hc' hend⟩
  rw [← definedIn_next]
  exact hc'

/-- The invariant of the walk over the blocks: what has been recorded is what the blocks so far define,
and what a block knows at its beginning was defined in one of them. -/
theorem blocks (h : F.Sturdy callees m.strings.length g) (hm : m.Provides callees)
    (hblocks : F.blocks = done ++ rest) (hrest : ∀ K ∈ rest, K.id ≠ F.entry)
    (hk : k.Covers (F.surroundings callees m.strings.length) (definedIn done)) :
    ∃ k', rest.foldlM (m.assembleBlock F) k = .ok k' := by
  induction rest generalizing done k with
  | nil => exact ⟨k, rfl⟩
  | cons K rest ih =>
    have hne := hrest K List.mem_cons_self
    have hmem : K ∈ F.blocks := hblocks ▸ List.mem_append_right _ List.mem_cons_self
    have hcode : K.instructions = K.body :=
      h.hoisted.others K.id K (block?_of_mem h.nodup hmem) hne
    obtain ⟨k₁, hk₁, hc₁, hend⟩ := h.body hm hblocks hk
    have hnext : F.blocks = (done ++ [K]) ++ rest := by
      rw [hblocks, List.append_assoc]
      rfl
    obtain ⟨k', hk'⟩ := ih hnext (fun K' hK' => hrest K' (List.mem_cons_of_mem _ hK')) hc₁
    refine ⟨k', ?_⟩
    have hblock : m.assembleBlock F k K = .ok k₁ := by
      simp [Module.assembleBlock, hne, hcode, hk₁, hend, bind, Except.bind, pure, Except.pure]
    rw [List.foldlM_cons, hblock]
    exact hk'

/-- A function of a lowered module is assembled: its entry makes the arguments and the slots known,
and the other blocks follow in their order. -/
theorem assemble (h : F.Sturdy callees m.strings.length g) (hm : m.Provides callees) :
    m.assembleFunction F = .ok () := by
  obtain ⟨K, Ks, hblocks, hK⟩ := h.first
  have hid : K.id = F.entry := (block?_id hK).trans h.entry.symm
  have hcode : K.instructions = F.allocas ++ K.body := h.hoisted.entry K (h.entry ▸ hK)
  obtain ⟨k₁, hk₁, hvalues, _, hslots⟩ := assemble_allocas (m := m)
    (fun s hs => (h.certified.slots s hs).1) 0
    { Known.none with values := (List.range F.params.length).map .param ++ Known.none.values }
  simp only [Nat.zero_add] at hk₁ hslots
  have hc₁ : k₁.Covers (F.surroundings callees m.strings.length) (definedIn []) := by
    refine ⟨fun x ty hx => (List.not_mem_nil hx).elim, fun n ty hn => ?_, fun n ty hn => ?_⟩
    · have hlt := (List.getElem?_eq_some_iff.mp hn).1
      simp only [surroundings, List.length_map] at hlt
      rw [hvalues]
      exact List.mem_append_left _ (List.mem_map_of_mem (List.mem_range.mpr hlt))
    · have hlt := (List.getElem?_eq_some_iff.mp hn).1
      simp only [surroundings, List.length_map] at hlt
      exact hslots n hlt
  have hbegin : F.blocks = [] ++ K :: Ks := hblocks
  have hnext : F.blocks = [K] ++ Ks := hblocks
  obtain ⟨k₂, hk₂, hc₂, hend⟩ := h.body hm hbegin hc₁
  have hrest : ∀ K' ∈ Ks, K'.id ≠ F.entry := by
    intro K' hK' he
    have hnd := h.nodup
    rw [hblocks, List.map_cons, List.nodup_cons] at hnd
    exact hnd.1 (hid.trans he.symm ▸ List.mem_map_of_mem hK')
  obtain ⟨k', hk'⟩ := h.blocks hm hnext hrest hc₂
  have hfirst : m.assembleBlock F .none K = .ok k₂ := by
    unfold Module.assembleBlock
    simp only [hid, if_true, hcode, List.foldlM_append]
    rw [show F.allocas = F.slots.mapIdx fun i s => .alloca i s.ty s.name from rfl, hk₁]
    simp [hk₂, hend, bind, Except.bind, pure, Except.pure]
  have htarget : F.target F.entry = .ok () :=
    if_pos (List.any_eq_true.mpr ⟨K, mem_of_block? hK, by simp [hid]⟩)
  unfold Module.assembleFunction
  rw [htarget, hblocks, List.foldlM_cons, hfirst]
  simp [hk', bind, Except.bind, pure, Except.pure]

end Function.Sturdy

/-- No function that every program may call has the symbol of a string. -/
theorem prototype_ne_symbol {x : External} (hx : x ∈ prototypes) (n : Nat) :
    x.name ≠ stringSymbol n := by
  have hfirst : ∀ x ∈ prototypes, x.name.toList.head? ≠ some '_' := by decide
  intro he
  refine hfirst x hx ?_
  rw [he]
  simp [stringSymbol]

/-- No function of the library takes a value of the type of nothing. -/
theorem prototype_params {x : External} (hx : x ∈ prototypes) : .void ∉ x.params := by
  have hall : ∀ x ∈ prototypes, .void ∉ x.params := by decide
  exact hall x hx

namespace Module

/-- A string has a symbol of its own, unless a function of the module has it. -/
theorem assembleString_eq_error (hext : m.externals ⊆ prototypes) {n : Nat} {e : Error} :
    m.assembleString n = .error e ↔
      (∃ F ∈ m.functions, F.name = stringSymbol n) ∧ e = .symbolClash (stringSymbol n) := by
  have hnone : m.externals.any (·.name == stringSymbol n) = false := by
    refine List.any_eq_false.mpr fun x hx => ?_
    simpa using prototype_ne_symbol (hext hx) n
  have hany : m.functions.any (·.name == stringSymbol n) = true ↔
      ∃ F ∈ m.functions, F.name = stringSymbol n := by
    simp
  unfold assembleString
  simp only [hnone, Bool.or_false, hany]
  split
  · rename_i h
    simp [h, eq_comm]
  · rename_i h
    simp [h]

/-- Where everything else is in order, it is the strings that decide. -/
theorem assemble_eq (hext : ∀ x ∈ m.externals, .void ∉ x.params)
    (hparams : ∀ F ∈ m.functions, .void ∉ F.params.map (·.ty))
    (hcode : ∀ F ∈ m.functions, m.assembleFunction F = .ok ()) :
    m.assemble = (List.range m.strings.length).forM m.assembleString := by
  have he : m.externals.forM (representable ·.params) = .ok () :=
    forM_eq_ok.mpr fun x hx => if_neg (hext x hx)
  have hf : m.functions.forM (fun f => representable (f.params.map (·.ty))) = .ok () :=
    forM_eq_ok.mpr fun F hF => if_neg (hparams F hF)
  unfold assemble
  simp only [he, hf, forM_eq_ok.mpr hcode, bind, Except.bind]
  split
  · rename_i e h
    exact h.symm
  · rename_i u h
    exact h.symm

end Module

end Ir

namespace Lowering

/-- Machine code is made of every lowered program, type-checked or not, unless a function of the module
has the symbol of one of its strings; and that is the fault that is found then. -/
theorem lower_assembles {program : Tree.Block} {name : String} {m : Ir.Module}
    (h : lower program name = .ok m) :
    (∀ e, m.assemble = .error e → ∃ n < m.strings.length, e = .symbolClash (Ir.stringSymbol n)) ∧
      ((∃ e, m.assemble = .error e) ↔
        ∃ F ∈ m.functions, ∃ n < m.strings.length, F.name = Ir.stringSymbol n) := by
  obtain ⟨main, hp⟩ := lower_produces h
  have hcode : ∀ F ∈ m.functions, m.assembleFunction F = .ok () := by
    intro F hF
    obtain ⟨g, hg⟩ := hp.sturdy_of_mem hF
    exact hg.assemble fun name x hx => hp.callee? hx
  have heq := Ir.Module.assemble_eq (fun x hx => Ir.prototype_params (hp.prototypes hx))
    (fun F hF => hp.params_ne_void hF) hcode
  rw [heq]
  refine ⟨fun e he => ?_, fun ⟨e, he⟩ => ?_, fun ⟨F, hF, n, hn, hname⟩ => ?_⟩
  · obtain ⟨n, hn, hs⟩ := Ir.mem_of_forM_eq_error he
    exact ⟨n, List.mem_range.mp hn, ((Ir.Module.assembleString_eq_error hp.prototypes).mp hs).2⟩
  · obtain ⟨n, hn, hs⟩ := Ir.mem_of_forM_eq_error he
    obtain ⟨F, hF, hname⟩ := ((Ir.Module.assembleString_eq_error hp.prototypes).mp hs).1
    exact ⟨F, hF, n, List.mem_range.mp hn, hname⟩
  · have hs := (Ir.Module.assembleString_eq_error hp.prototypes).mpr ⟨⟨F, hF, hname⟩, rfl⟩
    exact Ir.forM_error_of_mem (List.mem_range.mpr hn) hs

/-- A function with the symbol of the first string, in a program that has a string. -/
theorem lower_assembles_clash : ∃ m,
    lower [.function ⟨"_str0", [], .void, []⟩, .expr (.call "print" [.str "a"])] "clash" = .ok m ∧
      (∃ F ∈ m.functions, ∃ n < m.strings.length, F.name = Ir.stringSymbol n) ∧
      ∃ e, m.assemble = .error e := by
  have hok : (lower [.function ⟨"_str0", [], .void, []⟩, .expr (.call "print" [.str "a"])]
      "clash").toOption.any (fun m => m.functions.any (·.name == "_str0") && m.strings.length == 1) =
        true := by decide +kernel
  cases h : lower [.function ⟨"_str0", [], .void, []⟩, .expr (.call "print" [.str "a"])] "clash" with
  | error d =>
    rw [h] at hok
    cases hok
  | ok m =>
    rw [h] at hok
    obtain ⟨hany, hlen⟩ := Bool.and_eq_true_iff.mp hok
    obtain ⟨F, hF, hname⟩ := List.any_eq_true.mp hany
    have hclash : ∃ F ∈ m.functions, ∃ n < m.strings.length, F.name = Ir.stringSymbol n :=
      ⟨F, hF, 0, by simp [beq_iff_eq.mp hlen], beq_iff_eq.mp hname⟩
    exact ⟨m, rfl, hclash, (lower_assembles h).2.mpr hclash⟩

end Lowering

end TreeLang
