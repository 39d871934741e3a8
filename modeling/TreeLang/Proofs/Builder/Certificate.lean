import TreeLang.Proofs.Builder.Legal
import TreeLang.Proofs.Builder.Region

namespace TreeLang.Ir

abbrev Knowledge := Nat → Temps

def Knowledge.nothing : Knowledge := fun _ _ _ => False

def Function.surroundings (f : Function) (callees : String → Option External) (strings : Nat) :
    Surroundings where
  params := f.params.map (·.ty)
  returns := f.returns
  slots := f.slots.map (·.ty)
  strings := strings
  callees := callees

structure Certified (callees : String → Option External) (strings : Nat) (g : Knowledge)
    (f : Function) : Prop where
  code : ∀ id k, f.block? id = some k → LegalCode (f.surroundings callees strings) (g id) k.body
  ends : ∀ id k, f.block? id = some k →
    k.terminator.Legal (f.surroundings callees strings) ((g id).after k.body)
  edges : ∀ id k, f.block? id = some k → ∀ t ∈ k.terminator.successors,
    ∀ x ty, g t x ty → (g id).after k.body x ty
  entry : ∀ x ty, ¬ g f.entry x ty
  ordered : ∀ id k, f.block? id = some k → ∀ x ty, g id x ty → x < f.nextTemp ∧
    ∀ j k' ty', f.block? j = some k' → (x, ty') ∈ definitions k'.instructions → j < id
  results : ∀ id k, f.block? id = some k → ∀ i ∈ k.body, ∀ o ∈ i.result?, ∃ x, o = .temp x
  nodup : (f.definitions.map (·.1)).Nodup
  below : ∀ d ∈ f.definitions, d.1 < f.nextTemp
  slots : ∀ s ∈ f.slots, s.ty ≠ .void ∧ s.ty ≠ .bool
  returns : f.returns ≠ .bool

/-- Only the order of the definitions hangs on the order of the instructions. -/
theorem definitions_perm {is js : List Instruction} (h : is.Perm js) :
    (definitions is).Perm (definitions js) := by
  induction h with
  | nil => exact .nil
  | @cons i is js _ ih =>
    rw [show i :: is = [i] ++ is from rfl, show i :: js = [i] ++ js from rfl, definitions_append,
      definitions_append]
    exact ih.append_left _
  | swap i j is =>
    have hd : ∀ i j, definitions (i :: j :: is) =
        (definitions [i] ++ definitions [j]) ++ definitions is := by
      intro i j
      rw [← definitions_append, ← definitions_append]
      rfl
    rw [hd, hd]
    exact List.perm_append_comm.append_right _
  | trans _ _ ih ih' => exact ih.trans ih'

/-- An instruction defines one temporary at most. -/
theorem definitions_singleton (i : Instruction) : definitions [i] = [] ∨
    ∃ x, i.result? = some (.temp x) ∧ definitions [i] = [(x, i.resultType)] := by
  simp only [definitions]
  split
  · rename_i x hx
    exact .inr ⟨x, hx, rfl⟩
  · exact .inl rfl

/-- An instruction more in one block is one more in the function. -/
theorem Function.instructions_add {f : Function} {id : Nat} {k : Block}
    (hnd : (f.blocks.map (·.id)).Nodup) (hk : f.block? id = some k) (i : Instruction) :
    ((f.updateBlock id (.add i)).blocks.flatMap (·.instructions)).Perm
      (f.blocks.flatMap (·.instructions) ++ [i]) := by
  have hm := mem_of_block? hk
  have hid := block?_id hk
  unfold Function.updateBlock
  generalize f.blocks = ks at hnd hm
  induction ks with
  | nil => cases hm
  | cons x xs ih =>
    obtain ⟨hx, hxs⟩ := List.nodup_cons.mp hnd
    rcases List.mem_cons.mp hm with rfl | hm
    · have hrest : (xs.map fun b => if b.id == id then b.add i else b) = xs := by
        refine (List.map_congr_left fun b hb => ?_).trans (List.map_id xs)
        have hne : b.id ≠ id := fun he => hx (List.mem_map.mpr ⟨b, hb, he.trans hid.symm⟩)
        simp [hne]
      simp only [List.map_cons, hid, beq_self_eq_true, if_true, hrest, List.flatMap_cons]
      rw [show (k.add i).instructions = k.instructions ++ [i] from rfl, List.append_assoc,
        List.append_assoc]
      exact List.perm_append_comm.append_left _
    · have hne : x.id ≠ id := fun he => hx (List.mem_map.mpr ⟨k, hm, hid.trans he.symm⟩)
      simp only [List.map_cons, beq_eq_false_iff_ne.mpr hne, Bool.false_eq_true, if_false,
        List.flatMap_cons, List.append_assoc]
      exact (ih hxs hm).append_left _

/-- An instruction adds what it defines, somewhere among the definitions. -/
theorem Function.definitions_add {f : Function} {id : Nat} {k : Block} (hn : f.Numbered)
    (hk : f.block? id = some k) (i : Instruction) :
    (f.updateBlock id (.add i)).definitions.Perm (f.definitions ++ Ir.definitions [i]) := by
  unfold Function.definitions
  rw [← definitions_append]
  exact definitions_perm (instructions_add hn.nodup hk i)

/-- The temporaries stay apart, and below the next one, when the next one is all that an instruction
more may define. -/
theorem Function.distinct_add {f : Function} {id next : Nat} {k : Block} {i : Instruction}
    (hn : f.Numbered) (hk : f.block? id = some k) (hnd : (f.definitions.map (·.1)).Nodup)
    (hbelow : ∀ d ∈ f.definitions, d.1 < f.nextTemp) (hnext : f.nextTemp ≤ next)
    (hres : ∀ o ∈ i.result?, o = .temp f.nextTemp ∧ f.nextTemp < next) :
    ((f.updateBlock id (.add i)).definitions.map (·.1)).Nodup ∧
      ∀ d ∈ (f.updateBlock id (.add i)).definitions, d.1 < next := by
  have hperm := definitions_add hn hk i
  have hold : ∀ d ∈ f.definitions, d.1 < next :=
    fun d hd => Nat.lt_of_lt_of_le (hbelow d hd) hnext
  rcases definitions_singleton i with hnone | ⟨x, hx, hone⟩
  · rw [hnone, List.append_nil] at hperm
    exact ⟨(hperm.map _).nodup_iff.mpr hnd, fun d hd => hold d (hperm.mem_iff.mp hd)⟩
  · obtain ⟨hfresh, hlt⟩ := hres _ hx
    cases hfresh
    rw [hone] at hperm
    refine ⟨(hperm.map _).nodup_iff.mpr ?_, fun d hd => ?_⟩
    · rw [List.map_append]
      refine List.nodup_append.mpr ⟨hnd, by simp, fun y hy z hz => ?_⟩
      obtain ⟨d, hd, rfl⟩ := List.mem_map.mp hy
      rw [List.mem_singleton.mp hz]
      exact Nat.ne_of_lt (hbelow d hd)
    · rcases List.mem_append.mp (hperm.mem_iff.mp hd) with hd | hd
      · exact hold d hd
      · rw [List.mem_singleton.mp hd]
        exact hlt

/-- Work on a block that defines nothing new leaves the definitions of the function. -/
theorem Function.definitions_update {f : Function} {id : Nat} (g : Block → Block)
    (hg : ∀ k, Ir.definitions (g k).instructions = Ir.definitions k.instructions) :
    (f.updateBlock id g).definitions = f.definitions := by
  unfold Function.definitions Function.updateBlock
  induction f.blocks with
  | nil => rfl
  | cons x xs ih =>
    simp only [List.map_cons, List.flatMap_cons, definitions_append, ih]
    split <;> simp [hg]

theorem Block.definitions_hoist {a : Instruction} (ha : a.isAlloca = true) (k : Block) :
    definitions (k.hoist a).instructions = definitions k.instructions := by
  rw [← Block.definitions_body, ← Block.definitions_body, Block.body_hoist ha]

/-- A function that has just been begun has a certificate, in which nothing is known. -/
theorem Function.certified_empty (callees : String → Option External) (strings : Nat)
    (name : String) (params : List Param) {returns : Ty} (hr : returns ≠ .bool) :
    Certified callees strings .nothing (Function.empty name params returns) := by
  have hempty : ∀ id k, (Function.empty name params returns).block? id = some k →
      k = .empty 0 "entry" := by
    intro id k hk
    have hm := Function.mem_of_block? hk
    rwa [Function.empty, List.mem_singleton] at hm
  refine ⟨?_, ?_, ?_, fun _ _ h => h, fun _ _ _ _ _ h => h.elim, ?_, ?_, ?_, ?_, hr⟩
  · intro id k hk
    rw [hempty id k hk]
    trivial
  · intro id k hk
    rw [hempty id k hk]
    trivial
  · intro id k hk t ht
    rw [hempty id k hk] at ht
    cases ht
  · intro id k hk i hi
    rw [hempty id k hk] at hi
    cases hi
  · exact List.nodup_nil
  · intro d hd
    cases hd
  · intro s hs
    cases hs

namespace Certified

variable {callees : String → Option External} {strings strings' : Nat} {g : Knowledge}
  {f : Function} {id : Nat} {k : Block}

/-- A string more in the module takes nothing away. -/
theorem mono (h : Certified callees strings g f) (hs : strings ≤ strings') :
    Certified callees strings' g f := by
  have he : (f.surroundings callees strings).Within (f.surroundings callees strings') :=
    ⟨rfl, rfl, List.prefix_rfl, hs, rfl⟩
  exact { h with
    code := fun id k hk => (h.code id k hk).mono he fun _ _ hx => hx
    ends := fun id k hk => (h.ends id k hk).mono he fun _ _ hx => hx }

/-- A new block promises nothing to others, and comes after all that define something. -/
theorem extend (h : Certified callees strings g f) (hn : f.Shaped) (label : String) (new : Temps)
    (hnew : ∀ x ty, new x ty → x < f.nextTemp) :
    Certified callees strings (fun id => if id = f.nextBlock then new else g id)
      (f.extend label) := by
  have hold : ∀ id k, (f.extend label).block? id = some k →
      (id = f.nextBlock ∧ k = .empty f.nextBlock label) ∨
        (id ≠ f.nextBlock ∧ f.block? id = some k) :=
    fun _ _ => Function.of_block?_extend hn.toNumbered
  have hdef : (f.extend label).definitions = f.definitions := by
    simp [Function.definitions, Function.extend, Block.empty]
  refine { nodup := hdef ▸ h.nodup, below := hdef ▸ h.below, slots := h.slots, returns := h.returns,
           code := ?_, ends := ?_, edges := ?_, entry := ?_, ordered := ?_, results := ?_ }
  · intro id k hk
    rcases hold id k hk with ⟨_, rfl⟩ | ⟨hne, hk⟩
    · trivial
    · simp only [if_neg hne]
      exact h.code id k hk
  · intro id k hk
    rcases hold id k hk with ⟨_, rfl⟩ | ⟨hne, hk⟩
    · trivial
    · simp only [if_neg hne]
      exact h.ends id k hk
  · intro id k hk t ht x ty hx
    rcases hold id k hk with ⟨_, rfl⟩ | ⟨hne, hk⟩
    · cases ht
    · have hlt := hn.targets id k hk t ht
      simp only [if_neg (Nat.ne_of_lt hlt)] at hx
      simp only [if_neg hne]
      exact h.edges id k hk t ht x ty hx
  · have hne : f.entry ≠ f.nextBlock := by have := hn.entry; have := hn.pos; omega
    intro x ty hx
    have hx : (if f.entry = f.nextBlock then new else g f.entry) x ty := hx
    rw [if_neg hne] at hx
    exact h.entry x ty hx
  · intro id k hk x ty hx
    have hlater : x < f.nextTemp ∧ ∀ j k' ty', f.block? j = some k' →
        (x, ty') ∈ definitions k'.instructions → j < id := by
      rcases hold id k hk with ⟨rfl, _⟩ | ⟨hne, hk⟩
      · rw [if_pos rfl] at hx
        exact ⟨hnew x ty hx, fun j k' _ hk' _ => hn.lt hk'⟩
      · rw [if_neg hne] at hx
        exact h.ordered id k hk x ty hx
    refine ⟨hlater.1, fun j k' ty' hk' hd => ?_⟩
    rcases hold j k' hk' with ⟨_, rfl⟩ | ⟨_, hk'⟩
    · cases hd
    · exact hlater.2 j k' ty' hk' hd
  · intro id k hk
    rcases hold id k hk with ⟨_, rfl⟩ | ⟨hne, hk⟩
    · simp
    · exact h.results id k hk

/-- A slot more takes nothing away, as long as its type is one of values in storage. -/
theorem reserve (h : Certified callees strings g f) {name : String} {ty : Ty} (hv : ty ≠ .void)
    (hb : ty ≠ .bool) : Certified callees strings g (f.reserve name ty) := by
  have he : (f.surroundings callees strings).Within
      ((f.reserve name ty).surroundings callees strings) :=
    ⟨rfl, rfl, by simp [Function.surroundings, Function.reserve, Function.updateBlock],
      Nat.le_refl _, rfl⟩
  have hold : ∀ id k, (f.reserve name ty).block? id = some k →
      ∃ k', f.block? id = some k' ∧ k'.Same k := fun _ _ => Function.of_block?_reserve
  have hdef : (f.reserve name ty).definitions = f.definitions :=
    Function.definitions_update (f := { f with slots := f.slots ++ [⟨name, ty⟩] }) _
      fun k => Block.definitions_hoist rfl k
  refine { nodup := hdef ▸ h.nodup, below := hdef ▸ h.below, entry := h.entry,
           returns := h.returns, code := ?_, ends := ?_, edges := ?_, ordered := ?_, results := ?_,
           slots := ?_ }
  · intro id k hk
    obtain ⟨k', hk', _, hbody, _⟩ := hold id k hk
    rw [hbody]
    exact (h.code id k' hk').mono he fun _ _ hx => hx
  · intro id k hk
    obtain ⟨k', hk', _, hbody, hterm⟩ := hold id k hk
    rw [hbody, hterm]
    exact (h.ends id k' hk').mono he fun _ _ hx => hx
  · intro id k hk
    obtain ⟨k', hk', _, hbody, hterm⟩ := hold id k hk
    rw [hbody, hterm]
    exact h.edges id k' hk'
  · intro id k hk x ty hx
    obtain ⟨k', hk', _⟩ := hold id k hk
    obtain ⟨hlt, hbefore⟩ := h.ordered id k' hk' x ty hx
    refine ⟨hlt, fun j l ty' hl hd => ?_⟩
    obtain ⟨l', hl', _, hbody, _⟩ := hold j l hl
    rw [← Block.definitions_body, hbody, Block.definitions_body] at hd
    exact hbefore j l' ty' hl' hd
  · intro id k hk
    obtain ⟨k', hk', _, hbody, _⟩ := hold id k hk
    rw [hbody]
    exact h.results id k' hk'
  · intro s hs
    rcases List.mem_append.mp hs with hs | hs
    · exact h.slots s hs
    · rw [List.mem_singleton.mp hs]
      exact ⟨hv, hb⟩

/-- One instruction more, legal behind the block it is appended to. -/
theorem add (h : Certified callees strings g f) (hn : f.Numbered) (hk : f.block? id = some k)
    {i : Instruction} (hi : i.isAlloca = false)
    (hlegal : i.Legal (f.surroundings callees strings) ((g id).after k.body)) {next : Nat}
    (hnext : f.nextTemp ≤ next) (hres : ∀ o ∈ i.result?, o = .temp f.nextTemp ∧ f.nextTemp < next) :
    Certified callees strings g { f.updateBlock id (.add i) with nextTemp := next } := by
  have hold : ∀ j l, (f.updateBlock id (.add i)).block? j = some l →
      (j = id ∧ l = k.add i) ∨ f.block? j = some l := by
    intro j l hl
    obtain ⟨hj, e, he, rfl⟩ | ⟨-, hl⟩ := Function.of_block?_add hl
    · cases hk.symm.trans he
      exact .inl ⟨hj, rfl⟩
    · exact .inr hl
  obtain ⟨hnodup, hbelow⟩ := Function.distinct_add hn hk h.nodup h.below hnext hres
  have hlt : ∀ x ty, (g id).after k.body x ty → (g id).after (k.add i).body x ty := by
    intro x ty hx
    rw [Block.body_add hi, Temps.after_append]
    exact .inl hx
  refine { entry := h.entry, slots := h.slots, returns := h.returns, nodup := hnodup,
           below := hbelow, code := ?_, ends := ?_, edges := ?_, ordered := ?_, results := ?_ }
  · intro j l hl
    rcases hold j l hl with ⟨rfl, rfl⟩ | hl
    · rw [Block.body_add hi]
      exact legalCode_append.mpr ⟨h.code j k hk, hlegal, trivial⟩
    · exact h.code j l hl
  · intro j l hl
    rcases hold j l hl with ⟨rfl, rfl⟩ | hl
    · exact (h.ends j k hk).mono (.refl _) hlt
    · exact h.ends j l hl
  · intro j l hl t ht x ty hx
    rcases hold j l hl with ⟨rfl, rfl⟩ | hl
    · exact hlt x ty (h.edges j k hk t ht x ty hx)
    · exact h.edges j l hl t ht x ty hx
  · intro j l hl x ty hx
    obtain ⟨l₀, hl₀⟩ : ∃ l₀, f.block? j = some l₀ := by
      rcases hold j l hl with ⟨rfl, _⟩ | hl
      · exact ⟨k, hk⟩
      · exact ⟨l, hl⟩
    obtain ⟨hbelow, hbefore⟩ := h.ordered j l₀ hl₀ x ty hx
    refine ⟨Nat.lt_of_lt_of_le hbelow hnext, fun j' l' ty' hl' hd => ?_⟩
    rcases hold j' l' hl' with ⟨rfl, rfl⟩ | hl'
    · rw [show (k.add i).instructions = k.instructions ++ [i] from rfl, definitions_append] at hd
      rcases List.mem_append.mp hd with hd | hd
      · exact hbefore j' k ty' hk hd
      · -- the new temporary is known nowhere
        obtain ⟨y, hy, hr, -⟩ := mem_definitions.mp hd
        rw [List.mem_singleton.mp hy] at hr
        cases (hres _ hr).1
        exact absurd hbelow (Nat.lt_irrefl _)
    · exact hbefore j' l' ty' hl' hd
  · intro j l hl
    rcases hold j l hl with ⟨rfl, rfl⟩ | hl
    · intro y hy o ho
      rw [Block.body_add hi] at hy
      rcases List.mem_append.mp hy with hy | hy
      · exact h.results j k hk y hy o ho
      · rw [List.mem_singleton.mp hy] at ho
        exact ⟨f.nextTemp, (hres o ho).1⟩
    · exact h.results j l hl

/-- The block at hand ends, and each target begins with no more than it has. -/
theorem finish (h : Certified callees strings g f) (hk : f.block? id = some k) {t : Terminator}
    (hlegal : t.Legal (f.surroundings callees strings) ((g id).after k.body))
    (hedges : ∀ s ∈ t.successors, ∀ x ty, g s x ty → (g id).after k.body x ty) :
    Certified callees strings g (f.updateBlock id (.finish t)) := by
  have hold : ∀ j l, (f.updateBlock id (.finish t)).block? j = some l →
      (j = id ∧ l = k.finish t) ∨ f.block? j = some l := by
    intro j l hl
    obtain ⟨hj, e, he, rfl⟩ | ⟨-, hl⟩ := Function.of_block?_finish hl
    · cases hk.symm.trans he
      exact .inl ⟨hj, rfl⟩
    · exact .inr hl
  have hdef : (f.updateBlock id (.finish t)).definitions = f.definitions :=
    Function.definitions_update _ fun _ => rfl
  refine { nodup := hdef ▸ h.nodup, below := hdef ▸ h.below, entry := h.entry, slots := h.slots,
           returns := h.returns, code := ?_, ends := ?_, edges := ?_, ordered := ?_, results := ?_ }
  · intro j l hl
    rcases hold j l hl with ⟨rfl, rfl⟩ | hl
    · exact h.code j k hk
    · exact h.code j l hl
  · intro j l hl
    rcases hold j l hl with ⟨rfl, rfl⟩ | hl
    · exact hlegal
    · exact h.ends j l hl
  · intro j l hl
    rcases hold j l hl with ⟨rfl, rfl⟩ | hl
    · exact hedges
    · exact h.edges j l hl
  · intro j l hl x ty hx
    have hsame : ∀ j l, (f.updateBlock id (.finish t)).block? j = some l →
        ∃ l₀, f.block? j = some l₀ ∧ l₀.instructions = l.instructions := by
      intro j l hl
      rcases hold j l hl with ⟨rfl, rfl⟩ | hl
      · exact ⟨k, hk, rfl⟩
      · exact ⟨l, hl, rfl⟩
    obtain ⟨l₀, hl₀, _⟩ := hsame j l hl
    obtain ⟨hbelow, hbefore⟩ := h.ordered j l₀ hl₀ x ty hx
    refine ⟨hbelow, fun j' l' ty' hl' hd => ?_⟩
    obtain ⟨l₁, hl₁, heq⟩ := hsame j' l' hl'
    exact hbefore j' l₁ ty' hl₁ (heq ▸ hd)
  · intro j l hl
    rcases hold j l hl with ⟨rfl, rfl⟩ | hl
    · exact h.results j k hk
    · exact h.results j l hl

end Certified

end TreeLang.Ir
