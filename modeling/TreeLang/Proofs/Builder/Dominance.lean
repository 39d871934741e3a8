import TreeLang.Ir.Single
import TreeLang.Proofs.Builder.Layout
import TreeLang.Proofs.Builder.Reachability

namespace TreeLang.Ir

/-- Where all results are temporaries, they are the ones that have a definition. -/
theorem definedBy_eq {is : List Instruction} (h : ∀ i ∈ is, ∀ o ∈ i.result?, ∃ x, o = .temp x) :
    definedBy is = (definitions is).map fun d => .temp d.1 := by
  induction is with
  | nil => rfl
  | cons i is ih =>
    rw [definedBy_cons, ih fun j hj => h j (List.mem_cons_of_mem _ hj)]
    cases hr : i.result? with
    | none => simp [definitions, hr]
    | some o =>
      obtain ⟨x, rfl⟩ := h i List.mem_cons_self o hr
      simp [definitions, hr]

/-- Where no key is given twice a lookup finds every pair. -/
theorem lookup_of_nodup {α : Type} {ds : List (Nat × α)} (h : (ds.map (·.1)).Nodup) {x : Nat} {a : α}
    (hm : (x, a) ∈ ds) : ds.lookup x = some a := by
  induction ds with
  | nil => cases hm
  | cons d ds ih =>
    obtain ⟨hd, hds⟩ := List.nodup_cons.mp h
    rcases List.mem_cons.mp hm with rfl | hm
    · simp
    · have hne : (x == d.1) = false := by
        refine beq_eq_false_iff_ne.mpr fun he => hd ?_
        exact List.mem_map.mpr ⟨(x, a), hm, he⟩
      rw [List.lookup_cons, hne]
      exact ih hds hm

namespace Function

variable {f : Function} {ks : List Block} {k : Block} {id : Nat}

/-- A path from the entry to a block: the blocks that control passes on the way. -/
inductive Path (f : Function) : List Block → Block → Prop
  | entry {k : Block} (h : f.block? f.entry = some k) : Path f [] k
  | edge {ks : List Block} {k k' : Block} {t : Nat} (h : Path f ks k)
    (ht : t ∈ k.terminator.successors) (hk : f.block? t = some k') : Path f (ks ++ [k]) k'

/-- Every block has a path to it. -/
def Live (f : Function) : Prop :=
  ∀ id k, f.block? id = some k → ∃ ks, f.Path ks k

/-- On every path to the point of a block behind the instructions `pre`, an instruction that defines
the temporary has been passed. -/
def DefinedBefore (f : Function) (k : Block) (pre : List Instruction) (x : Nat) : Prop :=
  ∀ ks, f.Path ks k → ∃ i ∈ ks.flatMap (·.instructions) ++ pre, i.result? = some (.temp x)

/-- Every path ends in a block of the function, the one that is found under its number. -/
theorem Path.block? (h : f.Path ks k) : f.block? k.id = some k := by
  cases h with
  | entry h => rw [block?_id h]; exact h
  | edge _ _ hk => rw [block?_id hk]; exact hk

theorem Path.mem (h : f.Path ks k) : ∀ k' ∈ ks, k' ∈ f.blocks := by
  induction h with
  | entry => intro k' hk'; cases hk'
  | edge h _ _ ih =>
    intro k' hk'
    rcases List.mem_append.mp hk' with hk' | hk'
    · exact ih k' hk'
    · rw [List.mem_singleton.mp hk']
      exact mem_of_block? h.block?

end Function

namespace Certified

variable {callees : String → Option External} {strings : Nat} {g : Knowledge} {f : Function}
  {id : Nat} {k : Block} {ks : List Block} {pre post : List Instruction} {i : Instruction}
  {x : Nat} {ty : Ty}

/-- An alloca defines nothing, so what is known behind a block is what is known behind its body. -/
theorem after_body (known : Temps) (k : Block) : known.after k.body = known.after k.instructions := by
  funext x ty
  simp [Temps.after, Block.definitions_body]

/-- What is known where a block begins has been defined on every path to it. -/
theorem known_of_path (h : Certified callees strings g f) (hp : f.Path ks k) (hx : g k.id x ty) :
    (x, ty) ∈ definitions (ks.flatMap (·.instructions)) := by
  induction hp generalizing x ty with
  | entry hk =>
    rw [Function.block?_id hk] at hx
    exact absurd hx (h.entry x ty)
  | @edge ks k k' t hp ht hk ih =>
    rw [Function.block?_id hk] at hx
    have hedge := h.edges k.id k hp.block? t ht x ty hx
    rw [after_body] at hedge
    rw [List.flatMap_append, definitions_append, List.flatMap_singleton]
    rcases hedge with hknown | hdef
    · exact List.mem_append_left _ (ih hknown)
    · exact List.mem_append_right _ hdef

/-- Whatever a certificate knows at a point has been defined on every path that leads there. -/
theorem definedBefore (h : Certified callees strings g f) (hx : (g k.id).after pre x ty) :
    f.DefinedBefore k pre x := by
  intro ks hp
  have hm : (x, ty) ∈ definitions (ks.flatMap (·.instructions) ++ pre) := by
    rw [definitions_append]
    rcases hx with hknown | hdef
    · exact List.mem_append_left _ (h.known_of_path hp hknown)
    · exact List.mem_append_right _ hdef
  obtain ⟨i, hi, hr, _⟩ := mem_definitions.mp hm
  exact ⟨i, hi, hr⟩

/-- Each instruction is legal behind those before it, the allocas at the top counted in. -/
theorem legal_at (h : Certified callees strings g f) (hk : f.block? id = some k)
    (hi : k.instructions = pre ++ i :: post) :
    i.Legal (f.surroundings callees strings) ((g id).after pre) := by
  cases ha : i.isAlloca with
  | true =>
    cases i <;> trivial
  | false =>
    have hbody : k.body = pre.filter (!·.isAlloca) ++ i :: post.filter (!·.isAlloca) := by
      simp [Block.body, hi, ha]
    have hcode := h.code id k hk
    rw [hbody] at hcode
    have heq : (g id).after (pre.filter (!·.isAlloca)) = (g id).after pre := by
      funext x ty
      simp [Temps.after, definitions_filter]
    exact heq ▸ hcode.at

/-- What is known at a point has the type of its definition, as every block can be reached. -/
theorem mem_definitions (h : Certified callees strings g f) (hlive : f.Live)
    (hk : f.block? id = some k) (hi : k.instructions = pre ++ post)
    (hx : (g id).after pre x ty) : (x, ty) ∈ f.definitions := by
  have hid := Function.block?_id hk
  rcases hx with hknown | hdef
  · obtain ⟨ks, hp⟩ := hlive id k hk
    have hm := h.known_of_path hp (hid.symm ▸ hknown)
    obtain ⟨i, hi, hr⟩ := Ir.mem_definitions.mp hm
    obtain ⟨k', hk', hi⟩ := List.mem_flatMap.mp hi
    exact Function.mem_definitions_of_block (hp.mem k' hk') (Ir.mem_definitions.mpr ⟨i, hi, hr⟩)
  · refine Function.mem_definitions_of_block (Function.mem_of_block? hk) ?_
    rw [hi, definitions_append]
    exact List.mem_append_left _ hdef

/-- The type that a certificate gives to an operand is the one that its definition gives. -/
theorem typeOf (h : Certified callees strings g f) (hlive : f.Live) (hk : f.block? id = some k)
    (hi : k.instructions = pre ++ post) {o : Operand}
    (ho : o.HasType (f.surroundings callees strings) ((g id).after pre) ty) :
    f.typeOf f.definitions o = .ok ty := by
  cases ho with
  | temp hx =>
    have hm := h.mem_definitions hlive hk hi hx
    simp [Function.typeOf, lookup_of_nodup h.nodup hm]
  | param hp =>
    simp only [Function.surroundings, List.getElem?_map, Option.map_eq_some_iff] at hp
    obtain ⟨p, hp, rfl⟩ := hp
    simp [Function.typeOf, hp]
  | constant c => rfl
  | str => rfl

end Certified

namespace Builder

variable {callees : String → Option External} {strings : Nat} {g : Knowledge} {b : Builder}

theorem definitions_filter_blocks (p : Block → Bool) (ks : List Block) :
    (definitions ((ks.filter p).flatMap (·.instructions))).Sublist
      (definitions (ks.flatMap (·.instructions))) := by
  induction ks with
  | nil => exact .slnil
  | cons k ks ih =>
    rw [List.filter_cons, List.flatMap_cons, definitions_append]
    split
    · rw [List.flatMap_cons, definitions_append]
      exact ih.append_left _
    · exact ih.trans (List.sublist_append_right _ _)

/-- A certificate is one of the blocks that are left, since each rule is about one block or one edge. -/
theorem certified_prune (h : Certified callees strings g b.function) :
    Certified callees strings g b.prune.function where
  code id k hk := h.code id k (block?_prune.mp hk).1
  ends id k hk := h.ends id k (block?_prune.mp hk).1
  edges id k hk := h.edges id k (block?_prune.mp hk).1
  entry := h.entry
  ordered id k hk x ty hx := by
    obtain ⟨hbelow, hbefore⟩ := h.ordered id k (block?_prune.mp hk).1 x ty hx
    exact ⟨hbelow, fun j k' ty' hk' hd => hbefore j k' ty' (block?_prune.mp hk').1 hd⟩
  results id k hk := h.results id k (block?_prune.mp hk).1
  nodup := (((definitions_filter_blocks _ _).map _).nodup h.nodup :)
  below d hd := h.below d ((definitions_filter_blocks _ _).subset hd)
  slots := h.slots
  returns := h.returns

/-- The targets of the blocks that are kept are kept. -/
theorem target_prune (hs : b.function.Shaped) {id t : Nat} {k : Block}
    (hk : b.prune.function.block? id = some k) (ht : t ∈ k.terminator.successors) :
    ∃ k', b.prune.function.block? t = some k' := by
  obtain ⟨hk, hr⟩ := block?_prune.mp hk
  obtain ⟨k', hk'⟩ := hs.block? (hs.targets id k hk t ht)
  exact ⟨k', block?_prune.mpr ⟨hk', Function.reached_target hr hk ht⟩⟩

/-- All blocks that are kept can be reached through blocks that are kept. -/
theorem live_prune : b.prune.function.Live := by
  have hpath : ∀ id, b.function.graph.Reached id → ∀ k, b.function.block? id = some k →
      ∃ ks, b.prune.function.Path ks k := by
    intro id hr
    induction hr with
    | entry => exact fun k hk => ⟨[], .entry (block?_prune.mpr ⟨hk, .entry⟩)⟩
    | @edge x y hr hy ih =>
      intro k' hk'
      rw [Function.successors_graph] at hy
      cases hk : b.function.block? x with
      | none => rw [hk] at hy; cases hy
      | some k =>
        rw [hk] at hy
        obtain ⟨ks, hp⟩ := ih k hk
        exact ⟨ks ++ [k], .edge hp hy
          (block?_prune.mpr ⟨hk', Function.reached_target hr hk hy⟩)⟩
  intro id k hk
  obtain ⟨hk, hr⟩ := block?_prune.mp hk
  exact hpath id hr k hk

/-- Blocks stay in the order in which they were made. -/
theorem sorted_prune (hs : b.function.Shaped) :
    (b.prune.function.blocks.map (·.id)).Pairwise (· < ·) := by
  refine List.Pairwise.sublist (List.filter_sublist.map _) ?_
  rw [hs.ids]
  exact List.pairwise_lt_range

/-- Pruning leaves gaps in the numbers, but gives none twice. -/
theorem numbered_prune (hs : b.function.Shaped) :
    (b.prune.function.blocks.map (·.id)).Nodup :=
  (List.filter_sublist.map _).nodup hs.nodup

end Builder

end TreeLang.Ir
