import TreeLang.Proofs.Builder.Construction
import TreeLang.Proofs.Builder.Loops
import TreeLang.Proofs.Safety.Activations
import TreeLang.Proofs.Simulation.Exchange

namespace TreeLang

namespace Ir.Builder

open Machine (Activation Caller Console Replaces State)

variable {b : Builder} {k : Block} {id : Nat}

/-- A block that is kept keeps its edges, also those to blocks that do not exist. -/
theorem target_kept (hid : b.function.graph.Reached id) :
    b.prune.function.block? id = b.function.block? id := by
  cases hk : b.function.block? id with
  | some k => exact block?_prune.mpr ⟨hk, hid⟩
  | none =>
    cases hk' : b.prune.function.block? id with
    | none => rfl
    | some k => exact absurd (block?_prune.mp hk').1 (by simp [hk])

/-- What is left can all be reached through what is left. -/
theorem blocks_prune_prune (b : Builder) :
    b.prune.prune.function.blocks = b.prune.function.blocks :=
  List.filter_eq_self.mpr fun k hk =>
    (kept_iff_reached _ k).mpr (b.alike_prune.reached (mem_blocks_prune.mp hk).2)

theorem prune_prune (b : Builder) : b.prune.prune = b.prune := by
  have hfunction : b.prune.prune.function = b.prune.function := by
    change { b.prune.function with blocks := b.prune.prune.function.blocks } = _
    rw [blocks_prune_prune]
  have hcurrent : b.prune.prune.current = b.prune.current := by
    change b.prune.current.filter (fun id => b.prune.prune.function.blocks.any (·.id == id)) = _
    rw [blocks_prune_prune]
    cases hc : b.prune.current with
    | none => rfl
    | some id =>
      have hkept : b.prune.function.blocks.any (·.id == id) = true :=
        (Option.filter_eq_some_iff.mp hc).2
      simp [hkept]
  calc b.prune.prune = ⟨b.prune.prune.function, b.prune.prune.current⟩ := rfl
    _ = ⟨b.prune.function, b.prune.current⟩ := by rw [hfunction, hcurrent]

theorem current_prune (hnd : (b.function.blocks.map (·.id)).Nodup) (hk : k ∈ b.function.blocks)
    (hc : b.current = some k.id) :
    b.prune.current = if k ∈ b.prune.function.blocks then some k.id else none := by
  have hany : b.prune.function.blocks.any (·.id == k.id) = true ↔
      k ∈ b.prune.function.blocks := by
    rw [List.any_eq_true]
    refine ⟨fun ⟨l, hl, hid⟩ => ?_, fun hm => ⟨k, hm, beq_self_eq_true _⟩⟩
    have hfind := Function.block?_of_mem hnd (mem_blocks_prune.mp hl).1
    rw [beq_iff_eq.mp hid, Function.block?_of_mem hnd hk] at hfind
    cases hfind
    exact hl
  change b.current.filter (fun id => b.prune.function.blocks.any (·.id == id)) = _
  rw [hc]
  simp only [Option.filter_some, hany]

theorem first_block (h : b.Regular) (hentry : b.function.entry = 0) :
    ∃ k ks, b.function.blocks = k :: ks ∧ b.function.block? b.function.entry = some k := by
  obtain ⟨e, he⟩ := h.entry
  have hm := Function.mem_of_block? he
  have hid := Function.block?_id he
  have hasc := h.ascending
  cases hb : b.function.blocks with
  | nil =>
    rw [hb] at hm
    cases hm
  | cons k ks =>
    rw [hb] at hm hasc
    rcases List.mem_cons.mp hm with rfl | hm
    · exact ⟨e, ks, rfl, he⟩
    · have hlt : k.id < e.id := (List.pairwise_cons.mp hasc).1 e.id (List.mem_map_of_mem hm)
      omega

/-- Without the blocks that control cannot come to, a function does what it did. -/
theorem replaces_prune (h : b.Regular) (hentry : b.function.entry = 0) :
    Replaces b.function b.prune.function := by
  obtain ⟨k, ks, hblocks, hk⟩ := first_block h hentry
  have hid := Function.block?_id hk
  obtain ⟨ks', hblocks'⟩ : ∃ ks', b.prune.function.blocks = k :: ks' := by
    refine ⟨_, (congrArg (List.filter _) hblocks).trans (List.filter_cons_of_pos ?_)⟩
    exact (kept_iff_reached b k).mpr (hid ▸ .entry)
  refine ⟨rfl, rfl, rfl, ⟨k, ks, ks', hblocks, hblocks', hk⟩, ?_, fun id hr => target_kept hr⟩
  rw [Activation.zeroedSlots_eq h.hoisted h.nodup hblocks hid,
    Activation.zeroedSlots_eq h.prune.hoisted h.prune.nodup hblocks' hid]
  rfl

/-- Dropping blocks, at any point of a construction. What is left are exactly the blocks that control
can come to, as they were and in their order; the answer is how many are gone; the cursor goes with
its block; dropping once more drops nothing; what a block that is left leads to is what it led to;
and the function is begun and goes on as before, whatever it is given, wherever it is called. -/
theorem prune_exact (name : String) (params : List Param) (returns : Ty) (ops : List Operation) :
    let b := ((start name params returns).perform ops).2
    let f := b.function
    let f' := b.prune.function
    (f' = { f with blocks := f'.blocks } ∧ f'.blocks.Sublist f.blocks ∧
        ∀ k, k ∈ f'.blocks ↔ k ∈ f.blocks ∧ f.graph.Reached k.id) ∧
      (∃ n, n + f'.blocks.length = f.blocks.length ∧
        Operation.prune.step b = (.ok (.removed n), b.prune)) ∧
      ((b.current = none → b.prune.current = none) ∧ ∀ k ∈ f.blocks, b.current = some k.id →
        b.prune.current = if k ∈ f'.blocks then some k.id else none) ∧
      Operation.prune.step b.prune = (.ok (.removed 0), b.prune) ∧
      (∀ k ∈ f'.blocks, ∀ t ∈ k.terminator.successors, f'.block? t = f.block? t) ∧
      (∀ args, Activation.start f' args =
        (Activation.start f args).map fun a => { a with function := f' }) ∧
      ∃ e, f.block? f.entry = some e ∧ f'.block? f'.entry = some e ∧
        ∀ (m : Module) (fuel : Nat) (values : List (Operand × Machine.Value))
          (slots : List (Nat × Machine.Value)) (callers : List Caller) (console : Console),
          State.run (m.exchange f f') fuel
              ⟨⟨f', e.instructions, e.terminator, values, slots⟩, callers, console⟩ =
            State.run m fuel
              ⟨⟨f, e.instructions, e.terminator, values, slots⟩, callers, console⟩ := by
  intro b f f'
  have hstart : (start name params returns).Regular := .start name params returns
  have h : b.Regular := perform_regular hstart ops
  have hentry : f.entry = 0 := (perform_later hstart ops).entry
  have hsub : f'.blocks.Sublist f.blocks := List.filter_sublist
  have hreplaces : Replaces f f' := replaces_prune h hentry
  obtain ⟨e, he⟩ := h.entry
  refine ⟨⟨rfl, hsub, fun k => mem_blocks_prune⟩, ?_, ⟨?_, fun k hk hc => current_prune h.nodup hk hc⟩,
    ?_, ?_, Machine.start_replaced hreplaces,
    e, he, block?_prune.mpr ⟨he, .entry⟩, ?_⟩
  · exact ⟨f.blocks.length - f'.blocks.length, Nat.sub_add_cancel hsub.length_le, rfl⟩
  · intro hc
    change b.current.filter _ = none
    rw [hc]
    rfl
  · change (Except.ok (Answer.removed (f'.blocks.length - b.prune.prune.function.blocks.length)),
      b.prune.prune) = _
    rw [prune_prune, Nat.sub_self]
  · intro k hk t ht
    obtain ⟨hk, hr⟩ := mem_blocks_prune.mp hk
    exact target_kept (Function.reached_target hr (Function.block?_of_mem h.nodup hk) ht)
  · intro m fuel values slots callers console
    have hentered : State.Alike f f'
        ⟨⟨f, e.instructions, e.terminator, values, slots⟩, callers, console⟩
        ⟨⟨f', e.instructions, e.terminator, values, slots⟩, callers, console⟩ :=
      { current := .exchanged _ _ _ fun t ht => Function.reached_target .entry he ht
        callers := List.forall₂_same.mpr fun c _ => ⟨rfl, .same _⟩
        console := rfl }
    exact State.run_alike hreplaces hentered m fuel

/-- An edge to a block that does not exist stays; two blocks that only lead to each other go, and the
cursor with them. -/
example : (fun r : List (Except Error Answer) × Builder => (r.1.getLast?, r.2.current))
    ((start "f" [] .void).perform [.createBlock "a", .createBlock "b",
      .branch (.constant (.bool true)) 9 9, .switchTo 1, .jump 2, .switchTo 2, .jump 1, .prune]) =
      (some (.ok (.removed 2)), none) := by
  rfl

end Ir.Builder

end TreeLang
