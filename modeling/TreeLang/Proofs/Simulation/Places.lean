import TreeLang.Machine.Run
import TreeLang.Proofs.Builder.Finished

namespace TreeLang.Ir

/-- The finished function `F` has kept what stood in `f`: the slots, what blocks began with, and the
blocks that had ended. Blocks that cannot be reached are gone. -/
structure Function.PartOf (f F : Function) : Prop where
  slots : f.slots <+: F.slots
  begun : ∀ id k K, f.block? id = some k → F.block? id = some K → k.body <+: K.body
  ended : ∀ id k K, f.block? id = some k → F.block? id = some K → k.terminator ≠ .unset →
    K.body = k.body ∧ K.terminator = k.terminator

namespace Builder

variable {b b' : Builder} {F : Function} {id : Nat} {k : Block} {pending : List Nat}

theorem partOf_prune (b : Builder) : b.function.PartOf b.prune.function where
  slots := List.prefix_rfl
  begun id k K hk hK := by
    cases hk.symm.trans (block?_prune.mp hK).1
    exact List.prefix_rfl
  ended id k K hk hK _ := by
    cases hk.symm.trans (block?_prune.mp hK).1
    exact ⟨rfl, rfl⟩

end Builder

namespace Function.PartOf

variable {f F : Function} {b b' : Builder} {id : Nat} {k : Block} {pending : List Nat}

/-- Work that begins at an open block adds to what there was. -/
theorem of_grown (h : b'.function.PartOf F) (hg : Builder.Grown b b' pending) (ho : b.IsOpen) :
    b.function.PartOf F where
  slots := hg.slots.trans h.slots
  begun id k K hk hK := by
    obtain ⟨k', hk', _, hb⟩ := hg.block? hk
    exact hb.trans (h.begun id k' K hk' hK)
  ended id k K hk hK hset := by
    by_cases hc : b.current = some id
    · obtain ⟨j, l, hj, hl, hu⟩ := ho
      cases hj.symm.trans hc
      cases hl.symm.trans hk
      exact absurd hu hset
    · obtain ⟨k', hk', _, hb, ht⟩ := hg.kept id k hk hc
      obtain ⟨hbody, hterm⟩ := h.ended id k' K hk' hK (ht ▸ hset)
      exact ⟨hbody.trans hb, hterm.trans ht⟩

/-- A block that is ended had not been ended before, so nothing was promised of its end. -/
theorem of_finish {t : Terminator} (h : (f.updateBlock id (.finish t)).PartOf F)
    (hk : f.block? id = some k) (hu : k.terminator = .unset) : f.PartOf F where
  slots := h.slots
  begun j l K hl hK := by
    by_cases hj : j = id
    · subst hj
      exact h.begun j (l.finish t) K (block?_finish_self hl t) hK
    · exact h.begun j l K ((block?_finish_of_ne hj).trans hl) hK
  ended j l K hl hK hset := by
    by_cases hj : j = id
    · subst hj
      cases hk.symm.trans hl
      exact absurd hu hset
    · exact h.ended j l K ((block?_finish_of_ne hj).trans hl) hK hset

end Function.PartOf

end TreeLang.Ir

namespace TreeLang.Simulation

open Machine (Activation)
open Ir (Builder Block Instruction Terminator)

variable {F : Ir.Function} {b b' : Builder} {a : Activation} {id : Nat} {k : Block}

structure Stands (F : Ir.Function) (b : Builder) (a : Activation) : Prop where
  function : a.function = F
  place : ∃ id k K, b.current = some id ∧ b.function.block? id = some k ∧
    F.block? id = some K ∧ K.body = k.body ++ a.code ∧ a.terminator = K.terminator

namespace Stands

/-- What has been computed makes no difference to the place. -/
theorem congr {a' : Activation} (h : Stands F b a) (hf : a'.function = a.function)
    (hc : a'.code = a.code) (ht : a'.terminator = a.terminator) : Stands F b a' := by
  refine ⟨hf.trans h.function, ?_⟩
  rw [hc, ht]
  exact h.place

theorem reserve (h : Stands F b a) (name : String) (ty : Ir.Ty) :
    Stands F { b with function := b.function.reserve name ty } a := by
  obtain ⟨id, k, K, hid, hk, hK, hb, ht⟩ := h.place
  obtain ⟨l, hl, -, hbody, -⟩ := Ir.Function.block?_reserve_of_some hk name ty
  exact ⟨h.function, id, l, K, hid, hl, hK, hbody.symm ▸ hb, ht⟩

/-- An instruction that is laid out at the cursor is the next one. -/
theorem next (h : Stands F b a) {i : Instruction} (hi : i.isAlloca = false)
    (hid : b.current = some id) (hp : (b.function.updateBlock id (.add i)).PartOf F) :
    ∃ code, a.code = i :: code ∧
      Stands F { b with function := b.function.updateBlock id (.add i) }
        { a with code := code } := by
  obtain ⟨j, k, K, hj, hk, hK, hb, ht⟩ := h.place
  cases hj.symm.trans hid
  have hk' := Ir.Function.block?_add_self hk i
  obtain ⟨code, hcode⟩ := hp.begun id (k.add i) K hk' hK
  rw [Block.body_add hi, hb, List.append_assoc] at hcode
  have hcode := (List.append_cancel_left hcode).symm
  refine ⟨code, hcode, h.function, id, k.add i, K, hid, hk', hK, ?_, ht⟩
  rw [Block.body_add hi, hb, hcode, List.append_assoc]

/-- Where the builder ends the block, nothing but the terminator is left. -/
theorem finished (h : Stands F b a) {t : Terminator} (hset : t ≠ .unset)
    (hid : b.current = some id) (hp : (b.function.updateBlock id (.finish t)).PartOf F) :
    a.code = [] ∧ a.terminator = t ∧
      ∃ K, F.block? id = some K ∧ K.terminator = t := by
  obtain ⟨j, k, K, hj, hk, hK, hb, ht⟩ := h.place
  cases hj.symm.trans hid
  obtain ⟨hbody, hterm⟩ := hp.ended id (k.finish t) K (Ir.Function.block?_finish_self hk t) hK hset
  have hcode := hb.symm.trans hbody
  refine ⟨?_, ht.trans hterm, K, hK, hterm⟩
  simpa using hcode

/-- A jump leads to the beginning of a block that is still empty at the builder. -/
theorem arrive (hF : F.Finished) (hf : a.function = F) (hk : b.function.block? id = some k)
    (hempty : k.body = []) (hid : id ≠ 0) {K : Block} (hK : F.block? id = some K) :
    ∃ a', a.jump id = .ok a' ∧ a'.values = a.values ∧ a'.slots = a.slots ∧
      Stands F { b with current := some id } a' := by
  have hcode : K.instructions = K.body := hF.hoisted.others id K hK (hF.entry ▸ hid)
  refine ⟨{ a with code := K.instructions, terminator := K.terminator }, ?_, rfl, rfl, hf, ?_⟩
  · simp [Activation.jump, hf, hK]
  · refine ⟨id, k, K, rfl, hk, hK, ?_, rfl⟩
    rw [hempty, hcode]
    rfl

end Stands

end TreeLang.Simulation
