import TreeLang.Proofs.Simulation.Operations

namespace TreeLang.Simulation

open TreeLang.Tree (Ty Expr Stmt FunctionDecl)
open Typing (Registry Callee coercible)
open Ir (Knowledge)
open Machine (Activation Caller State Steps Fault)
open Lowering
open Lower
open Meaning (Value World Eval Names Stop)

variable {r : Registry} {g : Knowledge} {c c' : Context} {m : Ir.Module} {F : Ir.Function}
  {cs : List Caller} {w : World} {s : State} {names : Names} {t u : Typed} {v : Value}
  {o : Ir.Operand}

/-- A slot of the function is a cell that holds a value of its type. -/
theorem Point.cell {b : Ir.Builder} (hp : Point F cs b w s) {slots : List Ir.Slot}
    (hslots : slots <+: F.slots) {slot : Nat} {ty : Ty}
    (h : (slots.map (·.ty))[slot]? = some ty.toIr) :
    ∃ v x, w.cells[slot]? = some v ∧ v.ty = ty ∧ s.current.slots.lookup slot = some x ∧
      Value.ofMachine x = some v := by
  have hty := Ir.getElem?_of_extended (hslots.map _) h
  rw [← hp.types, List.getElem?_map] at hty
  obtain ⟨v, hv, hty⟩ := Option.map_eq_some_iff.mp hty
  obtain ⟨x, hx, hval⟩ := hp.cells slot v hv
  exact ⟨v, x, hv, Ty.toIr_injective hty, hx, hval⟩

theorem gives_read {name : String} {cell : Meaning.Cell} (hcell : names.cell? name = some cell)
    (hv : w.cells[cell.index]? = some v) : Gives (Eval.read names name) w v w := by
  unfold Eval.read
  refine gives_bind.mpr ⟨w, w, gives_get.mpr ⟨rfl, rfl⟩, ?_⟩
  rw [hcell, Option.bind_some, hv]
  exact gives_pure.mpr ⟨rfl, rfl⟩

theorem advance_readName (hs : Sound r g c) (hm : Matches names c) {name : String}
    (h : Gives (readName name) c u c') (hF : Stays m F c') (hp : Point F cs c.top.builder w s) :
    ∃ v, Gives (Eval.read names name) w v w ∧
      Advances m F cs c c' s w (Denotes m (temps c') · u v) := by
  obtain ⟨f, rest, st, o, hc, hst, hd, rfl⟩ := gives_readName.mp h
  obtain rfl := Context.top_eq hc
  obtain ⟨_, hslot⟩ := hs.stored name st hst
  obtain ⟨l, _⟩ := sound_define hs hd (fun _ => rfl) (fun _ => rfl) fun _ => hslot
  obtain ⟨v, x, hv, hty, hx, hval⟩ := hp.cell (stays_of_lowered hF hs l).code.slots hslot
  refine ⟨v, gives_read (hm.cell? hst) hv, ?_⟩
  have hstep := step_define hs hd (fun _ => rfl) (fun _ => rfl) hF hp (.ok x) fun code =>
    Activation.execute_load hx
  exact Advances.mono hstep fun s' hs' => denotes_plain (hs'.mono fun x hxy => hxy ▸ hval) hty

/-- A store of a value of the right type sets the cell. -/
theorem step_store (hs : Sound r g c) {slot : Nat} {ty : Ir.Ty} {old : Value}
    (h : Gives (emit (·.append (.store slot o ty))) c () c') (hF : Stays m F c')
    (hp : Point F cs c.top.builder w s) (hold : w.cells[slot]? = some old) (hty : v.ty = old.ty)
    (hv : Bears m (temps c) s o v) :
    Advances m F cs c c' s { w with cells := w.cells.set slot v } fun _ => True := by
  obtain ⟨code, hcode, hstands⟩ := append_next hs h rfl hF hp
  obtain ⟨_, x, hx, hval⟩ := hv
  obtain ⟨y, hy, hyval⟩ := hp.cells slot old hold
  have hxy : x.ty = y.ty := by
    rw [Value.ty_of_ofMachine hval, Value.ty_of_ofMachine hyval, hty]
  have hstep := State.step_execute hcode rfl (m := m)
  rw [Activation.execute_store ((Activation.value_code _ code _).trans hx) hy hxy] at hstep
  refine ⟨1, _, .one hstep, ⟨⟨?_, hp.callers, hp.console, ?_, ?_⟩, ?_⟩, trivial⟩
  · exact hstands.congr rfl rfl rfl
  · rw [← hp.types, List.map_set]
    apply List.ext_getElem?
    intro i
    rw [List.getElem?_set]
    split
    · rename_i hi
      subst hi
      rw [List.getElem?_map, hold, List.length_map, hty]
      have hlt := (List.getElem?_eq_some_iff.mp hold).1
      simp [hlt]
    · rfl
  · intro i u hu
    by_cases hi : i = slot
    · subst hi
      have hlt := (List.getElem?_eq_some_iff.mp hold).1
      rw [List.getElem?_set_self hlt] at hu
      cases hu
      exact ⟨x, Machine.lookup_update i x _, hval⟩
    · rw [List.getElem?_set_ne fun he => hi he.symm] at hu
      obtain ⟨z, hz, hzu⟩ := hp.cells i u hu
      exact ⟨z, (Machine.lookup_update_other x _ hi).trans hz, hzu⟩
  · intro o' _
    exact (Activation.value_slots _ _ o').trans (Activation.value_code _ code o')

theorem gives_assign {name : String} {cell : Meaning.Cell} (hcell : names.cell? name = some cell)
    {u : Value} (hu : v.convert cell.ty = .ok u) :
    Gives (Eval.assign names name v) w () { w with cells := w.cells.set cell.index u } := by
  simp [Eval.assign, hcell, hu, Eval.attempt]

theorem advance_storeInto (hs : Sound r g c) (hfit : t.Fits r g c) {name : String} {st : Storage}
    (hslot : (c.top.builder.function.slots.map (·.ty))[st.slot]? = some st.ty.toIr)
    (hcell : names.cell? name = some ⟨st.slot, st.ty⟩)
    (h : Gives (storeInto name st t) c () c') (hF : Stays m F c')
    (hp : Point F cs c.top.builder w s) (hv : Denotes m (temps c) s t v) :
    ∃ w', Gives (Eval.assign names name v) w () w' ∧ Advances m F cs c c' s w' fun _ => True := by
  obtain ⟨_, o, d, hco, ha⟩ := gives_storeInto.mp h
  obtain ⟨l₁, hval⟩ := sound_coerce hs hfit hco
  have s₁ := l₁.sound hs
  have hslot₁ := Ir.getElem?_of_extended (l₁.laid.slots.map _) hslot
  have l₂ := sound_append s₁ ha rfl rfl ⟨hslot₁, hval⟩
  have hF₁ := stays_of_lowered hF s₁ l₂
  obtain ⟨u, hu, hfirst⟩ := advance_coerce hs hfit hco hF₁ hp hv
  refine ⟨_, gives_assign hcell hu, ?_⟩
  apply hfirst.trans (temps_le l₁.toWorking)
  intro s' ha' hb
  obtain ⟨old, _, hold, hty, _⟩ := ha'.point.cell hF₁.code.slots hslot₁
  exact step_store s₁ ha hF ha'.point hold ((ty_convert hu).trans hty.symm) hb

/-- A variable is declared where the function begins. -/
theorem advance_declareVar (hs : Sound r g c) {name : String} {ty : Ty} {st : Storage}
    (h : Gives (declareVar name ty) c st c') (hp : Point F cs c.top.builder w s) :
    temps c' = temps c ∧ Arrived m F cs c c' s w s := by
  obtain ⟨slot, d, f, rest, ha, hd, rfl, rfl⟩ := gives_declareVar.mp h
  obtain ⟨f', rest', hc, _, rfl, rfl⟩ := gives_alloca.mp ha
  obtain rfl := Context.top_eq hc
  obtain rfl := Context.top_eq hd
  have htop := Context.top_withBuilder hs.frames { c.top.builder with
    function := c.top.builder.function.reserve name ty.toIr }
  refine ⟨?_, ⟨?_, hp.callers, hp.console, hp.types, hp.cells⟩, .refl m _ s⟩
  · change (Context.top _).builder.function.nextTemp = _
    rw [htop]
    rfl
  · rw [htop]
    exact hp.stands.reserve name ty.toIr

end TreeLang.Simulation
