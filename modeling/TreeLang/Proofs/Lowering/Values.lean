import TreeLang.Proofs.Lowering.Sound

namespace TreeLang.Lowering

open TreeLang.Tree (Ty Expr Stmt FunctionDecl)
open Typing (Registry Callee coercible)
open Ir (Knowledge Certified Surroundings)
open Ir.Builder (Laid)
open Lower

variable {r : Registry} {g : Knowledge} {c c' : Context}

def Holds (r : Registry) (g : Knowledge) (c : Context) (o : Ir.Operand) (ty : Ir.Ty) : Prop :=
  o.HasType (c.surroundings r) (c.top.builder.known g) ty

theorem Holds.mono {ds : List FunctionDecl} {g' : Knowledge} {pending : List Nat} {o : Ir.Operand}
    {ty : Ir.Ty} (h : Holds r g c o ty) (hw : Working r ds g c g' c' pending) : Holds r g' c' o ty :=
  hw.hasType h

/-- A legal instruction with a result may be added to an open block. -/
theorem sound_define (hs : Sound r g c) {i : Ir.Operand → Ir.Instruction} {v : Ir.Operand}
    (h : Gives (build (·.define i)) c v c') (hi : ∀ v, (i v).isAlloca = false)
    (hres : ∀ v, (i v).result? = some v)
    (hlegal : ∀ v, (i v).Legal (c.surroundings r) (c.top.builder.known g)) :
    Lowered r [] g c g c' ∧ Holds r g c' v (i v).resultType := by
  obtain ⟨f, rest, id, hc, hid, rfl, rfl⟩ := gives_define.mp h
  obtain rfl := Context.top_eq hc
  have hlaid := (Working.refl hs).laid
  have hnext := hlaid.assign (hi _) (hres _) hid (hlegal _)
  have hw := (Working.refl hs).step hnext List.prefix_rfl
  have ht := Context.top_withBuilder hs.frames
    { c.top.builder with
      function := c.top.builder.function.assign id (i (.temp c.top.builder.function.nextTemp)) }
  refine ⟨⟨hw, ?_⟩, ?_⟩
  · rw [ht]
    exact hs.isOpen.assign _
  · unfold Holds
    rw [ht]
    exact .temp (Laid.known_assign hlaid.toGrown (hi _) (hres _) hid)

theorem sound_append (hs : Sound r g c) {i : Ir.Instruction} {u : Unit}
    (h : Gives (emit (·.append i)) c u c') (hi : i.isAlloca = false) (hres : i.result? = none)
    (hlegal : i.Legal (c.surroundings r) (c.top.builder.known g)) : Lowered r [] g c g c' := by
  obtain ⟨f, rest, id, hc, hid, rfl⟩ := gives_append.mp h
  obtain rfl := Context.top_eq hc
  have hnext := (Working.refl hs).laid.add hi hres hid hlegal
  refine ⟨(Working.refl hs).step hnext List.prefix_rfl, ?_⟩
  rw [Context.top_withBuilder hs.frames]
  exact hs.isOpen.add i

theorem sound_alloca (hs : Sound r g c) {name : String} {ty : Ir.Ty} {slot : Nat}
    (h : Gives (build (·.alloca name ty)) c slot c') (hb : ty ≠ .bool) :
    Lowered r [] g c g c' ∧
      (c'.top.builder.function.slots.map (·.ty))[slot]? = some ty := by
  obtain ⟨f, rest, hc, hv, rfl, rfl⟩ := gives_alloca.mp h
  obtain rfl := Context.top_eq hc
  have hnext := (Working.refl hs).laid.reserve name hv hb
  have hslots : c.top.builder.function.slots <+:
      (c.top.builder.function.reserve name ty).slots := List.prefix_append _ _
  refine ⟨⟨(Working.refl hs).step hnext hslots, ?_⟩, ?_⟩
  · rw [Context.top_withBuilder hs.frames]
    exact hs.isOpen.reserve name ty
  · rw [Context.top_withBuilder hs.frames]
    simp [Ir.Function.reserve, Ir.Function.updateBlock]

/-- A comparison becomes a value of the type that it has in the tree. -/
theorem sound_materialize (hs : Sound r g c) {t : Typed} (ht : t.Fits r g c) {v : Ir.Operand}
    (h : Gives (materialize t) c v c') : Lowered r [] g c g c' ∧ Holds r g c' v t.ty.toIr := by
  rcases gives_materialize.mp h with ⟨hne, rfl, rfl⟩ | ⟨heq, hconv, hd⟩
  · refine ⟨.refl hs, ?_⟩
    rcases ht.repr with hr | hr
    · exact hr ▸ ht.value
    · exact absurd hr.1 hne
  · exact sound_define hs hd (fun _ => rfl) (fun _ => rfl) fun _ => ⟨hconv, heq ▸ ht.value⟩

/-- A converted value has the type that it was converted to. -/
theorem sound_coerce (hs : Sound r g c) {t : Typed} (ht : t.Fits r g c) {target : Ty}
    {v : Ir.Operand} (h : Gives (coerce t target) c v c') :
    Lowered r [] g c g c' ∧ Holds r g c' v target.toIr := by
  obtain ⟨w, d, hm, h⟩ := gives_coerce.mp h
  obtain ⟨hl, hw⟩ := sound_materialize hs ht hm
  rcases h with ⟨rfl, rfl, rfl⟩ | ⟨hne, hsrc, htgt, hd⟩
  · exact ⟨hl, hw⟩
  · obtain ⟨hl', hv⟩ := sound_define (hl.sound hs) hd (fun _ => rfl) (fun _ => rfl)
      fun _ => ⟨Ty.isConversion_toIr hsrc htgt hne, hw⟩
    exact ⟨hl.trans hl', hv⟩

theorem sound_negate (hs : Sound r g c) {t u : Typed} (ht : t.Fits r g c)
    (h : Gives (negate t) c u c') : Lowered r [] g c g c' ∧ u.Fits r g c' := by
  obtain ⟨hnum, w, d, x, hm, hd, rfl⟩ := gives_negate.mp h
  obtain ⟨hl, hw⟩ := sound_materialize hs ht hm
  obtain ⟨hl', hx⟩ := sound_define (hl.sound hs) hd (fun _ => rfl) (fun _ => rfl)
    fun _ => ⟨Ty.isNumeric_toIr hnum, hw⟩
  exact ⟨hl.trans hl', Typed.fits_plain ht.ty hx⟩

theorem sound_combine (hs : Sound r g c) {op : Tree.BinaryOp} {left right u : Typed}
    (hleft : left.Fits r g c) (hright : right.Fits r g c)
    (h : Gives (combine op left right) c u c') : Lowered r [] g c g c' ∧ u.Fits r g c' := by
  obtain ⟨ty, l, d, l', d', x, hty, hl, hr, hx, rfl⟩ := gives_combine.mp h
  obtain ⟨h₁, hlv⟩ := sound_coerce hs hleft hl
  obtain ⟨h₂, hrv⟩ := sound_coerce (h₁.sound hs) (hright.mono h₁.toWorking) hr
  have hnum : ty.isNumeric = true := by
    obtain ⟨_, _, rfl⟩ := Typing.binaryType_eq_ok.mp hty
    split <;> rfl
  have h₁₂ := h₁.trans h₂
  obtain ⟨h₃, hxv⟩ := sound_define (h₁₂.sound hs) hx (fun _ => rfl) (fun _ => rfl)
    fun _ => ⟨Ty.isNumeric_toIr hnum, Holds.mono hlv h₂.toWorking, hrv⟩
  have hne : ty ≠ .void := by
    rintro rfl
    cases hnum
  refine ⟨h₁₂.trans h₃, ?_⟩
  cases hcmp : op.isComparison with
  | true =>
    rw [show (Ir.Instruction.binary op.toIr x l l' ty.toIr).resultType = .bool by
      simp [Ir.Instruction.resultType, Tree.BinaryOp.isComparison_toIr, hcmp]] at hxv
    exact ⟨hxv, .inr ⟨rfl, hnum⟩, hne⟩
  | false =>
    rw [show (Ir.Instruction.binary op.toIr x l l' ty.toIr).resultType = ty.toIr by
      simp [Ir.Instruction.resultType, Tree.BinaryOp.isComparison_toIr, hcmp]] at hxv
    exact Typed.fits_plain hne hxv

theorem sound_readName (hs : Sound r g c) {name : String} {u : Typed}
    (h : Gives (readName name) c u c') : Lowered r [] g c g c' ∧ u.Fits r g c' := by
  obtain ⟨f, rest, s, x, hc, hst, hx, rfl⟩ := gives_readName.mp h
  obtain rfl := Context.top_eq hc
  obtain ⟨hne, hslot⟩ := hs.stored name s hst
  obtain ⟨hl, hv⟩ := sound_define hs hx (fun _ => rfl) (fun _ => rfl) fun _ => hslot
  exact ⟨hl, Typed.fits_plain hne hv⟩

theorem sound_storeInto (hs : Sound r g c) {name : String} {s : Storage} {t : Typed} {u : Unit}
    (hslot : (c.top.builder.function.slots.map (·.ty))[s.slot]? = some s.ty.toIr)
    (ht : t.Fits r g c) (h : Gives (storeInto name s t) c u c') : Lowered r [] g c g c' := by
  obtain ⟨_, v, d, hv, ha⟩ := gives_storeInto.mp h
  obtain ⟨hl, hval⟩ := sound_coerce hs ht hv
  have hl' := sound_append (hl.sound hs) ha rfl rfl
    ⟨Ir.getElem?_of_extended (hl.laid.slots.map _) hslot, hval⟩
  exact hl.trans hl'

theorem sound_test (hs : Sound r g c) {role : String} {t : Typed} {v : Ir.Operand}
    (ht : t.Fits r g c) (h : Gives (test role t) c v c') :
    Lowered r [] g c g c' ∧ Holds r g c' v .bool := by
  have hrepr : t.repr ≠ .bool → t.repr = t.ty.toIr := fun hne =>
    ht.repr.elim id fun hb => absurd hb.1 hne
  rcases gives_test.mp h with ⟨heq, rfl, rfl⟩ | ⟨hne, hty, hd⟩ | ⟨hne, hty, hd⟩
  · exact ⟨.refl hs, heq ▸ ht.value⟩
  · have hv : Holds r g c t.value .i32 := by
      have := ht.value
      rwa [hrepr hne, hty] at this
    exact sound_define hs hd (fun _ => rfl) (fun _ => rfl) fun _ => ⟨rfl, hv, .constant (.i32 0)⟩
  · have hv : Holds r g c t.value .f64 := by
      have := ht.value
      rwa [hrepr hne, hty] at this
    exact sound_define hs hd (fun _ => rfl) (fun _ => rfl) fun _ => ⟨rfl, hv, .constant (.f64 _)⟩

theorem sound_declareVar (hs : Sound r g c) {name : String} {ty : Ty} {s : Storage}
    (hty : ty ≠ .void) (h : Gives (declareVar name ty) c s c') : Lowered r [] g c g c' ∧
      s.ty = ty ∧ (c'.top.builder.function.slots.map (·.ty))[s.slot]? = some s.ty.toIr := by
  obtain ⟨slot, d, f, rest, ha, hd, rfl, rfl⟩ := gives_declareVar.mp h
  obtain ⟨hl, hslot⟩ := sound_alloca hs ha (Ty.toIr_ne_bool ty)
  obtain rfl := Context.top_eq hd
  refine ⟨⟨{ hl.toWorking with
    frames := List.cons_ne_nil _ _
    tail := by have := hl.tail; rw [hd] at this; exact this
    stored := ?_ }, hl.isOpen⟩, rfl, hslot⟩
  intro other s hstore
  have hstore : (((name, (⟨slot, ty⟩ : Storage)) :: d.top.locals).lookup other).or
      (d.top.params.lookup other) = some s := hstore
  rw [List.lookup_cons] at hstore
  split at hstore
  · cases hstore
    exact ⟨hty, hslot⟩
  · exact hl.stored other s hstore

end TreeLang.Lowering
