import TreeLang.Ir.Builder
import TreeLang.Typing.Rules
import TreeLang.Typing.Scope

namespace TreeLang.Tree.Ty

/-- Different types are held in different machine types. -/
theorem toIr_injective {s t : Ty} (h : s.toIr = t.toIr) : s = t := by
  cases s <;> cases t <;> first | rfl | cases h

theorem toIr_ne_bool (t : Ty) : t.toIr ≠ .bool := by
  cases t <;> simp [toIr]

theorem toIr_ofIr {ty : Ir.Ty} (h : ty ≠ .bool) : (ofIr ty).toIr = ty := by
  cases ty with
  | bool => exact absurd rfl h
  | _ => rfl

theorem isNumeric_toIr {ty : Ty} (h : ty.isNumeric = true) : ty.toIr.isNumeric = true := by
  cases ty with
  | int | double => rfl
  | _ => cases h

/-- Any two different numbers are converted into each other. -/
theorem isConversion_toIr {s t : Ty} (hs : s.isNumeric = true) (ht : t.isNumeric = true)
    (hne : s ≠ t) : Ir.Builder.isConversion s.toIr t.toIr = true := by
  cases s <;> cases t <;> simp_all [isNumeric, toIr, Ir.Builder.isConversion]

/-- A number held as a truth value can be widened. -/
theorem isConversion_bool {ty : Ty} (h : ty.isNumeric = true) :
    Ir.Builder.isConversion .bool ty.toIr = true := by
  cases ty with
  | int | double => rfl
  | _ => cases h

end TreeLang.Tree.Ty

namespace TreeLang.Typing

open TreeLang.Tree (Ty)

/-- An operation takes numbers, and works on doubles if one of them is a double. -/
theorem binaryType_eq_ok {op : Tree.BinaryOp} {left right ty : Ty} :
    binaryType op left right = .ok ty ↔
      left.isNumeric = true ∧ right.isNumeric = true ∧
        ty = if left = .double ∨ right = .double then .double else .int := by
  cases left <;> cases right <;> simp [binaryType, Ty.isNumeric, eq_comm]

theorem negType_eq_ok {operand ty : Ty} :
    negType operand = .ok ty ↔ operand.isNumeric = true ∧ ty = operand := by
  unfold negType
  split
  · rename_i hn
    simp only [hn, true_and, Except.ok.injEq]
    exact eq_comm
  · rename_i hn
    simp [hn]

/-- Nothing but `void` goes where `void` is expected, and `void` goes nowhere else. -/
theorem coercible_void {source target : Ty} (h : coercible source target = true) :
    source = .void ↔ target = .void := by
  cases source <;> cases target <;> simp_all [coercible, Ty.isNumeric]

theorem checkArity_eq_ok {callee : Callee} {n : Nat} {u : Unit} :
    callee.checkArity n = .ok u ↔ callee.accepts n = true := by
  unfold Callee.checkArity
  split <;> simp_all

section

variable {name other : String} {ty : Ty} {bs : List (String × Ty)}

theorem lookup_replaced (h : (bs.any (·.1 == name)) = true) :
    (bs.map fun b => if b.1 == name then (name, ty) else b).lookup name = some ty := by
  induction bs with
  | nil => cases h
  | cons b bs ih =>
    rw [List.map_cons]
    by_cases hb : b.1 = name
    · simp [hb]
    · have hbs : (bs.any (·.1 == name)) = true := by simpa [hb] using h
      have hne : (name == b.1) = false := beq_eq_false_iff_ne.mpr fun he => hb he.symm
      rw [if_neg (by simpa using hb), List.lookup_cons, hne]
      exact ih hbs

theorem lookup_replaced_other (h : other ≠ name) :
    (bs.map fun b => if b.1 == name then (name, ty) else b).lookup other = bs.lookup other := by
  have hne : (other == name) = false := beq_eq_false_iff_ne.mpr h
  induction bs with
  | nil => rfl
  | cons b bs ih =>
    rw [List.map_cons]
    by_cases hb : b.1 = name
    · rw [if_pos (by simpa using hb), List.lookup_cons, List.lookup_cons, hb, hne]
      exact ih
    · rw [if_neg (by simpa using hb), List.lookup_cons, List.lookup_cons, ih]

end

/-- A name that is declared again has its new type. -/
theorem Table.get?_insert (t : Table) (name other : String) (ty : Ty) :
    (t.insert name ty).get? other = if other = name then some ty else t.get? other := by
  unfold insert get?
  split
  · rename_i hany
    split
    · rename_i ho
      rw [ho]
      exact lookup_replaced hany
    · rename_i ho
      exact lookup_replaced_other ho
  · rename_i hany
    have hnone : t.bindings.lookup name = none := by
      apply List.lookup_eq_none_iff.mpr
      intro b hb
      apply bne_iff_ne.mpr
      intro he
      exact hany (List.any_eq_true.mpr ⟨b, hb, beq_iff_eq.mpr he.symm⟩)
    rw [List.lookup_append]
    split
    · rename_i ho
      subst ho
      simp [hnone]
    · rename_i ho
      simp [List.lookup_cons, beq_eq_false_iff_ne.mpr ho]

end TreeLang.Typing
