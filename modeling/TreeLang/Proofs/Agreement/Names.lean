import TreeLang.Proofs.Lowering.Rules
import TreeLang.Proofs.Typing.Parts

namespace TreeLang.Lowering

open TreeLang.Tree (Ty Expr Stmt FunctionDecl)
open Typing (Registry Callee Scopes Table coercible)
open Ir (Knowledge)
open Lower

/-- The names in force in the check are those of the function at hand, and those around it. -/
structure Agrees (s : Scopes) (c : Context) : Prop where
  inner : c.scopes.inner = s.inner
  outer : c.scopes.outer = s.outer ++ [.empty .int]
  returns : c.top.returns = s.returns
  stored : ∀ name, (c.top.storage? name).map (·.ty) = s.inner.get? name

namespace Agrees

variable {s : Scopes} {c c' : Context}

/-- Only names and slots are compared, so the code may change as long as there is a function at hand. -/
theorem withBuilder (h : Agrees s c) (hc : c.frames ≠ []) (b : Ir.Builder) :
    Agrees s (c.withBuilder b) := by
  refine ⟨h.inner, h.outer, ?_, ?_⟩
  · rw [Context.top_withBuilder hc]
    exact h.returns
  · rw [Context.top_withBuilder hc]
    exact h.stored

/-- Work that leaves frames, slots and scopes as they are leaves the names in agreement. -/
theorem unmoved (s : Scopes) : Unmoved (Agrees s) := by
  intro c c' hr h
  refine ⟨hr.scopes ▸ h.inner, hr.scopes ▸ h.outer, hr.returns ▸ h.returns, ?_⟩
  rw [hr.storage?]
  exact h.stored

theorem lookup (h : Agrees s c) (name : String) : c.scopes.lookup name = s.lookup name := by
  unfold Scopes.lookup
  rw [h.inner, h.outer, ← List.cons_append, List.findSome?_append]
  have hempty : [Table.empty .int].findSome? (·.get? name) = none := rfl
  rw [hempty, Option.or_none]

/-- A name that has a slot has the type of its slot. -/
theorem lookup_stored (h : Agrees s c) {name : String} {st : Storage}
    (hst : c.top.storage? name = some st) : s.lookup name = some st.ty := by
  have hget := h.stored name
  rw [hst] at hget
  unfold Scopes.lookup
  rw [List.findSome?_cons, ← hget]
  rfl

/-- A declared name gets a slot of its type on the one side and a binding on the other. -/
theorem declareVar (h : Agrees s c) {name : String} {ty : Ty} {st : Storage}
    (hg : Gives (declareVar name ty) c st c') : Agrees (s.declare name ty) c' := by
  obtain ⟨slot, d, f, rest, ha, hd, rfl, rfl⟩ := gives_declareVar.mp hg
  have hr : Agrees s d := by
    obtain ⟨f', rest', hc, _, _, rfl⟩ := gives_alloca.mp ha
    exact h.withBuilder (by simp [hc]) _
  obtain rfl := Context.top_eq hd
  refine ⟨?_, hr.outer, ?_, ?_⟩
  · change d.scopes.inner.insert name ty = s.inner.insert name ty
    rw [hr.inner]
  · exact hr.returns.trans (Table.returns_insert s.inner name ty).symm
  · intro other
    change ((((name, (⟨slot, ty⟩ : Storage)) :: d.top.locals).lookup other).or
      (d.top.params.lookup other)).map (·.ty) = (s.inner.insert name ty).get? other
    rw [Table.get?_insert, List.lookup_cons]
    by_cases ho : other = name
    · simp [ho]
    · rw [beq_eq_false_iff_ne.mpr ho, if_neg ho]
      exact hr.stored other

end Agrees

/-- A lowered value is of the type that the check found, and there is none for `void`. -/
def Yields (v : Option Typed) (ty : Ty) : Prop :=
  match v with
  | some t => t.ty = ty
  | none => ty = .void

theorem Yields.some_iff {v : Option Typed} {ty : Ty} (h : Yields v ty) (hv : ∀ t ∈ v, t.ty ≠ .void) :
    ty ≠ .void ↔ ∃ t, v = some t := by
  cases v with
  | none => exact ⟨fun hne => absurd h hne, fun ⟨_, ht⟩ => nomatch ht⟩
  | some t =>
    have ht : t.ty = ty := h
    exact ⟨fun _ => ⟨t, rfl⟩, fun _ => ht ▸ hv t rfl⟩

end TreeLang.Lowering
