import TreeLang.Proofs.Agreement.Correspondence
import TreeLang.Proofs.Agreement.Names

namespace TreeLang.Lowering

open TreeLang.Tree (Ty Expr Stmt)
open Typing (Registry Scopes Checker typeOf typeOfStmts)
open Ir (Knowledge)
open Lower

variable {r : Registry} {g : Knowledge} {c c' : Context} {s : Scopes} {k k' : Checker} {ty : Ty}
  {v : Option Typed}

/-- A name that both sides declare gets the same type on both, so names in agreement stay so. -/
theorem InStep.agrees : InStep Agrees where
  unmoved := Agrees.unmoved
  addString _ _ _ ha := ⟨ha.inner, ha.outer, ha.returns, ha.stored⟩
  declareVar _ _ _ _ _ _ _ hd ha := ha.declareVar hd
  apart _ _ _ h ha :=
    ⟨h.scopes ▸ ha.inner, h.scopes ▸ ha.outer, h.top ▸ ha.returns, h.top ▸ ha.stored⟩

/-- Lowering keeps the table of the entry function below those of the check. -/
theorem Agrees.corresponds (ha : Agrees s c) (hs : Sound r g c) : Corresponds [.empty .int] s c where
  inner := ha.inner
  outer := ha.outer
  backed name _ hget := Option.map_eq_some_iff.mp ((ha.stored name).trans hget)
  stored := hs.stored
  typed _ _ _ hst hlook := Option.some.inj ((ha.lookup_stored hst).symm.trans hlook)
  externals := hs.orderly.prototypes

/-- The type of the check is that of the value, once comparisons count as integers. -/
theorem Leaves.yields {compares : Bool} (h : Leaves compares ty v) : Yields v ty := by
  cases v with
  | none => exact h.none_iff.mp rfl
  | some t => exact (h.value t rfl).1

/-- Where the check of an expression succeeds and its lowering too, the value has the type that the
check found. -/
theorem lowerExpr_yields {e : Expr} (hs : Sound r g c) (ha : Agrees k.scopes c)
    (hk : Gives (typeOf r e) k ty k') (h : Gives (lowerExpr r e) c v c') : Yields v ty :=
  (lowerExpr_leaves r _ e (ha.corresponds hs) hk h).yields

theorem lowerBody_yields {body : List Stmt} (hs : Sound r g c) (ha : Agrees k.scopes c)
    (hk : Gives (typeOfStmts r .void body) k ty k') (h : Gives (lowerStmts r none body) c v c') :
    Yields v ty :=
  (lowerStmts_leaves r _ body (ha.corresponds hs) (leaves_none false) hk h).yields

end TreeLang.Lowering
