import TreeLang.Proofs.Agreement.Progress
import TreeLang.Proofs.Lowering.Programs
import TreeLang.Proofs.Typing.Acceptance

namespace TreeLang.Lowering

open TreeLang.Tree (Ty Stmt FunctionDecl nestedFunctions)
open Typing (Registry Checker Scopes typeOfStmts)
open Lower

variable {program : Tree.Block} {r : Registry} {name : String}

/-- A program that passes has distinct names, and its statements pass without a report. -/
theorem check_eq_ok (h : Typing.check program = .ok r) : r = registry program ∧
    Registry.duplicates [] (nestedFunctions program) = [] ∧ ∃ ty k,
      Gives (typeOfStmts r .void program) (.start (.ofReturns .int)) ty k ∧ k.diagnostics = [] := by
  obtain ⟨hcollect, hpasses⟩ := Typing.check_eq_ok.mp h
  unfold Registry.collect at hcollect
  simp only at hcollect
  split at hcollect
  · rename_i hdup
    cases hcollect
    exact ⟨rfl, hdup, hpasses⟩
  · cases hcollect

end TreeLang.Lowering
