import TreeLang.Lowering.Value

namespace TreeLang.Lowering.Lower

open TreeLang.Tree (Ty)
open Typing (coercible)

/-- Returns, then goes on in a block that nothing leads to. -/
def returnFrom (t : Option Typed) : Lower Cause Unit := do
  let returns := (← frame).returns
  let function := (← get).function
  match t with
  | some t =>
    if returns ≠ .void ∧ coercible t.ty returns then
      let value ← coerce t returns
      emit (·.returnValue (some value))
    else throw (.returnTypeMismatch function returns t.ty)
  | none =>
    if returns = .void then emit (·.returnValue none)
    else throw (.returnTypeMismatch function returns .void)
  switchTo (← createBlock "after.return")

/-- Jumps to `target` unless the block at hand has ended. -/
def fallThrough (target : Nat) : Lower Cause Unit := do
  if (← frame).builder.isTerminated then pure ()
  else emit (·.jump target)

/-- A block for each part, the second one also where it does nothing, and one where they meet. -/
def conditional (condition : Ir.Operand) (thenPart elsePart : Lower Cause Unit) :
    Lower Cause Unit := do
  let thenId ← createBlock "then"
  let elseId ← createBlock "else"
  let mergeId ← createBlock "ifcont"
  emit (·.branch condition thenId elseId)
  switchTo thenId
  thenPart
  fallThrough mergeId
  switchTo elseId
  elsePart
  fallThrough mergeId
  switchTo mergeId

/-- Blocks for the condition, which is computed anew each time, the body and what follows. -/
def repeated (condition : Lower Cause Ir.Operand) (body : Lower Cause Unit) : Lower Cause Unit := do
  let condId ← createBlock "loop.cond"
  let bodyId ← createBlock "loop.body"
  let exitId ← createBlock "loop.exit"
  emit (·.jump condId)
  switchTo condId
  let test ← condition
  emit (·.branch test bodyId exitId)
  switchTo bodyId
  body
  fallThrough condId
  switchTo exitId

/-- What a function returns where control reaches its end. -/
inductive Ending where
  /-- The value of the last statement. -/
  | value (t : Option Typed)
  | zero
  deriving DecidableEq

/-- Ends the block at hand with a `return` if control can reach it. -/
def close (ending : Ending) : Lower Cause Unit := do
  let f ← frame
  match f.builder.current with
  | none => pure ()
  | some current =>
    if f.builder.isTerminated || !f.builder.isReachable current then pure ()
    else if f.returns = .void then emit (·.returnValue none)
    else
      let value ←
        match ending with
        | .value (some t) => coerce t f.returns
        | .value none => throw (.emission (.openEnd f.name))
        | .zero =>
          match Ir.Constant.zero? f.returns.toIr with
          | some c => pure (.constant c)
          | none => throw (.emission (.noZero f.returns))
      emit (·.returnValue (some value))

/-- Lowers a body in a frame of its own and adds the function to the module. The frame is dropped
also where the body fails. -/
def define (name node : String) (params : List Tree.Param) (returns : Ty)
    (body : Lower Diagnostic Ending) : Lower Diagnostic Unit := do
  pinned name node (enterFunction name params returns)
  onFailure
    (do
      let ending ← body
      pinned name node (close ending))
    (modify (·.leave))
  pinned name node (do install (← finishFunction))

end TreeLang.Lowering.Lower
