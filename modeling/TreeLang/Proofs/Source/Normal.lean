import TreeLang.Proofs.Document.Decoding
import TreeLang.Proofs.Text.Literals
import TreeLang.Tree.Source

namespace TreeLang.Tree

open Text

mutual

/-- The tree with every literal that prints with a minus sign put as the negation of its absolute
value. The least integer has none and stays. -/
def Expr.normal : Expr → Expr
  | .int value => if value < 0 ∧ value ≠ Int32.minValue then .neg (.int (-value)) else .int value
  | .double value => if value.negative then .neg (.double value.abs) else .double value
  | .str value => .str value
  | .ident name => .ident name
  | .neg operand => .neg operand.normal
  | .binary op lhs rhs => .binary op lhs.normal rhs.normal
  | .assign target value => .assign target value.normal
  | .call callee args => .call callee (normalExprs args)
  | .block stmts => .block (normalBlock stmts)

def normalExprs : List Expr → List Expr
  | [] => []
  | e :: es => e.normal :: normalExprs es

@[inherit_doc Expr.normal]
def Stmt.normal : Stmt → Stmt
  | .expr e => .expr e.normal
  | .var name ty none => .var name ty none
  | .var name ty (some init) => .var name ty (some init.normal)
  | .function decl => .function decl.normal
  | .ret none => .ret none
  | .ret (some value) => .ret (some value.normal)
  | .ite cond thenBlock none => .ite cond.normal (normalBlock thenBlock) none
  | .ite cond thenBlock (some elseBlock) =>
    .ite cond.normal (normalBlock thenBlock) (some (normalBlock elseBlock))
  | .loop init cond post body =>
    .loop (normalExprs init) cond.normal (normalExprs post) (normalBlock body)

def FunctionDecl.normal : FunctionDecl → FunctionDecl
  | ⟨name, params, returns, body⟩ => ⟨name, params, returns, normalBlock body⟩

@[inherit_doc Expr.normal]
def normalBlock : List Stmt → List Stmt
  | [] => []
  | s :: ss => s.normal :: normalBlock ss

end

/-- The text of a negative integer is a minus sign and the text of its absolute value, if it has one. -/
theorem int32Text_neg {n : Int32} (hneg : n < 0) (hmin : n ≠ Int32.minValue) :
    "-" ++ int32Text (-n) = int32Text n := by
  have hlt : n.toInt < 0 := Int32.lt_iff_toInt_lt.mp hneg
  have hleast : n.toInt ≠ -2147483648 := fun h => hmin (Int32.toInt_inj.mp h)
  have habs : (-n).toInt = -n.toInt := by
    have hlow := Int32.le_toInt n
    rw [Int32.toInt_neg, Int.bmod_eq_of_le] <;> omega
  rw [← String.toList_inj, String.toList_append, int32Text, int32Text, toList_toString_int,
    toList_toString_int, habs, if_neg (by omega), if_pos hlt, Int.natAbs_neg]
  rfl

theorem Expr.isCompound_normal (e : Expr) : e.normal.isCompound = e.isCompound := by
  cases e with
  | int n =>
    rw [normal]
    split <;> rfl
  | double x =>
    rw [normal]
    split <;> rfl
  | _ => rfl

theorem isEmpty_normalBlock (ss : List Stmt) : (normalBlock ss).isEmpty = ss.isEmpty := by
  cases ss <;> rfl

mutual

/-- A literal with a minus sign has the text of the negation that it is read as. -/
theorem Expr.sourceAt_normal : ∀ (e : Expr) (depth : Nat), e.Finite →
    e.normal.sourceAt depth = e.sourceAt depth
  | .int n, depth, _ => by
    rw [Expr.normal]
    split
    · rename_i h
      exact int32Text_neg h.1 h.2
    · rfl
  | .double x, depth, hx => by
    rw [Expr.normal]
    split
    · rename_i h
      rw [Expr.sourceAt, Expr.sourceAt, Expr.sourceAt, ← String.toList_inj, String.toList_append,
        Double.literal_of_negative hx h]
      rfl
    · rfl
  | .str _, _, _ => rfl
  | .ident _, _, _ => rfl
  | .neg operand, depth, h => by
    rw [Expr.normal, Expr.sourceAt, Expr.sourceAt, operand.isCompound_normal,
      operand.sourceAt_normal depth h]
  | .binary op lhs rhs, depth, h => by
    rw [Expr.normal, Expr.sourceAt, Expr.sourceAt, lhs.isCompound_normal, rhs.isCompound_normal,
      lhs.sourceAt_normal depth h.1, rhs.sourceAt_normal depth h.2]
  | .assign _ value, depth, h => by
    rw [Expr.normal, Expr.sourceAt, Expr.sourceAt, value.sourceAt_normal depth h]
  | .call _ args, depth, h => by
    rw [Expr.normal, Expr.sourceAt, Expr.sourceAt, sourcesOfExprs_normal args h]
  | .block ss, depth, h => by
    rw [Expr.normal, Expr.sourceAt, Expr.sourceAt, isEmpty_normalBlock,
      linesAt_normal ss (depth + 1) h]

theorem sourcesOfExprs_normal : ∀ es : List Expr, ExprsFinite es →
    sourcesOfExprs (normalExprs es) = sourcesOfExprs es
  | [], _ => rfl
  | e :: es, h => by
    rw [normalExprs, sourcesOfExprs, sourcesOfExprs, e.sourceAt_normal 0 h.1,
      sourcesOfExprs_normal es h.2]

/-- A statement and its normal form have the same text. -/
theorem Stmt.sourceAt_normal : ∀ (s : Stmt) (depth : Nat), s.Finite →
    s.normal.sourceAt depth = s.sourceAt depth
  | .expr e, depth, h => by rw [Stmt.normal, Stmt.sourceAt, Stmt.sourceAt, e.sourceAt_normal depth h]
  | .var _ _ none, _, _ => rfl
  | .var _ _ (some init), depth, h => by
    rw [Stmt.normal, Stmt.sourceAt, Stmt.sourceAt, init.sourceAt_normal depth h]
  | .function ⟨name, params, returns, body⟩, depth, h => by
    rw [Stmt.normal, FunctionDecl.normal, Stmt.sourceAt, Stmt.sourceAt, FunctionDecl.sourceAt,
      FunctionDecl.sourceAt, isEmpty_normalBlock, linesAt_normal body (depth + 1) h]
    rfl
  | .ret none, _, _ => rfl
  | .ret (some value), depth, h => by
    rw [Stmt.normal, Stmt.sourceAt, Stmt.sourceAt, value.sourceAt_normal depth h]
  | .ite cond thenBlock none, depth, h => by
    rw [Stmt.normal, Stmt.sourceAt, Stmt.sourceAt, cond.sourceAt_normal depth h.1, isEmpty_normalBlock,
      linesAt_normal thenBlock (depth + 1) h.2]
  | .ite cond thenBlock (some elseBlock), depth, h => by
    rw [Stmt.normal, Stmt.sourceAt, Stmt.sourceAt, cond.sourceAt_normal depth h.1, isEmpty_normalBlock,
      isEmpty_normalBlock, linesAt_normal thenBlock (depth + 1) h.2.1,
      linesAt_normal elseBlock (depth + 1) h.2.2]
  | .loop init cond post body, depth, h => by
    rw [Stmt.normal, Stmt.sourceAt, Stmt.sourceAt, sourcesOfExprs_normal init h.1,
      cond.sourceAt_normal depth h.2.1, sourcesOfExprs_normal post h.2.2.1, isEmpty_normalBlock,
      linesAt_normal body (depth + 1) h.2.2.2]

theorem linesAt_normal : ∀ (ss : List Stmt) (depth : Nat), StmtsFinite ss →
    linesAt depth (normalBlock ss) = linesAt depth ss
  | [], _, _ => rfl
  | s :: ss, depth, h => by
    rw [normalBlock, linesAt, linesAt, s.sourceAt_normal depth h.1, linesAt_normal ss depth h.2]

end

end TreeLang.Tree
