import TreeLang.Proofs.Typing.Clean
import TreeLang.Proofs.Typing.Judgement

namespace TreeLang.Typing

open TreeLang.Tree (Ty Expr Stmt FunctionDecl Param locals localsOfExprs)
open Check

variable {r : Registry} {Γ : Env} {k k' : Checker} {ty : Ty}

theorem numeric_iff : Numeric ty ↔ ty.isNumeric = true := by
  constructor
  · intro h
    cases h <;> rfl
  · intro h
    cases ty with
    | int => exact .int
    | double => exact .double
    | string => cases h
    | void => cases h

/-- The rule and the check agree on what may stand for what. -/
theorem assignable_iff {source target : Ty} :
    Assignable source target ↔ coercible source target = true := by
  unfold coercible
  rw [Bool.or_eq_true, beq_iff_eq, Bool.and_eq_true, ← numeric_iff, ← numeric_iff]
  constructor
  · intro h
    cases h with
    | same => exact .inl rfl
    | number hs ht => exact .inr ⟨hs, ht⟩
  · intro h
    rcases h with rfl | ⟨hs, ht⟩
    · exact .same source
    · exact .number hs ht

/-- The rule and the check agree on the type of an operation. -/
theorem promotes_iff {op : Tree.BinaryOp} {left right : Ty} :
    Promotes left right ty ↔ binaryType op left right = .ok ty := by
  rw [binaryType_eq_ok, ← numeric_iff, ← numeric_iff]
  constructor
  · intro h
    cases h with
    | ints => exact ⟨.int, .int, rfl⟩
    | left hn => exact ⟨.double, hn, rfl⟩
    | right hn => exact ⟨hn, .double, by simp⟩
  · intro h
    obtain ⟨hl, hr, he⟩ := h
    subst he
    cases hl with
    | double => exact .left hr
    | int =>
      cases hr with
      | int => exact .ints
      | double => exact .right .int

theorem typeIn_append (table : List Param) (p : Param) (name : String) :
    typeIn (table ++ [p]) name = if name = p.name then some p.ty else typeIn table name := by
  unfold typeIn
  rw [List.reverse_append, List.reverse_singleton, List.singleton_append, List.find?_cons]
  by_cases h : name = p.name
  · simp [h]
  · have hne : (p.name == name) = false := beq_eq_false_iff_ne.mpr fun he => h he.symm
    simp [h, hne]

structure Mirrors (k : Checker) (Γ : Env) : Prop where
  own : k.scopes.inner.get? = typeIn Γ.own
  around : k.scopes.outer.map Table.get? = Γ.around.map typeIn
  returns : k.scopes.returns = Γ.returns

namespace Mirrors

/-- A name has the same type in the tables and in the environment, where the nearest declaration holds.
-/
theorem lookup (h : Mirrors k Γ) (name : String) : k.scopes.lookup name = Γ.type? name := by
  have htables : (k.scopes.inner :: k.scopes.outer).map Table.get? = (Γ.own :: Γ.around).map typeIn := by
    rw [List.map_cons, List.map_cons, h.own, h.around]
  calc k.scopes.lookup name
      = ((k.scopes.inner :: k.scopes.outer).map Table.get?).findSome? (· name) := by
        rw [List.findSome?_map]
        rfl
    _ = Γ.type? name := by
        rw [htables, List.findSome?_map]
        rfl

/-- A declared variable comes behind those of the function at hand. -/
theorem declare (h : Mirrors k Γ) (p : Param) : Mirrors (k.declare p.name p.ty) (Γ.after [p]) where
  own := by
    funext name
    change (k.scopes.inner.insert p.name p.ty).get? name = typeIn (Γ.own ++ [p]) name
    rw [Table.get?_insert, typeIn_append, h.own]
  around := h.around
  returns := (Table.returns_insert _ _ _).trans h.returns

theorem of_scopes (h : Mirrors k Γ) (hs : k'.scopes = k.scopes) : Mirrors k' Γ :=
  ⟨hs ▸ h.own, hs ▸ h.around, hs ▸ h.returns⟩

theorem declareParams {decl : FunctionDecl} {ps : List Param} {u : Unit} (h : Mirrors k Γ)
    (hg : Gives (declareParams decl ps) k u k') : Mirrors k' (Γ.after ps) := by
  induction ps generalizing k Γ with
  | nil =>
    obtain ⟨_, rfl⟩ := gives_pure.mp hg
    rw [Env.after_nil]
    exact h
  | cons p ps ih =>
    obtain ⟨_, hg⟩ := declareParams_cons.mp hg
    have hps := ih (h.declare p) hg
    rwa [Env.after_after] at hps

/-- A function begins with a table of its own. -/
theorem enter (h : Mirrors k Γ) (name : String) (returns : Ty) :
    Mirrors (k.enter name returns) ⟨[], Γ.own :: Γ.around, returns⟩ where
  own := rfl
  around := congr (congrArg List.cons h.own) h.around
  returns := rfl

end Mirrors

theorem mirrors_entry : Mirrors (.start (.ofReturns .int)) .entry := ⟨rfl, rfl, rfl⟩

/-- A name is resolved to the function that the rules name. -/
theorem named_iff {name : String} {s : Signature} :
    Named r name s ↔ ∃ callee, Callee.resolve r Ir.prototype? name = .ok callee ∧
      s = ⟨callee.params, callee.isVariadic, callee.returns⟩ := by
  unfold Callee.resolve
  constructor
  · intro h
    cases h with
    | declared h => exact ⟨_, by rw [h], rfl⟩
    | prototype hno h => exact ⟨_, by rw [hno, h], rfl⟩
  · intro h
    obtain ⟨callee, h, hs⟩ := h
    subst hs
    split at h
    · rename_i decl hd
      cases h
      exact .declared hd
    · rename_i hno
      split at h
      · rename_i ext he
        cases h
        exact .prototype hno he
      · cases h

theorem accepts_iff {callee : Callee} {n : Nat} :
    callee.accepts n = true ↔
      if callee.isVariadic then callee.params.length ≤ n else n = callee.params.length := by
  cases callee with
  | declared decl => simp [Callee.accepts, Callee.isVariadic, Callee.params]
  | external ext =>
    simp only [Callee.accepts, Callee.isVariadic, Callee.params, Ir.External.accepts, List.length_map]
    split <;> simp

theorem requireArgument_some {callee : Callee} {index : Nat} {found expected : Ty}
    (h : callee.params[index]? = some expected) :
    requireArgument callee index found = .ok () ↔ Assignable found expected := by
  unfold requireArgument
  rw [h, assignable_iff]
  dsimp only
  split <;> simp_all

theorem requireArgument_none {callee : Callee} {index : Nat} {found : Ty}
    (h : callee.params[index]? = none) :
    requireArgument callee index found = .ok () ↔ found ≠ .void := by
  unfold requireArgument
  rw [h]
  dsimp only
  split <;> simp_all

/-- A function that returns a value does so by itself, or its last value may stand for one. -/
theorem requireResult_iff {decl : FunctionDecl} {found : Ty} :
    requireResult decl found = .ok () ↔
      decl.returns = .void ∨ Tree.returnsAtEnd decl.body = true ∨ Assignable found decl.returns := by
  unfold requireResult
  rw [assignable_iff]
  split <;> simp_all

/-- As many arguments as there are parameters, or more where the function is variadic. -/
theorem Suits.arity {variadic : Bool} : ∀ {es : List Expr} {params : List Ty} {Γ : Env},
    Suits r Γ variadic params es →
    if variadic then params.length ≤ es.length else es.length = params.length
  | [], params, Γ, h => by
    cases h
    cases variadic with
    | true => exact Nat.le_refl _
    | false => rfl
  | e :: es, params, Γ, h => by
    cases h with
    | cons _ _ hes =>
      have ih := hes.arity
      cases variadic with
      | true => exact Nat.succ_le_succ ih
      | false => exact congrArg (· + 1) ih
    | more _ _ _ => exact Nat.zero_le _

mutual

/-- What the check accepts without a report is allowed by the rules. -/
theorem typeOf_sound (r : Registry) : ∀ (e : Expr) {Γ : Env} {k k' : Checker} {ty : Ty},
    Mirrors k Γ → Gives (typeOf r e) k ty k' → k'.diagnostics = [] →
    HasType r Γ e ty ∧ Mirrors k' (Γ.after e.locals)
  | .int n, Γ, k, k', ty, hm, h, _ => by
    obtain ⟨rfl, rfl⟩ := check_int.mp h
    exact ⟨.int n, by rwa [Tree.Expr.locals, Env.after_nil]⟩
  | .double x, Γ, k, k', ty, hm, h, _ => by
    obtain ⟨rfl, rfl⟩ := check_double.mp h
    exact ⟨.double x, by rwa [Tree.Expr.locals, Env.after_nil]⟩
  | .str text, Γ, k, k', ty, hm, h, _ => by
    obtain ⟨rfl, rfl⟩ := check_str.mp h
    exact ⟨.str text, by rwa [Tree.Expr.locals, Env.after_nil]⟩
  | .ident name, Γ, k, k', ty, hm, h, _ => by
    obtain ⟨hty, rfl⟩ := check_ident.mp h
    rw [hm.lookup] at hty
    exact ⟨.ident hty, by rwa [Tree.Expr.locals, Env.after_nil]⟩
  | .neg e, Γ, k, k', ty, hm, h, hk => by
    obtain ⟨he, hn⟩ := check_neg.mp h
    obtain ⟨hty, hm'⟩ := typeOf_sound r e hm he hk
    exact ⟨.neg hty (numeric_iff.mpr hn), hm'⟩
  | .binary op lhs rhs, Γ, k, k', ty, hm, h, hk => by
    obtain ⟨left, k₁, right, hl, hr, hop⟩ := check_binary.mp h
    have hk₁ := ((typeOf_steady r rhs).of_gives hr).clean hk
    obtain ⟨hleft, hm₁⟩ := typeOf_sound r lhs hm hl hk₁
    obtain ⟨hright, hm₂⟩ := typeOf_sound r rhs hm₁ hr hk
    exact ⟨.binary hleft hright (promotes_iff.mpr hop), by rwa [Env.after_after] at hm₂⟩
  | .assign target value, Γ, k, k', ty, hm, h, hk => by
    obtain ⟨expected, found, ht, hv, hco, rfl⟩ := check_assign.mp h
    rw [hm.lookup] at ht
    obtain ⟨hvalue, hm'⟩ := typeOf_sound r value hm hv hk
    exact ⟨.assign ht hvalue (assignable_iff.mpr hco), hm'⟩
  | .call name args, Γ, k, k', ty, hm, h, hk => by
    obtain ⟨callee, hres, hacc, hargs, rfl⟩ := check_call.mp h
    obtain ⟨hsuits, hm'⟩ := checkArgs_sound r callee 0 args hm hargs hk (by rwa [Nat.zero_add])
    exact ⟨.call (named_iff.mpr ⟨callee, hres, rfl⟩) hsuits, hm'⟩
  | .block stmts, Γ, k, k', ty, hm, h, hk => by
    obtain ⟨hb, hm'⟩ := typeOfStmts_sound r stmts hm (check_block.mp h) hk
    exact ⟨.block hb, hm'⟩

theorem checkArgs_sound (r : Registry) (callee : Callee) (index : Nat) : ∀ (es : List Expr) {Γ : Env}
    {k k' : Checker} {u : Unit}, Mirrors k Γ → Gives (checkArgs r callee index es) k u k' →
    k'.diagnostics = [] → callee.accepts (index + es.length) = true →
    Suits r Γ callee.isVariadic (callee.params.drop index) es ∧
      Mirrors k' (Γ.after (localsOfExprs es))
  | [], Γ, k, k', u, hm, h, _, hacc => by
    obtain rfl := checkArgs_nil.mp h
    have hdrop : callee.params.drop index = [] := by
      have harity := accepts_iff.mp hacc
      apply List.drop_eq_nil_of_le
      split at harity
      · exact harity
      · exact Nat.le_of_eq harity.symm
    rw [hdrop, localsOfExprs, Env.after_nil]
    exact ⟨.nil, hm⟩
  | e :: es, Γ, k, k', u, hm, h, hk, hacc => by
    obtain ⟨found, k₁, he, hreq, hes⟩ := checkArgs_cons.mp h
    have hk₁ := ((checkArgs_steady r callee (index + 1) es).of_gives hes).clean hk
    obtain ⟨hty, hm₁⟩ := typeOf_sound r e hm he hk₁
    have hlen : index + (e :: es).length = index + 1 + es.length := by
      rw [List.length_cons]
      omega
    obtain ⟨hsuits, hm₂⟩ := checkArgs_sound r callee (index + 1) es hm₁ hes hk (hlen ▸ hacc)
    rw [Env.after_after] at hm₂
    refine ⟨?_, hm₂⟩
    cases hp : callee.params[index]? with
    | some expected =>
      obtain ⟨hlt, rfl⟩ := List.getElem?_eq_some_iff.mp hp
      rw [List.drop_eq_getElem_cons hlt]
      exact .cons hty ((requireArgument_some hp).mp hreq) hsuits
    | none =>
      -- an argument without a parameter is one of a variadic function
      have hle : callee.params.length ≤ index := List.getElem?_eq_none_iff.mp hp
      have hvar : callee.isVariadic = true := by
        cases hv : callee.isVariadic with
        | true => rfl
        | false =>
          have harity := accepts_iff.mp (hlen ▸ hacc)
          rw [hv] at harity
          have harity : index + 1 + es.length = callee.params.length := harity
          omega
      rw [List.drop_eq_nil_of_le (by omega), hvar] at hsuits
      rw [List.drop_eq_nil_of_le hle, hvar]
      exact .more hty ((requireArgument_none hp).mp hreq) hsuits

theorem checkEach_sound (r : Registry) : ∀ (es : List Expr) {Γ : Env} {k k' : Checker} {u : Unit},
    Mirrors k Γ → Gives (checkEach r es) k u k' → k'.diagnostics = [] →
    Each r Γ es ∧ Mirrors k' (Γ.after (localsOfExprs es))
  | [], Γ, k, k', u, hm, h, _ => by
    obtain rfl := checkEach_nil.mp h
    exact ⟨.nil, by rwa [localsOfExprs, Env.after_nil]⟩
  | e :: es, Γ, k, k', u, hm, h, hk => by
    obtain ⟨found, k₁, he, hes⟩ := checkEach_cons.mp h
    have hk₁ := ((checkEach_steady r es).of_gives hes).clean hk
    obtain ⟨hty, hm₁⟩ := typeOf_sound r e hm he hk₁
    obtain ⟨heach, hm₂⟩ := checkEach_sound r es hm₁ hes hk
    exact ⟨.cons hty heach, by rwa [Env.after_after] at hm₂⟩

theorem typeOfStmts_sound (r : Registry) : ∀ (ss : List Stmt) {Γ : Env} {k k' : Checker} {ty : Ty},
    Mirrors k Γ → Gives (typeOfStmts r .void ss) k ty k' → k'.diagnostics = [] →
    BlockType r Γ ss ty ∧ Mirrors k' (Γ.after (locals ss))
  | [], Γ, k, k', ty, hm, h, _ => by
    obtain ⟨rfl, rfl⟩ := typeOfStmts_nil.mp h
    exact ⟨.nil, by rwa [locals, Env.after_nil]⟩
  | [s], Γ, k, k', ty, hm, h, hk => by
    obtain ⟨found, k₁, hs, hnil⟩ := typeOfStmts_cons.mp h
    obtain ⟨rfl, rfl⟩ := typeOfStmts_nil.mp hnil
    obtain ⟨hty, hm'⟩ := typeOfStmt_sound r s hm hs hk
    exact ⟨.last hty, by rwa [locals, locals, List.append_nil]⟩
  | s :: s' :: ss, Γ, k, k', ty, hm, h, hk => by
    obtain ⟨found, k₁, hs, hss⟩ := typeOfStmts_cons.mp h
    have hk₁ := ((typeOfStmts_steady r found (s' :: ss)).of_gives hss).clean hk
    obtain ⟨hty, hm₁⟩ := typeOfStmt_sound r s hm hs hk₁
    have hss : Gives (typeOfStmts r .void (s' :: ss)) k₁ ty k' :=
      typeOfStmts_cons.mpr (typeOfStmts_cons.mp hss)
    obtain ⟨hrest, hm₂⟩ := typeOfStmts_sound r (s' :: ss) hm₁ hss hk
    exact ⟨.cons hty hrest, by rwa [Env.after_after] at hm₂⟩

/-- A statement that is accepted without a report is allowed, and so is every function declared in it.
-/
theorem typeOfStmt_sound (r : Registry) : ∀ (s : Stmt) {Γ : Env} {k k' : Checker} {ty : Ty},
    Mirrors k Γ → Gives (typeOfStmt r s) k ty k' → k'.diagnostics = [] →
    StmtType r Γ s ty ∧ Mirrors k' (Γ.after s.locals)
  | .expr e, Γ, k, k', ty, hm, h, hk => by
    obtain ⟨hty, hm'⟩ := typeOf_sound r e hm (check_expr.mp h) hk
    exact ⟨.expr hty, hm'⟩
  | .var name t none, Γ, k, k', ty, hm, h, _ => by
    obtain ⟨hv, rfl, rfl⟩ := check_var.mp h
    exact ⟨.var hv, hm.declare ⟨name, t⟩⟩
  | .var name t (some init), Γ, k, k', ty, hm, h, hk => by
    obtain ⟨hv, found, k₁, hi, hco, rfl, rfl⟩ := check_var_init.mp h
    obtain ⟨hty, hm₁⟩ := typeOf_sound r init hm hi hk
    have hm₂ := hm₁.declare ⟨name, t⟩
    exact ⟨.init hv hty (assignable_iff.mpr hco), by rwa [Env.after_after] at hm₂⟩
  | .function ⟨name, params, returns, body⟩, Γ, k, k', ty, hm, h, hk => by
    obtain ⟨hrun, rfl⟩ := check_function.mp h
    have hscopes : k'.scopes = k.scopes := by
      rw [checkFunction_eq] at hrun
      obtain ⟨k'', hrun', hs, _⟩ := inFunction_run name returns (steady_checkBody r _) k
      cases hrun'.symm.trans hrun
      exact hs
    obtain ⟨t, hbody, ht⟩ := clean_checkFunction hrun hk
    obtain ⟨k₁, found, hdeclare, hstmts, hreq⟩ := gives_checkBody.mp hbody
    have hm₁ := (hm.enter name returns).declareParams hdeclare
    obtain ⟨hblock, _⟩ := typeOfStmts_sound r body hm₁ hstmts ht
    refine ⟨.function (declareParams_ne_void hdeclare) hblock (requireResult_iff.mp hreq), ?_⟩
    rw [Tree.Stmt.locals, Env.after_nil]
    exact hm.of_scopes hscopes
  | .ret none, Γ, k, k', ty, hm, h, _ => by
    obtain ⟨found, ⟨_, rfl, rfl⟩ | ⟨_, hsome, _⟩, hco, rfl⟩ := check_ret.mp h
    · rw [hm.returns] at hco
      exact ⟨.ret (assignable_iff.mpr hco), by rwa [Tree.Stmt.locals, Env.after_nil]⟩
    · cases hsome
  | .ret (some value), Γ, k, k', ty, hm, h, hk => by
    obtain ⟨found, ⟨hnone, _⟩ | ⟨_, ⟨rfl⟩, hv⟩, hco, rfl⟩ := check_ret.mp h
    · cases hnone
    · obtain ⟨hty, hm'⟩ := typeOf_sound r value hm hv hk
      have hreturns : k'.scopes.returns = Γ.returns := hm'.returns
      rw [hreturns] at hco
      exact ⟨.retValue hty (assignable_iff.mpr hco), hm'⟩
  | .ite cond thenBlock none, Γ, k, k', ty, hm, h, hk => by
    obtain ⟨found, k₁, t₁, k₂, hc, hn, ht, ⟨_, rfl⟩ | ⟨_, _, hsome, _⟩, rfl⟩ := check_ite.mp h
    · have hk₁ := ((typeOfStmts_steady r .void thenBlock).of_gives ht).clean hk
      obtain ⟨hcond, hm₁⟩ := typeOf_sound r cond hm hc hk₁
      obtain ⟨hthen, hm₂⟩ := typeOfStmts_sound r thenBlock hm₁ ht hk
      exact ⟨.ite hcond (numeric_iff.mpr hn) hthen, by rwa [Env.after_after] at hm₂⟩
    · cases hsome
  | .ite cond thenBlock (some elseBlock), Γ, k, k', ty, hm, h, hk => by
    obtain ⟨found, k₁, t₁, k₂, hc, hn, ht, ⟨hnone, _⟩ | ⟨_, t₂, ⟨rfl⟩, he⟩, rfl⟩ := check_ite.mp h
    · cases hnone
    · have hk₂ := ((typeOfStmts_steady r .void elseBlock).of_gives he).clean hk
      have hk₁ := ((typeOfStmts_steady r .void thenBlock).of_gives ht).clean hk₂
      obtain ⟨hcond, hm₁⟩ := typeOf_sound r cond hm hc hk₁
      obtain ⟨hthen, hm₂⟩ := typeOfStmts_sound r thenBlock hm₁ ht hk₂
      rw [Env.after_after] at hm₂
      obtain ⟨helse, hm₃⟩ := typeOfStmts_sound r elseBlock hm₂ he hk
      exact ⟨.iteElse hcond (numeric_iff.mpr hn) hthen helse, by rwa [Env.after_after] at hm₃⟩
  | .loop init cond post body, Γ, k, k', ty, hm, h, hk => by
    obtain ⟨k₁, found, k₂, t, k₃, hi, hc, hn, hb, hp, rfl⟩ := check_loop.mp h
    have hk₃ := ((checkEach_steady r post).of_gives hp).clean hk
    have hk₂ := ((typeOfStmts_steady r .void body).of_gives hb).clean hk₃
    have hk₁ := ((typeOf_steady r cond).of_gives hc).clean hk₂
    obtain ⟨hinit, hm₁⟩ := checkEach_sound r init hm hi hk₁
    obtain ⟨hcond, hm₂⟩ := typeOf_sound r cond hm₁ hc hk₂
    rw [Env.after_after] at hm₂
    obtain ⟨hbody, hm₃⟩ := typeOfStmts_sound r body hm₂ hb hk₃
    rw [Env.after_after] at hm₃
    obtain ⟨hpost, hm₄⟩ := checkEach_sound r post hm₃ hp hk
    exact ⟨.loop hinit hcond (numeric_iff.mpr hn) hbody hpost, by rwa [Env.after_after] at hm₄⟩

end

def Passes {ε α : Type} (m : Check ε α) (k : Checker) (a : α) : Prop :=
  ∃ k', Gives m k a k' ∧ k'.diagnostics = []

/-- Parameters that can hold values are declared without a report. -/
theorem passes_declareParams {decl : FunctionDecl} {ps : List Param} (hk : k.diagnostics = [])
    (h : ∀ p ∈ ps, p.ty ≠ .void) : Passes (declareParams decl ps) k () := by
  induction ps generalizing k with
  | nil => exact ⟨k, gives_pure.mpr ⟨rfl, rfl⟩, hk⟩
  | cons p ps ih =>
    obtain ⟨k', hg, hk'⟩ := ih (k := k.declare p.name p.ty) hk
      fun q hq => h q (List.mem_cons_of_mem _ hq)
    exact ⟨k', declareParams_cons.mpr ⟨h p List.mem_cons_self, hg⟩, hk'⟩

/-- A function whose body passes adds nothing to the report. -/
theorem passes_function {decl : FunctionDecl}
    (h : Passes (checkBody r decl) (k.enter decl.name decl.returns) ()) :
    Passes (typeOfStmt r (.function decl)) k .void := by
  obtain ⟨t, hg, ht⟩ := h
  obtain ⟨k', hrun, _, _, hend⟩ := inFunction_run decl.name decl.returns (steady_checkBody r decl) k
  rw [← checkFunction_eq] at hrun
  refine ⟨k', check_function.mpr ⟨hrun, rfl⟩, ?_⟩
  rcases hend with ⟨t', hg', hd⟩ | ⟨d, t', hf, _⟩
  · obtain ⟨_, rfl⟩ := gives_unique hg hg'
    rw [hd, ht]
  · exact (gives_not_fails hg hf).elim

mutual

/-- What the rules allow is accepted without a report. -/
theorem typeOf_complete (r : Registry) : ∀ (e : Expr) {Γ : Env} {k : Checker} {ty : Ty},
    Mirrors k Γ → k.diagnostics = [] → HasType r Γ e ty → Passes (typeOf r e) k ty
  | .int n, Γ, k, ty, _, hk, h => by
    cases h
    exact ⟨k, check_int.mpr ⟨rfl, rfl⟩, hk⟩
  | .double x, Γ, k, ty, _, hk, h => by
    cases h
    exact ⟨k, check_double.mpr ⟨rfl, rfl⟩, hk⟩
  | .str text, Γ, k, ty, _, hk, h => by
    cases h
    exact ⟨k, check_str.mpr ⟨rfl, rfl⟩, hk⟩
  | .ident name, Γ, k, ty, hm, hk, h => by
    cases h with
    | ident hty => exact ⟨k, check_ident.mpr ⟨(hm.lookup name).trans hty, rfl⟩, hk⟩
  | .neg e, Γ, k, ty, hm, hk, h => by
    cases h with
    | neg he hn =>
      obtain ⟨k', hg, hk'⟩ := typeOf_complete r e hm hk he
      exact ⟨k', check_neg.mpr ⟨hg, numeric_iff.mp hn⟩, hk'⟩
  | .binary op lhs rhs, Γ, k, ty, hm, hk, h => by
    cases h with
    | binary hl hr hp =>
      obtain ⟨k₁, hleft, hk₁⟩ := typeOf_complete r lhs hm hk hl
      obtain ⟨k₂, hright, hk₂⟩ := typeOf_complete r rhs (typeOf_sound r lhs hm hleft hk₁).2 hk₁ hr
      exact ⟨k₂, check_binary.mpr ⟨_, k₁, _, hleft, hright, promotes_iff.mp hp⟩, hk₂⟩
  | .assign target value, Γ, k, ty, hm, hk, h => by
    cases h with
    | assign ht hv ha =>
      obtain ⟨k', hg, hk'⟩ := typeOf_complete r value hm hk hv
      exact ⟨k', check_assign.mpr
        ⟨_, _, (hm.lookup target).trans ht, hg, assignable_iff.mp ha, rfl⟩, hk'⟩
  | .call name args, Γ, k, ty, hm, hk, h => by
    cases h with
    | call hs ha =>
      obtain ⟨callee, hres, rfl⟩ := named_iff.mp hs
      obtain ⟨k', hg, hk'⟩ := checkArgs_complete r callee 0 args hm hk (by rwa [List.drop_zero])
      have hacc : callee.accepts args.length = true := accepts_iff.mpr ha.arity
      exact ⟨k', check_call.mpr ⟨callee, hres, hacc, hg, rfl⟩, hk'⟩
  | .block stmts, Γ, k, ty, hm, hk, h => by
    cases h with
    | block hb =>
      obtain ⟨k', hg, hk'⟩ := typeOfStmts_complete r stmts hm hk hb
      exact ⟨k', check_block.mpr hg, hk'⟩

theorem checkArgs_complete (r : Registry) (callee : Callee) (index : Nat) : ∀ (es : List Expr)
    {Γ : Env} {k : Checker}, Mirrors k Γ → k.diagnostics = [] →
    Suits r Γ callee.isVariadic (callee.params.drop index) es →
    Passes (checkArgs r callee index es) k ()
  | [], Γ, k, _, hk, _ => ⟨k, checkArgs_nil.mpr rfl, hk⟩
  | e :: es, Γ, k, hm, hk, h => by
    generalize hparams : callee.params.drop index = params at h
    generalize hvar : callee.isVariadic = variadic at h
    cases h with
    | @cons _ _ _ _ param found params he ha hes =>
      have hp : callee.params[index]? = some param := by
        rw [← List.head?_drop, hparams]
        rfl
      have htail : callee.params.drop (index + 1) = params := by
        rw [← List.tail_drop, hparams, List.tail_cons]
      obtain ⟨k₁, hg, hk₁⟩ := typeOf_complete r e hm hk he
      obtain ⟨k₂, hrest, hk₂⟩ := checkArgs_complete r callee (index + 1) es
        (typeOf_sound r e hm hg hk₁).2 hk₁ (by rwa [htail, hvar])
      exact ⟨k₂, checkArgs_cons.mpr ⟨_, k₁, hg, (requireArgument_some hp).mpr ha, hrest⟩, hk₂⟩
    | more he hv hes =>
      have hle : callee.params.length ≤ index := List.drop_eq_nil_iff.mp hparams
      have hp : callee.params[index]? = none := List.getElem?_eq_none_iff.mpr hle
      have htail : callee.params.drop (index + 1) = [] := List.drop_eq_nil_of_le (by omega)
      obtain ⟨k₁, hg, hk₁⟩ := typeOf_complete r e hm hk he
      obtain ⟨k₂, hrest, hk₂⟩ := checkArgs_complete r callee (index + 1) es
        (typeOf_sound r e hm hg hk₁).2 hk₁ (by rwa [htail, hvar])
      exact ⟨k₂, checkArgs_cons.mpr ⟨_, k₁, hg, (requireArgument_none hp).mpr hv, hrest⟩, hk₂⟩

theorem checkEach_complete (r : Registry) : ∀ (es : List Expr) {Γ : Env} {k : Checker},
    Mirrors k Γ → k.diagnostics = [] → Each r Γ es → Passes (checkEach r es) k ()
  | [], Γ, k, _, hk, _ => ⟨k, checkEach_nil.mpr rfl, hk⟩
  | e :: es, Γ, k, hm, hk, h => by
    cases h with
    | cons he hes =>
      obtain ⟨k₁, hg, hk₁⟩ := typeOf_complete r e hm hk he
      obtain ⟨k₂, hrest, hk₂⟩ := checkEach_complete r es (typeOf_sound r e hm hg hk₁).2 hk₁ hes
      exact ⟨k₂, checkEach_cons.mpr ⟨_, k₁, hg, hrest⟩, hk₂⟩

theorem typeOfStmts_complete (r : Registry) : ∀ (ss : List Stmt) {Γ : Env} {k : Checker} {ty : Ty},
    Mirrors k Γ → k.diagnostics = [] → BlockType r Γ ss ty → Passes (typeOfStmts r .void ss) k ty
  | [], Γ, k, ty, _, hk, h => by
    cases h
    exact ⟨k, typeOfStmts_nil.mpr ⟨rfl, rfl⟩, hk⟩
  | [s], Γ, k, ty, hm, hk, h => by
    cases h with
    | last hs =>
      obtain ⟨k', hg, hk'⟩ := typeOfStmt_complete r s hm hk hs
      exact ⟨k', typeOfStmts_cons.mpr ⟨ty, k', hg, typeOfStmts_nil.mpr ⟨rfl, rfl⟩⟩, hk'⟩
  | s :: s' :: ss, Γ, k, ty, hm, hk, h => by
    cases h with
    | cons hs hss =>
      obtain ⟨k₁, hg, hk₁⟩ := typeOfStmt_complete r s hm hk hs
      obtain ⟨k₂, hrest, hk₂⟩ :=
        typeOfStmts_complete r (s' :: ss) (typeOfStmt_sound r s hm hg hk₁).2 hk₁ hss
      exact ⟨k₂, typeOfStmts_cons.mpr
        ⟨_, k₁, hg, typeOfStmts_cons.mpr (typeOfStmts_cons.mp hrest)⟩, hk₂⟩

/-- A statement that the rules allow is accepted. The search for functions behind a failure does not
come into play. -/
theorem typeOfStmt_complete (r : Registry) : ∀ (s : Stmt) {Γ : Env} {k : Checker} {ty : Ty},
    Mirrors k Γ → k.diagnostics = [] → StmtType r Γ s ty → Passes (typeOfStmt r s) k ty
  | .expr e, Γ, k, ty, hm, hk, h => by
    cases h with
    | expr he =>
      obtain ⟨k', hg, hk'⟩ := typeOf_complete r e hm hk he
      exact ⟨k', check_expr.mpr hg, hk'⟩
  | .var name t none, Γ, k, ty, _, hk, h => by
    cases h with
    | var hv => exact ⟨k.declare name t, check_var.mpr ⟨hv, rfl, rfl⟩, hk⟩
  | .var name t (some init), Γ, k, ty, hm, hk, h => by
    cases h with
    | init hv hi ha =>
      obtain ⟨k₁, hg, hk₁⟩ := typeOf_complete r init hm hk hi
      exact ⟨k₁.declare name t, check_var_init.mpr
        ⟨hv, _, k₁, hg, assignable_iff.mp ha, rfl, rfl⟩, hk₁⟩
  | .function ⟨name, params, returns, body⟩, Γ, k, ty, hm, hk, h => by
    cases h with
    | function hp hb he =>
      obtain ⟨k₁, hdeclare, hk₁⟩ : Passes (declareParams ⟨name, params, returns, body⟩ params)
          (k.enter name returns) () := passes_declareParams hk hp
      have hm₁ := (hm.enter name returns).declareParams hdeclare
      obtain ⟨k₂, hstmts, hk₂⟩ := typeOfStmts_complete r body hm₁ hk₁ hb
      exact passes_function
        ⟨k₂, gives_checkBody.mpr ⟨k₁, _, hdeclare, hstmts, requireResult_iff.mpr he⟩, hk₂⟩
  | .ret none, Γ, k, ty, hm, hk, h => by
    cases h with
    | ret ha =>
      refine ⟨k, check_ret.mpr ⟨.void, .inl ⟨rfl, rfl, rfl⟩, ?_, rfl⟩, hk⟩
      rw [hm.returns]
      exact assignable_iff.mp ha
  | .ret (some value), Γ, k, ty, hm, hk, h => by
    cases h with
    | retValue hv ha =>
      obtain ⟨k', hg, hk'⟩ := typeOf_complete r value hm hk hv
      have hreturns : k'.scopes.returns = Γ.returns := (typeOf_sound r value hm hg hk').2.returns
      refine ⟨k', check_ret.mpr ⟨_, .inr ⟨value, rfl, hg⟩, ?_, rfl⟩, hk'⟩
      rw [hreturns]
      exact assignable_iff.mp ha
  | .ite cond thenBlock none, Γ, k, ty, hm, hk, h => by
    cases h with
    | ite hc hn ht =>
      obtain ⟨k₁, hcond, hk₁⟩ := typeOf_complete r cond hm hk hc
      have hm₁ := (typeOf_sound r cond hm hcond hk₁).2
      obtain ⟨k₂, hthen, hk₂⟩ := typeOfStmts_complete r thenBlock hm₁ hk₁ ht
      exact ⟨k₂, check_ite.mpr ⟨_, k₁, _, k₂, hcond, numeric_iff.mp hn, hthen, .inl ⟨rfl, rfl⟩, rfl⟩,
        hk₂⟩
  | .ite cond thenBlock (some elseBlock), Γ, k, ty, hm, hk, h => by
    cases h with
    | iteElse hc hn ht he =>
      obtain ⟨k₁, hcond, hk₁⟩ := typeOf_complete r cond hm hk hc
      have hm₁ := (typeOf_sound r cond hm hcond hk₁).2
      obtain ⟨k₂, hthen, hk₂⟩ := typeOfStmts_complete r thenBlock hm₁ hk₁ ht
      have hm₂ := (typeOfStmts_sound r thenBlock hm₁ hthen hk₂).2
      rw [Env.after_after] at hm₂
      obtain ⟨k₃, helse, hk₃⟩ := typeOfStmts_complete r elseBlock hm₂ hk₂ he
      exact ⟨k₃, check_ite.mpr
        ⟨_, k₁, _, k₂, hcond, numeric_iff.mp hn, hthen, .inr ⟨elseBlock, _, rfl, helse⟩, rfl⟩, hk₃⟩
  | .loop init cond post body, Γ, k, ty, hm, hk, h => by
    cases h with
    | loop hi hc hn hb hp =>
      obtain ⟨k₁, hinit, hk₁⟩ := checkEach_complete r init hm hk hi
      have hm₁ := (checkEach_sound r init hm hinit hk₁).2
      obtain ⟨k₂, hcond, hk₂⟩ := typeOf_complete r cond hm₁ hk₁ hc
      have hm₂ := (typeOf_sound r cond hm₁ hcond hk₂).2
      rw [Env.after_after] at hm₂
      obtain ⟨k₃, hbody, hk₃⟩ := typeOfStmts_complete r body hm₂ hk₂ hb
      have hm₃ := (typeOfStmts_sound r body hm₂ hbody hk₃).2
      rw [Env.after_after] at hm₃
      obtain ⟨k₄, hpost, hk₄⟩ := checkEach_complete r post hm₃ hk₃ hp
      exact ⟨k₄, check_loop.mpr
        ⟨k₁, _, k₂, _, k₃, hinit, hcond, numeric_iff.mp hn, hbody, hpost, rfl⟩, hk₄⟩

end

/-- What the statements of a program leave in the report, with the failure that ended them. -/
theorem checkProgram_report (r : Registry) (program : Tree.Block) (k : Checker) :
    ((checkProgram r program).run k).2.diagnostics =
      match outcome (typeOfStmts r .void program) k with
      | (.ok _, k') => k'.diagnostics
      | (.error d, k') => k'.diagnostics ++ [d] := by
  have hrun : (checkProgram r program).run k =
      (match outcome (typeOfStmts r .void program) k with
      | (.ok _, k') => ((), k')
      | (.error d, k') => ((), k'.report d)) := by
    unfold checkProgram typeOfBlock outcome
    simp only [StateT.run_bind]
    rcases (typeOfStmts r .void program).run.run k with ⟨_ | _, _⟩ <;> rfl
  rw [hrun]
  rcases outcome (typeOfStmts r .void program) k with ⟨_ | _, _⟩ <;> rfl

/-- The functions of a program are collected first; what the rest of the check reports decides. -/
theorem check_eq_ok_iff {program : Tree.Block} {r' : Registry}
    (h : Registry.collect program = .ok r') :
    check program = .ok r ↔
      r' = r ∧ ((checkProgram r' program).run (.start (.ofReturns .int))).2.diagnostics = [] := by
  simp only [check, h, bind, Except.bind]
  rcases (checkProgram r' program).run (.start (.ofReturns .int)) with ⟨_, k⟩
  cases hd : k.diagnostics with
  | nil => simp [hd, pure, Except.pure]
  | cons d ds => simp [hd, throw, throwThe, MonadExceptOf.throw]

/-- A program passes if its names are distinct, and its statements pass without a report. -/
theorem check_eq_ok {program : Tree.Block} :
    check program = .ok r ↔ Registry.collect program = .ok r ∧
      ∃ ty, Passes (typeOfStmts r .void program) (.start (.ofReturns .int)) ty := by
  cases hcollect : Registry.collect program with
  | error ds => simp [check, hcollect, bind, Except.bind]
  | ok r' =>
    rw [check_eq_ok_iff hcollect, checkProgram_report, Except.ok.injEq]
    refine and_congr_right ?_
    rintro rfl
    constructor
    · intro hreport
      cases ho : outcome (typeOfStmts r' .void program) (.start (.ofReturns .int)) with
      | mk result k =>
        rw [ho] at hreport
        cases result with
        | ok ty => exact ⟨ty, k, ho, hreport⟩
        | error d => simp at hreport
    · intro h
      obtain ⟨ty, k, hg, hk⟩ := h
      have ho : outcome (typeOfStmts r' .void program) (.start (.ofReturns .int)) = (.ok ty, k) := hg
      rw [ho]
      exact hk

/-- The check of a program succeeds if and only if its functions have names of their own and its
statements have a type. -/
theorem check_iff_typed {program : Tree.Block} :
    check program = .ok r ↔
      Registry.collect program = .ok r ∧ ∃ ty, BlockType r .entry program ty := by
  rw [check_eq_ok]
  refine and_congr_right fun _ => exists_congr fun ty => ?_
  constructor
  · intro h
    obtain ⟨k, hg, hk⟩ := h
    exact (typeOfStmts_sound r program mirrors_entry hg hk).1
  · exact typeOfStmts_complete r program mirrors_entry rfl

end TreeLang.Typing
