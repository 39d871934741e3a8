import TreeLang.Proofs.Json.Reading
import TreeLang.Tree.Document

namespace TreeLang.Tree

open Json

mutual

/-- Every double literal of the tree is a finite number. -/
def Expr.Finite : Expr → Prop
  | .int _ => True
  | .double value => value.isFinite = true
  | .str _ => True
  | .ident _ => True
  | .neg operand => operand.Finite
  | .binary _ lhs rhs => lhs.Finite ∧ rhs.Finite
  | .assign _ value => value.Finite
  | .call _ args => ExprsFinite args
  | .block stmts => StmtsFinite stmts

def ExprsFinite : List Expr → Prop
  | [] => True
  | e :: es => e.Finite ∧ ExprsFinite es

def Stmt.Finite : Stmt → Prop
  | .expr e => e.Finite
  | .var _ _ none => True
  | .var _ _ (some init) => init.Finite
  | .function decl => decl.Finite
  | .ret none => True
  | .ret (some value) => value.Finite
  | .ite cond thenBlock none => cond.Finite ∧ StmtsFinite thenBlock
  | .ite cond thenBlock (some elseBlock) =>
    cond.Finite ∧ StmtsFinite thenBlock ∧ StmtsFinite elseBlock
  | .loop init cond post body =>
    ExprsFinite init ∧ cond.Finite ∧ ExprsFinite post ∧ StmtsFinite body

def FunctionDecl.Finite : FunctionDecl → Prop
  | ⟨_, _, _, body⟩ => StmtsFinite body

def StmtsFinite : List Stmt → Prop
  | [] => True
  | s :: ss => s.Finite ∧ StmtsFinite ss

end

/-- No integer of 32 bits is too large for a number of a document. -/
theorem readable_int (n : Int32) : (Json.int n.toInt).Readable := by
  apply Numeral.double_written_ofInt
  have h₁ := Int32.le_toInt n
  have h₂ : n.toInt ≤ 2147483647 := Int32.toInt_le n
  omega

theorem readable_double {x : Double} (hx : x.isFinite = true) : (Json.double x).Readable := by
  rw [Json.double, if_pos hx]
  change (Numeral.ofDouble x).written.double.isFinite = true
  rw [Numeral.double_written_ofDouble hx]
  exact hx

theorem readable_params (ps : List Param) : (Json.array (ps.map Param.toJson)).Readable := by
  change ElementNumbers _ _
  induction ps with
  | nil => trivial
  | cons p ps ih => exact ⟨⟨trivial, trivial, trivial⟩, ih⟩

mutual

/-- The numbers of a document are those of the literals. -/
theorem Expr.readable : ∀ e : Expr, e.Finite → e.toJson.Readable
  | .int value, _ => ⟨trivial, readable_int value, trivial⟩
  | .double _, h => ⟨trivial, readable_double h, trivial⟩
  | .str _, _ => ⟨trivial, trivial, trivial⟩
  | .ident _, _ => ⟨trivial, trivial, trivial⟩
  | .neg operand, h => ⟨trivial, trivial, operand.readable h, trivial⟩
  | .binary _ lhs rhs, h => ⟨trivial, trivial, lhs.readable h.1, rhs.readable h.2, trivial⟩
  | .assign _ value, h => ⟨trivial, trivial, value.readable h, trivial⟩
  | .call _ args, h => ⟨trivial, trivial, readable_exprs args h, trivial⟩
  | .block stmts, h => ⟨trivial, readable_stmts stmts h, trivial⟩

theorem readable_exprs : ∀ es : List Expr, ExprsFinite es → (Json.array (exprsToJson es)).Readable
  | [], _ => trivial
  | e :: es, h => ⟨e.readable h.1, readable_exprs es h.2⟩

theorem Stmt.readable : ∀ s : Stmt, s.Finite → s.toJson.Readable
  | .expr e, h => ⟨trivial, e.readable h, trivial⟩
  | .var _ _ none, _ => ⟨trivial, trivial, trivial, trivial, trivial⟩
  | .var _ _ (some init), h => ⟨trivial, trivial, trivial, init.readable h, trivial⟩
  | .function decl, h => ⟨trivial, decl.readable h⟩
  | .ret none, _ => ⟨trivial, trivial, trivial⟩
  | .ret (some value), h => ⟨trivial, value.readable h, trivial⟩
  | .ite cond thenBlock none, h =>
    ⟨trivial, cond.readable h.1, ⟨readable_stmts thenBlock h.2, trivial⟩, trivial, trivial⟩
  | .ite cond thenBlock (some elseBlock), h =>
    ⟨trivial, cond.readable h.1, ⟨readable_stmts thenBlock h.2.1, trivial⟩,
      ⟨readable_stmts elseBlock h.2.2, trivial⟩, trivial⟩
  | .loop init cond post body, h =>
    ⟨trivial, readable_exprs init h.1, cond.readable h.2.1, readable_exprs post h.2.2.1,
      ⟨readable_stmts body h.2.2.2, trivial⟩, trivial⟩

theorem FunctionDecl.readable : ∀ decl : FunctionDecl, decl.Finite →
    MemberNumbers (fun n => n.written.double.isFinite = true) decl.toMembers
  | ⟨_, params, _, body⟩, h =>
    ⟨trivial, readable_params params, trivial, ⟨readable_stmts body h, trivial⟩, trivial⟩

theorem readable_stmts : ∀ ss : List Stmt, StmtsFinite ss → (Json.array (stmtsToJson ss)).Readable
  | [], _ => trivial
  | s :: ss, h => ⟨s.readable h.1, readable_stmts ss h.2⟩

end

/-- An integer is read back as it was written, and so is every other part of a node. -/
theorem int32?_int (n : Int32) : (Json.int n.toInt).written.int32? = some n := by
  have hint : (Numeral.ofInt n.toInt).int? = some n.toInt := by
    have hzero : ¬(decide (n.toInt < 0) = true ∧ n.toInt.natAbs = 0) := by
      rw [decide_eq_true_iff]
      omega
    rw [Numeral.int?, if_pos ⟨rfl, hzero⟩]
    congr 1
    simp only [Numeral.ofInt, decide_eq_true_eq]
    split <;> omega
  have hread : (Json.int n.toInt).written.int? = some n.toInt := by
    rw [Json.int, written, Numeral.written_ofInt]
    exact hint
  unfold Json.int32?
  rw [hread, Option.bind_eq_bind, Option.bind_some, if_pos ⟨Int32.le_toInt n, Int32.toInt_le n⟩,
    Int32.ofInt_toInt]

theorem double?_double {x : Double} (hx : x.isFinite = true) :
    (Json.double x).written.double? = some x := by
  rw [Json.double, if_pos hx, written, Json.double?, Numeral.double_written_ofDouble hx]

theorem ofText?_text (ty : Ty) : Ty.ofText? ty.text = some ty := by
  cases ty <;> decide

theorem ofSymbol?_symbol (op : BinaryOp) : BinaryOp.ofSymbol? op.symbol = some op := by
  cases op <;> decide

theorem ofJson?_toJson_param (p : Param) : Param.ofJson? p.toJson.written = some p := by
  change (Ty.ofText? p.ty.text).bind (fun ty => some (Param.mk p.name ty)) = _
  rw [ofText?_text, Option.bind_some]

theorem mapM_params (ps : List Param) :
    (elementsWritten (ps.map Param.toJson)).mapM Param.ofJson? = some ps := by
  induction ps with
  | nil => rfl
  | cons p ps ih => simp [elementsWritten, ofJson?_toJson_param, ih]

/-- The tag is found where no other member has its key. -/
theorem node?_kind {kinds : List (String × List String)} {kind : String} {ms : List (String × Json)}
    (h : ∀ m ∈ ms, m.1 ≠ "kind") : node? kinds (.object (("kind", .string kind) :: ms)) =
      some (kind, ("kind", .string kind) :: ms) := by
  have hrest : ms.filter (·.1 == "kind") = [] := by
    rw [List.filter_eq_nil_iff]
    intro m hm
    simpa using h m hm
  simp [node?, tag?, kind?, required?, member?, hrest]

/-- A part that is there is written as an object and not as null. -/
theorem Expr.written_object (e : Expr) : ∃ ms, e.toJson.written = .object ms := by
  cases e <;> exact ⟨_, rfl⟩

/-- A part that is there is no null, so it is not taken for one that is left out. -/
theorem optional?_expr {ms : List (String × Json)} {key : String} {e : Expr}
    {read : Json → Option Expr} (hmember : member? ms key = some (some e.toJson.written))
    (hread : read e.toJson.written = some e) : optional? ms key read = some (some e) := by
  obtain ⟨part, he⟩ := e.written_object
  rw [he] at hmember hread
  simp only [optional?, hmember, Option.bind_eq_bind, Option.bind_some, hread, Option.map_some]

theorem blockOfJson?_written {fuel : Nat} {block : Block} (hfuel : 0 < fuel)
    (hstmts : ∀ n, n + 1 = fuel →
      (elementsWritten (stmtsToJson block)).mapM (Stmt.ofJson? n) = some block) :
    blockOfJson? fuel (blockToJson block).written = some block := by
  obtain ⟨n, rfl⟩ : ∃ n, fuel = n + 1 := ⟨fuel - 1, by omega⟩
  exact hstmts n rfl

/-- A declaration has its members next to the tag of its statement; none of them has the key of the tag.
-/
theorem FunctionDecl.toMembers_kind (decl : FunctionDecl) :
    ∀ m ∈ membersWritten decl.toMembers, m.1 ≠ "kind" := by
  obtain ⟨name, params, returns, body⟩ := decl
  simp [toMembers, membersWritten]

theorem Expr.depth_pos (e : Expr) : 0 < e.toJson.depth := by
  cases e <;> exact Nat.succ_pos _

theorem Stmt.depth_pos (s : Stmt) : 0 < s.toJson.depth := by
  rcases s with _ | ⟨_, _, _ | _⟩ | _ | ⟨_ | _⟩ | ⟨_, _, _ | _⟩ | _ <;> exact Nat.succ_pos _

mutual

/-- A node is found again: its kind leads to the members of this kind, and the parts in them are read
with one step less. -/
theorem Expr.ofJson?_toJson : ∀ (e : Expr) (fuel : Nat), e.Finite → e.toJson.depth ≤ fuel →
    Expr.ofJson? fuel e.toJson.written = some e
  | e, 0, _, hdepth => absurd hdepth (Nat.not_le.mpr e.depth_pos)
  | .int value, fuel + 1, _, _ => by
    change (Json.int value.toInt).written.int32?.bind (fun v => some (Expr.int v)) = _
    rw [int32?_int, Option.bind_some]
  | .double value, fuel + 1, h, _ => by
    change (Json.double value).written.double?.bind (fun v => some (Expr.double v)) = _
    rw [double?_double h, Option.bind_some]
  | .str _, _ + 1, _, _ => rfl
  | .ident _, _ + 1, _, _ => rfl
  | .neg operand, fuel + 1, h, hdepth => by
    simp only [Expr.toJson, depth, memberDepth] at hdepth
    change (Expr.ofJson? fuel operand.toJson.written).bind (fun e => some (Expr.neg e)) = _
    rw [operand.ofJson?_toJson fuel h (by omega), Option.bind_some]
  | .binary op lhs rhs, fuel + 1, h, hdepth => by
    simp only [Expr.toJson, depth, memberDepth] at hdepth
    change (BinaryOp.ofSymbol? op.symbol).bind (fun op =>
      (Expr.ofJson? fuel lhs.toJson.written).bind fun l =>
      (Expr.ofJson? fuel rhs.toJson.written).bind fun r => some (Expr.binary op l r)) = _
    rw [ofSymbol?_symbol, lhs.ofJson?_toJson fuel h.1 (by omega),
      rhs.ofJson?_toJson fuel h.2 (by omega)]
    rfl
  | .assign target value, fuel + 1, h, hdepth => by
    simp only [Expr.toJson, depth, memberDepth] at hdepth
    change (Expr.ofJson? fuel value.toJson.written).bind (fun e => some (Expr.assign target e)) = _
    rw [value.ofJson?_toJson fuel h (by omega), Option.bind_some]
  | .call callee args, fuel + 1, h, hdepth => by
    simp only [Expr.toJson, depth, memberDepth] at hdepth
    change ((elementsWritten (exprsToJson args)).mapM (Expr.ofJson? fuel)).bind
      (fun es => some (Expr.call callee es)) = _
    rw [mapM_exprs args fuel h (by omega), Option.bind_some]
  | .block stmts, fuel + 1, h, hdepth => by
    simp only [Expr.toJson, depth, memberDepth] at hdepth
    change ((elementsWritten (stmtsToJson stmts)).mapM (Stmt.ofJson? fuel)).bind
      (fun ss => some (Expr.block ss)) = _
    rw [mapM_stmts stmts fuel h (by omega), Option.bind_some]

theorem mapM_exprs : ∀ (es : List Expr) (fuel : Nat), ExprsFinite es →
    elementDepth (exprsToJson es) ≤ fuel →
    (elementsWritten (exprsToJson es)).mapM (Expr.ofJson? fuel) = some es
  | [], _, _, _ => rfl
  | e :: es, fuel, h, hdepth => by
    simp only [exprsToJson, elementDepth] at hdepth
    rw [exprsToJson, elementsWritten, List.mapM_cons, e.ofJson?_toJson fuel h.1 (by omega),
      mapM_exprs es fuel h.2 (by omega)]
    rfl

/-- Parts that are left out are written as null and read as left out. -/
theorem Stmt.ofJson?_toJson : ∀ (s : Stmt) (fuel : Nat), s.Finite → s.toJson.depth ≤ fuel →
    Stmt.ofJson? fuel s.toJson.written = some s
  | s, 0, _, hdepth => absurd hdepth (Nat.not_le.mpr s.depth_pos)
  | .expr e, fuel + 1, h, hdepth => by
    simp only [Stmt.toJson, depth, memberDepth] at hdepth
    change (Expr.ofJson? fuel e.toJson.written).bind (fun e => some (Stmt.expr e)) = _
    rw [e.ofJson?_toJson fuel h (by omega), Option.bind_some]
  | .var name ty none, fuel + 1, _, _ => by
    change (Ty.ofText? ty.text).bind (fun ty => some (Stmt.var name ty none)) = _
    rw [ofText?_text, Option.bind_some]
  | .var name ty (some init), fuel + 1, h, hdepth => by
    simp only [Stmt.toJson, depth, memberDepth] at hdepth
    have hinit : optional? (membersWritten [("kind", .string "var"), ("name", .string name),
        ("type", .string ty.text), ("init", init.toJson)]) "init" (Expr.ofJson? fuel) =
        some (some init) :=
      optional?_expr rfl (init.ofJson?_toJson fuel h (by omega))
    change (Ty.ofText? ty.text).bind (fun ty =>
      (optional? _ "init" (Expr.ofJson? fuel)).bind fun e => some (Stmt.var name ty e)) = _
    rw [ofText?_text, Option.bind_some, hinit, Option.bind_some]
  | .function decl, fuel + 1, h, hdepth => by
    simp only [Stmt.toJson, depth, memberDepth] at hdepth
    have hkind : node? Stmt.kinds
        (.object (("kind", .string "function") :: membersWritten decl.toMembers)) =
        some ("function", _) := node?_kind decl.toMembers_kind
    have hdecl := decl.ofMembers?_toMembers fuel h (by omega)
    change Stmt.ofJson? (fuel + 1)
      (.object (("kind", .string "function") :: membersWritten decl.toMembers)) = _
    rw [Stmt.ofJson?, hkind]
    change (FunctionDecl.ofMembers? fuel _).bind (fun d => some (Stmt.function d)) = _
    rw [hdecl, Option.bind_some]
  | .ret none, _ + 1, _, _ => rfl
  | .ret (some value), fuel + 1, h, hdepth => by
    simp only [Stmt.toJson, depth, memberDepth] at hdepth
    have hvalue : optional? (membersWritten [("kind", .string "return"), ("value", value.toJson)])
        "value" (Expr.ofJson? fuel) = some (some value) :=
      optional?_expr rfl (value.ofJson?_toJson fuel h (by omega))
    change (optional? _ "value" (Expr.ofJson? fuel)).bind (fun e => some (Stmt.ret e)) = _
    rw [hvalue, Option.bind_some]
  | .ite cond thenBlock none, fuel + 1, h, hdepth => by
    simp only [Stmt.toJson, depth, memberDepth] at hdepth
    change (Expr.ofJson? fuel cond.toJson.written).bind (fun c =>
      (blockOfJson? fuel (blockToJson thenBlock).written).bind fun b => some (Stmt.ite c b none)) = _
    rw [cond.ofJson?_toJson fuel h.1 (by omega), Option.bind_some,
      blockOfJson?_written (by omega) fun fuel hfuel => mapM_stmts thenBlock fuel h.2 (by omega),
      Option.bind_some]
  | .ite cond thenBlock (some elseBlock), fuel + 1, h, hdepth => by
    simp only [Stmt.toJson, depth, memberDepth] at hdepth
    change (Expr.ofJson? fuel cond.toJson.written).bind (fun c =>
      (blockOfJson? fuel (blockToJson thenBlock).written).bind fun b =>
      ((blockOfJson? fuel (blockToJson elseBlock).written).map some).bind fun b' =>
      some (Stmt.ite c b b')) = _
    rw [cond.ofJson?_toJson fuel h.1 (by omega), Option.bind_some,
      blockOfJson?_written (by omega) fun fuel hfuel => mapM_stmts thenBlock fuel h.2.1 (by omega),
      Option.bind_some,
      blockOfJson?_written (by omega) fun fuel hfuel => mapM_stmts elseBlock fuel h.2.2 (by omega)]
    rfl
  | .loop init cond post body, fuel + 1, h, hdepth => by
    simp only [Stmt.toJson, depth, memberDepth] at hdepth
    change ((elementsWritten (exprsToJson init)).mapM (Expr.ofJson? fuel)).bind (fun i =>
      (Expr.ofJson? fuel cond.toJson.written).bind fun c =>
      ((elementsWritten (exprsToJson post)).mapM (Expr.ofJson? fuel)).bind fun p =>
      (blockOfJson? fuel (blockToJson body).written).bind fun b => some (Stmt.loop i c p b)) = _
    rw [mapM_exprs init fuel h.1 (by omega), cond.ofJson?_toJson fuel h.2.1 (by omega),
      mapM_exprs post fuel h.2.2.1 (by omega),
      blockOfJson?_written (by omega) fun fuel hfuel => mapM_stmts body fuel h.2.2.2 (by omega)]
    rfl

/-- The members of a declaration are found among those of its statement. -/
theorem FunctionDecl.ofMembers?_toMembers : ∀ (decl : FunctionDecl) (fuel : Nat), decl.Finite →
    memberDepth decl.toMembers ≤ fuel →
    FunctionDecl.ofMembers? fuel (("kind", .string "function") :: membersWritten decl.toMembers) =
      some decl
  | ⟨name, params, returns, body⟩, 0, _, hdepth => by
    simp only [FunctionDecl.toMembers, depth, memberDepth] at hdepth
    omega
  | ⟨name, params, returns, body⟩, fuel + 1, h, hdepth => by
    simp only [FunctionDecl.toMembers, depth, memberDepth] at hdepth
    change ((elementsWritten (params.map Param.toJson)).mapM Param.ofJson?).bind (fun ps =>
      (Ty.ofText? returns.text).bind fun ty =>
      (blockOfJson? fuel (blockToJson body).written).bind fun b =>
      some (FunctionDecl.mk name ps ty b)) = _
    rw [mapM_params, ofText?_text,
      blockOfJson?_written (by omega) fun fuel hfuel => mapM_stmts body fuel h (by omega)]
    rfl

theorem mapM_stmts : ∀ (ss : List Stmt) (fuel : Nat), StmtsFinite ss →
    elementDepth (stmtsToJson ss) ≤ fuel →
    (elementsWritten (stmtsToJson ss)).mapM (Stmt.ofJson? fuel) = some ss
  | [], _, _, _ => rfl
  | s :: ss, fuel, h, hdepth => by
    simp only [stmtsToJson, elementDepth] at hdepth
    rw [stmtsToJson, elementsWritten, List.mapM_cons, s.ofJson?_toJson fuel h.1 (by omega),
      mapM_stmts ss fuel h.2 (by omega)]
    rfl

end

/-- What is written has the names of the kinds as tags and never their numbers. -/
theorem Stmt.tag?_toJson (s : Stmt) : ∃ kind, s.toJson.written.tag? = some (.string kind) := by
  rcases s with _ | ⟨_, _, _ | _⟩ | ⟨_, _, _, _⟩ | ⟨_ | _⟩ | ⟨_, _, _ | _⟩ | _ <;> exact ⟨_, rfl⟩

/-- A statement of the program is read like any other, as its tag is a string. -/
theorem outermost?_toJson {s : Stmt} (h : s.Finite) (hdepth : s.toJson.depth ≤ nodeDepth) :
    Stmt.outermost? s.toJson.written = some s := by
  obtain ⟨kind, htag⟩ := s.tag?_toJson
  rw [Stmt.outermost?, htag]
  exact s.ofJson?_toJson nodeDepth h hdepth

theorem statements?_toJson (ss : List Stmt) (h : StmtsFinite ss)
    (hdepth : elementDepth (stmtsToJson ss) ≤ nodeDepth) :
    programOfJson.statements? (Json.array (stmtsToJson ss)).written = some ss := by
  change (elementsWritten (stmtsToJson ss)).mapM Stmt.outermost? = some ss
  induction ss with
  | nil => rfl
  | cons s ss ih =>
    simp only [stmtsToJson, elementDepth] at hdepth
    rw [stmtsToJson, elementsWritten, List.mapM_cons, outermost?_toJson h.1 (by omega),
      ih h.2 (by omega)]
    rfl

/-- A program that is an object with nothing but its statements. -/
theorem programOfJson_stmts (x : Json) :
    programOfJson (.object [("stmts", x)]) = expect (programOfJson.statements? x) := by
  simp only [programOfJson, takeAll, takeMembers, if_true, List.not_mem_nil, if_false]
  cases expect (programOfJson.statements? x) <;> rfl

section

variable {kinds : List (String × List String)} {kind : String} {keys : List String} {xs : List Json}
  {fuel : Nat}

theorem member?_kind {tag : Json} {ms : List (String × Json)} {key : String} (h : key ≠ "kind") :
    member? (("kind", tag) :: ms) key = member? ms key := by
  have hne : ("kind" == key) = false := by simpa using h.symm
  simp [member?, hne]

/-- Behind the tag the elements get the keys of the fields of this kind, in their order. -/
theorem node?_array (hkind : kinds.lookup kind = some keys) (hlen : xs.length ≤ keys.length) :
    node? kinds (.array (.string kind :: xs)) = some (kind, keys.zip xs) := by
  simp [node?, tag?, kind?, hkind, members?, hlen]

/-- The tag is no field of any kind, so the same members are found with it and without it. -/
theorem node?_object (hfields : ∀ entry ∈ kinds, "kind" ∉ entry.2)
    (hkind : kinds.lookup kind = some keys) :
    node? kinds (.object (("kind", .string kind) :: keys.zip xs)) =
      some (kind, ("kind", .string kind) :: keys.zip xs) := by
  obtain ⟨before, behind, hsplit, _⟩ := List.lookup_eq_some_iff.mp hkind
  have hkeys := hfields (kind, keys) (hsplit ▸ List.mem_append_right _ List.mem_cons_self)
  exact node?_kind fun m hm hkey => hkeys (hkey ▸ (List.of_mem_zip hm).1)

/-- An array with the tag and the fields in their order is read as the object that has them as
members. It may end early, which leaves out the members at the end. -/
theorem Expr.ofJson?_array (hkind : Expr.kinds.lookup kind = some keys)
    (hlen : xs.length ≤ keys.length) : Expr.ofJson? (fuel + 1) (.array (.string kind :: xs)) =
      Expr.ofJson? (fuel + 1) (.object (("kind", .string kind) :: keys.zip xs)) := by
  rw [Expr.ofJson?, Expr.ofJson?, node?_array hkind hlen, node?_object (by decide) hkind]
  simp [required?, list?, member?_kind]

/-- The same for statements. A declaration in an array has its own fields behind the tag. -/
theorem Stmt.ofJson?_array (hkind : Stmt.kinds.lookup kind = some keys)
    (hlen : xs.length ≤ keys.length) : Stmt.ofJson? (fuel + 1) (.array (.string kind :: xs)) =
      Stmt.ofJson? (fuel + 1) (.object (("kind", .string kind) :: keys.zip xs)) := by
  have hdecl : FunctionDecl.ofMembers? fuel (("kind", .string kind) :: keys.zip xs) =
      FunctionDecl.ofMembers? fuel (keys.zip xs) := by
    cases fuel <;> simp [FunctionDecl.ofMembers?, required?, list?, member?_kind]
  rw [Stmt.ofJson?, Stmt.ofJson?, node?_array hkind hlen, node?_object (by decide) hkind]
  simp [required?, list?, optional?, member?_kind, hdecl]

example : programOfJson (.array [.array [
    .array [.string "expr", .array [.string "call", .string "f", .array [
      .array [.number (.ofInt 3), .string "x"]]]],
    .array [.string "var", .string "x", .object [("int", .null)]]]]) =
    .ok [.expr (.call "f" [.ident "x"]), .var "x" .int none] := by rfl

end

end TreeLang.Tree
