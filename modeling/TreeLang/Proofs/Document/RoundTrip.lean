import TreeLang.Proofs.Document.Fitting

namespace TreeLang.Tree

open Json

variable {p : Block} {t : String}

/-- The object and the array around the statements. -/
theorem depth_blockToJson (p : Block) :
    (blockToJson p).depth = elementDepth (stmtsToJson p) + 2 := by
  simp only [blockToJson, depth, memberDepth, Nat.max_zero]

theorem programOfJson_blockToJson (h : StmtsFinite p) (hdepth : (blockToJson p).depth ≤ maxDepth) :
    programOfJson (blockToJson p).written = .ok p := by
  rw [depth_blockToJson] at hdepth
  have hstmts := statements?_toJson p h (by rw [nodeDepth]; omega)
  exact (programOfJson_stmts _).trans (by rw [hstmts, expect])

theorem isExtra_stmts (keys : List String) : isExtra (keys ++ ["stmts"]) = false := by
  cases keys with
  | nil => rfl
  | cons key keys => cases keys <;> rfl

theorem isExtra_element (keys : List String) (hkeys : keys ≠ []) : isExtra (keys ++ [""]) = false := by
  cases keys with
  | nil => exact absurd rfl hkeys
  | cons key keys => cases keys <;> rfl

/-- An object with nothing but statements is read back. -/
theorem parse_stmts {x : Json} (hx : x.Readable) : parse isExtra (object [("stmts", x)]).pretty =
    if (object [("stmts", x)]).depth ≤ maxDepth then .ok (object [("stmts", x)]).written
    else .error .malformed :=
  parse_pretty (fun _ hm keys => by cases List.mem_singleton.mp hm; exact isExtra_stmts keys)
    ⟨hx, trivial⟩

theorem ofText_of_parse {j : Json} (h : parse isExtra t = .ok j) :
    ofText t = programOfJson j := by
  rw [ofText, decodeText, h]

/-- Too many brackets are all that can keep a tree with finite literals from being read back. -/
theorem ofText_toText_of_finite (h : StmtsFinite p) : ofText (toText p) =
    if (blockToJson p).depth ≤ maxDepth then .ok p else .error .malformed := by
  have hparse : parse isExtra (toText p) = if (blockToJson p).depth ≤ maxDepth
      then .ok (blockToJson p).written else .error .malformed :=
    parse_stmts (readable_stmts p h)
  split at hparse
  · rename_i hdepth
    rw [ofText_of_parse hparse, programOfJson_blockToJson h hdepth, if_pos hdepth]
  · rename_i hdepth
    rw [ofText, decodeText, hparse, if_neg hdepth]
    rfl

/-- A tree whose doubles are finite comes back from its text, unless this opens too many brackets. -/
theorem ofText_toText (hfinite : StmtsFinite p) (hdepth : (blockToJson p).depth ≤ maxDepth) :
    ofText (toText p) = .ok p := by
  rw [ofText_toText_of_finite hfinite, if_pos hdepth]

/-- Every form of node, with its parts there and left out. -/
def everyNode : Block := [
  .var "größe" .double (some (.double ⟨0x8000000000000001⟩)),
  .var "s" .string none,
  .function ⟨"f", [⟨"a", .int⟩, ⟨"b", .string⟩], .int,
    [.ret (some (.binary .le (.ident "a") (.neg (.int (-2147483648)))))]⟩,
  .ite (.call "f" [.int 2147483647, .str "\x00\"\\\n 𝄞"]) [.ret none] none,
  .ite (.int 0) [] (some [.expr (.assign "größe" (.double ⟨0x3fb999999999999a⟩))]),
  .loop [.assign "i" (.int 0)] (.block []) [] [.expr (.call "g" [])]]

theorem ofText_toText_everyNode : ofText (toText everyNode) = .ok everyNode := by
  have hfinite : StmtsFinite everyNode := by
    simp only [everyNode, StmtsFinite, Stmt.Finite, FunctionDecl.Finite, Expr.Finite, ExprsFinite]
    decide
  exact ofText_toText hfinite (by decide)

/-- What was read has finite literals, and its statements fit into the outermost object or array. -/
theorem fit_of_ofText (h : ofText t = .ok p) : StmtsFit (maxDepth - 1) p := by
  rw [ofText, decodeText] at h
  split at h
  · cases h
  · rename_i j hparse
    rcases takeAll_cases h with rfl | ⟨_, key, x, htake, hj⟩
    · exact ⟨trivial, Nat.zero_le _⟩
    · split at htake
      · rename_i hkey
        subst hkey
        have hread := expect_eq_ok.mp (Option.some.inj htake)
        refine fit_statements ?_ hread
        rcases hj with ⟨ms, rfl, hmem⟩ | ⟨xs, rfl, hmem⟩
        · exact admitted_of_parse_object hparse hmem isExtra_stmts
        · exact admitted_of_parse_array hparse isExtra_element x hmem
      · cases htake

/-- A tree that was read is written with at most one bracket too many, and read back unless it is. -/
theorem ofText_reencoded (h : ofText t = .ok p) : (blockToJson p).depth ≤ maxDepth + 1 ∧
    ofText (toText p) =
      if (blockToJson p).depth ≤ maxDepth then .ok p else .error .malformed := by
  obtain ⟨hfinite, hdepth⟩ := fit_of_ofText h
  refine ⟨?_, ofText_toText_of_finite hfinite⟩
  rw [depth_blockToJson]
  have hpos : 0 < maxDepth := by decide
  omega

/-- A block under that many signs; it has no member for its statements. -/
def bareNested : Nat → Json
  | 0 => .object [("kind", .string "block")]
  | n + 1 => .object [("kind", .string "unary"), ("op", .string "-"), ("operand", bareNested n)]

def negations : Nat → Expr
  | 0 => .block []
  | n + 1 => .neg (negations n)

def bareDocument (n : Nat) : Json :=
  .object [("stmts", .array [.object [("kind", .string "expr"), ("expr", bareNested n)]])]

/-- Each sign is one object more around the block. -/
theorem depth_bareNested (n : Nat) : (bareNested n).depth = n + 1 := by
  induction n with
  | zero => rfl
  | succ n ih => simp only [bareNested, depth, memberDepth, ih]; omega

/-- Written again, the block has the array for its statements, which the text left out. -/
theorem depth_negations (n : Nat) : (negations n).toJson.depth = n + 2 := by
  induction n with
  | zero => rfl
  | succ n ih => simp only [negations, Expr.toJson, depth, memberDepth, ih]; omega

theorem readable_bareNested (n : Nat) : (bareNested n).Readable := by
  induction n with
  | zero => exact ⟨trivial, trivial⟩
  | succ n ih => exact ⟨trivial, trivial, ih, trivial⟩

theorem ofJson?_bareNested : ∀ {n fuel : Nat}, n < fuel →
    Expr.ofJson? fuel (bareNested n).written = some (negations n)
  | 0, fuel + 1, _ => rfl
  | n + 1, fuel + 1, h => by
    have hoperand := ofJson?_bareNested (Nat.lt_of_succ_lt_succ h)
    simp [bareNested, negations, written, membersWritten, Expr.ofJson?, node?, tag?, kind?, required?,
      member?, variant?, hoperand]

theorem programOfJson_bareDocument {n : Nat} (h : n < 2 * maxDepth) :
    programOfJson (bareDocument n).written = .ok [.expr (negations n)] := by
  have hexpr := ofJson?_bareNested (show n < 2 * maxDepth + 1 by omega)
  have hstmt : Stmt.outermost? (.object [("kind", .string "expr"), ("expr", (bareNested n).written)]) =
      some (.expr (negations n)) := by
    rw [Stmt.outermost?, nodeDepth, Stmt.ofJson?]
    simp [node?, tag?, kind?, required?, member?, string?, hexpr]
  refine (programOfJson_stmts _).trans ?_
  simp [programOfJson.statements?, written, membersWritten, elementsWritten, hstmt, expect]

theorem ofText_bareDocument {n : Nat} (h : n ≤ 123) :
    ofText (bareDocument n).pretty = .ok [.expr (negations n)] := by
  have hdepth : (bareDocument n).depth ≤ maxDepth := by
    simp only [bareDocument, depth, elementDepth, memberDepth, depth_bareNested, maxDepth]
    omega
  have hparse : parse isExtra (bareDocument n).pretty = if (bareDocument n).depth ≤ maxDepth
      then .ok (bareDocument n).written else .error .malformed :=
    parse_stmts ⟨⟨trivial, readable_bareNested n, trivial⟩, trivial⟩
  rw [if_pos hdepth] at hparse
  rw [ofText_of_parse hparse, programOfJson_bareDocument (by simp only [maxDepth]; omega)]

theorem depth_blockToJson_negations (n : Nat) :
    (blockToJson [.expr (negations n)]).depth = n + 5 := by
  rw [depth_blockToJson]
  simp only [stmtsToJson, Stmt.toJson, depth, elementDepth, memberDepth, depth_negations]
  omega

/-- At the limit the list that is written out still fits. -/
theorem ofText_reencoded_limit : ofText (bareDocument 122).pretty = .ok [.expr (negations 122)] ∧
    ofText (toText [.expr (negations 122)]) = .ok [.expr (negations 122)] := by
  have hread : ofText (bareDocument 122).pretty = .ok [.expr (negations 122)] :=
    ofText_bareDocument (by decide)
  have hagain := (ofText_reencoded hread).2
  rw [depth_blockToJson_negations, if_pos (by decide)] at hagain
  exact ⟨hread, hagain⟩

/-- With one sign more the text is still read, but what is written for its tree is not. -/
theorem reencoding_refused : ofText (bareDocument 123).pretty = .ok [.expr (negations 123)] ∧
    ofText (toText [.expr (negations 123)]) = .error .malformed := by
  have hread : ofText (bareDocument 123).pretty = .ok [.expr (negations 123)] :=
    ofText_bareDocument (by decide)
  have hagain := ofText_toText_of_finite (fit_of_ofText hread).finite
  rw [depth_blockToJson_negations, if_neg (by decide)] at hagain
  exact ⟨hread, hagain⟩

end TreeLang.Tree
