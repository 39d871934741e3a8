import TreeLang.Proofs.Source.Normal
import TreeLang.Proofs.Source.Reader

namespace TreeLang.Tree

open Text

variable {fuel depth : Nat} {cs rest : List Char}

def Closes (rest : List Char) : Prop := ∀ c ∈ rest.head?, c ∈ [' ', ')', ',', ';']

def Ends (rest : List Char) : Prop := ∀ c ∈ rest.head?, c ∈ [')', ',', ';']

def Shuts (rest : List Char) : Prop := ∀ c ∈ rest.head?, c ∈ [')', ';']

theorem Shuts.ends (h : Shuts rest) : Ends rest := by
  have hall : ∀ c ∈ [')', ';'], c ∈ [')', ',', ';'] := by decide
  exact fun c hc => hall c (h c hc)

theorem Shuts.skip (h : Shuts rest) : skip ", " rest = none :=
  skip_eq_none rfl fun hc => absurd (h ',' hc) (by decide)

theorem Ends.closes (h : Ends rest) : Closes rest := fun c hc => List.mem_cons_of_mem _ (h c hc)

theorem Ends.skip (h : Ends rest) : skip " " rest = none :=
  skip_eq_none rfl fun hc => absurd (h ' ' hc) (by decide)

theorem Closes.noWord (h : Closes rest) : Until isWord rest := by
  have hall : ∀ c ∈ [' ', ')', ',', ';'], isWord c = false := by decide
  exact fun c hc => hall c (h c hc)

theorem Closes.stops (h : Closes rest) : Json.Stops rest := by
  have hall : ∀ c ∈ [' ', ')', ',', ';'], c.isDigit = false ∧ c ≠ '.' ∧ c ≠ 'e' ∧ c ≠ 'E' := by
    decide
  exact fun c hc => hall c (h c hc)

theorem Closes.skip (h : Closes rest) : skip "(" rest = none :=
  skip_eq_none rfl fun hc => absurd (h '(' hc) (by decide)

theorem closes_space (cs : List Char) : Closes (" ".toList ++ cs) := by
  rintro c ⟨⟩
  decide

theorem shuts_parenthesis (cs : List Char) : Shuts (")".toList ++ cs) := by
  rintro c ⟨⟩
  decide

theorem shuts_semicolon (cs : List Char) : Shuts (";".toList ++ cs) := by
  rintro c ⟨⟩
  decide

theorem ends_comma (cs : List Char) : Ends (", ".toList ++ cs) := by
  rintro c ⟨⟩
  decide

theorem readOperand_other {c : Char} (hc : c ∉ ['(', '-', '"', '\x7b']) :
    readOperand (fuel + 1) (c :: cs) =
      if c.isDigit then readNumber (c :: cs) else readNamed fuel (c :: cs) := by
  simp only [List.mem_cons, List.not_mem_nil, or_false, not_or] at hc
  obtain ⟨hopen, hminus, hquote, hbrace⟩ := hc
  rw [readOperand]
  · rfl
  · rintro cs ⟨⟩
    exact hopen rfl
  · rintro cs ⟨⟩
    exact hminus rfl
  · rintro cs ⟨⟩
    exact hquote rfl
  · rintro cs ⟨⟩
    exact hbrace rfl

theorem readOperand_digits {ds : List Char} (hne : ds ≠ []) (hds : ∀ c ∈ ds.head?, c.isDigit = true) :
    readOperand (fuel + 1) (ds ++ rest) = readNumber (ds ++ rest) := by
  cases ds with
  | nil => exact absurd rfl hne
  | cons c cs =>
    have hc := hds c rfl
    have hother : c ∉ ['(', '-', '"', '\x7b'] := by
      intro hmem
      have hall : ∀ c ∈ ['(', '-', '"', '\x7b'], c.isDigit = false := by decide
      rw [hall c hmem] at hc
      cases hc
    rw [List.cons_append, readOperand_other hother, if_pos hc]

theorem IsIdentifier.head {name : String} (h : IsIdentifier name) :
    ∃ c cs, name.toList = c :: cs ∧ isWord c = true ∧ c.isDigit = false := by
  cases hname : name.toList with
  | nil => exact absurd (String.toList_eq_nil_iff.mp hname) h.nonempty
  | cons c cs => exact ⟨c, cs, rfl, h.word c (by simp [hname]), h.digit c (by simp [hname])⟩

theorem readOperand_name {name : String} (hname : IsIdentifier name) :
    readOperand (fuel + 1) (name.toList ++ rest) = readNamed fuel (name.toList ++ rest) := by
  obtain ⟨c, cs, hcs, hword, hdigit⟩ := hname.head
  have hother : c ∉ ['(', '-', '"', '\x7b'] := by
    intro hmem
    have hall : ∀ c ∈ ['(', '-', '"', '\x7b'], isWord c = false := by decide
    rw [hall c hmem] at hword
    cases hword
  rw [hcs, List.cons_append, readOperand_other hother, if_neg (by rw [hdigit]; decide)]

theorem readOperand_minus {e : Expr} (h : readOperand fuel cs = some (e, rest)) :
    readOperand (fuel + 1) ('-' :: cs) = some (negated cs e, rest) := by
  rw [readOperand, h]
  rfl

theorem readOperand_paren {e : Expr} (h : readExpr fuel cs = some (e, ")".toList ++ rest)) :
    readOperand (fuel + 1) ('(' :: cs) = some (e, rest) := by
  rw [readOperand, h]
  rfl

theorem readNumber_toDigits {n : Nat} (hn : n < 2 ^ 32) (hrest : Closes rest) :
    readNumber (Nat.toDigits 10 n ++ rest) = some (.int (.ofNat n), rest) := by
  rw [readNumber, numeral_toDigits hn hrest.stops]
  rfl

/-- The literal of a double is read as that double. -/
theorem readNumber_literal {x : Double} (hx : x.isFinite = true) (hpos : x.negative = false)
    (hrest : Closes rest) :
    readNumber ((x.shortest.spelling .literal).chars ++ rest) = some (.double x, rest) := by
  obtain ⟨n, hn, hdouble, hread⟩ : ∃ n : Numeral, n.integral = false ∧ n.double = x ∧
      Json.numeral false x.negative ((x.shortest.spelling .literal).chars ++ rest) = .ok (n, rest) :=
    numeral_literal hx hrest.stops
  rw [hpos] at hread
  simp only [readNumber, hread, hn, hdouble, Bool.false_eq_true, if_false]

theorem readOperand_nat {n : Nat} (hn : n < 2 ^ 32) (hrest : Closes rest) :
    readOperand (fuel + 1) (Nat.toDigits 10 n ++ rest) = some (.int (.ofNat n), rest) := by
  rw [readOperand_digits Nat.toDigits_ne_nil fun c hc => isDigit_toDigits (List.mem_of_head? hc),
    readNumber_toDigits hn hrest]

theorem readOperand_magnitude {x : Double} (hx : x.isFinite = true) (hpos : x.negative = false)
    (hrest : Closes rest) : readOperand (fuel + 1) (x.literal.toList ++ rest) = some (.double x, rest) := by
  obtain ⟨c, cs, hcs, hc⟩ := (Decimal.regular_spelling .literal x.shortest).head
  rw [Double.literal_of_finite hx, hpos, if_neg (by decide), List.nil_append,
    readOperand_digits (by simp [hcs]) (by simpa [hcs] using hc), readNumber_literal hx hpos hrest]

/-- The absolute value of the least integer is that integer again, as it wraps around. -/
theorem ofNat_natAbs_of_neg {n : Int32} (h : n.toInt < 0) : Int32.ofNat n.toInt.natAbs = -n := by
  have habs : (n.toInt.natAbs : Int) = -n.toInt := by omega
  calc Int32.ofNat n.toInt.natAbs = Int32.ofInt n.toInt.natAbs := rfl
    _ = Int32.ofInt (-n.toInt) := by rw [habs]
    _ = -n := by rw [Int32.ofInt_neg, Int32.ofInt_toInt]

/-- An integer literal is read back, a negative one as a negation. -/
theorem readOperand_int (n : Int32) (hrest : Closes rest) :
    readOperand (fuel + 2) ((int32Text n).toList ++ rest) = some ((Expr.int n).normal, rest) := by
  have hlow := Int32.le_toInt n
  have hhigh := Int32.toInt_lt n
  have hsmall : n.toInt.natAbs < 2 ^ 32 := by omega
  rw [int32Text, toList_toString_int, Expr.normal]
  rcases lt_or_ge n.toInt 0 with hneg | hpos
  · have hlt : n < 0 := Int32.lt_iff_toInt_lt.mpr hneg
    have hhead : (Nat.toDigits 10 n.toInt.natAbs ++ rest).head? ≠ some '-' := by
      rw [List.head?_append_of_ne_nil _ Nat.toDigits_ne_nil]
      intro h
      have hdigit := isDigit_toDigits (List.mem_of_head? h)
      cases hdigit
    rw [if_pos hneg, List.append_assoc, List.singleton_append,
      readOperand_minus (readOperand_nat hsmall hrest), ofNat_natAbs_of_neg hneg, negated]
    by_cases hmin : n = Int32.minValue
    · subst hmin
      rw [if_pos ⟨rfl, hhead⟩, if_neg fun h => h.2 rfl]
      rfl
    · have hother : -n ≠ Int32.minValue := fun h => hmin (by rw [← Int32.neg_neg (a := n), h]; rfl)
      rw [if_neg fun h => hother h.1, if_pos ⟨hlt, hmin⟩]
  · have hge : ¬ n < 0 := fun h => by
      have hlt : n.toInt < 0 := Int32.lt_iff_toInt_lt.mp h
      omega
    have hvalue : Int32.ofNat n.toInt.natAbs = n := by
      have habs : (n.toInt.natAbs : Int) = n.toInt := by omega
      change Int32.ofInt n.toInt.natAbs = n
      rw [habs, Int32.ofInt_toInt]
    rw [if_neg (by omega), List.nil_append, readOperand_nat hsmall hrest, hvalue,
      if_neg fun h => hge h.1]

theorem readOperand_double {x : Double} (hx : x.isFinite = true) (hrest : Closes rest) :
    readOperand (fuel + 2) (x.literal.toList ++ rest) = some ((Expr.double x).normal, rest) := by
  rw [Expr.normal]
  cases hneg : x.negative with
  | false => exact readOperand_magnitude hx hneg hrest
  | true =>
    have habs : x.abs.isFinite = true := (Double.isFinite_abs x).trans hx
    rw [Double.literal_of_negative hx hneg, List.cons_append,
      readOperand_minus (readOperand_magnitude habs (Double.negative_abs x) hrest)]
    rfl

/-- The least integer is the only one that is read with its sign, so a second sign is a negation. -/
theorem negated_normal (e : Expr) (depth : Nat) (rest : List Char) :
    negated ((parenthesize e.isCompound (e.sourceAt depth)).toList ++ rest) e.normal =
      .neg e.normal := by
  cases e with
  | int n =>
    rw [Expr.normal]
    split
    · rfl
    · rename_i h
      rw [negated]
      by_cases hmin : n = Int32.minValue
      · subst hmin
        refine if_neg fun h => h.2 ?_
        change ((toString Int32.minValue.toInt).toList ++ rest).head? = some '-'
        rw [toList_toString_int]
        rfl
      · rw [if_neg fun h => hmin h.1]
  | double x =>
    rw [Expr.normal]
    split <;> rfl
  | _ => rfl

theorem readOperand_eq_none (h : ∀ c ∈ cs.head?, c ∈ [')', ';', ' ', '\x7d']) :
    readOperand fuel cs = none := by
  have hall : ∀ c ∈ [')', ';', ' ', '\x7d'], c ∉ ['(', '-', '"', '\x7b'] ∧ c.isDigit = false ∧
      isWord c = false := by decide
  have hnamed : ∀ fuel, readNamed fuel cs = none := by
    have hword := readWord_eq_empty fun c hc => (hall c (h c hc)).2.2
    rintro (_ | fuel)
    · rfl
    · rw [readNamed, hword]
      rfl
  match fuel, cs with
  | 0, _ => rfl
  | fuel + 1, [] => exact hnamed fuel
  | fuel + 1, c :: cs =>
    obtain ⟨hother, hdigit, -⟩ := hall c (h c rfl)
    rw [readOperand_other hother, hdigit, if_neg (by decide), hnamed]

/-- No expression begins with what may stand behind one. -/
theorem readExpr_eq_none (h : ∀ c ∈ cs.head?, c ∈ [')', ';', ' ', '\x7d']) :
    readExpr fuel cs = none := by
  cases fuel with
  | zero => rfl
  | succ fuel =>
    rw [readExpr, readOperand_eq_none h]
    rfl

/-- The expression is read from its text, alone as well as next to an operator. -/
structure Expr.ReadBack (e : Expr) : Prop where
  operand : ∀ fuel depth rest, 6 * sizeOf e < fuel → Closes rest →
    readOperand fuel ((parenthesize e.isCompound (e.sourceAt depth)).toList ++ rest) =
      some (e.normal, rest)
  expr : ∀ fuel depth rest, 6 * sizeOf e ≤ fuel → Ends rest →
    readExpr fuel ((e.sourceAt depth).toList ++ rest) = some (e.normal, rest)

theorem Expr.one_le_sizeOf (e : Expr) : 1 ≤ sizeOf e := by
  cases e <;> simp only [Expr.int.sizeOf_spec, Expr.double.sizeOf_spec, Expr.str.sizeOf_spec,
    Expr.ident.sizeOf_spec, Expr.neg.sizeOf_spec, Expr.binary.sizeOf_spec, Expr.assign.sizeOf_spec,
    Expr.call.sizeOf_spec, Expr.block.sizeOf_spec] <;> omega

/-- An expression that needs no parentheses is read as an operand. -/
theorem Expr.ReadBack.of_bare {e : Expr} (hbare : e.isCompound = false)
    (h : ∀ fuel depth rest, 6 * sizeOf e ≤ fuel + 1 → Closes rest →
      readOperand fuel ((e.sourceAt depth).toList ++ rest) = some (e.normal, rest)) : e.ReadBack where
  operand fuel depth rest hfuel hrest := by
    rw [hbare]
    exact h fuel depth rest (by omega) hrest
  expr fuel depth rest hfuel hrest := by
    have hpos := e.one_le_sizeOf
    obtain ⟨fuel, rfl⟩ : ∃ f, fuel = f + 1 := ⟨fuel - 1, by omega⟩
    rw [readExpr, h fuel depth rest hfuel hrest.closes]
    simp only [Option.bind_eq_bind, Option.bind_some, hrest.skip, Option.pure_def]

/-- As an operand, a compound expression is read between its parentheses. -/
theorem Expr.ReadBack.of_compound {e : Expr} (hcompound : e.isCompound = true)
    (h : ∀ fuel depth rest, 6 * sizeOf e ≤ fuel → Ends rest →
      readExpr fuel ((e.sourceAt depth).toList ++ rest) = some (e.normal, rest)) : e.ReadBack where
  operand fuel depth rest hfuel hrest := by
    obtain ⟨fuel, rfl⟩ : ∃ f, fuel = f + 1 := ⟨fuel - 1, by omega⟩
    have hexpr := h fuel depth (")".toList ++ rest) (by omega) (shuts_parenthesis rest).ends
    rw [hcompound, parenthesize, if_pos rfl, String.toList_append, String.toList_append,
      List.append_assoc, List.append_assoc]
    exact readOperand_paren hexpr
  expr := h

theorem readOperand_ident {name : String} (hname : IsIdentifier name) (hrest : Closes rest) :
    readOperand (fuel + 2) (name.toList ++ rest) = some (.ident name, rest) := by
  rw [readOperand_name hname, readNamed, readWord_append hname.word hrest.noWord]
  simp only [hname.nonempty, if_false, hrest.skip]

theorem readBack_ident {name : String} (hname : IsIdentifier name) : (Expr.ident name).ReadBack := by
  refine .of_bare rfl fun fuel depth rest hfuel hrest => ?_
  simp only [Expr.ident.sizeOf_spec] at hfuel
  obtain ⟨fuel, rfl⟩ : ∃ f, fuel = f + 2 := ⟨fuel - 2, by omega⟩
  exact readOperand_ident hname hrest

theorem readBack_int (n : Int32) : (Expr.int n).ReadBack := by
  refine .of_bare rfl fun fuel depth rest hfuel hrest => ?_
  simp only [Expr.int.sizeOf_spec] at hfuel
  obtain ⟨fuel, rfl⟩ : ∃ f, fuel = f + 2 := ⟨fuel - 2, by omega⟩
  exact readOperand_int n hrest

theorem readBack_double {x : Double} (hx : x.isFinite = true) : (Expr.double x).ReadBack := by
  refine .of_bare rfl fun fuel depth rest hfuel hrest => ?_
  simp only [Expr.double.sizeOf_spec] at hfuel
  obtain ⟨fuel, rfl⟩ : ∃ f, fuel = f + 2 := ⟨fuel - 2, by omega⟩
  exact readOperand_double hx hrest

theorem readBack_str (s : String) : (Expr.str s).ReadBack := by
  refine .of_bare rfl fun fuel depth rest hfuel hrest => ?_
  simp only [Expr.str.sizeOf_spec] at hfuel
  obtain ⟨fuel, rfl⟩ : ∃ f, fuel = f + 1 := ⟨fuel - 1, by omega⟩
  rw [Expr.sourceAt, toList_quote, quoteChars, List.cons_append, List.cons_append, List.append_assoc,
    readOperand, List.singleton_append, unquote_quoted]
  simp [Expr.normal]

theorem readBack_neg {e : Expr} (h : e.ReadBack) : (Expr.neg e).ReadBack := by
  refine .of_bare rfl fun fuel depth rest hfuel hrest => ?_
  simp only [Expr.neg.sizeOf_spec] at hfuel
  obtain ⟨fuel, rfl⟩ : ∃ f, fuel = f + 1 := ⟨fuel - 1, by omega⟩
  have hoperand := readOperand_minus (h.operand fuel depth rest (by omega) hrest)
  rw [negated_normal] at hoperand
  rwa [Expr.sourceAt, String.toList_append, List.append_assoc]

theorem skip_symbol (op : BinaryOp) (cs : List Char) :
    skip "= " (op.symbol.toList ++ (" ".toList ++ cs)) = none := by
  cases op <;> rfl

/-- No operator symbol is the beginning of another one with a space behind it. -/
theorem readOperator_symbol (op : BinaryOp) (cs : List Char) :
    readOperator (op.symbol.toList ++ (" ".toList ++ cs)) = some (op, cs) := by
  cases op <;> rfl

/-- Both operands of an operation are in parentheses where they are compound, so the operator is found
between them. -/
theorem readBack_binary (op : BinaryOp) {lhs rhs : Expr} (hlhs : lhs.ReadBack) (hrhs : rhs.ReadBack) :
    (Expr.binary op lhs rhs).ReadBack := by
  refine .of_compound rfl fun fuel depth rest hfuel hrest => ?_
  simp only [Expr.binary.sizeOf_spec] at hfuel
  obtain ⟨fuel, rfl⟩ : ∃ f, fuel = f + 1 := ⟨fuel - 1, by omega⟩
  have hright := hrhs.operand fuel depth rest (by omega) hrest.closes
  simp only [Expr.sourceAt, String.toList_append, List.append_assoc]
  rw [readExpr, hlhs.operand fuel depth _ (by omega) (closes_space _)]
  simp only [Option.bind_eq_bind, Option.bind_some, skip_append, skip_symbol, readOperator_symbol,
    hright, Option.pure_def, Expr.normal]

theorem readBack_assign {target : String} {value : Expr} (htarget : IsIdentifier target)
    (hvalue : value.ReadBack) : (Expr.assign target value).ReadBack := by
  refine .of_compound rfl fun fuel depth rest hfuel hrest => ?_
  simp only [Expr.assign.sizeOf_spec] at hfuel
  obtain ⟨fuel, rfl⟩ : ∃ f, fuel = f + 3 := ⟨fuel - 3, by omega⟩
  have hright := hvalue.expr (fuel + 2) depth rest (by omega) hrest
  have hequals : ∀ cs, " = ".toList ++ cs = " ".toList ++ ("= ".toList ++ cs) := fun _ => rfl
  simp only [Expr.sourceAt, String.toList_append, List.append_assoc, hequals]
  rw [readExpr, readOperand_ident htarget (closes_space _)]
  simp only [Option.bind_eq_bind, Option.bind_some, skip_append, hright, Option.pure_def, Expr.normal]

/-- The expressions are read from a text with commas between them. -/
def ExprsReadBack (es : List Expr) : Prop :=
  ∀ fuel rest, 6 * sizeOf es ≤ fuel → Shuts rest →
    readExprs fuel ((", ".intercalate (sourcesOfExprs es)).toList ++ rest) = (normalExprs es, rest)

theorem readBack_nil : ExprsReadBack [] := by
  intro fuel rest hfuel hrest
  obtain ⟨fuel, rfl⟩ : ∃ f, fuel = f + 1 := ⟨fuel - 1, by simp at hfuel; omega⟩
  have hnone : readExpr fuel rest = none :=
    readExpr_eq_none fun c hc => List.mem_of_mem_take (i := 2) (hrest c hc)
  change readExprs (fuel + 1) rest = _
  rw [readExprs, hnone]
  rfl

theorem readBack_cons {e : Expr} {es : List Expr} (he : e.ReadBack) (hes : ExprsReadBack es) :
    ExprsReadBack (e :: es) := by
  intro fuel rest hfuel hrest
  simp only [List.cons.sizeOf_spec] at hfuel
  obtain ⟨fuel, rfl⟩ : ∃ f, fuel = f + 1 := ⟨fuel - 1, by omega⟩
  match es with
  | [] =>
    rw [sourcesOfExprs, sourcesOfExprs, String.intercalate_singleton, readExprs,
      he.expr fuel 0 rest (by omega) hrest.ends]
    simp only [hrest.skip, normalExprs]
  | e' :: es =>
    have htail := hes fuel rest (by omega) hrest
    rw [sourcesOfExprs] at htail
    rw [sourcesOfExprs, sourcesOfExprs, String.intercalate_cons_cons, String.toList_append,
      String.toList_append, List.append_assoc, List.append_assoc, readExprs,
      he.expr fuel 0 _ (by omega) (ends_comma _)]
    simp only [skip_append, htail, normalExprs]

/-- The arguments are read up to the closing parenthesis. -/
theorem readBack_call {callee : String} {args : List Expr} (hcallee : IsIdentifier callee)
    (hargs : ExprsReadBack args) : (Expr.call callee args).ReadBack := by
  refine .of_bare rfl fun fuel depth rest hfuel hrest => ?_
  simp only [Expr.call.sizeOf_spec] at hfuel
  obtain ⟨fuel, rfl⟩ : ∃ f, fuel = f + 2 := ⟨fuel - 2, by omega⟩
  have hlist := hargs fuel (")".toList ++ rest) (by omega) (shuts_parenthesis rest)
  have hopen : ∀ cs, Until isWord ("(".toList ++ cs) := by
    rintro cs c ⟨⟩
    decide
  simp only [Expr.sourceAt, String.toList_append, List.append_assoc]
  rw [readOperand_name hcallee, readNamed, readWord_append hcallee.word (hopen _)]
  simp only [hcallee.nonempty, if_false, skip_append, hlist, Option.bind_eq_bind, Option.bind_some,
    Option.pure_def, Expr.normal]

end TreeLang.Tree
