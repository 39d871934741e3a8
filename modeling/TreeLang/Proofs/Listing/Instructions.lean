import TreeLang.Ir.Text
import TreeLang.Proofs.Builder.Legal
import TreeLang.Proofs.Text.Literals
import TreeLang.Proofs.Text.Words

namespace TreeLang.Ir

open Text

variable {rest : List Char}

def readNumbered (name : String) (cs : List Char) : Option (Nat × List Char) :=
  (skip name cs).map fun cs =>
    let (ds, cs) := readWhile Char.isDigit cs
    (Nat.ofDigitChars 10 ds.toList 0, cs)

theorem readNumbered_append (name : String) (n : Nat) (hrest : Until Char.isDigit rest) :
    readNumbered name ((name ++ toString n).toList ++ rest) = some (n, rest) := by
  have hdigits : ∀ c ∈ (toString n).toList, c.isDigit = true := by
    rw [Json.toList_toString_nat]
    exact fun c => isDigit_toDigits
  rw [readNumbered, String.toList_append, List.append_assoc, skip_append, Option.map_some,
    readWhile_append hdigits hrest]
  simp only [Json.toList_toString_nat, Nat.ofDigitChars_ten_toDigits]

def Operand.Finite : Operand → Prop
  | .constant (.f64 x) => x.isFinite = true
  | _ => True

instance : DecidablePred Operand.Finite
  | .constant (.f64 x) => inferInstanceAs (Decidable (x.isFinite = true))
  | .constant (.bool _) | .constant (.i32 _) | .temp _ | .param _ | .str _ => .isTrue trivial

def isAtom (c : Char) : Bool :=
  isNumeric c || c = '_' || c = '@'

def number? (negative : Bool) (cs : List Char) : Option Operand :=
  match Json.numeral false negative cs with
  | .ok (n, []) =>
    some (if n.integral then .int (.ofInt (if negative then -n.digits else n.digits))
      else .float n.double)
  | _ => none

def operand? : List Char → Option Operand
  | 't' :: cs =>
    some (if cs = "rue".toList then .constant (.bool true) else .temp (Nat.ofDigitChars 10 cs 0))
  | 'f' :: _ => some (.constant (.bool false))
  | 'p' :: cs => some (.param (Nat.ofDigitChars 10 cs 0))
  | '@' :: cs => (readNumbered "_str" cs).map fun (id, _) => .str id
  | '-' :: cs => number? true cs
  | cs => number? false cs

theorem operand?_digit {c : Char} {cs : List Char} (hc : c.isDigit = true) :
    operand? (c :: cs) = number? false (c :: cs) := by
  rw [operand?.eq_def]
  split <;> first | rfl | (rename_i h; cases h; cases hc)

theorem number?_toDigits (negative : Bool) {n : Nat} (hn : n < 2 ^ 32) :
    number? negative (Nat.toDigits 10 n) =
      some (.int (.ofInt (if negative then -n else n))) := by
  have hread : Json.numeral false negative (Nat.toDigits 10 n ++ []) = .ok (⟨negative, n, 0, true⟩, []) :=
    numeral_toDigits hn fun _ hc => nomatch hc
  rw [List.append_nil] at hread
  simp only [number?, hread, if_true]

theorem operand?_int (n : Int32) : operand? (toString n.toInt).toList = some (.int n) := by
  have hlow := Int32.le_toInt n
  have hhigh := Int32.toInt_lt n
  have hsmall : n.toInt.natAbs < 2 ^ 32 := by omega
  rw [toList_toString_int]
  split
  · rename_i hneg
    have habs : (-(n.toInt.natAbs : Int)) = n.toInt := by omega
    rw [List.singleton_append, operand?, number?_toDigits true hsmall, if_pos rfl, habs,
      Int32.ofInt_toInt]
  · rename_i hpos
    have habs : (n.toInt.natAbs : Int) = n.toInt := by omega
    have hnumber := number?_toDigits false hsmall
    rw [if_neg (by decide), habs, Int32.ofInt_toInt] at hnumber
    cases hds : Nat.toDigits 10 n.toInt.natAbs with
    | nil => exact absurd hds Nat.toDigits_ne_nil
    | cons d ds =>
      have hd : d.isDigit = true := isDigit_toDigits (hds ▸ List.mem_cons_self)
      rw [List.nil_append, operand?_digit hd, ← hds, hnumber]

theorem operand?_literal {x : Double} (hx : x.isFinite = true) :
    operand? x.literal.toList = some (.float x) := by
  obtain ⟨n, hintegral, rfl, hread⟩ : ∃ n : Numeral, n.integral = false ∧ n.double = x ∧
      Json.numeral false x.negative ((x.shortest.spelling .literal).chars ++ []) = .ok (n, []) :=
    numeral_literal hx fun _ hc => nomatch hc
  have hnumber : number? n.double.negative (n.double.shortest.spelling .literal).chars =
      some (.float n.double) := by
    rw [List.append_nil] at hread
    simp only [number?, hread, hintegral, Bool.false_eq_true, if_false]
  rw [Double.literal_of_finite hx]
  cases hneg : n.double.negative with
  | true =>
    rw [hneg] at hnumber
    exact hnumber
  | false =>
    obtain ⟨c, cs, hcs, hc⟩ := (Decimal.regular_spelling .literal n.double.shortest).head
    rw [hneg, hcs] at hnumber
    rw [if_neg (by decide), List.nil_append, hcs, operand?_digit hc, hnumber]

/-- An operand is told by its first character, and `true` from a temporary by the whole word. -/
theorem operand?_text {o : Operand} (h : o.Finite) : operand? o.text.toList = some o := by
  match o with
  | .temp id =>
    have htext : (tempText id).toList = 't' :: Nat.toDigits 10 id := by
      rw [tempText, String.toList_append, Json.toList_toString_nat]
      rfl
    have hword : Nat.toDigits 10 id ≠ "rue".toList := fun heq => by
      have hmem : 'r' ∈ Nat.toDigits 10 id := heq ▸ (by decide : 'r' ∈ "rue".toList)
      cases isDigit_toDigits hmem
    rw [Operand.text, htext, operand?, if_neg hword, Nat.ofDigitChars_ten_toDigits]
  | .param index =>
    have htext : (paramText index).toList = 'p' :: Nat.toDigits 10 index := by
      rw [paramText, String.toList_append, Json.toList_toString_nat]
      rfl
    rw [Operand.text, htext, operand?, Nat.ofDigitChars_ten_toDigits]
  | .constant (.bool true) => rfl
  | .constant (.bool false) => rfl
  | .constant (.i32 value) => exact operand?_int value
  | .constant (.f64 value) => exact operand?_literal h
  | .str id =>
    have hread := readNumbered_append "_str" id until_nil
    rw [List.append_nil] at hread
    have htext : (stringText id).toList = '@' :: ("_str" ++ toString id).toList := by
      rw [stringText, String.toList_append]
      rfl
    rw [Operand.text, htext, operand?, hread]
    rfl

theorem isAtom_of_isNumeric {c : Char} (h : isNumeric c = true) : isAtom c = true := by
  simp [isAtom, h]

theorem isAtom_toString (n : Nat) : ∀ c ∈ (toString n).toList, isAtom c = true := by
  rw [Json.toList_toString_nat]
  exact fun c hc => isAtom_of_isNumeric (isNumeric_toDigits n c hc)

theorem isAtom_text (o : Operand) : ∀ c ∈ o.text.toList, isAtom c = true := by
  match o with
  | .temp id =>
    rw [Operand.text, tempText, String.toList_append]
    exact List.forall_mem_append.mpr ⟨by decide, isAtom_toString id⟩
  | .param index =>
    rw [Operand.text, paramText, String.toList_append]
    exact List.forall_mem_append.mpr ⟨by decide, isAtom_toString index⟩
  | .constant (.bool true) => decide
  | .constant (.bool false) => decide
  | .constant (.i32 value) => exact fun c hc => isAtom_of_isNumeric (isNumeric_toString _ c hc)
  | .constant (.f64 value) => exact fun c hc => isAtom_of_isNumeric (value.isNumeric_literal c hc)
  | .str id =>
    rw [Operand.text, stringText, stringSymbol, String.toList_append, String.toList_append]
    exact List.forall_mem_append.mpr
      ⟨by decide, List.forall_mem_append.mpr ⟨by decide, isAtom_toString id⟩⟩

def readOperand (cs : List Char) : Option (Operand × List Char) :=
  let (word, cs) := readWhile isAtom cs
  (operand? word.toList).map (·, cs)

/-- An operand is read off where a character follows that no operand has. -/
theorem readOperand_append {o : Operand} (h : o.Finite) (hrest : Until isAtom rest) :
    readOperand (o.text.toList ++ rest) = some (o, rest) := by
  rw [readOperand, readWhile_append (isAtom_text o) hrest]
  simp only [operand?_text h, Option.map_some]

def ofWord? (word : String) : Option Ty :=
  [Ty.bool, .i32, .f64, .ptr, .void].find? (·.text == word)

theorem ofWord?_text (ty : Ty) : ofWord? ty.text = some ty := by
  cases ty <;> rfl

/-- No two types are written alike. -/
theorem Ty.text_injective {ty ty' : Ty} (h : ty.text = ty'.text) : ty = ty' := by
  have hword := ofWord?_text ty
  rw [h, ofWord?_text] at hword
  exact (Option.some.inj hword).symm

def readTy (cs : List Char) : Option (Ty × List Char) :=
  let (word, cs) := readWord cs
  (ofWord? word).map (·, cs)

theorem readTy_append (ty : Ty) (hrest : Until isWord rest) :
    readTy (ty.text.toList ++ rest) = some (ty, rest) := by
  have hword : ∀ c ∈ ty.text.toList, isWord c = true := by cases ty <;> decide
  rw [readTy, readWord_append hword hrest]
  simp only [ofWord?_text, Option.map_some]

/-- As many operands as there are, with commas between them. Each takes one unit of fuel. -/
def readArgs : Nat → List Char → List Operand × List Char
  | 0, cs => ([], cs)
  | fuel + 1, cs =>
    match readOperand cs with
    | none => ([], cs)
    | some (o, cs) =>
      match skip ", " cs with
      | none => ([o], cs)
      | some cs =>
        let (os, cs) := readArgs fuel cs
        (o :: os, cs)

/-- The operands of a call are read up to the closing bracket. -/
theorem readArgs_text : ∀ (args : List Operand) (fuel : Nat) (rest : List Char),
    (∀ o ∈ args, o.Finite) → args.length ≤ fuel →
    readArgs fuel ((operandsText args).toList ++ (")".toList ++ rest)) = (args, ")".toList ++ rest)
  | [], fuel, rest, _, _ => by
    change readArgs fuel (")".toList ++ rest) = _
    cases fuel with
    | zero => rfl
    | succ fuel => rfl
  | [o], fuel, rest, hfinite, hfuel => by
    obtain ⟨fuel, rfl⟩ : ∃ f, fuel = f + 1 := ⟨fuel - 1, by simp at hfuel; omega⟩
    have hcomma : skip ", " (")".toList ++ rest) = none := rfl
    rw [operandsText, List.map_singleton, String.intercalate_singleton, readArgs,
      readOperand_append (hfinite o List.mem_cons_self) (until_text (by decide) _)]
    simp only [hcomma]
  | o :: o' :: os, fuel, rest, hfinite, hfuel => by
    obtain ⟨fuel, rfl⟩ : ∃ f, fuel = f + 1 := ⟨fuel - 1, by simp at hfuel; omega⟩
    have htail := readArgs_text (o' :: os) fuel rest (fun p hp => hfinite p (List.mem_cons_of_mem _ hp))
      (by simpa using hfuel)
    rw [operandsText, List.map_cons] at htail
    rw [operandsText, List.map_cons, List.map_cons, String.intercalate_cons_cons, String.toList_append,
      String.toList_append, List.append_assoc, List.append_assoc, readArgs,
      readOperand_append (hfinite o List.mem_cons_self) (until_text (by decide) _)]
    simp only [skip_append, htail]

def readCall (fuel : Nat) (cs : List Char) : Option (String × List Operand) := do
  let cs ← skip "@" cs
  let (callee, cs) := readWord cs
  let cs ← skip "(" cs
  let (args, _) := readArgs fuel cs
  return (callee, args)

theorem readCall_text {callee : String} {args : List Operand} {fuel : Nat}
    (hcallee : IsName callee) (hargs : ∀ o ∈ args, o.Finite)
    (hfuel : args.length ≤ fuel) :
    readCall fuel ("@".toList ++ (callee.toList ++ ("(".toList ++ ((operandsText args).toList ++
      ")".toList)))) = some (callee, args) := by
  have hread := readArgs_text args fuel [] hargs hfuel
  rw [List.append_nil] at hread
  rw [readCall]
  simp only [skip_append, Option.bind_eq_bind, Option.bind_some]
  rw [readWord_append hcallee (until_text (by decide) _)]
  simp only [skip_append, hread, Option.bind_some, Option.pure_def]

/-- The text of an instruction, with the name of a slot behind its allocation. -/
def Instruction.annotated : Instruction → String
  | .alloca slot ty name => (Instruction.alloca slot ty name).text true ++ "  ; " ++ name
  | i => i.text true

def binOp? (word : String) : Option BinOp :=
  [BinOp.add, .sub, .mul, .div, .eq, .ne, .lt, .gt, .le, .ge].find? (·.mnemonic == word)

def readEffect (fuel : Nat) (first : String) (cs : List Char) : Option Instruction := do
  let cs ← skip " " cs
  if first = "call" then
    let (callee, args) ← readCall fuel cs
    return .call none callee args .void
  else
    let ty ← skip "store." first.toList
    let (ty, _) ← readTy ty
    let (slot, cs) ← readNumbered "slot" cs
    let cs ← skip ", " cs
    let (value, _) ← readOperand cs
    return .store slot value ty

/-- An instruction with a result, from the type behind its mnemonic on. -/
def readTyped (fuel : Nat) (result : Operand) (op : String) (cs : List Char) :
    Option Instruction := do
  let cs ← skip "." cs
  let (ty, cs) ← readTy cs
  let cs ← skip " " cs
  if op = "load" then
    let (slot, _) ← readNumbered "slot" cs
    return .load result slot ty
  else if op = "neg" then
    let (operand, _) ← readOperand cs
    return .neg result operand ty
  else if op = "call" then
    let (callee, args) ← readCall fuel cs
    return .call (some result) callee args ty
  else
    let op ← binOp? op
    let (left, cs) ← readOperand cs
    let cs ← skip ", " cs
    let (right, _) ← readOperand cs
    return .binary op result left right ty

def readDefinition (fuel : Nat) (first : String) (cs : List Char) : Option Instruction := do
  let (op, cs) := readWord cs
  if op = "alloca" then
    let (slot, _) ← readNumbered "slot" first.toList
    let cs ← skip " " cs
    let (ty, cs) ← readTy cs
    let cs ← skip "  ; " cs
    return .alloca slot ty (.ofList cs)
  else
    let result ← operand? first.toList
    if op = "cast" then
      let cs ← skip " " cs
      let (value, cs) ← readOperand cs
      let cs ← skip ", " cs
      let (source, cs) ← readTy cs
      let cs ← skip " -> " cs
      let (target, _) ← readTy cs
      return .cast result value source target
    else readTyped fuel result op cs

/-- An instruction is told by its mnemonic, which stands behind a result or in front of all. -/
def readInstruction (fuel : Nat) (cs : List Char) : Option Instruction :=
  let (first, cs) := readWhile isAtom cs
  match skip " = " cs with
  | some cs => readDefinition fuel first cs
  | none => readEffect fuel first cs

/-- Instructions that show all they are: names are words, and a call without a result has no type. -/
structure Instruction.Shown (i : Instruction) : Prop where
  result : ∀ o ∈ i.result?, o.Finite
  operands : ∀ o ∈ i.operands, o.Finite
  slot : ∀ {slot : Nat} {ty : Ty} {name : String}, i = .alloca slot ty name → IsName name
  callee : ∀ {result : Option Operand} {callee : String} {args : List Operand} {returns : Ty},
    i = .call result callee args returns → IsName callee ∧ (result = none → returns = .void)

variable {fuel slot : Nat} {ty source target : Ty} {result value left right : Operand}
  {name callee : String} {args : List Operand}

theorem isAtom_slotText (slot : Nat) : ∀ c ∈ (slotText slot).toList, isAtom c = true := by
  rw [slotText, String.toList_append]
  exact List.forall_mem_append.mpr ⟨by decide, isAtom_toString slot⟩

theorem readNumbered_all (name : String) (n : Nat) :
    readNumbered name (name ++ toString n).toList = some (n, []) := by
  have hread := readNumbered_append name n until_nil
  rwa [List.append_nil] at hread

theorem readOperand_text (h : value.Finite) : readOperand value.text.toList = some (value, []) := by
  have hread := readOperand_append h until_nil
  rwa [List.append_nil] at hread

theorem readTy_text (ty : Ty) : readTy ty.text.toList = some (ty, []) := by
  have hread := readTy_append ty until_nil
  rwa [List.append_nil] at hread

/-- A name followed by an equals sign begins an instruction with a result. -/
theorem readInstruction_definition {cs : List Char} (hname : ∀ c ∈ name.toList, isAtom c = true) :
    readInstruction fuel (name.toList ++ (" = ".toList ++ cs)) = readDefinition fuel name cs := by
  rw [readInstruction, readWhile_append hname (until_text (by decide) _)]
  simp only [skip_append]

theorem readInstruction_alloca :
    readInstruction fuel (Instruction.alloca slot ty name).annotated.toList =
      some (.alloca slot ty name) := by
  have hop : ∀ cs, " = alloca ".toList ++ cs = " = ".toList ++ ("alloca".toList ++ (" ".toList ++ cs)) :=
    fun _ => rfl
  simp only [Instruction.annotated, Instruction.text, String.toList_append, List.append_assoc, hop]
  rw [readInstruction_definition (isAtom_slotText slot), readDefinition,
    readWord_append (by decide) (until_text (by decide) _)]
  simp only [if_true, slotText, readNumbered_all, skip_append, Option.bind_eq_bind, Option.bind_some]
  rw [readTy_append ty (until_text (by decide) _)]
  simp only [skip_append, Option.bind_some, Option.pure_def, String.ofList_toList]

theorem readInstruction_cast (hresult : result.Finite) (hvalue : value.Finite) :
    readInstruction fuel ((Instruction.cast result value source target).text true).toList =
      some (.cast result value source target) := by
  have hop : ∀ cs, " = cast ".toList ++ cs = " = ".toList ++ ("cast".toList ++ (" ".toList ++ cs)) :=
    fun _ => rfl
  have hne : ¬ "cast" = "alloca" := by decide
  simp only [Instruction.text, String.toList_append, List.append_assoc, hop]
  rw [readInstruction_definition (isAtom_text result), readDefinition,
    readWord_append (by decide) (until_text (by decide) _)]
  simp only [hne, if_false, if_true, operand?_text hresult, skip_append, Option.bind_eq_bind,
    Option.bind_some]
  rw [readOperand_append hvalue (until_text (by decide) _)]
  simp only [skip_append, Option.bind_some]
  rw [readTy_append source (until_text (by decide) _)]
  simp only [skip_append, readTy_text, Option.bind_some, Option.pure_def]

theorem readInstruction_typed {op : String} {cs : List Char} (hresult : result.Finite)
    (hop : ∀ c ∈ op.toList, isWord c = true) (halloca : op ≠ "alloca") (hcast : op ≠ "cast") :
    readInstruction fuel (result.text.toList ++ (" = ".toList ++ (op.toList ++ (".".toList ++ cs)))) =
      readTyped fuel result op (".".toList ++ cs) := by
  rw [readInstruction_definition (isAtom_text result), readDefinition,
    readWord_append hop (until_text (by decide) _)]
  simp only [halloca, hcast, if_false, operand?_text hresult, Option.bind_eq_bind, Option.bind_some]

theorem readInstruction_load (hresult : result.Finite) :
    readInstruction fuel ((Instruction.load result slot ty).text true).toList =
      some (.load result slot ty) := by
  have hop : ∀ cs, " = load".toList ++ cs = " = ".toList ++ ("load".toList ++ cs) := fun _ => rfl
  simp only [Instruction.text, suffix, if_true, String.toList_append, List.append_assoc, hop]
  rw [readInstruction_typed hresult (by decide) (by decide) (by decide), readTyped]
  simp only [skip_append, Option.bind_eq_bind, Option.bind_some]
  rw [readTy_append ty (until_text (by decide) _)]
  simp only [if_true, slotText, skip_append, readNumbered_all, Option.bind_some, Option.pure_def]

theorem readInstruction_neg (hresult : result.Finite) (hvalue : value.Finite) :
    readInstruction fuel ((Instruction.neg result value ty).text true).toList =
      some (.neg result value ty) := by
  have hop : ∀ cs, " = neg".toList ++ cs = " = ".toList ++ ("neg".toList ++ cs) := fun _ => rfl
  have hne : ¬ "neg" = "load" := by decide
  simp only [Instruction.text, suffix, if_true, String.toList_append, List.append_assoc, hop]
  rw [readInstruction_typed hresult (by decide) (by decide) (by decide), readTyped]
  simp only [skip_append, Option.bind_eq_bind, Option.bind_some]
  rw [readTy_append ty (until_text (by decide) _)]
  simp only [hne, if_false, if_true, skip_append, readOperand_text hvalue, Option.bind_some,
    Option.pure_def]

theorem readInstruction_callWith (hresult : result.Finite)
    (hcallee : IsName callee) (hargs : ∀ o ∈ args, o.Finite)
    (hfuel : args.length ≤ fuel) :
    readInstruction fuel ((Instruction.call (some result) callee args ty).text true).toList =
      some (.call (some result) callee args ty) := by
  have hop : ∀ cs, " = call".toList ++ cs = " = ".toList ++ ("call".toList ++ cs) := fun _ => rfl
  have hname : ∀ cs, " @".toList ++ cs = " ".toList ++ ("@".toList ++ cs) := fun _ => rfl
  have hload : ¬ "call" = "load" := by decide
  have hneg : ¬ "call" = "neg" := by decide
  simp only [Instruction.text, suffix, if_true, String.toList_append, List.append_assoc, hop, hname]
  rw [readInstruction_typed hresult (by decide) (by decide) (by decide), readTyped]
  simp only [skip_append, Option.bind_eq_bind, Option.bind_some]
  rw [readTy_append ty (until_text (by decide) _)]
  simp only [hload, hneg, if_false, if_true, skip_append, readCall_text hcallee hargs hfuel,
    Option.bind_some, Option.pure_def]

theorem binOp?_mnemonic (op : BinOp) : binOp? op.mnemonic = some op := by
  cases op <;> rfl

theorem readInstruction_binary (op : BinOp) (hresult : result.Finite) (hleft : left.Finite)
    (hright : right.Finite) :
    readInstruction fuel ((Instruction.binary op result left right ty).text true).toList =
      some (.binary op result left right ty) := by
  have hword : ∀ c ∈ op.mnemonic.toList, isWord c = true := by cases op <;> decide
  have hother : op.mnemonic ∉ ["alloca", "cast", "load", "neg", "call"] := by cases op <;> decide
  simp only [List.mem_cons, List.not_mem_nil, or_false, not_or] at hother
  obtain ⟨halloca, hcast, hload, hneg, hcall⟩ := hother
  simp only [Instruction.text, suffix, if_true, String.toList_append, List.append_assoc]
  rw [readInstruction_typed hresult hword halloca hcast, readTyped]
  simp only [skip_append, Option.bind_eq_bind, Option.bind_some]
  rw [readTy_append ty (until_text (by decide) _)]
  simp only [hload, hneg, hcall, if_false, skip_append, binOp?_mnemonic, Option.bind_some]
  rw [readOperand_append hleft (until_text (by decide) _)]
  simp only [skip_append, readOperand_text hright, Option.bind_some, Option.pure_def]

theorem readInstruction_store (hvalue : value.Finite) :
    readInstruction fuel ((Instruction.store slot value ty).text true).toList =
      some (.store slot value ty) := by
  have hfirst : ∀ c ∈ ("store." ++ ty.text).toList, isAtom c = true := by cases ty <;> decide
  have hcall : ¬ "store." ++ ty.text = "call" := by cases ty <;> decide
  have hequals : ∀ cs, skip " = " (" ".toList ++ ((slotText slot).toList ++ cs)) = none := by
    intro cs
    rw [slotText, String.toList_append, List.append_assoc]
    rfl
  have htext : ∀ cs, "store".toList ++ (".".toList ++ (ty.text.toList ++ cs)) =
      ("store." ++ ty.text).toList ++ cs := by
    intro cs
    rw [String.toList_append, List.append_assoc]
    rfl
  simp only [Instruction.text, suffix, if_true, String.toList_append, List.append_assoc]
  rw [htext, readInstruction, readWhile_append hfirst (until_text (by decide) _)]
  simp only [hequals, readEffect, skip_append, Option.bind_eq_bind, Option.bind_some, hcall, if_false,
    String.toList_append, readTy_text]
  rw [slotText, readNumbered_append "slot" slot (until_text (by decide) _)]
  simp only [skip_append, readOperand_text hvalue, Option.bind_some, Option.pure_def]

theorem readInstruction_call (hcallee : IsName callee)
    (hargs : ∀ o ∈ args, o.Finite) (hfuel : args.length ≤ fuel) :
    readInstruction fuel ((Instruction.call none callee args .void).text true).toList =
      some (.call none callee args .void) := by
  have hname : ∀ cs, "call @".toList ++ cs = "call".toList ++ (" ".toList ++ ("@".toList ++ cs)) :=
    fun _ => rfl
  have hequals : ∀ cs, skip " = " (" ".toList ++ ("@".toList ++ cs)) = none := fun _ => rfl
  simp only [Instruction.text, String.toList_append, List.append_assoc, hname]
  rw [readInstruction, readWhile_append (by decide) (until_text (by decide) _)]
  simp only [hequals, readEffect, skip_append, Option.bind_eq_bind, Option.bind_some, if_true,
    readCall_text hcallee hargs hfuel, Option.pure_def]

/-- Every instruction that shows all it is is read back from its text. -/
theorem readInstruction_annotated {i : Instruction} (h : i.Shown) (hfuel : i.operands.length ≤ fuel) :
    readInstruction fuel i.annotated.toList = some i := by
  match i with
  | .alloca .. => exact readInstruction_alloca
  | .load .. => exact readInstruction_load (h.result _ rfl)
  | .store .. => exact readInstruction_store (h.operands _ List.mem_cons_self)
  | .binary op .. =>
    exact readInstruction_binary op (h.result _ rfl) (h.operands _ List.mem_cons_self)
      (h.operands _ (List.mem_cons_of_mem _ List.mem_cons_self))
  | .neg .. => exact readInstruction_neg (h.result _ rfl) (h.operands _ List.mem_cons_self)
  | .cast .. => exact readInstruction_cast (h.result _ rfl) (h.operands _ List.mem_cons_self)
  | .call (some _) .. =>
    exact readInstruction_callWith (h.result _ rfl) (h.callee rfl).1 h.operands hfuel
  | .call none .. =>
    obtain ⟨hcallee, hvoid⟩ := h.callee rfl
    obtain rfl := hvoid rfl
    exact readInstruction_call hcallee h.operands hfuel

theorem Instruction.annotated_injective {i j : Instruction} (hi : i.Shown) (hj : j.Shown)
    (h : i.annotated = j.annotated) : i = j := by
  have hread := readInstruction_annotated hi (Nat.le_max_left i.operands.length j.operands.length)
  rw [h, readInstruction_annotated hj (Nat.le_max_right _ _)] at hread
  exact (Option.some.inj hread).symm

def readTerminator (cs : List Char) : Option Terminator := do
  let (word, cs) := readWord cs
  if word = "return" then
    match skip " " cs with
    | none => return .ret none
    | some cs => do
      let (value, _) ← readOperand cs
      return .ret (some value)
  else if word = "jump" then
    let (target, _) ← readNumbered " block" cs
    return .jump target
  else if word = "br" then
    let cs ← skip " " cs
    let (condition, cs) ← readOperand cs
    let (thenBlock, cs) ← readNumbered ", block" cs
    let (elseBlock, _) ← readNumbered ", block" cs
    return .branch condition thenBlock elseBlock
  else return .unset

theorem readTerminator_text {t : Terminator}
    (h : ∀ o ∈ t.operands, o.Finite) : readTerminator t.text.toList = some t := by
  match t with
  | .ret none => rfl
  | .unset => rfl
  | .ret (some value) =>
    have hword : ∀ cs, "return ".toList ++ cs = "return".toList ++ (" ".toList ++ cs) := fun _ => rfl
    simp only [Terminator.text, String.toList_append, hword]
    rw [readTerminator, readWord_append (by decide) (until_text (by decide) _)]
    simp only [if_true, skip_append, readOperand_text (h value List.mem_cons_self),
      Option.bind_eq_bind, Option.bind_some, Option.pure_def]
  | .jump target =>
    have hword : ∀ cs, "jump ".toList ++ ("block".toList ++ cs) =
        "jump".toList ++ (" block".toList ++ cs) := fun _ => rfl
    have hne : ¬ "jump" = "return" := by decide
    have hread := readNumbered_all " block" target
    rw [String.toList_append] at hread
    simp only [Terminator.text, blockText, String.toList_append, hword]
    rw [readTerminator, readWord_append (by decide) (until_text (by decide) _)]
    simp only [hne, if_false, if_true, hread, Option.bind_eq_bind, Option.bind_some, Option.pure_def]
  | .branch condition thenBlock elseBlock =>
    have hword : ∀ cs, "br ".toList ++ cs = "br".toList ++ (" ".toList ++ cs) := fun _ => rfl
    have hblock : ∀ cs, ", ".toList ++ ("block".toList ++ cs) = ", block".toList ++ cs := fun _ => rfl
    have hreturn : ¬ "br" = "return" := by decide
    have hjump : ¬ "br" = "jump" := by decide
    have hlast := readNumbered_all ", block" elseBlock
    rw [String.toList_append] at hlast
    simp only [Terminator.text, blockText, String.toList_append, List.append_assoc, hword, hblock]
    rw [readTerminator, readWord_append (by decide) (until_text (by decide) _)]
    simp only [hreturn, hjump, if_false, if_true, skip_append, Option.bind_eq_bind, Option.bind_some]
    rw [readOperand_append (h condition List.mem_cons_self) (until_text (by decide) _)]
    simp only [Option.bind_some]
    have hfirst := readNumbered_append ", block" thenBlock
      (until_text (by decide : ", block".toList.head?.any (!Char.isDigit ·) = true)
        (toString elseBlock).toList)
    rw [String.toList_append, List.append_assoc] at hfirst
    simp only [hfirst, hlast, Option.bind_some, Option.pure_def]

theorem Terminator.text_injective {t u : Terminator} (ht : ∀ o ∈ t.operands, o.Finite)
    (hu : ∀ o ∈ u.operands, o.Finite) (h : t.text = u.text) : t = u := by
  have hread := readTerminator_text ht
  rw [h, readTerminator_text hu] at hread
  exact (Option.some.inj hread).symm

end TreeLang.Ir
