import TreeLang.Proofs.Json.Numbers
import TreeLang.Proofs.Text.Words

namespace TreeLang

open Json

variable {strict negative : Bool} {rest : List Char}

/-- An integer is written with its sign and the digits of its absolute value. -/
theorem toList_toString_int (i : Int) : (toString i).toList =
    (if i < 0 then ['-'] else []) ++ Nat.toDigits 10 i.natAbs := by
  cases i with
  | ofNat n => exact toList_toString_nat n
  | negSucc n =>
    change ("-" ++ toString (n + 1)).toList = _
    rw [String.toList_append, toList_toString_nat, if_pos (Int.negSucc_lt_zero n)]
    rfl

def isNumeric (c : Char) : Bool :=
  c.isAlphanum || c = '-' || c = '.'

theorem isNumeric_of_isDigit {c : Char} (h : c.isDigit = true) : isNumeric c = true := by
  simp [isNumeric, Char.isAlphanum, h]

theorem isNumeric_toDigits (n : Nat) : ∀ c ∈ Nat.toDigits 10 n, isNumeric c = true :=
  fun _ hc => isNumeric_of_isDigit (isDigit_toDigits hc)

theorem isNumeric_toString (i : Int) : ∀ c ∈ (toString i).toList, isNumeric c = true := by
  rw [toList_toString_int]
  refine List.forall_mem_append.mpr ⟨?_, isNumeric_toDigits _⟩
  split <;> decide

theorem Spelling.Regular.isNumeric {s : Spelling} (hs : s.Regular) :
    ∀ c ∈ s.chars, isNumeric c = true := by
  have hfraction : ∀ c ∈ fractionChars s.places?, TreeLang.isNumeric c = true := by
    cases hplaces : s.places? with
    | none => exact List.forall_mem_nil _
    | some ds =>
      exact List.forall_mem_cons.mpr
        ⟨rfl, fun c hc => isNumeric_of_isDigit ((hs.places ds hplaces).2 c hc)⟩
  have hscale : ∀ c ∈ scaleChars s.scale?, TreeLang.isNumeric c = true := by
    cases s.scale? with
    | none => exact List.forall_mem_nil _
    | some e => exact List.forall_mem_cons.mpr ⟨rfl, isNumeric_toString e⟩
  exact List.forall_mem_append.mpr ⟨List.forall_mem_append.mpr
    ⟨fun c hc => isNumeric_of_isDigit (hs.digits c hc), hfraction⟩, hscale⟩

namespace Double

variable {x y : Double}

theorem literal_of_finite (hx : x.isFinite = true) : x.literal.toList =
    (if x.negative then ['-'] else []) ++ (x.shortest.spelling .literal).chars := by
  have hnan : x.isNaN = false := by
    simp only [isFinite, bne_iff_ne] at hx
    simp [isNaN, hx]
  simp only [literal, chars, hnan, hx, String.toList_ofList, Decimal.text_eq, if_true,
    Bool.false_eq_true, if_false]

/-- A literal has none but numeric characters, whatever the double. -/
theorem isNumeric_literal (x : Double) : ∀ c ∈ x.literal.toList, isNumeric c = true := by
  have hsign : ∀ c ∈ (if x.negative then ['-'] else []), isNumeric c = true := by
    split <;> decide
  simp only [literal, chars, String.toList_ofList, Decimal.text_eq]
  split
  · decide
  split
  · exact List.forall_mem_append.mpr ⟨hsign, (Decimal.regular_spelling _ _).isNumeric⟩
  · exact List.forall_mem_append.mpr ⟨hsign, by decide⟩

end Double

namespace Double

variable {x : Double}

theorem bits_abs (x : Double) : x.abs.bits.toNat = x.bits.toNat % 2 ^ 63 := by
  change (x.bits &&& ~~~signBit).toNat = _
  rw [UInt64.toNat_and]
  exact Nat.and_two_pow_sub_one_eq_mod _ 63

theorem negative_abs (x : Double) : x.abs.negative = false := by
  have hbits := bits_abs x
  have hsign : signBit.toNat = 2 ^ 63 := rfl
  simp only [negative, hsign, decide_eq_false_iff_not]
  omega

theorem exponentField_abs (x : Double) : x.abs.exponentField = x.exponentField := by
  have hbits := bits_abs x
  simp only [exponentField, fractionCount]
  omega

theorem fraction_abs (x : Double) : x.abs.fraction = x.fraction := by
  have hbits := bits_abs x
  simp only [fraction, fractionCount]
  omega

/-- Only the sign is taken away. -/
theorem isFinite_abs (x : Double) : x.abs.isFinite = x.isFinite := by
  rw [isFinite, exponentField_abs, isFinite]

/-- The decimal of a number does not depend on its sign. -/
theorem shortest_abs (x : Double) : x.abs.shortest = x.shortest := by
  have hzero : x.abs.isZero = x.isZero := by
    rw [isZero, exponentField_abs, fraction_abs, isZero]
  have hsignificand : x.abs.significand = x.significand := by
    rw [significand, exponentField_abs, fraction_abs, significand]
  have hexponent : x.abs.exponent = x.exponent := by rw [exponent, exponentField_abs, exponent]
  have hratio : x.abs.ratio = x.ratio := by rw [ratio, hsignificand, hexponent, ratio]
  have hlower : x.abs.lowerEnd = x.lowerEnd := by
    rw [lowerEnd, fraction_abs, exponentField_abs, hsignificand, lowerEnd]
  have hupper : x.abs.upperEnd = x.upperEnd := by rw [upperEnd, hsignificand, upperEnd]
  have hquarter : x.abs.quarter = x.quarter := by
    funext k
    rw [quarter, hexponent, quarter]
  have hwithin : x.abs.within = x.within := by
    funext k d
    rw [within, hlower, hupper, hquarter, hsignificand, within]
  have hnearest : x.abs.nearest? = x.nearest? := by
    funext k
    rw [nearest?, hwithin, hquarter, hsignificand, nearest?]
  rw [shortest, hzero, hratio, hnearest, shortest]

/-- A negative double is written with a minus sign in front of its absolute value. -/
theorem literal_of_negative (hx : x.isFinite = true) (hneg : x.negative = true) :
    x.literal.toList = '-' :: x.abs.literal.toList := by
  rw [literal_of_finite hx, literal_of_finite ((isFinite_abs x).trans hx), hneg, negative_abs,
    shortest_abs]
  rfl

end Double

theorem numeral_toDigits {n : Nat} (hn : n < 2 ^ 32) (hrest : Stops rest) :
    numeral strict negative (Nat.toDigits 10 n ++ rest) = .ok (⟨negative, n, 0, true⟩, rest) := by
  have hregular : (⟨Nat.toDigits 10 n, none, none⟩ : Spelling).Regular := by
    refine ⟨Nat.toDigits_ne_nil, fun _ => isDigit_toDigits, fun h => ?_, by simp⟩
    rcases Nat.eq_zero_or_pos n with rfl | hpos
    · rfl
    · exact absurd h (head_toDigits hpos)
  have hread : (⟨Nat.toDigits 10 n, none, none⟩ : Spelling).numeral negative =
      ⟨negative, n, 0, true⟩ := by
    simp [Spelling.numeral]
  have hfinite : (⟨negative, n, 0, true⟩ : Numeral).double.isFinite = true :=
    Double.isFinite_ofDecimal hn
  rw [← hread] at hfinite ⊢
  simpa [Spelling.chars, Spelling.fractionChars, Spelling.scaleChars]
    using numeral_spelled hregular hrest hfinite

theorem Decimal.integral_spelling (n : Style) (d : Decimal) :
    ((d.spelling n).numeral negative).integral = false := by
  unfold spelling Spelling.numeral
  dsimp only
  split
  · rfl
  split
  · split
    · rfl
    split <;> rfl
  · simp

/-- A finite double is read back from the digits of its literal. -/
theorem numeral_literal {x : Double} (hx : x.isFinite = true) (hrest : Stops rest) :
    ∃ n : Numeral, n.integral = false ∧ n.double = x ∧
      numeral strict x.negative ((x.shortest.spelling .literal).chars ++ rest) = .ok (n, rest) := by
  have hdouble : ((x.shortest.spelling .literal).numeral x.negative).double = x :=
    Double.ofDecimal_shortest hx (Decimal.value_spelling .literal x.shortest x.negative)
  refine ⟨_, Decimal.integral_spelling .literal x.shortest, hdouble, ?_⟩
  exact numeral_spelled (Decimal.regular_spelling _ _) hrest
    ((congrArg Double.isFinite hdouble).trans hx)

end TreeLang
