import TreeLang.Json.Reader
import TreeLang.Proofs.Double.Shortest

namespace TreeLang

/-- What a number is written with in base ten are digits. -/
theorem isDigit_toDigits {n : Nat} {c : Char} (h : c ∈ Nat.toDigits 10 n) : c.isDigit = true :=
  Nat.isDigit_of_mem_toDigits (by decide) (by decide) h

/-- A number other than zero is written without a leading zero. -/
theorem head_toDigits {n : Nat} (hn : 0 < n) : (Nat.toDigits 10 n).head? ≠ some '0' := by
  induction n using Nat.strongRecOn with
  | _ n ih =>
    rcases Nat.lt_or_ge n 10 with hlt | hge
    · rw [Nat.toDigits_of_lt_base hlt, List.head?_cons, ne_eq, Option.some.injEq, Nat.digitChar_eq_zero]
      omega
    · rw [Nat.toDigits_of_base_le (by decide) hge, List.head?_append_of_ne_nil _ Nat.toDigits_ne_nil]
      exact ih (n / 10) (by omega) (by omega)

namespace Json

variable {strict : Bool} {ds rest : List Char}

def NoDigit (rest : List Char) : Prop := ∀ c ∈ rest.head?, c.isDigit = false

def Stops (rest : List Char) : Prop :=
  ∀ c ∈ rest.head?, c.isDigit = false ∧ c ≠ '.' ∧ c ≠ 'e' ∧ c ≠ 'E'

theorem Stops.noDigit (h : Stops rest) : NoDigit rest := fun c hc => (h c hc).1

theorem span_digits (hds : ∀ c ∈ ds, c.isDigit = true) (hrest : NoDigit rest) :
    (ds ++ rest).takeWhile Char.isDigit = ds ∧ (ds ++ rest).dropWhile Char.isDigit = rest := by
  induction ds with
  | nil =>
    cases rest with
    | nil => exact ⟨rfl, rfl⟩
    | cons c cs => simp [hrest c rfl]
  | cons d ds ih =>
    obtain ⟨htake, hdrop⟩ := ih fun c hc => hds c (List.mem_cons_of_mem _ hc)
    simp [hds d List.mem_cons_self, htake, hdrop]

theorem someDigits_append (hne : ds ≠ []) (hds : ∀ c ∈ ds, c.isDigit = true) (hrest : NoDigit rest) :
    someDigits strict (ds ++ rest) = .ok (ds, rest) := by
  obtain ⟨htake, hdrop⟩ := span_digits hds hrest
  unfold someDigits
  rw [htake, hdrop]
  cases ds with
  | nil => exact absurd rfl hne
  | cons d ds => rfl

theorem wholePart_append (hne : ds ≠ []) (hds : ∀ c ∈ ds, c.isDigit = true) (hrest : NoDigit rest)
    (hzero : ds.head? = some '0' → ds = ['0']) : wholePart strict (ds ++ rest) = .ok (ds, rest) := by
  unfold wholePart
  rw [someDigits_append hne hds hrest]
  simp only [bind, Except.bind, pure, Except.pure]
  split
  · have := hzero rfl
    simp at this
  · rfl

theorem toList_toString_nat (n : Nat) : (toString n).toList = Nat.toDigits 10 n := by
  rw [Nat.toString_eq_ofList_toDigits, String.toList_ofList]

/-- The digits of a natural number are read up to where its text ends. -/
theorem someDigits_toDigits (n : Nat) (hrest : NoDigit rest) :
    someDigits strict (Nat.toDigits 10 n ++ rest) = .ok (Nat.toDigits 10 n, rest) :=
  someDigits_append Nat.toDigits_ne_nil (fun _ => isDigit_toDigits) hrest

theorem places_toDigits (n : Nat) (hrest : NoDigit rest) :
    places strict (Nat.toDigits 10 n ++ rest) = .ok (n, rest) := by
  rw [places, someDigits_toDigits n hrest]
  simp [Except.map]

theorem exponentPart_append (e : Int) (hrest : NoDigit rest) :
    exponentPart strict ((toString e).toList ++ rest) = .ok (e, rest) := by
  cases e with
  | ofNat n =>
    have htext : (toString (Int.ofNat n)).toList = Nat.toDigits 10 n := toList_toString_nat n
    have hplaces : places strict (Nat.toDigits 10 n ++ rest) = _ := places_toDigits n hrest
    rw [htext]
    cases hds : Nat.toDigits 10 n with
    | nil => exact absurd hds Nat.toDigits_ne_nil
    | cons d ds =>
      have hd : d.isDigit = true := isDigit_toDigits (hds ▸ List.mem_cons_self)
      rw [hds, List.cons_append] at hplaces
      rw [List.cons_append]
      unfold exponentPart
      split
      · rename_i he
        rw [(List.cons_eq_cons.mp he).1] at hd
        cases hd
      · rename_i he
        rw [(List.cons_eq_cons.mp he).1] at hd
        cases hd
      · rw [hplaces]
        rfl
  | negSucc n =>
    have htext : (toString (Int.negSucc n)).toList = '-' :: Nat.toDigits 10 (n + 1) := by
      change ("-" ++ toString (n + 1)).toList = _
      rw [String.toList_append, toList_toString_nat]
      rfl
    rw [htext, List.cons_append, exponentPart, places_toDigits (n + 1) hrest]
    rfl

end Json

/-- The parts of the text of a number without its sign. -/
structure Spelling where
  whole : List Char
  places? : Option (List Char)
  scale? : Option Int

namespace Spelling

def fractionChars : Option (List Char) → List Char
  | some ds => '.' :: ds
  | none => []

def scaleChars : Option Int → List Char
  | some e => 'e' :: (toString e).toList
  | none => []

def chars (s : Spelling) : List Char :=
  s.whole ++ fractionChars s.places? ++ scaleChars s.scale?

def numeral (negative : Bool) (s : Spelling) : Numeral :=
  ⟨negative, Nat.ofDigitChars 10 (s.whole ++ s.places?.getD []) 0,
    s.scale?.getD 0 - (s.places?.getD []).length, s.places?.isNone && s.scale?.isNone⟩

/-- Digits where they are needed, and no leading zero. -/
structure Regular (s : Spelling) : Prop where
  nonempty : s.whole ≠ []
  digits : ∀ c ∈ s.whole, c.isDigit = true
  zero : s.whole.head? = some '0' → s.whole = ['0']
  places : ∀ ds ∈ s.places?, ds ≠ [] ∧ ∀ c ∈ ds, c.isDigit = true

end Spelling

namespace Json

variable {strict negative : Bool} {rest : List Char} {s : Spelling}

theorem fractionPart_append {places? : Option (List Char)}
    (hplaces : ∀ ds ∈ places?, ds ≠ [] ∧ ∀ c ∈ ds, c.isDigit = true) (hrest : NoDigit rest)
    (hpoint : rest.head? ≠ some '.') :
    fractionPart strict (Spelling.fractionChars places? ++ rest) = .ok (places?, rest) := by
  cases places? with
  | some ds =>
    obtain ⟨hne, hds⟩ := hplaces ds rfl
    rw [Spelling.fractionChars, List.cons_append, fractionPart, someDigits_append hne hds hrest]
    rfl
  | none =>
    unfold fractionPart
    split
    · rename_i h
      rw [Spelling.fractionChars, List.nil_append] at h
      rw [h] at hpoint
      exact absurd rfl hpoint
    · rfl

/-- A number without a power of ten has none read, since what follows it does not begin one. -/
theorem scalePart_append {scale? : Option Int} (hrest : Stops rest) :
    scalePart strict (Spelling.scaleChars scale? ++ rest) = .ok (scale?, rest) := by
  cases scale? with
  | some e =>
    rw [Spelling.scaleChars, List.cons_append, scalePart, exponentPart_append e hrest.noDigit]
    rfl
  | none =>
    unfold scalePart
    split
    · rename_i h
      rw [Spelling.scaleChars, List.nil_append] at h
      exact absurd rfl (hrest 'e' (h ▸ rfl)).2.2.1
    · rename_i h
      rw [Spelling.scaleChars, List.nil_append] at h
      exact absurd rfl (hrest 'E' (h ▸ rfl)).2.2.2
    · rfl

/-- What follows the digits before a power of ten. -/
theorem noDigit_scale (scale? : Option Int) (hrest : Stops rest) :
    NoDigit (Spelling.scaleChars scale? ++ rest) ∧
      (Spelling.scaleChars scale? ++ rest).head? ≠ some '.' := by
  cases scale? with
  | some e =>
    refine ⟨fun c hc => ?_, fun h => ?_⟩
    · cases hc
      rfl
    · cases h
  | none => exact ⟨hrest.noDigit, fun h => (hrest '.' h).2.1 rfl⟩

theorem noDigit_fraction {places? : Option (List Char)} (hrest : NoDigit rest) :
    NoDigit (Spelling.fractionChars places? ++ rest) := by
  cases places? with
  | some ds =>
    intro c hc
    cases hc
    rfl
  | none => exact hrest

/-- A regular text is read as the number it spells, up to what stops it. -/
theorem numeral_spelled (hs : s.Regular) (hrest : Stops rest)
    (hfinite : (s.numeral negative).double.isFinite = true) :
    numeral strict negative (s.chars ++ rest) = .ok (s.numeral negative, rest) := by
  obtain ⟨hscale, hpoint⟩ := noDigit_scale s.scale? hrest
  unfold numeral Spelling.chars
  rw [List.append_assoc, List.append_assoc,
    wholePart_append hs.nonempty hs.digits (noDigit_fraction hscale) hs.zero]
  simp only [bind, Except.bind, fractionPart_append hs.places hscale hpoint, scalePart_append hrest]
  change (if (strict && !(s.numeral negative).double.isFinite) = true then _ else _) = _
  rw [hfinite, Bool.not_true, Bool.and_false]
  rfl

end Json

def Decimal.spelling (n : Style) (d : Decimal) : Spelling :=
  let ds := Nat.toDigits 10 d.digits
  let point : Int := d.exponent + ds.length
  if d.digits = 0 then ⟨['0'], some ['0'], none⟩
  else if n.low < point ∧ point ≤ n.high then
    if point ≤ 0 then ⟨['0'], some (List.replicate (-point).toNat '0' ++ ds), none⟩
    else if ds.length ≤ point.toNat then
      ⟨ds ++ List.replicate (point.toNat - ds.length) '0', some ['0'], none⟩
    else ⟨ds.take point.toNat, some (ds.drop point.toNat), none⟩
  else ⟨ds.take 1, if ds.length = 1 then none else some (ds.drop 1), some (point - 1)⟩

theorem Decimal.text_eq (n : Style) (d : Decimal) : d.text n = (d.spelling n).chars := by
  unfold text spelling
  dsimp only
  split
  · rfl
  split
  · split
    · simp [Spelling.chars, Spelling.fractionChars, Spelling.scaleChars]
    split
    · simp [Spelling.chars, Spelling.fractionChars, Spelling.scaleChars]
    · simp [Spelling.chars, Spelling.fractionChars, Spelling.scaleChars]
  · split
    · rename_i h
      simp [Spelling.chars, Spelling.fractionChars, Spelling.scaleChars, List.take_of_length_le h.le]
    · simp [Spelling.chars, Spelling.fractionChars, Spelling.scaleChars]

theorem isDigit_zeros {k : Nat} {c : Char} (h : c ∈ List.replicate k '0') : c.isDigit = true := by
  rw [(List.mem_replicate.mp h).2]
  rfl

/-- Both styles write at least one digit and no leading zero, so the reader takes the whole text. -/
theorem Decimal.regular_spelling (n : Style) (d : Decimal) : (d.spelling n).Regular := by
  have hds : ∀ c ∈ Nat.toDigits 10 d.digits, c.isDigit = true := fun c => isDigit_toDigits
  have hlen : 0 < (Nat.toDigits 10 d.digits).length := Nat.length_toDigits_pos
  unfold spelling
  dsimp only
  split
  · exact ⟨by simp, by simp, by simp, by simp⟩
  rename_i hzero
  have hhead := head_toDigits (Nat.pos_of_ne_zero hzero)
  -- the first digit of the whole part is the first of all
  have hwhole : ∀ k, 0 < k → (Nat.toDigits 10 d.digits).take k ≠ [] ∧
      ((Nat.toDigits 10 d.digits).take k).head? ≠ some '0' := fun k hk => by
    refine ⟨?_, ?_⟩
    · simp [Nat.toDigits_ne_nil]
      omega
    · rwa [List.head?_take, if_neg (by omega)]
  split
  · split
    · refine ⟨by simp, by simp, fun _ => rfl, ?_⟩
      rintro ds ⟨⟩
      refine ⟨by simp [Nat.toDigits_ne_nil], fun c hc => ?_⟩
      exact (List.mem_append.mp hc).elim isDigit_zeros (hds c)
    split
    · refine ⟨by simp [Nat.toDigits_ne_nil], fun c hc => ?_, fun h => ?_, by simp⟩
      · exact (List.mem_append.mp hc).elim (hds c) isDigit_zeros
      · rw [List.head?_append_of_ne_nil _ Nat.toDigits_ne_nil] at h
        exact absurd h hhead
    · rename_i hpos hlt
      obtain ⟨hne, hhead'⟩ := hwhole (d.exponent + (Nat.toDigits 10 d.digits).length).toNat (by omega)
      refine ⟨hne, fun c hc => hds c (List.mem_of_mem_take hc), fun h => absurd h hhead', ?_⟩
      rintro ds ⟨⟩
      refine ⟨fun h => ?_, fun c hc => hds c (List.mem_of_mem_drop hc)⟩
      have hnone := congrArg List.length h
      rw [List.length_drop, List.length_nil] at hnone
      omega
  · obtain ⟨hne, hhead'⟩ := hwhole 1 Nat.one_pos
    refine ⟨hne, fun c hc => hds c (List.mem_of_mem_take hc), fun h => absurd h hhead', ?_⟩
    split
    · simp
    · rintro ds ⟨⟩
      refine ⟨fun h => ?_, fun c hc => hds c (List.mem_of_mem_drop hc)⟩
      have hnone := congrArg List.length h
      rw [List.length_drop, List.length_nil] at hnone
      omega

/-- Where the digits and the exponent stay, the value does. -/
theorem Spelling.value_eq {s : Spelling} {d : Decimal}
    (hdigits : Nat.ofDigitChars 10 (s.whole ++ s.places?.getD []) 0 = d.digits)
    (hexponent : s.scale?.getD 0 - ((s.places?.getD []).length : Int) = d.exponent) (negative : Bool) :
    ((s.numeral negative).digits : ℚ) * 10 ^ (s.numeral negative).exponent = d.value := by
  unfold Spelling.numeral Decimal.value
  rw [hdigits, hexponent]

/-- The decimal that is read has the value of the one that was written. -/
theorem Decimal.value_spelling (n : Style) (d : Decimal) (negative : Bool) :
    (((d.spelling n).numeral negative).digits : ℚ) * 10 ^ ((d.spelling n).numeral negative).exponent =
      d.value := by
  have hlen : 0 < (Nat.toDigits 10 d.digits).length := Nat.length_toDigits_pos
  have hread : Nat.ofDigitChars 10 (Nat.toDigits 10 d.digits) 0 = d.digits :=
    Nat.ofDigitChars_ten_toDigits
  unfold spelling
  dsimp only
  split
  · rename_i h
    simp [Spelling.numeral, value, h, Nat.ofDigitChars_cons]
  split
  · split
    · apply Spelling.value_eq
      · simp [Nat.ofDigitChars_append, Nat.ofDigitChars_cons]
      · simp
        omega
    split
    · -- the zeros behind the digits stand for the exponent
      obtain ⟨k, hk⟩ := Int.eq_ofNat_of_zero_le (show 0 ≤ d.exponent by omega)
      have hzeros : ((k : Int) + (Nat.toDigits 10 d.digits).length).toNat -
          (Nat.toDigits 10 d.digits).length = k := by omega
      simp only [Spelling.numeral, Option.getD_some, Option.getD_none, Nat.ofDigitChars_append, hread,
        Nat.ofDigitChars_replicate_zero, Nat.ofDigitChars_cons, Nat.ofDigitChars_nil, value, hk, hzeros]
      simp
      ring
    · apply Spelling.value_eq
      · simp
      · simp
        omega
  · apply Spelling.value_eq
    · split
      · rename_i h
        simp [List.take_of_length_le h.le]
      · rw [Option.getD_some, List.take_append_drop, hread]
    · split
      · rename_i h
        simp [h]
      · simp
        omega

theorem Spelling.Regular.head {s : Spelling} (h : s.Regular) :
    ∃ c cs, s.chars = c :: cs ∧ c.isDigit = true := by
  cases hw : s.whole with
  | nil => exact absurd hw h.nonempty
  | cons c cs =>
    refine ⟨c, cs ++ fractionChars s.places? ++ scaleChars s.scale?, ?_, ?_⟩
    · rw [chars, hw, List.cons_append, List.cons_append]
    · exact h.digits c (hw ▸ List.mem_cons_self)

namespace Numeral

def spelling (n : Numeral) : Spelling :=
  if n.integral then ⟨Nat.toDigits 10 n.digits, none, none⟩
  else Decimal.spelling .document ⟨n.digits, n.exponent⟩

/-- The number that is read where this one has been written. -/
def written (n : Numeral) : Numeral := n.spelling.numeral n.negative

theorem chars_eq (n : Numeral) :
    n.chars = (if n.negative then ['-'] else []) ++ n.spelling.chars := by
  unfold chars spelling
  dsimp only
  split
  · simp [Spelling.chars, Spelling.fractionChars, Spelling.scaleChars]
  · rw [Decimal.text_eq]

theorem regular_spelling (n : Numeral) : n.spelling.Regular := by
  unfold spelling
  split
  · refine ⟨Nat.toDigits_ne_nil, fun _ => isDigit_toDigits, fun h => ?_, by simp⟩
    rcases Nat.eq_zero_or_pos n.digits with h0 | hpos
    · simp [h0]
    · exact absurd h (head_toDigits hpos)
  · exact Decimal.regular_spelling _ _

theorem written_ofInt (i : Int) : (ofInt i).written = ofInt i := by
  simp [written, spelling, ofInt, Spelling.numeral]

/-- An integer of 32 bits does not overflow, whichever way it is written and read. -/
theorem double_written_ofInt {i : Int} (h : i.natAbs < 2 ^ 32) :
    (ofInt i).written.double.isFinite = true := by
  rw [written_ofInt]
  exact Double.isFinite_ofDecimal h

theorem double_written_ofDouble {x : Double} (hx : x.isFinite = true) :
    (ofDouble x).written.double = x :=
  Double.ofDecimal_shortest hx (Decimal.value_spelling .document ⟨x.shortest.digits, x.shortest.exponent⟩ _)

end Numeral

end TreeLang
