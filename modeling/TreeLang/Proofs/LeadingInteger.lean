import Mathlib.Data.List.TakeWhile
import TreeLang.Proofs.Format.ReadBack

namespace TreeLang

namespace Text

/-- The text is what a line has between the blanks at its two ends. -/
structure Trims (line text : List Char) : Prop where
  between : ∃ before behind, line = before ++ (text ++ behind) ∧
    (∀ c ∈ before, isBlank c = true) ∧ ∀ c ∈ behind, isBlank c = true
  head : ∀ c ∈ text.head?, isBlank c = false
  last : ∀ c ∈ text.getLast?, isBlank c = false

theorem head?_dropWhile_blank (cs : List Char) :
    ∀ c ∈ (cs.dropWhile isBlank).head?, isBlank c = false := by
  intro c hc
  have hnot := List.head?_dropWhile_not isBlank cs
  rw [hc] at hnot
  exact hnot

/-- Trimming cuts off all blanks at both ends and nothing else. -/
theorem trims_trim (line : List Char) : Trims line (trim line) := by
  -- Blanks are dropped at the front first, then at the end of what is left.
  let front := line.takeWhile isBlank
  let kept := line.dropWhile isBlank
  let back := kept.reverse.takeWhile isBlank
  have hline : front ++ kept = line := List.takeWhile_append_dropWhile
  have hkept : trim line ++ back.reverse = kept := by
    have hsplit : back ++ kept.reverse.dropWhile isBlank = kept.reverse :=
      List.takeWhile_append_dropWhile
    rw [trim, ← List.reverse_append, hsplit, List.reverse_reverse]
  refine ⟨⟨front, back.reverse, by rw [hkept, hline], fun c => List.mem_takeWhile_imp, ?_⟩, ?_, ?_⟩
  · exact fun c hc => List.mem_takeWhile_imp (List.mem_reverse.mp hc)
  · intro c hc
    refine head?_dropWhile_blank line c ?_
    change kept.head? = some c
    rw [← hkept, List.head?_append, hc]
    rfl
  · intro c hc
    rw [trim, List.getLast?_reverse] at hc
    exact head?_dropWhile_blank _ c hc

theorem utf8ByteSize_ofList_cons (c : Char) (cs : List Char) :
    (String.ofList (c :: cs)).utf8ByteSize = c.utf8Size + (String.ofList cs).utf8ByteSize := by
  rw [String.ofList_cons, String.utf8ByteSize_append, String.utf8ByteSize_singleton]

end Text

namespace Scan

/-- The text is a sign, which may be left out, and digits. -/
inductive Spells : Bool → List Char → List Char → Prop
  | bare {ds : List Char} (hds : ∀ d ∈ ds, d.isDigit = true) : Spells false ds ds
  | plus {ds : List Char} (hds : ∀ d ∈ ds, d.isDigit = true) : Spells false ds ('+' :: ds)
  | minus {ds : List Char} (hds : ∀ d ∈ ds, d.isDigit = true) : Spells true ds ('-' :: ds)

/-- The longest piece at the front of the text that is a sign and digits. -/
structure Leading (text : List Char) (negative : Bool) (ds piece : List Char) : Prop where
  spelled : Spells negative ds piece
  front : piece <+: text
  longest : ∀ {negative' : Bool} {ds' other : List Char}, Spells negative' ds' other →
    other <+: text → other.length ≤ piece.length

variable {negative : Bool} {ds cs text piece : List Char}

namespace Spells

theorem isDigit (h : Spells negative ds piece) : ∀ d ∈ ds, d.isDigit = true := by
  cases h <;> assumption

/-- Of a text that is a sign and digits, the sign is read off and the digits remain. -/
theorem sign_eq (h : Spells negative ds piece) : sign piece = (negative, ds) := by
  cases h with
  | bare hds => exact sign_digits hds
  | plus | minus => rfl

end Spells

def mark : List Char → List Char
  | '-' :: _ => ['-']
  | '+' :: _ => ['+']
  | _ => []

theorem mark_append (cs : List Char) : mark cs ++ (sign cs).2 = cs := by
  unfold mark sign
  split <;> simp_all

/-- The sign at the front, with digits behind it, spells a number. -/
theorem spells_mark (cs : List Char) (hds : ∀ d ∈ ds, d.isDigit = true) :
    Spells (sign cs).1 ds (mark cs ++ ds) := by
  unfold mark sign
  split
  · exact .minus hds
  · exact .plus hds
  · simpa using Spells.bare hds

/-- A sign and digits at the front of a text begin as the text does. -/
theorem Spells.of_front (h : Spells negative ds piece) (hfront : piece <+: text) :
    piece = [] ∨ piece = mark text ++ ds := by
  obtain ⟨rest, rfl⟩ := hfront
  cases h with
  | bare hds =>
    cases ds with
    | nil => exact .inl rfl
    | cons d ds =>
      right
      rw [List.cons_append, mark.eq_def]
      split
      · cases hds '-' (by simp_all)
      · cases hds '+' (by simp_all)
      · rfl
  | plus | minus => exact .inr rfl

/-- The sign and the digits that the reader takes make up the leading piece. -/
theorem leading_digits (text : List Char) : Leading text (sign text).1 (digits (sign text).2).1
    (mark text ++ (digits (sign text).2).1) where
  spelled := spells_mark text fun _ => List.mem_takeWhile_imp
  front := ⟨(digits (sign text).2).2, by rw [List.append_assoc, digits_append, mark_append]⟩
  longest {_ ds' _} hother hfront := by
    obtain rfl | rfl := hother.of_front hfront
    · exact Nat.zero_le _
    · obtain ⟨rest, hrest⟩ := hfront
      rw [List.append_assoc] at hrest
      have hbehind : ds' ++ rest = (sign text).2 :=
        List.append_cancel_left (hrest.trans (mark_append text).symm)
      have hdigits : (digits (sign text).2).1 = ds' ++ rest.takeWhile Char.isDigit := by
        rw [digits, ← hbehind, List.takeWhile_append_of_pos hother.isDigit]
      simp only [hdigits, List.length_append]
      omega

/-- The byte at which the search for the end of the integer stops, when it has come to `offset`. Only
at the very front it passes a sign. -/
def stop (offset : Nat) : List Char → Nat
  | [] => offset
  | c :: cs =>
    if c.isDigit || (offset == 0 && (c == '-' || c == '+')) then stop (offset + c.utf8Size) cs
    else offset

/-- Behind the first byte, the search stops where the digits end. -/
theorem stop_of_pos {offset : Nat} (h : 0 < offset) :
    stop offset cs = offset + (String.ofList (cs.takeWhile Char.isDigit)).utf8ByteSize := by
  induction cs generalizing offset with
  | nil => rfl
  | cons c cs ih =>
    have hzero : (offset == 0) = false := beq_false_of_ne (Nat.ne_of_gt h)
    cases hc : c.isDigit with
    | false => simp [stop, hc, hzero]
    | true =>
      rw [stop, hc, Bool.true_or, if_pos rfl, ih (by omega), List.takeWhile_cons_of_pos hc,
        Text.utf8ByteSize_ofList_cons, Nat.add_assoc]

/-- The search stops behind the bytes of the leading piece. -/
theorem stop_zero (text : List Char) :
    stop 0 text = (String.ofList (mark text ++ (digits (sign text).2).1)).utf8ByteSize := by
  unfold mark sign digits
  split
  · rename_i cs
    change stop '-'.utf8Size cs = (String.ofList ('-' :: cs.takeWhile Char.isDigit)).utf8ByteSize
    rw [stop_of_pos (by decide), Text.utf8ByteSize_ofList_cons]
  · rename_i cs
    change stop '+'.utf8Size cs = (String.ofList ('+' :: cs.takeWhile Char.isDigit)).utf8ByteSize
    rw [stop_of_pos (by decide), Text.utf8ByteSize_ofList_cons]
  · rename_i hminus hplus
    cases text with
    | nil => rfl
    | cons c cs =>
      have hm : c ≠ '-' := fun h => hminus cs (by rw [h])
      have hp : c ≠ '+' := fun h => hplus cs (by rw [h])
      cases hc : c.isDigit with
      | false => simp [stop, hc, hm, hp]
      | true =>
        have hpos := c.utf8Size_pos
        simp only [stop, hc, Bool.true_or, if_true]
        rw [stop_of_pos (by omega), Nat.zero_add, List.nil_append, List.takeWhile_cons_of_pos hc,
          Text.utf8ByteSize_ofList_cons]

def signed (negative : Bool) (n : Nat) : Int :=
  if negative then -n else n

def Fits (v : Int) : Prop := -2147483648 ≤ v ∧ v ≤ 2147483647

instance (v : Int) : Decidable (Fits v) :=
  inferInstanceAs (Decidable (-2147483648 ≤ v ∧ v ≤ 2147483647))

def fit? (v : Int) : Option Int32 :=
  if Fits v then some (.ofInt v) else none

/-- The number with one more digit, away from zero. Both the product and the sum have to fit. -/
def extend? (negative : Bool) (n : Int32) (d : Char) : Option Int32 :=
  if d.isDigit then
    (fit? (n.toInt * 10)).bind fun tens => fit? (tens.toInt + signed negative (d.toNat - '0'.toNat))
  else none

def parse? (piece : List Char) : Option Int32 :=
  let (negative, ds) := sign piece
  if ds = [] then none else ds.foldlM (extend? negative) 0

theorem toInt_of_fits {v : Int} (h : Fits v) : (Int32.ofInt v).toInt = v :=
  Int32.toInt_ofInt_of_le h.1 (Int.lt_of_le_of_lt h.2 (by decide))

/-- A number of 32 bits fits, and is given back as it is. -/
theorem fit?_toInt (n : Int32) : fit? n.toInt = some n := by
  rw [fit?, if_pos ⟨n.minValue_le_toInt, n.toInt_le⟩, Int32.ofInt_toInt]

theorem fits_of_le {m n : Nat} (hle : m ≤ n) (h : Fits (signed negative n)) :
    Fits (signed negative m) := by
  cases negative <;> simp only [Fits, signed, if_true, Bool.false_eq_true, if_false] at h ⊢ <;> omega

/-- Taking up one digit is multiplying by ten and adding it, where the result fits. -/
theorem extend?_eq {n : Int32} {m : Nat} {d : Char} (hd : d.isDigit = true)
    (hn : n.toInt = signed negative m) :
    extend? negative n d = fit? (signed negative (10 * m + (d.toNat - '0'.toNat))) := by
  have htens : n.toInt * 10 = signed negative (10 * m) := by
    rw [hn]
    cases negative <;> simp only [signed, if_true, Bool.false_eq_true, if_false] <;> omega
  have hsum (k : Nat) : signed negative (10 * m) + signed negative k = signed negative (10 * m + k) := by
    cases negative <;> simp only [signed, if_true, Bool.false_eq_true, if_false] <;> omega
  rw [extend?, if_pos hd, htens]
  by_cases hfits : Fits (signed negative (10 * m))
  · rw [fit?, if_pos hfits, Option.bind_some, toInt_of_fits hfits, hsum]
  · have hmore := mt (fits_of_le (Nat.le_add_right (10 * m) (d.toNat - '0'.toNat))) hfits
    rw [fit?, if_neg hfits, fit?, if_neg hmore, Option.bind_none]

theorem le_ofDigitChars (ds : List Char) (m : Nat) : m ≤ Nat.ofDigitChars 10 ds m := by
  induction ds generalizing m with
  | nil => exact Nat.le_refl m
  | cons d ds ih =>
    rw [Nat.ofDigitChars_cons]
    exact Nat.le_trans (by omega) (ih _)

/-- Checking every step comes to checking the whole number: once it does not fit, no digit brings it
back. -/
theorem foldlM_extend? {n : Int32} {m : Nat} (hds : ∀ d ∈ ds, d.isDigit = true)
    (hn : n.toInt = signed negative m) :
    ds.foldlM (extend? negative) n = fit? (signed negative (Nat.ofDigitChars 10 ds m)) := by
  induction ds generalizing n m with
  | nil =>
    rw [Nat.ofDigitChars_nil, ← hn, fit?_toInt]
    rfl
  | cons d ds ih =>
    obtain ⟨hd, hds⟩ := List.forall_mem_cons.mp hds
    rw [List.foldlM_cons, extend?_eq hd hn, Nat.ofDigitChars_cons]
    by_cases hfits : Fits (signed negative (10 * m + (d.toNat - '0'.toNat)))
    · rw [fit?, if_pos hfits]
      exact ih hds (toInt_of_fits hfits)
    · have hwhole := mt (fits_of_le (le_ofDigitChars ds _)) hfits
      rw [fit?, if_neg hfits, fit?, if_neg hwhole]
      rfl

/-- The checks of the single steps fail together exactly when the whole number does not fit. -/
theorem parse?_eq (h : Spells negative ds piece) :
    parse? piece = if ds ≠ [] then fit? (signed negative (natural ds)) else none := by
  simp only [parse?, h.sign_eq, ite_not]
  split
  · rfl
  · refine foldlM_extend? h.isDigit ?_
    cases negative <;> rfl

theorem int32_eq (line : List Char) : int32 line =
    if (digits (sign (Text.trim line)).2).1 ≠ [] ∧
        Fits (signed (sign (Text.trim line)).1 (natural (digits (sign (Text.trim line)).2).1)) then
      Int32.ofInt (signed (sign (Text.trim line)).1 (natural (digits (sign (Text.trim line)).2).1))
    else 0 :=
  rfl

/-- The integer of a line is the value of the longest piece that is a sign and digits, at the front of
what stands between the blanks at the two ends of the line; it is 0 where the piece has no digits and
where its value does not fit. The search for the end of the piece stops between two characters, and
the check of every digit finds the same integer. -/
theorem int32_leading (line : List Char) : ∃ text negative ds piece rest,
    Text.Trims line text ∧ Leading text negative ds piece ∧
    (int32 line).toInt =
      (if ds ≠ [] ∧ Fits (signed negative (Nat.ofDigitChars 10 ds 0)) then
        signed negative (Nat.ofDigitChars 10 ds 0) else 0) ∧
    (∃ cut : (String.ofList text).Pos, cut.offset = ⟨stop 0 text⟩ ∧
      cut.Splits (.ofList piece) (.ofList rest)) ∧
    int32 line = (parse? piece).getD 0 := by
  let text := Text.trim line
  let negative := (sign text).1
  let ds := (digits (sign text).2).1
  let rest := (digits (sign text).2).2
  let piece := mark text ++ ds
  have hleading : Leading text negative ds piece := leading_digits text
  have hvalue : int32 line = if ds ≠ [] ∧ Fits (signed negative (natural ds)) then
      Int32.ofInt (signed negative (natural ds)) else 0 := int32_eq line
  refine ⟨text, negative, ds, piece, rest, Text.trims_trim line, hleading, ?_, ?_, ?_⟩
  · rw [hvalue]
    by_cases h : ds ≠ [] ∧ Fits (signed negative (natural ds))
    · rw [if_pos h, toInt_of_fits h.2]
      exact (if_pos h).symm
    · rw [if_neg h]
      exact (if_neg h).symm
  · have hsplit : String.ofList text = String.ofList piece ++ String.ofList rest := by
      rw [← String.ofList_append, List.append_assoc, digits_append, mark_append]
    have hoffset : (⟨stop 0 text⟩ : String.Pos.Raw) = (String.ofList piece).rawEndPos :=
      congrArg String.Pos.Raw.mk (stop_zero text)
    exact ⟨⟨_, String.Pos.Raw.isValid_iff_exists_append.mpr ⟨_, _, hsplit, hoffset⟩⟩, rfl,
      hsplit, hoffset⟩
  · rw [hvalue, parse?_eq hleading.spelled, fit?]
    by_cases hne : ds ≠ [] <;> by_cases hfits : Fits (signed negative (natural ds)) <;>
      simp [hne, hfits]

end Scan

end TreeLang
