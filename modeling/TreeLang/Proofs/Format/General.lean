import TreeLang.Proofs.Double.Shortest
import TreeLang.Proofs.Format.Integers
import TreeLang.Proofs.Format.Significant

namespace TreeLang.Format

/-- A magnitude as text: digits, decimals behind a point, and a power of ten. -/
structure Notation where
  whole : List Char
  decimals : List Char
  exponent : Option ℤ

namespace Notation

/-- There is no point where there are no decimals. -/
def point (decimals : List Char) : List Char :=
  if decimals = [] then [] else '.' :: decimals

/-- An exponent has a sign and at least two digits. -/
def power (upper : Bool) : Option ℤ → List Char
  | none => []
  | some e => (if upper then 'E' else 'e') :: (if e < 0 then '-' else '+') ::
      (Nat.toDigits 10 e.natAbs).leftpad 2 '0'

def chars (n : Notation) (upper : Bool) : List Char :=
  n.whole ++ point n.decimals ++ power upper n.exponent

def value (n : Notation) : ℚ :=
  Nat.ofDigitChars 10 (n.whole ++ n.decimals) 0 * 10 ^ (n.exponent.getD 0 - n.decimals.length)

/-- There are digits in front of the point, and none of the decimals could be left out. -/
structure Regular (n : Notation) : Prop where
  whole : n.whole ≠ []
  digits : ∀ c ∈ n.whole ++ n.decimals, c.isDigit = true
  trimmed : n.decimals.getLast? ≠ some '0'

variable {n : Notation} {ds whole decimals : List Char}

/-- Digits are what stays and the zeros behind it. -/
theorem exists_trimmed (ds : List Char) :
    ∃ es k, ds = es ++ List.replicate k '0' ∧ es.getLast? ≠ some '0' := by
  induction ds using List.reverseRecOn with
  | nil => exact ⟨[], 0, rfl, nofun⟩
  | append_singleton ds d ih =>
    by_cases hd : d = '0'
    · obtain ⟨es, k, rfl, hlast⟩ := ih
      exact ⟨es, k + 1, by rw [hd, List.replicate_succ', List.append_assoc], hlast⟩
    · exact ⟨ds ++ [d], 0, (List.append_nil _).symm, by simpa using hd⟩

/-- Zeros at the end of the decimals change nothing. -/
theorem value_zeros (whole decimals : List Char) (exponent : Option ℤ) (k : ℕ) :
    value ⟨whole, decimals ++ List.replicate k '0', exponent⟩ = value ⟨whole, decimals, exponent⟩ := by
  have hexponent : exponent.getD 0 - ((decimals.length + k : ℕ) : ℤ) =
      exponent.getD 0 - decimals.length - k := by
    push_cast
    ring
  rw [value, value]
  simp only [List.length_append, List.length_replicate, ← List.append_assoc, Nat.ofDigitChars_append _,
    Nat.ofDigitChars_replicate_zero, hexponent]
  rw [zpow_sub₀ (by norm_num), zpow_natCast]
  push_cast
  field_simp

/-- Neither digits nor a point are taken for the letter of the exponent. -/
theorem takeWhile_digits (hdigits : ∀ c ∈ whole ++ decimals, c.isDigit = true) (upper : Bool)
    (exponent : Option ℤ) :
    (whole ++ point decimals ++ power upper exponent).takeWhile (fun c => !(c == 'e' || c == 'E')) =
        whole ++ point decimals ∧
      (whole ++ point decimals ++ power upper exponent).dropWhile (fun c => !(c == 'e' || c == 'E')) =
        power upper exponent := by
  have hpass : ∀ c ∈ whole ++ point decimals, (!(c == 'e' || c == 'E')) = true := by
    intro c hc
    rw [Bool.not_eq_true', Bool.or_eq_false_iff, beq_eq_false_iff_ne, beq_eq_false_iff_ne]
    have hdigit : c.isDigit = true ∨ c = '.' := by
      rcases List.mem_append.mp hc with hc | hc
      · exact .inl (hdigits c (List.mem_append_left _ hc))
      · unfold point at hc
        split at hc
        · cases hc
        · exact (List.mem_cons.mp hc).symm.imp_left fun hc => hdigits c (List.mem_append_right _ hc)
    constructor <;> rintro rfl <;> exact absurd hdigit (by decide)
  rw [List.takeWhile_append_of_pos hpass, List.dropWhile_append_of_pos hpass]
  cases exponent <;> cases upper <;> simp [power]

theorem dropWhile_ne {c d : Char} (h : d ≠ c) (ds : List Char) :
    (d :: ds).dropWhile (· == c) = d :: ds :=
  List.dropWhile_cons_of_neg (by simpa using h)

/-- What stands in front of the zeros is a decimal that is none, or the point. -/
theorem dropWhile_zeros (hwhole : whole ≠ []) (hdigits : ∀ c ∈ whole ++ decimals, c.isDigit = true)
    (hlast : decimals.getLast? ≠ some '0') (k : ℕ) :
    (((whole ++ '.' :: (decimals ++ List.replicate k '0')).reverse.dropWhile (· == '0')).dropWhile
      (· == '.')).reverse = whole ++ point decimals := by
  have hdot : ∀ d ∈ whole ++ decimals, d ≠ '.' := fun d hd he => by cases he ▸ hdigits d hd
  have hreverse : (whole ++ '.' :: (decimals ++ List.replicate k '0')).reverse =
      List.replicate k '0' ++ (decimals.reverse ++ '.' :: whole.reverse) := by simp
  have hzeros : ∀ c ∈ List.replicate k '0', (c == '0') = true := fun c hc =>
    beq_iff_eq.mpr (List.eq_of_mem_replicate hc)
  rw [hreverse, List.dropWhile_append_of_pos hzeros]
  rcases List.eq_nil_or_concat' decimals with rfl | ⟨ds, d, rfl⟩
  · obtain ⟨ws, w, rfl⟩ := (List.eq_nil_or_concat' whole).resolve_left hwhole
    have hw : w ≠ '.' := hdot w (by simp)
    rw [List.reverse_nil, List.nil_append, dropWhile_ne (by decide),
      List.dropWhile_cons_of_pos (by decide), List.reverse_append, List.reverse_singleton,
      List.singleton_append, dropWhile_ne hw]
    simp [point]
  · have hzero : d ≠ '0' := fun he => hlast (by simp [he])
    have hd : d ≠ '.' := hdot d (by simp)
    rw [List.reverse_append, List.reverse_singleton, List.singleton_append, List.cons_append,
      dropWhile_ne hzero, dropWhile_ne hd]
    simp [point]

/-- Zeros at the end of the decimals are dropped, and with the last of them the point. -/
theorem stripZeros_zeros (hwhole : whole ≠ []) (hdigits : ∀ c ∈ whole ++ decimals, c.isDigit = true)
    (hlast : decimals.getLast? ≠ some '0') (k : ℕ) (upper : Bool) (exponent : Option ℤ) :
    stripZeros (chars ⟨whole, decimals ++ List.replicate k '0', exponent⟩ upper) =
      chars ⟨whole, decimals, exponent⟩ upper := by
  have hall : ∀ c ∈ whole ++ (decimals ++ List.replicate k '0'), c.isDigit = true := by
    rw [← List.append_assoc]
    refine List.forall_mem_append.mpr ⟨hdigits, fun c hc => ?_⟩
    rw [List.eq_of_mem_replicate hc]
    rfl
  obtain ⟨htake, hdrop⟩ := takeWhile_digits hall upper exponent
  rw [stripZeros]
  simp only [chars, htake, hdrop]
  by_cases hnil : decimals ++ List.replicate k '0' = []
  · have hpoint : '.' ∉ whole := fun hm => by cases hdigits '.' (List.mem_append_left _ hm)
    obtain ⟨rfl, hzeros⟩ := List.append_eq_nil_iff.mp hnil
    rw [hzeros, List.append_nil, point, if_pos rfl, List.append_nil, if_neg hpoint]
  · have hpoint : '.' ∈ whole ++ '.' :: (decimals ++ List.replicate k '0') :=
      List.mem_append_right _ List.mem_cons_self
    have hshown : point (decimals ++ List.replicate k '0') = '.' :: (decimals ++ List.replicate k '0') :=
      if_neg hnil
    rw [hshown, if_pos hpoint, dropWhile_zeros hwhole hdigits hlast]

/-- Stripped of its zeros, a notation is regular and denotes the same number. -/
theorem exists_stripped (hwhole : n.whole ≠ [])
    (hdigits : ∀ c ∈ n.whole ++ n.decimals, c.isDigit = true) : ∃ m : Notation, m.Regular ∧
      m.value = n.value ∧ m.exponent = n.exponent ∧
      ∀ upper, stripZeros (n.chars upper) = m.chars upper := by
  obtain ⟨whole, decimals, exponent⟩ := n
  obtain ⟨es, k, rfl, hlast⟩ := exists_trimmed decimals
  have hes : ∀ c ∈ whole ++ es, c.isDigit = true := fun c hc => hdigits c <| by
    rw [← List.append_assoc]
    exact List.mem_append_left _ hc
  exact ⟨⟨whole, es, exponent⟩, ⟨hwhole, hes, hlast⟩, (value_zeros ..).symm, rfl,
    fun upper => stripZeros_zeros hwhole hes hlast k upper exponent⟩

end Notation

section Digits

variable {width n : ℕ}

theorem isDigit_paddedDigits (width n : ℕ) : ∀ c ∈ paddedDigits width n, c.isDigit = true := by
  refine List.forall_mem_append.mpr ⟨fun c hc => ?_,
    fun c => Nat.isDigit_of_mem_toDigits (by decide) (by decide)⟩
  rw [List.eq_of_mem_replicate hc]
  rfl

theorem length_paddedDigits (hwidth : 0 < width) (hn : n < 10 ^ width) :
    (paddedDigits width n).length = width := by
  have hlen := (Nat.length_toDigits_le_iff (by decide) hwidth).mpr hn
  simp [paddedDigits]
  omega

theorem ofDigitChars_paddedDigits (width n : ℕ) :
    Nat.ofDigitChars 10 (paddedDigits width n) 0 = n := by
  rw [paddedDigits]
  simp only [Nat.ofDigitChars_append, Nat.ofDigitChars_replicate_zero, Nat.mul_zero,
    Nat.ofDigitChars_ten_toDigits]

end Digits

namespace Notation

variable {n places : ℕ}

/-- The notation of `n / 10 ^ places` without an exponent. -/
def positional (n places : ℕ) : Notation :=
  ⟨Nat.toDigits 10 (n / 10 ^ places), if places = 0 then [] else paddedDigits places (n % 10 ^ places),
    none⟩

/-- The notation of `n / 10 ^ places * 10 ^ x` with one digit in front of the point. -/
def scientific (n places : ℕ) (x : ℤ) : Notation :=
  ⟨(paddedDigits (places + 1) n).take 1, (paddedDigits (places + 1) n).drop 1, some x⟩

theorem digits_positional (n places : ℕ) :
    ∀ c ∈ (positional n places).whole ++ (positional n places).decimals, c.isDigit = true := by
  refine List.forall_mem_append.mpr
    ⟨fun c => Nat.isDigit_of_mem_toDigits (by decide) (by decide), ?_⟩
  rw [positional]
  dsimp only
  split
  · exact List.forall_mem_nil _
  · exact isDigit_paddedDigits _ _

theorem value_positional (n places : ℕ) :
    (positional n places).value = n * 10 ^ (-(places : ℤ)) := by
  rw [value, positional]
  dsimp only
  rw [Option.getD_none, zero_sub]
  split
  · rename_i hplaces
    subst hplaces
    rw [List.append_nil, Nat.ofDigitChars_ten_toDigits, Nat.pow_zero, Nat.div_one, List.length_nil]
  · rename_i hplaces
    have hlt : n % 10 ^ places < 10 ^ places := Nat.mod_lt _ (by positivity)
    have hsplit : 10 ^ places * (n / 10 ^ places) + n % 10 ^ places = n := Nat.div_add_mod _ _
    rw [Nat.ofDigitChars_append, Nat.ofDigitChars_eq_ofDigitChars_zero, Nat.ofDigitChars_ten_toDigits,
      ofDigitChars_paddedDigits, length_paddedDigits (Nat.pos_of_ne_zero hplaces) hlt, hsplit]

theorem whole_scientific (n places : ℕ) (x : ℤ) : (scientific n places x).whole ≠ [] := by
  simp [scientific, paddedDigits, Nat.toDigits_ne_nil]

theorem digits_scientific (n places : ℕ) (x : ℤ) :
    ∀ c ∈ (scientific n places x).whole ++ (scientific n places x).decimals, c.isDigit = true := by
  rw [scientific, List.take_append_drop]
  exact isDigit_paddedDigits _ _

/-- With an exponent written out, the notation denotes the rounded number. -/
theorem value_scientific (hn : n < 10 ^ (places + 1)) (x : ℤ) :
    (scientific n places x).value = n * 10 ^ (x - places) := by
  rw [value, scientific]
  dsimp only
  rw [List.take_append_drop, ofDigitChars_paddedDigits, List.length_drop,
    length_paddedDigits (Nat.succ_pos places) hn, Option.getD_some, Nat.succ_sub_one]

/-- The fixed form is the positional notation of the rounded number. -/
theorem chars_positional (r : Ratio) (places : ℕ) (upper : Bool) :
    r.fixed places = (positional (r.scale 10 places).round places).chars upper := by
  rw [Ratio.fixed, chars, positional, power, List.append_nil]
  split
  · rename_i hplaces
    simp [hplaces, point]
  · rename_i hplaces
    have hne : paddedDigits places ((r.scale 10 places).round % 10 ^ places) ≠ [] := by
      simp [paddedDigits, Nat.toDigits_ne_nil]
    dsimp only
    rw [point, if_neg hne]
    rfl

theorem mantissa_eq (hn : n < 10 ^ (places + 1)) (x : ℤ) :
    mantissa n places = (scientific n places x).whole ++ point (scientific n places x).decimals := by
  have hlen := length_paddedDigits (Nat.succ_pos places) hn
  rw [mantissa, scientific]
  cases hds : paddedDigits (places + 1) n with
  | nil =>
    rw [hds] at hlen
    cases hlen
  | cons d ds =>
    rw [hds, List.length_cons, Nat.add_right_cancel_iff] at hlen
    subst hlen
    cases ds <;> rfl

/-- The exponent form is the scientific notation of the rounded number, where rounding has not added a
digit. -/
theorem chars_scientific (r : Ratio) (places : ℕ) (hn : (r.scientific places).1 < 10 ^ (places + 1))
    (upper : Bool) : exponentForm r places upper =
      (scientific (r.scientific places).1 places (r.scientific places).2).chars upper := by
  rw [exponentForm]
  generalize r.scientific places = s at hn
  obtain ⟨n, x⟩ := s
  rw [chars, ← mantissa_eq hn x]
  rfl

end Notation

/-- The style is chosen by the exponent of the rounded number, and both styles show its digits. -/
theorem exists_general {r : Ratio} (hd : 0 < r.den) {precision : ℕ} (hprecision : precision ≤ 2 ^ 31 - 5)
    (upper : Bool) : ∃ n : Notation, generalForm r precision upper = n.chars upper ∧ n.Regular ∧
      n.value = toSignificant (max precision 1) r.value ∧
      n.exponent =
        let x := Int.log 10 (toSignificant (max precision 1) r.value)
        if x < -4 ∨ ((max precision 1 : ℕ) : ℤ) ≤ x then some x else none := by
  obtain ⟨places, hplaces⟩ : ∃ places, max precision 1 = places + 1 :=
    ⟨max precision 1 - 1, by omega⟩
  have hbound : Int.bmod ((places + 1 : ℕ) : ℤ) UInt32.size = places + 1 := by
    rw [Int.bmod_eq_of_le (by unfold UInt32.size; omega) (by unfold UInt32.size; omega)]
    exact Nat.cast_succ places
  have hs := r.significant_scientific hd places
  have hzero : (if r.num = 0 then 0 else (r.scientific places).2) = (r.scientific places).2 := by
    split
    · rename_i hn
      rw [Ratio.scientific, if_pos hn]
    · rfl
  have hform : generalForm r precision upper = stripZeros
      (if -4 ≤ (r.scientific places).2 ∧ (r.scientific places).2 < places + 1 then
        r.fixed (places - (r.scientific places).2).toNat
      else exponentForm r places upper) := by
    rw [generalForm, hplaces]
    simp only [Nat.add_sub_cancel, hzero, hbound, add_sub_cancel_right]
  rw [hform, hplaces, hs.log, hs.value]
  generalize hn : (r.scientific places).1 = n at hs
  generalize hx : (r.scientific places).2 = x at hs
  by_cases hfixed : -4 ≤ x ∧ x < places + 1
  · have hdecimals : (((places - x).toNat : ℕ) : ℤ) = places - x := Int.toNat_of_nonneg (by omega)
    obtain ⟨m, hregular, hvalue, hexponent, hchars⟩ :=
      Notation.exists_stripped (Nat.toDigits_ne_nil : (Notation.positional n _).whole ≠ [])
        (Notation.digits_positional n (places - x).toNat)
    refine ⟨m, ?_, hregular, ?_, ?_⟩
    · rw [if_pos hfixed, Notation.chars_positional r _ upper, hdecimals, hs.round, hchars]
    · rw [hvalue, Notation.value_positional, hdecimals, neg_sub]
    · rw [hexponent, if_neg (by push_cast; omega)]
      rfl
  · obtain ⟨m, hregular, hvalue, hexponent, hchars⟩ :=
      Notation.exists_stripped (Notation.whole_scientific n places x)
        (Notation.digits_scientific n places x)
    refine ⟨m, ?_, hregular, ?_, ?_⟩
    · rw [if_neg hfixed, Notation.chars_scientific r places (hn ▸ hs.lt) upper, hn, hx, hchars]
    · rw [hvalue, Notation.value_scientific hs.lt]
    · rw [hexponent, if_pos (by push_cast; omega)]
      rfl

namespace Parts

def significant (p : Parts) : ℕ :=
  max ((p.precision.map value).getD 6) 1

def mark (p : Parts) (negative : Bool) : List Char :=
  if negative then ['-'] else if '+' ∈ p.flags then ['+'] else if ' ' ∈ p.flags then [' '] else []

end Parts

def generalLetter (upper : Bool) : UInt8 :=
  if upper then 0x47 else 0x67

theorem Spec.pad_narrow {s : Spec} (h : s.width = none) (sign : List Char) (body : List UInt8)
    (numeric : Bool) : s.pad sign body numeric = Text.encode sign ++ body := by
  rw [pad, h]
  simp

theorem Spec.float_finite {s : Spec} {form : Form} {upper : Bool} {x : Double} (hx : x.isFinite = true) :
    s.float form upper x = s.pad (s.sign (x.negative && !x.isNaN))
      (Text.encode (form x.ratio (s.precision.getD 6))) true := by
  unfold Spec.float
  exact if_pos hx

theorem Parts.sign_finite (p : Parts) {x : Double} (hx : x.isFinite = true) :
    p.spec.sign (x.negative && !x.isNaN) = p.mark x.negative := by
  have hnumber : x.isNaN = false := by
    have hne : x.exponentField ≠ 2047 := by simpa [Double.isFinite] using hx
    simp [Double.isNaN, hne]
  rw [hnumber, Bool.not_false, Bool.and_true, Spec.sign, mark]
  simp [spec, hasFlag]

/-- A precision of 0 counts as 1. -/
theorem Parts.precision_significant {p : Parts} (h : ∀ ds ∈ p.precision, value ds ≤ 2 ^ 31 - 5) :
    p.spec.precision.getD 6 ≤ 2 ^ 31 - 5 ∧ max (p.spec.precision.getD 6) 1 = p.significant := by
  cases hp : p.precision with
  | none =>
    simp only [spec, significant, hp, Option.map_none, Option.getD_none]
    decide
  | some ds =>
    have hsmall := h ds hp
    have hvalue : (number? ds).getD 0 = value ds :=
      number?_getD (hsmall.trans_lt (by decide))
    simp only [spec, significant, hp, Option.map_some, Option.getD_some, hvalue]
    exact ⟨hsmall, trivial⟩

theorem ofChar?_general (upper : Bool) :
    Conversion.ofChar? (Text.charOf (generalLetter upper)) = some (.general upper) := by
  cases upper <;> rfl

/-- A finite double among the trailing arguments of a formatted print is printed in general form as
the number rounded to significant digits. -/
theorem render_general (resolve : UInt64 → List UInt8) (d : Directive) (hwidth : d.width = [])
    (hprecision : ∀ ds ∈ d.precision, Parts.value ds ≤ 2 ^ 31 - 5) (upper : Bool) {x : Double}
    (hx : x.isFinite = true) (address : Machine.Stored → UInt64) (behind : List Machine.Value) :
    let r := toSignificant d.significant x.size
    let e := Int.log 10 r
    ∃ n : Notation,
      render resolve (d.bytes ++ [generalLetter upper])
          (Machine.cells address (.f64 x :: behind)) =
        Text.encode (d.mark x.negative ++ n.chars upper) ∧
      n.Regular ∧ n.value = r ∧ n.exponent = if e < -4 ∨ d.significant ≤ e then some e else none := by
  intro r e
  have hd : 0 < x.ratio.den := Ratio.den_scale Nat.one_pos (by decide) _
  obtain ⟨hsmall, hsignificant⟩ := Parts.precision_significant hprecision
  obtain ⟨n, hchars, hregular, hvalue, hexponent⟩ := exists_general hd hsmall upper
  have hsize : x.ratio.value = x.size := x.ratio_value
  rw [hsignificant, hsize] at hvalue hexponent
  refine ⟨n, ?_, hregular, hvalue, hexponent⟩
  have hnarrow : d.spec.width = none := by rw [Parts.spec, hwidth, Parts.number?_nil]
  have hconvert : convert resolve d.spec (Machine.Value.cell address (.f64 x)) (.general upper) =
      d.spec.float (fun r precision => generalForm r precision upper) upper x := rfl
  rw [render, pieces_conversion d (ofChar?_general upper), Machine.cells, List.map_cons, renderPieces,
    renderPieces, List.append_nil, hconvert, Spec.float_finite hx, Spec.pad_narrow hnarrow,
    Parts.sign_finite _ hx, hchars, Text.encode_append]

/-- The digits carry into a new power of ten, where the style changes. -/
theorem render_general_carry : ∃ d : Directive, d.bytes ++ [generalLetter false] = Text.bytes "%g" ∧
    d.width = [] ∧ (∀ ds ∈ d.precision, Parts.value ds ≤ 2 ^ 31 - 5) ∧
    render (fun _ => []) (d.bytes ++ [generalLetter false])
      (Machine.cells (fun _ => 0) [.f64 ⟨0x412e847f00000000⟩]) = Text.bytes "1e+06" ∧
    let r := toSignificant d.significant (Double.size ⟨0x412e847f00000000⟩)
    let e := Int.log 10 r
    ∃ n : Notation, Text.bytes "1e+06" = Text.encode (d.mark false ++ n.chars false) ∧
      n.Regular ∧ n.value = r ∧ n.exponent = if e < -4 ∨ d.significant ≤ e then some e else none := by
  have hprint : render (fun _ => []) (Directive.start.bytes ++ [generalLetter false])
      (Machine.cells (fun _ => 0) [.f64 ⟨0x412e847f00000000⟩]) = Text.bytes "1e+06" := by
    decide +kernel
  have h := render_general (fun _ => []) .start rfl nofun false
    (by decide : (⟨0x412e847f00000000⟩ : Double).isFinite = true) (fun _ => 0) []
  exact ⟨.start, by decide, rfl, nofun, hprint, hprint ▸ h⟩

end TreeLang.Format
