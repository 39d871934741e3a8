import TreeLang.Machine.Library
import TreeLang.Proofs.Format.Composition

namespace TreeLang.Format

open Text (charOf IsAscii)

inductive Integral where
  | d
  | i
  | u
  | x
  | X
  deriving DecidableEq

namespace Integral

def letter : Integral → Char
  | d => 'd'
  | i => 'i'
  | u => 'u'
  | x => 'x'
  | X => 'X'

def last (k : Integral) : UInt8 := UInt8.ofNat k.letter.toNat

def isSigned : Integral → Bool
  | d | i => true
  | u | x | X => false

/-- The digits of a value: its magnitude, or what it is modulo 2^32. -/
def numeral (k : Integral) (v : Int32) : List Char :=
  match k with
  | d | i => Nat.toDigits 10 v.toInt.natAbs
  | u => Nat.toDigits 10 (v.toInt % UInt32.size).toNat
  | x => Nat.toDigits 16 (v.toInt % UInt32.size).toNat
  | X => (Nat.toDigits 16 (v.toInt % UInt32.size).toNat).map Char.toUpper

end Integral

namespace Parts

def value (ds : List Char) : Nat := Nat.ofDigitChars 10 ds 0

/-- The width and the precision are words of 64 bits. -/
structure Fits (p : Parts) : Prop where
  width : value p.width < UInt64.size
  precision : ∀ ds ∈ p.precision, value ds < UInt64.size

def digits (p : Parts) (k : Integral) (v : Int32) : List Char :=
  match p.precision with
  | none => k.numeral v
  | some ds => if value ds = 0 ∧ v = 0 then [] else (k.numeral v).leftpad (value ds) '0'

def sign (p : Parts) (k : Integral) (v : Int32) : List Char :=
  if k.isSigned = false then []
  else if v < 0 then ['-']
  else if '+' ∈ p.flags then ['+']
  else if ' ' ∈ p.flags then [' ']
  else []

/-- Sign and digits in a field as wide as the width says. -/
def field (p : Parts) (sign digits : List Char) : List Char :=
  if '-' ∈ p.flags then (sign ++ digits).rightpad (value p.width) ' '
  else if '0' ∈ p.flags ∧ p.precision = none then
    sign ++ digits.leftpad (value p.width - sign.length) '0'
  else (sign ++ digits).leftpad (value p.width) ' '

def printed (p : Parts) (k : Integral) (v : Int32) : List Char :=
  p.field (p.sign k v) (p.digits k v)

end Parts

namespace Spec

variable {s : Spec} {sign digits : List Char}

def field (s : Spec) (sign digits : List Char) (numeric : Bool) : List Char :=
  if s.left then (sign ++ digits).rightpad (s.width.getD 0) ' '
  else if s.zero && numeric then sign ++ digits.leftpad (s.width.getD 0 - sign.length) '0'
  else (sign ++ digits).leftpad (s.width.getD 0) ' '

/-- For ASCII characters a field is the same in characters and in bytes. -/
theorem pad_eq (hsign : ∀ c ∈ sign, IsAscii c) (hdigits : ∀ c ∈ digits, IsAscii c)
    (numeric : Bool) : s.pad sign (Text.encode digits) numeric =
      Text.encode (s.field sign digits numeric) := by
  have hspace (n : Nat) : Text.encode (List.replicate n ' ') = List.replicate n 0x20 :=
    Text.encode_replicate (by decide) n
  have hzero (n : Nat) : Text.encode (List.replicate n '0') = List.replicate n 0x30 :=
    Text.encode_replicate (by decide) n
  simp only [pad, field, Text.length_encode hsign, Text.length_encode hdigits]
  split
  · simp [List.rightpad, Text.encode_append, hspace]
  · split
    · simp [List.leftpad, Text.encode_append, hzero, Nat.sub_sub]
    · simp [List.leftpad, Text.encode_append, hspace]

/-- A field is spaces, the sign, zeros, the digits, and spaces. -/
theorem exists_field (s : Spec) (sign digits : List Char) (numeric : Bool) :
    ∃ before zeros behind, s.field sign digits numeric = List.replicate before ' ' ++
      (sign ++ (List.replicate zeros '0' ++ digits) ++ List.replicate behind ' ') := by
  unfold field
  split
  · exact ⟨0, 0, s.width.getD 0 - (sign ++ digits).length, by simp [List.rightpad]⟩
  · split
    · exact ⟨0, s.width.getD 0 - sign.length - digits.length, 0, by simp [List.leftpad]⟩
    · exact ⟨s.width.getD 0 - (sign ++ digits).length, 0, 0, by simp [List.leftpad]⟩

theorem ascii_field (hsign : ∀ c ∈ sign, IsAscii c) (hdigits : ∀ c ∈ digits, IsAscii c)
    (numeric : Bool) : ∀ c ∈ s.field sign digits numeric, IsAscii c := by
  obtain ⟨before, zeros, behind, hfield⟩ := s.exists_field sign digits numeric
  rw [hfield]
  simp only [List.forall_mem_append]
  exact ⟨Text.ascii_replicate (by decide) before,
    ⟨hsign, Text.ascii_replicate (by decide) zeros, hdigits⟩,
    Text.ascii_replicate (by decide) behind⟩

theorem mem_widen {c : Char} (h : c ∈ s.widen digits) : c = '0' ∨ c ∈ digits := by
  unfold widen at h
  split at h
  · exact .inr h
  · rcases List.mem_append.mp h with h | h
    · exact .inl (List.eq_of_mem_replicate h)
    · split at h
      · cases h
      · exact .inr h

theorem ascii_widen (hdigits : ∀ c ∈ digits, IsAscii c) : ∀ c ∈ s.widen digits, IsAscii c := by
  intro c hc
  rcases mem_widen hc with rfl | hc
  · decide
  · exact hdigits c hc

theorem ascii_sign (s : Spec) (negative : Bool) : ∀ c ∈ s.sign negative, IsAscii c := by
  have hsigns : ∀ c ∈ ['-', '+', ' '], IsAscii c := List.all_iff_forall_prop.mp (by decide)
  intro c hc
  refine hsigns c ?_
  unfold sign at hc
  repeat' split at hc
  all_goals simp_all

end Spec

/-- Only zero is written with a single zero, so a field can tell zero by its digits. -/
theorem toDigits_eq_zero {base n : Nat} (hbase : 1 < base) :
    Nat.toDigits base n = ['0'] ↔ n = 0 := by
  constructor
  · intro h
    rcases Nat.lt_or_ge n base with hlt | hge
    · rw [Nat.toDigits_of_lt_base hlt, List.singleton_inj] at h
      exact Nat.digitChar_eq_zero.mp h
    · have hpos : 0 < (Nat.toDigits base (n / base)).length := Nat.length_toDigits_pos
      have hlen := congrArg List.length h
      rw [Nat.toDigits_of_base_le hbase hge, List.length_append, List.length_singleton,
        List.length_singleton] at hlen
      omega
  · rintro rfl
    exact Nat.toDigits_zero base

theorem toUpper_eq_zero {c : Char} : c.toUpper = '0' ↔ c = '0' := by
  have hzero : '0'.toNat = 48 := rfl
  rw [← Char.toNat_inj, ← Char.toNat_inj, Text.toNat_toUpper, hzero]
  split <;> omega

/-- A cell holds an integer with its sign, so the conversions that read a sign read this one. -/
theorem toInt64_cell (v : Int32) : v.toInt64.toUInt64.toInt64.toInt = v.toInt := by
  rw [Int64.toInt64_toUInt64, Int32.toInt_toInt64]

theorem toNat_toUInt64 (w : Int64) : w.toUInt64.toNat = (w.toInt % UInt64.size).toNat := by
  have h : (BitVec.ofInt 64 w.toBitVec.toInt).toNat = _ := BitVec.toNat_ofInt w.toBitVec.toInt
  rw [BitVec.ofInt_toInt] at h
  exact h

/-- What a cell holds of an integer in its low half. -/
theorem toUInt32_cell (v : Int32) :
    v.toInt64.toUInt64.toUInt32.toNat = (v.toInt % UInt32.size).toNat := by
  rw [UInt64.toNat_toUInt32, toNat_toUInt64, Int32.toInt_toInt64]
  unfold UInt32.size UInt64.size
  omega

namespace Integral

def conversion : Integral → Conversion
  | d | i => .signed
  | u => .unsigned
  | x => .hex false
  | X => .hex true

theorem ofChar?_last (k : Integral) : Conversion.ofChar? (charOf k.last) = some k.conversion := by
  cases k <;> rfl

variable {k : Integral} {v : Int32}

theorem ascii_numeral : ∀ c ∈ k.numeral v, IsAscii c := by
  cases k with
  | d | i | u | x => exact Text.ascii_of_mem_toDigits (by decide) (by decide)
  | X =>
    intro c hc
    obtain ⟨lower, hlower, rfl⟩ := List.mem_map.mp hc
    exact Text.ascii_toUpper (Text.ascii_of_mem_toDigits (by decide) (by decide) lower hlower)

theorem numeral_eq_zero : k.numeral v = ['0'] ↔ v = 0 := by
  have hupper (cs : List Char) : cs.map Char.toUpper = ['0'] ↔ cs = ['0'] := by
    simp [List.map_eq_singleton_iff, toUpper_eq_zero]
  have hzero : v = 0 ↔ v.toInt = 0 := Int32.toInt_inj.symm
  have hlow : (v.toInt % UInt32.size).toNat = 0 ↔ v.toInt = 0 := by
    have hge := v.le_toInt
    have hlt := v.toInt_lt
    unfold UInt32.size
    omega
  rw [hzero]
  cases k with
  | d | i => exact (toDigits_eq_zero (by decide)).trans Int.natAbs_eq_zero
  | u | x => exact (toDigits_eq_zero (by decide)).trans hlow
  | X => exact (hupper _).trans ((toDigits_eq_zero (by decide)).trans hlow)

end Integral

variable {resolve : UInt64 → List UInt8}

def Spec.text (s : Spec) (k : Integral) (v : Int32) : List Char :=
  s.field (if k.isSigned then s.sign (v < 0) else []) (s.widen (k.numeral v)) s.precision.isNone

section

variable (s : Spec) (k : Integral) (v : Int32)

theorem Spec.ascii_shown : ∀ c ∈ (if k.isSigned then s.sign (v < 0) else []), IsAscii c := by
  split
  · exact s.ascii_sign _
  · exact List.forall_mem_nil _

theorem Spec.ascii_text : ∀ c ∈ s.text k v, IsAscii c :=
  ascii_field (s.ascii_shown k v) (ascii_widen Integral.ascii_numeral) _

/-- A conversion takes the cell of an integer for the integer. -/
theorem convert_cell (address : Machine.Stored → UInt64) :
    convert resolve s ((Machine.Value.i32 v).cell address) k.conversion =
      Text.encode (s.text k v) := by
  have hnegative : decide (v < 0) = decide (v.toInt < 0) :=
    decide_eq_decide.mpr Int32.lt_iff_toInt_lt
  have hconvert : convert resolve s ((Machine.Value.i32 v).cell address) k.conversion =
      s.integer (if k.isSigned then s.sign (v < 0) else []) (k.numeral v) := by
    cases k with
    | d | i =>
      simp only [Machine.Value.cell, Integral.conversion, convert, toInt64_cell, Integral.isSigned,
        Integral.numeral, hnegative]
      rfl
    | u | x | X =>
      simp only [Machine.Value.cell, Integral.conversion, convert, toUInt32_cell, Integral.numeral]
      rfl
  rw [hconvert, Spec.integer,
    Spec.pad_eq (s.ascii_shown k v) (Spec.ascii_widen Integral.ascii_numeral), Spec.text]

end

section

variable (d : Directive) (k : Integral) (v : Int32) (behind : List Machine.Value)

/-- A directive for integers, with an integer as the first argument. -/
theorem render_cell (address : Machine.Stored → UInt64) :
    render resolve (d.bytes ++ [k.last]) (Machine.cells address (.i32 v :: behind)) =
      Text.encode (d.spec.text k v) := by
  rw [render, pieces_conversion d k.ofChar?_last, Machine.cells, List.map_cons, renderPieces,
    renderPieces, List.append_nil, convert_cell]

theorem readable_cell (address : Machine.Stored → UInt64) :
    Machine.readable address (stringArguments (pieces (d.bytes ++ [k.last]))) (.i32 v :: behind) =
      true := by
  rw [pieces_conversion d k.ofChar?_last]
  cases k <;> rfl

end

namespace Parts

variable {p : Parts}

/-- Digits whose number fits in a word are read as this number. -/
theorem number?_getD {ds : List Char} (h : value ds < UInt64.size) :
    (number? ds).getD 0 = value ds := by
  by_cases hds : ds = []
  · subst hds
    rfl
  · rw [number?, if_pos ⟨hds, h⟩]
    rfl

/-- The scanner reads the precision that the directive says. -/
theorem precision_spec (hfits : p.Fits) : p.spec.precision = p.precision.map value := by
  cases hp : p.precision with
  | none => simp [spec, hp]
  | some ds => simp [spec, hp, number?_getD (hfits.precision ds hp)]

theorem sign_spec (k : Integral) (v : Int32) :
    (if k.isSigned then p.spec.sign (v < 0) else []) = p.sign k v := by
  cases hk : k.isSigned <;> simp [sign, Spec.sign, spec, hasFlag, hk]

theorem widen_spec (hfits : p.Fits) (k : Integral) (v : Int32) :
    p.spec.widen (k.numeral v) = p.digits k v := by
  rw [Spec.widen, precision_spec hfits, digits]
  cases p.precision with
  | none => rfl
  | some ds =>
    simp only [Option.map_some, Integral.numeral_eq_zero]
    by_cases hzero : value ds = 0 ∧ v = 0
    · simp [hzero]
    · simp [hzero, List.leftpad]

theorem field_spec (hfits : p.Fits) (sign digits : List Char) :
    p.spec.field sign digits p.spec.precision.isNone = p.field sign digits := by
  have hwidth : p.spec.width.getD 0 = value p.width := number?_getD hfits.width
  rw [Spec.field, hwidth, precision_spec hfits, field]
  simp [spec, hasFlag]

/-- What the renderer writes for a directive is what the directive says. -/
theorem text_spec (hfits : p.Fits) (k : Integral) (v : Int32) : p.spec.text k v = p.printed k v := by
  rw [Spec.text, sign_spec, widen_spec hfits, field_spec hfits, printed]

end Parts

/-- An integer among the trailing arguments of a formatted print is printed as printf prints it. -/
theorem render_integer (resolve : UInt64 → List UInt8) (d : Directive) (hfits : d.Fits)
    (k : Integral) (v : Int32) (address : Machine.Stored → UInt64) (behind : List Machine.Value) :
    render resolve (d.bytes ++ [k.last]) (Machine.cells address (.i32 v :: behind)) =
      Text.encode (d.printed k v) ∧
    ∀ place, Machine.formatted address (some ⟨place, d.bytes ++ [k.last]⟩) (.i32 v :: behind) =
      .ok (Text.encode (d.printed k v)) := by
  have hrender (resolve : UInt64 → List UInt8) :
      render resolve (d.bytes ++ [k.last]) (Machine.cells address (.i32 v :: behind)) =
        Text.encode (d.printed k v) := by
    rw [render_cell, Parts.text_spec hfits]
  refine ⟨hrender resolve, fun place => ?_⟩
  rw [Machine.formatted, if_pos (readable_cell ..), hrender]

theorem render_integer_zeros : ∃ d : Directive, d.bytes ++ [Integral.d.last] = Text.bytes "%08lld" ∧
    d.Fits ∧ render (fun _ => []) (d.bytes ++ [Integral.d.last])
        (Machine.cells (fun _ => 0) [.i32 (-42)]) =
      Text.bytes "-0000042" := by
  let d : Directive := ⟨⟨['0'], ['8'], none, ['l', 'l']⟩, by decide⟩
  have hfits : d.Fits := ⟨by decide, nofun⟩
  exact ⟨d, by decide, hfits, (render_integer _ d hfits .d (-42) (fun _ => 0) []).1.trans (by decide)⟩

end TreeLang.Format
