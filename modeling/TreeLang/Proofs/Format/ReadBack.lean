import Mathlib.Data.List.TakeWhile
import TreeLang.Proofs.Format.Integers
import TreeLang.Scan

namespace TreeLang

namespace Text

/-- Blanks are dropped up to the first character that is none. -/
theorem dropWhile_blanks {l m : List Char} (hl : ∀ c ∈ l, isBlank c = true)
    (hm : ∀ c ∈ m, isBlank c = false) (hne : m ≠ []) (rest : List Char) :
    (l ++ (m ++ rest)).dropWhile isBlank = m ++ rest := by
  rw [List.dropWhile_append_of_pos hl]
  obtain ⟨c, m, rfl⟩ := List.exists_cons_of_ne_nil hne
  have hc : ¬ isBlank c = true := by simp [hm c List.mem_cons_self]
  rw [List.cons_append, List.dropWhile_cons_of_neg hc]

/-- A text without blanks is what is left of it between blanks. -/
theorem trim_between {l m r : List Char} (hl : ∀ c ∈ l, isBlank c = true)
    (hm : ∀ c ∈ m, isBlank c = false) (hr : ∀ c ∈ r, isBlank c = true) :
    trim (l ++ (m ++ r)) = m := by
  by_cases hne : m = []
  · subst hne
    have hall : (l ++ r).dropWhile isBlank = [] :=
      List.dropWhile_eq_nil_iff.mpr fun c hc => (List.mem_append.mp hc).elim (hl c) (hr c)
    rw [List.nil_append, trim, hall]
    rfl
  · have hback : (r.reverse ++ (m.reverse ++ [])).dropWhile isBlank = m.reverse ++ [] :=
      dropWhile_blanks (by simpa using hr) (by simpa using hm) (by simpa using hne) []
    simp only [List.append_nil] at hback
    rw [trim, dropWhile_blanks hl hm hne, List.reverse_append, hback, List.reverse_reverse]

theorem not_blank_of_isDigit {c : Char} (h : c.isDigit = true) : isBlank c = false := by
  simp only [Char.isDigit, Bool.and_eq_true, decide_eq_true_eq, UInt32.le_iff_toNat_le] at h
  have hlow : 48 ≤ c.toNat := h.1
  have hhigh : c.toNat ≤ 57 := h.2
  simp [isBlank]
  omega

end Text

namespace Scan

variable {ds : List Char}

/-- Digits behind a sign are read as the integer they spell. -/
theorem int32_spelled {line cs : List Char} {negative : Bool} {v : Int32}
    (hline : Text.trim line = cs) (hsign : sign cs = (negative, ds))
    (hds : ∀ c ∈ ds, c.isDigit = true)
    (hv : v.toInt = if negative then -(natural ds : Int) else natural ds) : int32 line = v := by
  have hdigits : (digits ds).1 = ds := List.takeWhile_eq_self_iff.mpr hds
  simp only [int32, hline, hsign, hdigits, ← hv]
  by_cases hne : ds = []
  · have hzero : v.toInt = 0 := by simp [hv, hne, natural]
    rw [if_neg (fun h => h.1 hne)]
    exact (Int32.toInt_inj.mp hzero).symm
  · rw [if_pos ⟨hne, v.minValue_le_toInt, v.toInt_le⟩, Int32.ofInt_toInt]

/-- Digits without a sign in front are not negative. -/
theorem sign_digits (hds : ∀ c ∈ ds, c.isDigit = true) : sign ds = (false, ds) := by
  unfold sign
  split
  · cases hds '-' List.mem_cons_self
  · cases hds '+' List.mem_cons_self
  · rfl

theorem natural_zeros (n : Nat) (ds : List Char) :
    natural (List.replicate n '0' ++ ds) = natural ds := by
  rw [natural, Nat.ofDigitChars_append, Nat.ofDigitChars_replicate_zero, Nat.mul_zero, natural]

end Scan

namespace Format

open Text (isBlank)

namespace Spec

/-- A sign is spaces and a mark that is read as the sign. -/
theorem exists_mark (s : Spec) (negative : Bool) : ∃ spaces mark,
    s.sign negative = List.replicate spaces ' ' ++ mark ∧ (∀ c ∈ mark, isBlank c = false) ∧
      ∀ ds : List Char, (∀ c ∈ ds, c.isDigit = true) → Scan.sign (mark ++ ds) = (negative, ds) := by
  unfold sign
  cases negative with
  | true => exact ⟨0, ['-'], rfl, List.forall_mem_singleton.mpr rfl, fun ds _ => rfl⟩
  | false =>
    cases s.plus with
    | true => exact ⟨0, ['+'], rfl, List.forall_mem_singleton.mpr rfl, fun ds _ => rfl⟩
    | false =>
      cases s.space with
      | true => exact ⟨1, [], rfl, List.forall_mem_nil _, fun ds => Scan.sign_digits⟩
      | false => exact ⟨0, [], rfl, List.forall_mem_nil _, fun ds => Scan.sign_digits⟩

theorem natural_widen (s : Spec) (n : Nat) : Scan.natural (s.widen (Nat.toDigits 10 n)) = n := by
  have hn : Nat.ofDigitChars 10 (Nat.toDigits 10 n) 0 = n := Nat.ofDigitChars_ten_toDigits
  unfold widen
  split
  · exact hn
  · rw [Scan.natural_zeros]
    split
    · rename_i hzero
      rw [hzero.2] at hn
      exact hn
    · exact hn

/-- Zeros of the precision are digits of the number. -/
theorem isDigit_widen (s : Spec) (n : Nat) : ∀ c ∈ s.widen (Nat.toDigits 10 n), c.isDigit = true := by
  intro c hc
  rcases mem_widen hc with rfl | hc
  · rfl
  · exact Nat.isDigit_of_mem_toDigits (by decide) (by decide) hc

/-- The integer on a line that holds a number in its field. -/
theorem int32_field (s : Spec) (v : Int32) {digits : List Char}
    (hdigits : ∀ c ∈ digits, c.isDigit = true) (hvalue : Scan.natural digits = v.toInt.natAbs)
    (numeric : Bool) : Scan.int32 (s.field (s.sign (v < 0)) digits numeric) = v := by
  obtain ⟨spaces, mark, hsign, hmark, hread⟩ := s.exists_mark (v < 0)
  obtain ⟨before, zeros, behind, hfield⟩ := s.exists_field (s.sign (v < 0)) digits numeric
  let ds := List.replicate zeros '0' ++ digits
  have hds : ∀ c ∈ ds, c.isDigit = true := by
    refine List.forall_mem_append.mpr ⟨fun c hc => ?_, hdigits⟩
    rw [List.eq_of_mem_replicate hc]
    rfl
  have hnatural : Scan.natural ds = v.toInt.natAbs := (Scan.natural_zeros zeros digits).trans hvalue
  have hblank (n : Nat) : ∀ c ∈ List.replicate n ' ', isBlank c = true := by
    intro c hc
    rw [List.eq_of_mem_replicate hc]
    rfl
  have htrim : Text.trim (s.field (s.sign (v < 0)) digits numeric) = mark ++ ds := by
    have hline : s.field (s.sign (v < 0)) digits numeric = List.replicate (before + spaces) ' ' ++
        ((mark ++ ds) ++ List.replicate behind ' ') := by
      rw [hfield, hsign, ← List.replicate_append_replicate]
      simp only [ds, List.append_assoc]
    rw [hline]
    refine Text.trim_between (hblank _) ?_ (hblank behind)
    exact List.forall_mem_append.mpr ⟨hmark, fun c hc => Text.not_blank_of_isDigit (hds c hc)⟩
  refine Scan.int32_spelled htrim (hread ds hds) hds ?_
  have hnegative : v < 0 ↔ v.toInt < 0 := Int32.lt_iff_toInt_lt
  simp only [hnatural, decide_eq_true_eq, hnegative]
  split <;> omega

end Spec

/-- What is printed with a sign is read back, whatever the flags, the width and the precision. -/
theorem int32_rendered (resolve : UInt64 → List UInt8) (d : Directive) (k : Integral)
    (hsigned : k.isSigned = true) (v : Int32) (address : Machine.Stored → UInt64)
    (behind : List Machine.Value) :
    (Text.decode? (render resolve (d.bytes ++ [k.last])
      (Machine.cells address (.i32 v :: behind)))).map Scan.int32 = some v := by
  have hnumeral : k.numeral v = Nat.toDigits 10 v.toInt.natAbs := by
    cases k with
    | d | i => rfl
    | u | x | X => cases hsigned
  rw [render_cell, Text.decode?_encode (d.spec.ascii_text k v), Option.map_some, Spec.text,
    if_pos hsigned, hnumeral]
  exact congrArg some (d.spec.int32_field v (d.spec.isDigit_widen _) (d.spec.natural_widen _) _)

/-- Of a zero at precision 0 nothing is printed but its sign. -/
theorem int32_rendered_sign : ∃ d : Directive, d.bytes ++ [Integral.i.last] = Text.bytes "%+.0i" ∧
    render (fun _ => []) (d.bytes ++ [Integral.i.last]) (Machine.cells (fun _ => 0) [.i32 0]) =
      Text.bytes "+" ∧
    (Text.decode? (render (fun _ => []) (d.bytes ++ [Integral.i.last])
      (Machine.cells (fun _ => 0) [.i32 0]))).map Scan.int32 = some 0 := by
  let d : Directive := ⟨⟨['+'], [], some ['0'], []⟩, by decide⟩
  exact ⟨d, by decide, by decide, int32_rendered _ d .i rfl 0 (fun _ => 0) []⟩

end Format
end TreeLang
