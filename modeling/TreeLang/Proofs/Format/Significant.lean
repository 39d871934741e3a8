import Mathlib.Data.Int.Log
import Mathlib.Data.Rat.Floor
import TreeLang.Proofs.Double.Rounding

namespace TreeLang

variable {v : ℚ} {n m : ℕ} {e : ℤ}

def roundHalfEven (v : ℚ) : ℕ :=
  if v < ⌊v⌋₊ + 1 / 2 ∨ v = ⌊v⌋₊ + 1 / 2 ∧ Even ⌊v⌋₊ then ⌊v⌋₊ else ⌊v⌋₊ + 1

/-- The number with so many significant decimal digits, a half going to the even neighbour. -/
noncomputable def toSignificant (digits : ℕ) (v : ℚ) : ℚ :=
  let step : ℚ := 10 ^ (Int.log 10 v - (digits - 1))
  roundHalfEven (v / step) * step

def Double.size (x : Double) : ℚ := x.significand * 2 ^ x.exponent

/-- The floor of the number or the one above it is the nearest whole number. -/
theorem rounds_roundHalfEven (hv : 0 ≤ v) : Rounds v (roundHalfEven v) := by
  have hlow : (⌊v⌋₊ : ℚ) ≤ v := Nat.floor_le hv
  have hhigh : v < ⌊v⌋₊ + 1 := Nat.lt_floor_add_one v
  unfold roundHalfEven
  split
  · rename_i h
    have hle : v ≤ ⌊v⌋₊ + 1 / 2 := h.elim le_of_lt fun h => h.1.le
    refine ⟨by linarith, hle, fun hodd => ⟨by linarith, ?_⟩⟩
    refine h.resolve_right fun h => ?_
    have heven := Nat.even_iff.mp h.2
    omega
  · rename_i h
    obtain ⟨hge, htie⟩ := not_or.mp h
    have hge : (⌊v⌋₊ : ℚ) + 1 / 2 ≤ v := not_lt.mp hge
    have hnext : ((⌊v⌋₊ + 1 : ℕ) : ℚ) = ⌊v⌋₊ + 1 := Nat.cast_succ _
    refine ⟨by linarith, by linarith, fun hodd => ⟨?_, by linarith⟩⟩
    have hne : v ≠ ⌊v⌋₊ + 1 / 2 := fun he => htie ⟨he, Nat.even_iff.mpr (by omega)⟩
    have hlt := lt_of_le_of_ne hge hne.symm
    linarith

/-- Rounding does not go past a whole number. -/
theorem Rounds.le_of_le (h : Rounds v n) (hv : v ≤ m) : n ≤ m := by
  have hlow := h.low
  have hlt : (n : ℚ) < (m + 1 : ℕ) := by
    push_cast
    linarith
  exact Nat.lt_succ_iff.mp (Nat.cast_lt.mp hlt)

theorem Rounds.ge_of_ge (h : Rounds v n) (hv : m ≤ v) : m ≤ n := by
  have hhigh := h.high
  have hlt : (m : ℚ) < (n + 1 : ℕ) := by
    push_cast
    linarith
  exact Nat.lt_succ_iff.mp (Nat.cast_lt.mp hlt)

theorem Rounds.unique (h : Rounds v n) (h' : Rounds v m) : n = m := by
  have haux : ∀ {a b : ℕ}, Rounds v a → Rounds v b → a ≤ b := by
    intro a b ha hb
    by_contra hlt
    have hnext : b + 1 ≤ a := not_le.mp hlt
    have hcast : ((b : ℚ) + 1) ≤ a := by exact_mod_cast hnext
    have hlow := ha.low
    have hhigh := hb.high
    have hsucc : a = b + 1 := by
      have hle : (a : ℚ) ≤ (b + 1 : ℕ) := by
        push_cast
        linarith
      exact le_antisymm (Nat.cast_le.mp hle) hnext
    rcases Nat.even_or_odd b with heven | hodd
    · have ha := (ha.odd (by have := Nat.even_iff.mp heven; omega)).1
      linarith
    · have hb := (hb.odd (Nat.odd_iff.mp hodd)).2
      linarith
  exact le_antisymm (haux h h') (haux h' h)

/-- So there is no other rounding. -/
theorem roundHalfEven_eq (hv : 0 ≤ v) (h : Rounds v n) : roundHalfEven v = n :=
  (rounds_roundHalfEven hv).unique h

theorem Ratio.value_nonneg (r : Ratio) : 0 ≤ r.value :=
  div_nonneg (Nat.cast_nonneg _) (Nat.cast_nonneg _)

/-- The division of whole numbers rounds half to even. -/
theorem Ratio.round_eq {r : Ratio} (hd : 0 < r.den) : r.round = roundHalfEven r.value :=
  (rounds_roundHalfEven r.value_nonneg).eq_roundDiv hd

theorem log_eq (hlow : (10 : ℚ) ^ e ≤ v) (hhigh : v < 10 ^ (e + 1)) : Int.log 10 v = e := by
  have hpos : 0 < v := (zpow_pos (by norm_num) e).trans_le hlow
  have h₁ : e ≤ Int.log 10 v := (Int.zpow_le_iff_le_log (by norm_num) hpos).mp (by exact_mod_cast hlow)
  have h₂ : Int.log 10 v < e + 1 :=
    (Int.lt_zpow_iff_log_lt (by norm_num) hpos).mp (by exact_mod_cast hhigh)
  omega

/-- Scaled to so many places behind its first digit, a number is between two powers of ten. -/
theorem scaled_within {places : ℕ} (hlow : (10 : ℚ) ^ e ≤ v) (hhigh : v < 10 ^ (e + 1)) :
    10 ^ places ≤ v * 10 ^ (places - e) ∧ v * 10 ^ (places - e) < 10 ^ (places + 1) := by
  have hstep : (0 : ℚ) < 10 ^ ((places : ℤ) - e) := zpow_pos (by norm_num) _
  have hpow : ∀ k : ℤ, (10 : ℚ) ^ k * 10 ^ ((places : ℤ) - e) = 10 ^ (k + (places - e)) :=
    fun k => (zpow_add₀ (by norm_num) _ _).symm
  have hnext : e + 1 + (places - e) = ((places + 1 : ℕ) : ℤ) := by
    push_cast
    ring
  have h₁ := mul_le_mul_of_nonneg_right hlow hstep.le
  have h₂ := mul_lt_mul_of_pos_right hhigh hstep
  rw [hpow, add_sub_cancel, zpow_natCast] at h₁
  rw [hpow, hnext, zpow_natCast] at h₂
  exact ⟨h₁, h₂⟩

/-- Within a power of ten, rounding to significant digits is rounding to decimals. -/
theorem toSignificant_of_decade {places : ℕ} (hlow : (10 : ℚ) ^ e ≤ v) (hhigh : v < 10 ^ (e + 1)) :
    toSignificant (places + 1) v = roundHalfEven (v * 10 ^ (places - e)) * 10 ^ (e - places) := by
  have hstep : e - (((places + 1 : ℕ) : ℤ) - 1) = e - places := by
    push_cast
    ring
  have hdiv : v / 10 ^ (e - places) = v * 10 ^ (places - e) := by
    rw [div_eq_mul_inv, ← zpow_neg, neg_sub]
  rw [toSignificant, log_eq hlow hhigh, hstep, hdiv]

theorem log_digits {places : ℕ} (hlow : 10 ^ places ≤ n) (hhigh : n < 10 ^ (places + 1)) (x : ℤ) :
    Int.log 10 ((n : ℚ) * 10 ^ (x - places)) = x := by
  have hlow : (10 : ℚ) ^ places ≤ n := by exact_mod_cast hlow
  have hhigh : (n : ℚ) < 10 ^ (places + 1) := by exact_mod_cast hhigh
  have hstep : (0 : ℚ) < 10 ^ (x - places) := zpow_pos (by norm_num) _
  have hpow : ∀ k : ℕ, (10 : ℚ) ^ k * 10 ^ (x - places) = 10 ^ (x - places + k) := by
    intro k
    rw [zpow_add₀ (by norm_num), zpow_natCast, mul_comm]
  refine log_eq ?_ ?_
  · have h := mul_le_mul_of_nonneg_right hlow hstep.le
    rwa [hpow, sub_add_cancel] at h
  · have h := mul_lt_mul_of_pos_right hhigh hstep
    have hnext : x - places + ((places + 1 : ℕ) : ℤ) = x + 1 := by
      push_cast
      ring
    rwa [hpow, hnext] at h

namespace Ratio

variable {r : Ratio} {places : ℕ}

/-- What `scientific` gives: the digits of the rounded number, and its exponent. The same digits come
from rounding to the decimals that stand in front of its last digit. -/
structure Significant (r : Ratio) (places n : ℕ) (x : ℤ) : Prop where
  lt : n < 10 ^ (places + 1)
  value : toSignificant (places + 1) r.value = n * 10 ^ (x - places)
  log : Int.log 10 (toSignificant (places + 1) r.value) = x
  round : (r.scale 10 (places - x)).round = n

/-- Zero has the digit 0 and the exponent 0 at any precision. -/
theorem significant_zero (hn : r.num = 0) (hd : 0 < r.den) : r.Significant places 0 0 := by
  have hvalue : r.value = 0 := by rw [value, hn, Nat.cast_zero, zero_div]
  have hround : roundHalfEven 0 = 0 := roundHalfEven_eq le_rfl ⟨by norm_num, by norm_num, by simp⟩
  have hzero : toSignificant (places + 1) r.value = 0 := by
    rw [hvalue, toSignificant, zero_div, hround, Nat.cast_zero, zero_mul]
  refine ⟨by positivity, by rw [hzero, Nat.cast_zero, zero_mul], ?_, ?_⟩
  · rw [hzero, Int.log_of_right_le_zero 10 le_rfl]
  · rw [round_eq (den_scale hd (by decide) _), value_scale r (by decide), hvalue, zero_mul, hround]

/-- A number with so many digits in front of the point keeps them when it is rounded, or becomes the
next power of ten. -/
theorem rounds_within {w : ℚ} (hlow : 10 ^ places ≤ w) (hhigh : w < 10 ^ (places + 1)) (h : Rounds w n) :
    10 ^ places ≤ n ∧ n ≤ 10 ^ (places + 1) :=
  ⟨h.ge_of_ge (by exact_mod_cast hlow), h.le_of_le (by exact_mod_cast hhigh.le)⟩

/-- Rounded up to a power of ten, a number is rounded to the power below with one digit less. -/
theorem rounds_carry {w : ℚ} (hhigh : w < 10 ^ (places + 1)) (h : Rounds w (10 ^ (places + 1))) :
    Rounds (w / 10) (10 ^ places) := by
  have hlow := h.low
  push_cast at hlow
  rw [pow_succ] at hlow hhigh
  have hless : w / 10 < 10 ^ places := by linarith
  refine ⟨?_, ?_, fun _ => ⟨?_, ?_⟩⟩ <;> push_cast <;> linarith

/-- The digits and the exponent of the scientific form are those of the rounded number, whether the
digits carry or not. -/
theorem significant_scientific (hd : 0 < r.den) (places : ℕ) :
    r.Significant places (r.scientific places).1 (r.scientific places).2 := by
  by_cases hn : r.num = 0
  · rw [scientific, if_pos hn]
    exact significant_zero hn hd
  obtain ⟨hlow, hhigh⟩ := decade_spec (Nat.pos_of_ne_zero hn) hd
  have hten : (10 : ℚ) ≠ 0 := by norm_num
  have hscale : ∀ e : ℤ, (r.scale 10 e).value = r.value * 10 ^ e := fun e => by
    rw [value_scale r (by decide), Nat.cast_ofNat]
  have hround : ∀ e : ℤ, Rounds (r.value * 10 ^ e) (r.scale 10 e).round := fun e => by
    rw [round_eq (den_scale hd (by decide) _), ← hscale]
    exact rounds_roundHalfEven (value_nonneg _)
  generalize hx : r.decade = x at hlow hhigh
  have hw : 10 ^ places ≤ r.value * 10 ^ (places - x) ∧
      r.value * 10 ^ (places - x) < 10 ^ (places + 1) := scaled_within hlow hhigh
  have hdigits : toSignificant (places + 1) r.value =
      (r.scale 10 (places - x)).round * 10 ^ (x - places) := by
    rw [toSignificant_of_decade hlow hhigh, round_eq (den_scale hd (by decide) _), hscale]
  obtain ⟨hge, hle⟩ := rounds_within hw.1 hw.2 (hround _)
  rw [scientific, if_neg hn, hx]
  dsimp only
  split
  · rename_i hcarry
    have hcarry : (r.scale 10 (places - x)).round = 10 ^ (places + 1) := hcarry
    have hvalue : toSignificant (places + 1) r.value =
        ((10 ^ places : ℕ) : ℚ) * 10 ^ (x + 1 - places) := by
      have hnext : x + 1 - places = x - places + 1 := by ring
      rw [hdigits, hcarry, hnext, zpow_add_one₀ hten]
      push_cast
      ring
    have hdown : r.value * 10 ^ ((places : ℤ) - (x + 1)) = r.value * 10 ^ (places - x) / 10 := by
      have hprev : (places : ℤ) - (x + 1) = places - x - 1 := by ring
      rw [hprev, zpow_sub_one₀ hten, mul_div_assoc, div_eq_mul_inv]
    refine ⟨Nat.pow_lt_pow_right (by decide) (Nat.lt_succ_self _), hvalue, ?_, ?_⟩
    · rw [hvalue]
      exact log_digits le_rfl (Nat.pow_lt_pow_right (by decide) (Nat.lt_succ_self _)) _
    · exact (hround _).unique (hdown ▸ rounds_carry hw.2 (hcarry ▸ hround _))
  · rename_i hne
    have hlt := lt_of_le_of_ne hle hne
    exact ⟨hlt, hdigits, hdigits ▸ log_digits hge hlt x, rfl⟩

end Ratio

end TreeLang
