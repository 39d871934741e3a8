import Mathlib.Algebra.Order.Field.Power
import Mathlib.Data.Rat.Cast.Order
import Mathlib.Tactic.FieldSimp
import Mathlib.Tactic.Linarith
import Mathlib.Tactic.NormNum
import Mathlib.Tactic.Positivity
import Mathlib.Tactic.Ring
import TreeLang.Double.Shortest

namespace TreeLang

/-- The length of a number in base ten says between which powers of ten it lies. -/
theorem toDigits_within {n : Nat} (hn : 0 < n) :
    10 ^ ((Nat.toDigits 10 n).length - 1) ≤ n ∧ n < 10 ^ (Nat.toDigits 10 n).length := by
  have hpos : 0 < (Nat.toDigits 10 n).length := Nat.length_toDigits_pos
  refine ⟨?_, (Nat.length_toDigits_le_iff (by decide) hpos).mp le_rfl⟩
  by_contra hlt
  rcases Nat.eq_zero_or_pos ((Nat.toDigits 10 n).length - 1) with h | h
  · rw [h] at hlt
    omega
  · have := (Nat.length_toDigits_le_iff (b := 10) (by decide) h).mpr (not_le.mp hlt)
    omega

namespace Ratio

def value (r : Ratio) : ℚ := r.num / r.den

variable {r : Ratio} {b : Nat}

theorem value_scale (r : Ratio) (hb : 0 < b) (e : Int) : (r.scale b e).value = r.value * (b : ℚ) ^ e := by
  have hb' : (b : ℚ) ≠ 0 := by exact_mod_cast hb.ne'
  unfold scale value
  split
  · rename_i he
    obtain ⟨n, rfl⟩ := Int.eq_ofNat_of_zero_le he
    simp
    ring
  · rename_i he
    obtain ⟨n, hn⟩ := Int.eq_ofNat_of_zero_le (show 0 ≤ -e by omega)
    have he' : e = -(n : Int) := by omega
    subst he'
    simp [zpow_neg]
    field_simp

theorem den_scale (hd : 0 < r.den) (hb : 0 < b) (e : Int) : 0 < (r.scale b e).den := by
  unfold scale
  split
  · exact hd
  · exact Nat.mul_pos hd (Nat.pow_pos hb)

/-- The comparison that finds the power of ten or of two is one of whole numbers. -/
theorem den_le_num (hd : 0 < r.den) : r.den ≤ r.num ↔ 1 ≤ r.value := by
  have hd' : (0 : ℚ) < r.den := by exact_mod_cast hd
  rw [value, le_div_iff₀ hd', one_mul, Nat.cast_le]

/-- Which power of the base a number lies behind, if it can only be the guess or the one below. -/
theorem scale_guess (hd : 0 < r.den) (hb : 0 < b) {g : Int} (hlow : (b : ℚ) ^ (g - 1) ≤ r.value)
    (hhigh : r.value < (b : ℚ) ^ (g + 1)) :
    let t := r.scale b (-g)
    let e := if t.den ≤ t.num then g else g - 1
    (b : ℚ) ^ e ≤ r.value ∧ r.value < (b : ℚ) ^ (e + 1) := by
  have hb' : (0 : ℚ) < b := by exact_mod_cast hb
  have hpow : (0 : ℚ) < (b : ℚ) ^ g := zpow_pos hb' g
  have hreached : (r.scale b (-g)).den ≤ (r.scale b (-g)).num ↔ (b : ℚ) ^ g ≤ r.value := by
    rw [den_le_num (den_scale hd hb _), value_scale r hb, zpow_neg, ← div_eq_mul_inv,
      le_div_iff₀ hpow, one_mul]
  intro t e
  by_cases h : (b : ℚ) ^ g ≤ r.value
  · have he : e = g := if_pos (hreached.mpr h)
    rw [he]
    exact ⟨h, hhigh⟩
  · have he : e = g - 1 := if_neg (mt hreached.mp h)
    rw [he, sub_add_cancel]
    exact ⟨hlow, not_le.mp h⟩

/-- The quotient of two numbers lies within the powers around the difference of their exponents. -/
theorem value_within (hb : 0 < b) {m n : Nat} (hnum : b ^ m ≤ r.num ∧ r.num < b ^ (m + 1))
    (hden : b ^ n ≤ r.den ∧ r.den < b ^ (n + 1)) :
    (b : ℚ) ^ ((m : Int) - n - 1) ≤ r.value ∧ r.value < (b : ℚ) ^ ((m : Int) - n + 1) := by
  have hb' : (b : ℚ) ≠ 0 := by exact_mod_cast hb.ne'
  have hpos : (0 : ℚ) < r.den := by exact_mod_cast (Nat.pow_pos hb).trans_le hden.1
  have hnum₁ : (b : ℚ) ^ m ≤ r.num := by exact_mod_cast hnum.1
  have hnum₂ : (r.num : ℚ) < b ^ (m + 1) := by exact_mod_cast hnum.2
  have hden₁ : (b : ℚ) ^ n ≤ r.den := by exact_mod_cast hden.1
  have hden₂ : (r.den : ℚ) < b ^ (n + 1) := by exact_mod_cast hden.2
  have hpow : ∀ e : Int, (0 : ℚ) < (b : ℚ) ^ e := fun e => zpow_pos (by exact_mod_cast hb) e
  constructor
  · rw [value, le_div_iff₀ hpos]
    calc (b : ℚ) ^ ((m : Int) - n - 1) * r.den
        ≤ (b : ℚ) ^ ((m : Int) - n - 1) * b ^ (n + 1) :=
          mul_le_mul_of_nonneg_left hden₂.le (hpow _).le
      _ = (b : ℚ) ^ m := by
          rw [← zpow_natCast, ← zpow_add₀ hb', ← zpow_natCast]
          congr 1
          push_cast
          ring
      _ ≤ r.num := hnum₁
  · rw [value, div_lt_iff₀ hpos]
    calc (r.num : ℚ) < b ^ (m + 1) := hnum₂
      _ = (b : ℚ) ^ ((m : Int) - n + 1) * b ^ n := by
          rw [← zpow_natCast, ← zpow_natCast, ← zpow_add₀ hb']
          congr 1
          push_cast
          ring
      _ ≤ (b : ℚ) ^ ((m : Int) - n + 1) * r.den :=
          mul_le_mul_of_nonneg_left hden₁ (hpow _).le

/-- The exponent of two that the guess and the comparison after it come to. -/
theorem binade_spec (hn : 0 < r.num) (hd : 0 < r.den) :
    (2 : ℚ) ^ r.binade ≤ r.value ∧ r.value < (2 : ℚ) ^ (r.binade + 1) := by
  have h := value_within (r := r) (b := 2) (by decide)
    ⟨Nat.log2_self_le hn.ne', Nat.lt_log2_self⟩ ⟨Nat.log2_self_le hd.ne', Nat.lt_log2_self⟩
  simpa only [binade, Nat.cast_ofNat] using scale_guess hd (by decide) h.1 h.2

theorem decade_spec (hn : 0 < r.num) (hd : 0 < r.den) :
    (10 : ℚ) ^ r.decade ≤ r.value ∧ r.value < (10 : ℚ) ^ (r.decade + 1) := by
  have hlen : ∀ n, 0 < (Nat.toDigits 10 n).length := fun n => Nat.length_toDigits_pos
  have hwithin : ∀ {n : Nat}, 0 < n → 10 ^ ((Nat.toDigits 10 n).length - 1) ≤ n ∧
      n < 10 ^ ((Nat.toDigits 10 n).length - 1 + 1) := fun {n} h => by
    rw [Nat.sub_add_cancel (hlen n)]
    exact toDigits_within h
  have h := value_within (r := r) (b := 10) (by decide) (hwithin hn) (hwithin hd)
  have hguess : ((Nat.toDigits 10 r.num).length : Int) - (Nat.toDigits 10 r.den).length =
      (((Nat.toDigits 10 r.num).length - 1 : Nat) : Int) -
        ((Nat.toDigits 10 r.den).length - 1 : Nat) := by
    have := hlen r.num
    have := hlen r.den
    omega
  rw [← hguess] at h
  simpa only [decade, Nat.cast_ofNat] using scale_guess hd (by decide) h.1 h.2

/-- There is one binade to each number. -/
theorem binade_eq (hn : 0 < r.num) (hd : 0 < r.den) {e : Int} (hlow : (2 : ℚ) ^ e ≤ r.value)
    (hhigh : r.value < (2 : ℚ) ^ (e + 1)) : r.binade = e := by
  obtain ⟨hlow', hhigh'⟩ := binade_spec hn hd
  have h₁ := (zpow_lt_zpow_iff_right₀ (by norm_num : (1 : ℚ) < 2)).mp (hlow.trans_lt hhigh')
  have h₂ := (zpow_lt_zpow_iff_right₀ (by norm_num : (1 : ℚ) < 2)).mp (hlow'.trans_lt hhigh)
  omega

theorem binade_lt (hn : 0 < r.num) (hd : 0 < r.den) {e : Int} (h : r.value < (2 : ℚ) ^ e) :
    r.binade < e :=
  (zpow_lt_zpow_iff_right₀ (by norm_num : (1 : ℚ) < 2)).mp ((binade_spec hn hd).1.trans_lt h)

theorem num_pos_of_value (h : 0 < r.value) : 0 < r.num := by
  rcases Nat.eq_zero_or_pos r.num with h0 | h0
  · simp [value, h0] at h
  · exact h0

end Ratio

/-- The whole number is the nearest, and even if there are two. -/
structure Rounds (v : ℚ) (n : Nat) : Prop where
  low : n - 1 / 2 ≤ v
  high : v ≤ n + 1 / 2
  odd : n % 2 = 1 → n - 1 / 2 < v ∧ v < n + 1 / 2

/-- Of a quotient there is one nearest whole number, or the even one of two. -/
theorem Rounds.eq_roundDiv {a b n : Nat} (hb : 0 < b) (h : Rounds (a / b : ℚ) n) :
    roundDiv a b = n := by
  have hb' : (0 : ℚ) < b := by exact_mod_cast hb
  have hlow : 2 * (n * b) ≤ 2 * a + b := by
    have := (le_div_iff₀ hb').mp h.low
    exact_mod_cast (by linarith : (2 * (n * b) : ℚ) ≤ 2 * a + b)
  have hhigh : 2 * a ≤ 2 * (n * b) + b := by
    have := (div_le_iff₀ hb').mp h.high
    exact_mod_cast (by linarith : (2 * a : ℚ) ≤ 2 * (n * b) + b)
  have hodd : n % 2 = 1 → 2 * (n * b) < 2 * a + b ∧ 2 * a < 2 * (n * b) + b := by
    intro hn
    have h₁ := (lt_div_iff₀ hb').mp (h.odd hn).1
    have h₂ := (div_lt_iff₀ hb').mp (h.odd hn).2
    constructor
    · exact_mod_cast (by linarith : (2 * (n * b) : ℚ) < 2 * a + b)
    · exact_mod_cast (by linarith : (2 * a : ℚ) < 2 * (n * b) + b)
  have hsplit : b * (a / b) + a % b = a := Nat.div_add_mod a b
  have hrest : a % b < b := Nat.mod_lt a hb
  unfold roundDiv
  generalize a / b = q at hsplit
  generalize a % b = s at hsplit hrest
  rw [Nat.mul_comm b q] at hsplit
  -- the nearest whole number is the quotient or the next
  have hnext : n = q ∨ n = q + 1 := by
    have h₁ : n < q + 2 := by
      by_contra hge
      have := Nat.mul_le_mul_right b (not_lt.mp hge)
      rw [Nat.add_mul] at this
      omega
    have h₂ : q < n + 1 := by
      by_contra hge
      have := Nat.mul_le_mul_right b (not_lt.mp hge)
      rw [Nat.add_mul] at this
      omega
    omega
  rcases hnext with rfl | rfl
  · rw [if_neg]
    omega
  · rw [Nat.add_mul] at hlow hhigh hodd
    rw [if_pos]
    omega

/-- A number that is no larger than a whole number is not rounded above it. -/
theorem roundDiv_le {a b n : Nat} (hb : 0 < b) (h : (a / b : ℚ) ≤ n) : roundDiv a b ≤ n := by
  have hle : a ≤ n * b := by
    have := (div_le_iff₀ (show (0 : ℚ) < b by exact_mod_cast hb)).mp h
    exact_mod_cast this
  have hsplit : b * (a / b) + a % b = a := Nat.div_add_mod a b
  have hq : a / b ≤ n := Nat.div_le_of_le_mul (by rwa [Nat.mul_comm] at hle)
  unfold roundDiv
  dsimp only
  split
  · rcases Nat.lt_or_ge (a / b) n with hlt | hge
    · exact hlt
    · have heq : a / b = n := le_antisymm hq hge
      rw [heq, Nat.mul_comm] at hsplit
      omega
  · exact hq

namespace Double

variable {x : Double}

/-- Sign, exponent field and fraction do not run into one another. -/
theorem fraction_lt (x : Double) : x.fraction < fractionCount :=
  Nat.mod_lt _ (by decide)

theorem exponentField_lt (x : Double) : x.exponentField < 2048 :=
  Nat.mod_lt _ (by decide)

theorem exponentField_of_finite (h : x.isFinite = true) : x.exponentField < 2047 := by
  have hne : x.exponentField ≠ 2047 := by simpa [isFinite] using h
  have := x.exponentField_lt
  omega

theorem isFinite_of_exponentField (h : x.exponentField < 2047) : x.isFinite = true := by
  simp [isFinite]
  omega

def magnitude (x : Double) : Nat := x.exponentField * fractionCount + x.fraction

def ofMagnitude (negative : Bool) (n : Nat) : Double :=
  ⟨UInt64.ofNat (if negative then signBit.toNat + n else n)⟩

theorem ofMagnitude_magnitude (x : Double) : ofMagnitude x.negative x.magnitude = x := by
  have hlt : x.bits.toNat < 2 ^ 64 := UInt64.toNat_lt x.bits
  have hsign : signBit.toNat = 2 ^ 63 := rfl
  have hsum : (if x.negative then signBit.toNat + x.magnitude else x.magnitude) = x.bits.toNat := by
    unfold negative magnitude exponentField fraction
    rw [hsign, show fractionCount = 2 ^ 52 from rfl]
    split <;> rename_i h <;> simp only [decide_eq_true_eq] at h <;> omega
  rw [ofMagnitude, hsum, UInt64.ofNat_toNat]

theorem exponentField_ofMagnitude {negative : Bool} {n : Nat} (h : n < 2 ^ 63) :
    (ofMagnitude negative n).exponentField = n / fractionCount := by
  have hsign : signBit.toNat = 2 ^ 63 := rfl
  unfold ofMagnitude exponentField
  rw [hsign, show fractionCount = 2 ^ 52 from rfl]
  cases negative <;> simp [UInt64.toNat_ofNat'] <;> omega

/-- The exponent counts the binades of the pattern. -/
theorem magnitude_eq (x : Double) :
    x.magnitude = (x.exponent + 1074).toNat * fractionCount + x.significand := by
  unfold magnitude exponent significand
  rw [show fractionCount = 2 ^ 52 from rfl]
  split
  · rename_i h
    simp [h]
  · omega

/-- Rounding is one division, with as many places behind the binary point as the binade leaves. -/
theorem ofRatio_eq {negative : Bool} {r : Ratio} (hn : r.num ≠ 0) :
    ofRatio negative r = ofMagnitude negative
      (min ((max (r.binade - 52) (-1074) + 1074).toNat * fractionCount +
        (r.scale 2 (-max (r.binade - 52) (-1074))).round) 0x7ff0000000000000) := by
  simp [ofRatio, hn, ofMagnitude]

/-- The number lies between the ends, and on none of them if the significand is odd. -/
structure Covers (x : Double) (v : ℚ) : Prop where
  low : x.lowerEnd * (2 : ℚ) ^ (x.exponent - 2) ≤ v
  high : v ≤ x.upperEnd * (2 : ℚ) ^ (x.exponent - 2)
  odd : x.significand % 2 = 1 →
    x.lowerEnd * (2 : ℚ) ^ (x.exponent - 2) < v ∧ v < x.upperEnd * (2 : ℚ) ^ (x.exponent - 2)

theorem significand_pos (hz : x.isZero = false) : 0 < x.significand := by
  unfold significand
  split
  · rename_i h
    have hne : x.fraction ≠ 0 := by simpa [isZero, h] using hz
    omega
  · exact Nat.add_pos_right _ (by decide)

/-- A significand has 53 bits. -/
theorem significand_lt (x : Double) : x.significand < 2 ^ 53 := by
  have := x.fraction_lt
  unfold significand
  rw [show fractionCount = 2 ^ 52 from rfl] at *
  split <;> omega

theorem lowerEnd_pos (hz : x.isZero = false) : 0 < x.lowerEnd := by
  have := significand_pos hz
  unfold lowerEnd
  split <;> omega

theorem exponent_ge (x : Double) : -1074 ≤ x.exponent := by
  unfold exponent
  split <;> omega

theorem Covers.pos {v : ℚ} (h : x.Covers v) (hz : x.isZero = false) : 0 < v := by
  have hlow : (0 : ℚ) < x.lowerEnd := by exact_mod_cast lowerEnd_pos hz
  exact (mul_pos hlow (zpow_pos (by norm_num) _)).trans_le h.low

/-- The lower end is at most half of a place below the number. -/
theorem lowerEnd_ge (x : Double) : 4 * x.significand ≤ x.lowerEnd + 2 := by
  unfold lowerEnd
  split <;> omega

/-- The interval in units of the last place. -/
theorem Covers.scaled {v : ℚ} (h : x.Covers v) :
    (x.lowerEnd : ℚ) ≤ 4 * (v * 2 ^ (-x.exponent)) ∧
      4 * (v * 2 ^ (-x.exponent)) ≤ 4 * x.significand + 2 ∧ (x.significand % 2 = 1 →
        (x.lowerEnd : ℚ) < 4 * (v * 2 ^ (-x.exponent)) ∧
        4 * (v * 2 ^ (-x.exponent)) < 4 * x.significand + 2) := by
  have hu : (0 : ℚ) < 2 ^ x.exponent := zpow_pos (by norm_num) _
  have hquarter : (2 : ℚ) ^ (x.exponent - 2) = 2 ^ x.exponent / 4 := by
    rw [zpow_sub₀ (by norm_num)]
    norm_num
  have hv : v = v * 2 ^ (-x.exponent) * 2 ^ x.exponent := by
    rw [mul_assoc, ← zpow_add₀ (by norm_num), neg_add_cancel, zpow_zero, mul_one]
  obtain ⟨hlow, hhigh, hodd⟩ := h
  rw [hquarter] at hlow hhigh hodd
  generalize v * 2 ^ (-x.exponent) = w at hv ⊢
  generalize (2 : ℚ) ^ x.exponent = u at hu hv hlow hhigh hodd
  subst hv
  unfold upperEnd at hhigh hodd
  push_cast at hhigh hodd
  refine ⟨?_, ?_, fun hm => ⟨?_, ?_⟩⟩
  · exact le_of_mul_le_mul_right (by linarith) hu
  · exact le_of_mul_le_mul_right (by linarith) hu
  · exact lt_of_mul_lt_mul_right (by linarith [(hodd hm).1]) hu.le
  · exact lt_of_mul_lt_mul_right (by linarith [(hodd hm).2]) hu.le

/-- A number between the two ends has the significand as the nearest whole number. -/
theorem Covers.rounds {v : ℚ} (h : x.Covers v) :
    Rounds (v * (2 : ℚ) ^ (-x.exponent)) x.significand := by
  obtain ⟨hlow, hhigh, hodd⟩ := h.scaled
  have hge : (4 * x.significand : ℚ) ≤ x.lowerEnd + 2 := by exact_mod_cast x.lowerEnd_ge
  refine ⟨by linarith, by linarith, fun hm => ?_⟩
  obtain ⟨h₁, h₂⟩ := hodd hm
  exact ⟨by linarith, by linarith⟩

/-- Below the binade of a number there is only what the step below it is half as wide for. -/
theorem Covers.below {v : ℚ} (h : x.Covers v) (hbelow : v * (2 : ℚ) ^ (-x.exponent) < 2 ^ 52)
    (hq : x.exponent ≠ -1074) :
    x.significand = 2 ^ 52 ∧ (2 : ℚ) ^ 53 - 1 / 2 ≤ 2 * (v * 2 ^ (-x.exponent)) := by
  obtain ⟨hlow, _, _⟩ := h.scaled
  have hfield : 1 < x.exponentField := by
    unfold exponent at hq
    split at hq <;> omega
  have hm : x.significand = x.fraction + 2 ^ 52 := if_neg (by omega)
  have hsig : x.fraction = 0 := by
    have hge : (4 * x.significand : ℚ) ≤ x.lowerEnd + 2 := by exact_mod_cast x.lowerEnd_ge
    have hlt : (x.significand : ℚ) < 2 ^ 52 + 1 := by linarith
    have hlt' : x.significand < 2 ^ 52 + 1 := by exact_mod_cast hlt
    omega
  have hend : x.lowerEnd = 2 ^ 54 - 1 := by
    rw [lowerEnd, if_pos ⟨hsig, hfield⟩, hm, hsig]
    rfl
  rw [hend] at hlow
  norm_num at hlow
  refine ⟨by omega, ?_⟩
  norm_num
  linarith

/-- The exponent of the last place that a number in the interval is rounded to: that of the number,
or the one below. -/
theorem Covers.place {r : Ratio} (h : x.Covers r.value) (hz : x.isZero = false) (hd : 0 < r.den) :
    max (r.binade - 52) (-1074) = x.exponent ∨
      x.significand = 2 ^ 52 ∧ x.exponent ≠ -1074 ∧ r.binade - 52 = x.exponent - 1 ∧
      r.value * 2 ^ (-x.exponent) < 2 ^ 52 ∧
      (2 : ℚ) ^ 53 - 1 / 2 ≤ 2 * (r.value * 2 ^ (-x.exponent)) := by
  have hn := Ratio.num_pos_of_value (h.pos hz)
  have hmin := x.exponent_ge
  have htwo : (2 : ℚ) ≠ 0 := by norm_num
  have hu : (0 : ℚ) < 2 ^ x.exponent := zpow_pos (by norm_num) _
  have hvalue : r.value = r.value * 2 ^ (-x.exponent) * 2 ^ x.exponent := by
    rw [mul_assoc, ← zpow_add₀ htwo, neg_add_cancel, zpow_zero, mul_one]
  have hpow : ∀ n : Nat, (2 : ℚ) ^ ((n : Int) + x.exponent) = 2 ^ n * 2 ^ x.exponent := fun n => by
    rw [zpow_add₀ htwo, zpow_natCast]
  rcases le_or_gt ((2 : ℚ) ^ 52) (r.value * 2 ^ (-x.exponent)) with hw | hw
  · have hm : (x.significand : ℚ) ≤ 2 ^ 53 - 1 := by
      have : x.significand + 1 ≤ 2 ^ 53 := x.significand_lt
      have hcast : (x.significand + 1 : ℚ) ≤ 2 ^ 53 := by exact_mod_cast this
      linarith
    have hlt : r.value * 2 ^ (-x.exponent) < 2 ^ 53 := by linarith [h.rounds.high]
    have hbinade : r.binade = (52 : Nat) + x.exponent := by
      apply Ratio.binade_eq hn hd
      · rw [hpow, hvalue]
        exact mul_le_mul_of_nonneg_right hw hu.le
      · rw [show ((52 : Nat) : Int) + x.exponent + 1 = (53 : Nat) + x.exponent by omega, hpow, hvalue]
        exact mul_lt_mul_of_pos_right hlt hu
    left
    omega
  · have hlt : r.value < 2 ^ (((52 : Nat) : Int) + x.exponent) := by
      rw [hpow, hvalue]
      exact mul_lt_mul_of_pos_right hw hu
    have hbinade := Ratio.binade_lt hn hd hlt
    rcases eq_or_ne x.exponent (-1074) with hq | hq
    · left
      omega
    · obtain ⟨hm, hhalf⟩ := h.below hw hq
      refine .inr ⟨hm, hq, ?_, hw, hhalf⟩
      have hge : (2 : ℚ) ^ 51 ≤ r.value * 2 ^ (-x.exponent) := by
        norm_num at hhalf ⊢
        linarith
      have hbinade' : r.binade = (51 : Nat) + x.exponent := by
        apply Ratio.binade_eq hn hd
        · rw [hpow, hvalue]
          exact mul_le_mul_of_nonneg_right hge hu.le
        · rwa [show ((51 : Nat) : Int) + x.exponent + 1 = (52 : Nat) + x.exponent by omega]
      omega

/-- What lies in the interval of a number is rounded to it. -/
theorem Covers.ofRatio_eq {r : Ratio} (h : x.Covers r.value) (hx : x.isFinite = true)
    (hz : x.isZero = false) (hd : 0 < r.den) : ofRatio x.negative r = x := by
  have hn := Ratio.num_pos_of_value (h.pos hz)
  have hround : ∀ {q : Int} {n : Nat}, Rounds (r.value * 2 ^ (-q)) n →
      (r.scale 2 (-q)).round = n := fun {q n} hr =>
    Rounds.eq_roundDiv (Ratio.den_scale hd (by decide) _) (by
      have := Ratio.value_scale r (b := 2) (by decide) (-q)
      rw [Ratio.value] at this
      rw [this]
      exact hr)
  have hlt : x.magnitude ≤ 0x7ff0000000000000 := by
    have := exponentField_of_finite hx
    have := x.fraction_lt
    unfold magnitude
    rw [show fractionCount = 2 ^ 52 from rfl] at *
    omega
  have hmagnitude : (max (r.binade - 52) (-1074) + 1074).toNat * fractionCount +
      (r.scale 2 (-max (r.binade - 52) (-1074))).round = x.magnitude := by
    rcases h.place hz hd with hq | ⟨hm, hq, hbinade, hw, hhalf⟩
    · rw [hq, hround h.rounds, ← magnitude_eq]
    · have hmin := x.exponent_ge
      have hmax : max (r.binade - 52) (-1074) = x.exponent - 1 := by omega
      have htwice : r.value * (2 : ℚ) ^ (-(x.exponent - 1)) =
          2 * (r.value * 2 ^ (-x.exponent)) := by
        rw [show -(x.exponent - 1) = -x.exponent + 1 by omega, zpow_add_one₀ (by norm_num)]
        ring
      have hrounds : Rounds (r.value * 2 ^ (-(x.exponent - 1))) (2 ^ 53) := by
        rw [htwice]
        refine ⟨?_, ?_, fun hodd => by simp at hodd⟩
        · push_cast
          exact hhalf
        · push_cast
          linarith
      rw [hmax, hround hrounds, magnitude_eq, hm, show fractionCount = 2 ^ 52 from rfl]
      omega
  rw [Double.ofRatio_eq hn.ne', hmagnitude, min_eq_left hlt, ofMagnitude_magnitude]

theorem decimal_within {n : Nat} (hn : 0 < n) (e : Int) :
    (10 : ℚ) ^ (e + (Nat.toDigits 10 n).length - 1) ≤ n * 10 ^ e ∧
      n * (10 : ℚ) ^ e < 10 ^ (e + (Nat.toDigits 10 n).length) := by
  have hten : (10 : ℚ) ≠ 0 := by norm_num
  have hpow : (0 : ℚ) < 10 ^ e := zpow_pos (by norm_num) _
  have hlen : 0 < (Nat.toDigits 10 n).length := Nat.length_toDigits_pos
  obtain ⟨hlow, hhigh⟩ := toDigits_within hn
  have hlow' : (10 : ℚ) ^ ((Nat.toDigits 10 n).length - 1) ≤ n := by exact_mod_cast hlow
  have hhigh' : (n : ℚ) < 10 ^ (Nat.toDigits 10 n).length := by exact_mod_cast hhigh
  constructor
  · rw [show e + ((Nat.toDigits 10 n).length : Int) - 1 =
      (((Nat.toDigits 10 n).length - 1 : Nat) : Int) + e by omega, zpow_add₀ hten, zpow_natCast]
    exact mul_le_mul_of_nonneg_right hlow' hpow.le
  · rw [add_comm, zpow_add₀ hten, zpow_natCast]
    exact mul_lt_mul_of_pos_right hhigh' hpow

/-- A finite number has an exponent of at most 971. -/
theorem exponent_le (hx : x.isFinite = true) : x.exponent ≤ 971 := by
  have := exponentField_of_finite hx
  unfold exponent
  split <;> omega

/-- The reader gives up below no decimal in the interval of a number. -/
theorem Covers.reach_low {n : Nat} {e : Int} (h : x.Covers (n * 10 ^ e)) (hz : x.isZero = false)
    (hn : 0 < n) : -330 ≤ e + (Nat.toDigits 10 n).length := by
  obtain ⟨-, hhigh⟩ := decimal_within hn e
  by_contra hlt
  have h₁ : (10 : ℚ) ^ (e + (Nat.toDigits 10 n).length) ≤ 10 ^ (-330 : Int) :=
    zpow_le_zpow_right₀ (by norm_num) (by omega)
  have h₂ : (2 : ℚ) ^ (-1076 : Int) ≤ 2 ^ (x.exponent - 2) :=
    zpow_le_zpow_right₀ (by norm_num) (by have := x.exponent_ge; omega)
  have h₃ : (1 : ℚ) ≤ x.lowerEnd := by exact_mod_cast lowerEnd_pos hz
  have h₄ : (2 : ℚ) ^ (x.exponent - 2) ≤ x.lowerEnd * 2 ^ (x.exponent - 2) :=
    le_mul_of_one_le_left (zpow_pos (by norm_num) _).le h₃
  have h₅ : (10 : ℚ) ^ (-330 : Int) < 2 ^ (-1076 : Int) := by
    have hnat : 2 ^ 1076 < 10 ^ 330 := by decide +kernel
    rw [zpow_neg, zpow_neg, zpow_ofNat, zpow_ofNat]
    exact inv_strictAnti₀ (by positivity) (by exact_mod_cast hnat)
  exact absurd (hhigh.trans_le h₁) (not_lt.mpr (h₅.le.trans (h₂.trans (h₄.trans h.low))))

/-- A decimal in the interval of a finite number lies below a power of ten. -/
theorem Covers.reach_high {n : Nat} {e : Int} (h : x.Covers (n * 10 ^ e)) (hx : x.isFinite = true)
    (hn : 0 < n) : e + (Nat.toDigits 10 n).length ≤ 310 := by
  obtain ⟨hlow, -⟩ := decimal_within hn e
  by_contra hgt
  have h₁ : (10 : ℚ) ^ (310 : Int) ≤ 10 ^ (e + (Nat.toDigits 10 n).length - 1) :=
    zpow_le_zpow_right₀ (by norm_num) (by omega)
  have h₂ : (2 : ℚ) ^ (x.exponent - 2) ≤ 2 ^ (969 : Int) :=
    zpow_le_zpow_right₀ (by norm_num) (by have := exponent_le hx; omega)
  have h₃ : (x.upperEnd : ℚ) ≤ 2 ^ 56 := by
    have : x.upperEnd ≤ 2 ^ 56 := by
      have := x.significand_lt
      unfold upperEnd
      omega
    exact_mod_cast this
  have h₄ : (x.upperEnd : ℚ) * 2 ^ (x.exponent - 2) ≤ 2 ^ 56 * 2 ^ (969 : Int) :=
    mul_le_mul h₃ h₂ (zpow_pos (by norm_num) _).le (by norm_num)
  have h₅ : (2 : ℚ) ^ 56 * 2 ^ (969 : Int) < 10 ^ (310 : Int) := by
    have hnat : 2 ^ 56 * 2 ^ 969 < 10 ^ 310 := by decide +kernel
    rw [zpow_ofNat, zpow_ofNat]
    exact_mod_cast hnat
  exact absurd (h₁.trans (hlow.trans (h.high.trans h₄))) (not_le.mpr h₅)

/-- A decimal in the interval of a number reads as this number. -/
theorem Covers.ofDecimal_eq {n : Nat} {e : Int} (h : x.Covers (n * 10 ^ e)) (hx : x.isFinite = true)
    (hz : x.isZero = false) : ofDecimal x.negative n e = x := by
  have hn : 0 < n := by
    rcases Nat.eq_zero_or_pos n with rfl | hn
    · simpa using h.pos hz
    · exact hn
  have hlow := h.reach_low hz hn
  have hhigh := h.reach_high hx hn
  have hvalue : (Ratio.scale ⟨n, 1⟩ 10 e).value = n * 10 ^ e := by
    rw [Ratio.value_scale _ (by decide), Ratio.value]
    simp
  unfold ofDecimal
  dsimp only
  rw [if_neg (by omega), if_neg (by omega)]
  rw [← hvalue] at h
  exact h.ofRatio_eq hx hz (Ratio.den_scale Nat.one_pos (by decide) e)

/-- All patterns below those of infinity are finite numbers. -/
theorem isFinite_ofMagnitude {negative : Bool} {n : Nat} (h : n < 2047 * 2 ^ 52) :
    (ofMagnitude negative n).isFinite = true := by
  apply isFinite_of_exponentField
  rw [exponentField_ofMagnitude (by omega), show fractionCount = 2 ^ 52 from rfl]
  omega

theorem ofDecimal_zero (negative : Bool) (e : Int) : ofDecimal negative 0 e = ofMagnitude negative 0 := by
  simp [ofDecimal, ofRatio, ofMagnitude]

/-- A whole number of few digits does not overflow. -/
theorem isFinite_ofDecimal {negative : Bool} {n : Nat} (h : n < 2 ^ 32) :
    (ofDecimal negative n 0).isFinite = true := by
  rcases Nat.eq_zero_or_pos n with rfl | hn
  · rw [ofDecimal_zero]
    exact isFinite_ofMagnitude (by decide)
  have hlen : (Nat.toDigits 10 n).length ≤ 10 :=
    (Nat.length_toDigits_le_iff (by decide) (by decide)).mpr (by omega)
  have hscale : Ratio.scale ⟨n, 1⟩ 10 0 = ⟨n, 1⟩ := by simp [Ratio.scale]
  unfold ofDecimal
  dsimp only
  rw [if_neg (by omega), if_neg (by omega), hscale, ofRatio_eq (by simpa using hn.ne')]
  have hvalue : (Ratio.mk n 1).value = n := by simp [Ratio.value]
  obtain ⟨hlow, hhigh⟩ := Ratio.binade_spec (r := ⟨n, 1⟩) hn Nat.one_pos
  have hbinade : (Ratio.mk n 1).binade < 32 := by
    apply Ratio.binade_lt hn Nat.one_pos
    rw [hvalue]
    exact_mod_cast h
  have hround : (Ratio.scale ⟨n, 1⟩ 2 (-max ((Ratio.mk n 1).binade - 52) (-1074))).round ≤ 2 ^ 53 := by
    apply roundDiv_le (Ratio.den_scale Nat.one_pos (by decide) _)
    have hscaled := Ratio.value_scale ⟨n, 1⟩ (b := 2) (by decide)
      (-max ((Ratio.mk n 1).binade - 52) (-1074))
    rw [Ratio.value] at hscaled
    rw [hscaled]
    calc (Ratio.mk n 1).value * ((2 : Nat) : ℚ) ^ (-max ((Ratio.mk n 1).binade - 52) (-1074))
        ≤ 2 ^ ((Ratio.mk n 1).binade + 1) * 2 ^ (-max ((Ratio.mk n 1).binade - 52) (-1074)) :=
          mul_le_mul_of_nonneg_right hhigh.le (zpow_pos (by norm_num) _).le
      _ = 2 ^ ((Ratio.mk n 1).binade + 1 + -max ((Ratio.mk n 1).binade - 52) (-1074)) :=
          (zpow_add₀ (by norm_num) _ _).symm
      _ ≤ 2 ^ ((53 : Nat) : Int) := zpow_le_zpow_right₀ (by norm_num) (by omega)
      _ = ((2 ^ 53 : Nat) : ℚ) := by norm_num
  apply isFinite_ofMagnitude
  rw [show fractionCount = 2 ^ 52 from rfl]
  omega

end Double

end TreeLang
