import TreeLang.Proofs.Double.Rounding

namespace TreeLang

def Decimal.value (d : Decimal) : ℚ := d.digits * 10 ^ d.exponent

theorem Decimal.value_strip (n : Nat) (d : Decimal) : (d.strip n).value = d.value := by
  induction n generalizing d with
  | zero => rfl
  | succ n ih =>
    rw [strip]
    split
    · rename_i h
      have hdigits : d.digits = d.digits / 10 * 10 := by omega
      rw [ih, value, value]
      conv_rhs => rw [hdigits]
      rw [zpow_add_one₀ (by norm_num)]
      push_cast
      ring
    · rfl

namespace Double

variable {x : Double} {k : Int}

theorem den_quarter (x : Double) (k : Int) : 0 < (x.quarter k).den :=
  Ratio.den_scale (Ratio.den_scale Nat.one_pos (by decide) _) (by decide) _

/-- A quarter of the last place is the unit in which the two ends are whole numbers. -/
theorem value_quarter (x : Double) (k : Int) :
    (x.quarter k).value * 10 ^ k = 2 ^ (x.exponent - 2) := by
  rw [quarter, Ratio.value_scale _ (by decide), Ratio.value_scale _ (by decide), mul_assoc,
    show ((10 : Nat) : ℚ) = 10 from rfl, ← zpow_add₀ (by norm_num), neg_add_cancel, zpow_zero, mul_one]
  simp [Ratio.value]

/-- Whole numbers of quarter steps against multiples of the power. -/
theorem quarter_le (x : Double) (k : Int) (a d : Nat) :
    a * (x.quarter k).num ≤ d * (x.quarter k).den ↔
      (a : ℚ) * 2 ^ (x.exponent - 2) ≤ d * 10 ^ k := by
  have hd : (0 : ℚ) < (x.quarter k).den := by exact_mod_cast x.den_quarter k
  have hk : (0 : ℚ) < 10 ^ k := zpow_pos (by norm_num) _
  rw [← value_quarter x k, ← mul_assoc, mul_le_mul_iff_left₀ hk, Ratio.value, ← mul_div_assoc,
    div_le_iff₀ hd]
  exact_mod_cast Iff.rfl

theorem le_quarter (x : Double) (k : Int) (a d : Nat) :
    d * (x.quarter k).den ≤ a * (x.quarter k).num ↔
      (d : ℚ) * 10 ^ k ≤ a * 2 ^ (x.exponent - 2) := by
  have hd : (0 : ℚ) < (x.quarter k).den := by exact_mod_cast x.den_quarter k
  have hk : (0 : ℚ) < 10 ^ k := zpow_pos (by norm_num) _
  rw [← value_quarter x k, ← mul_assoc, mul_le_mul_iff_left₀ hk, Ratio.value, ← mul_div_assoc,
    le_div_iff₀ hd]
  exact_mod_cast Iff.rfl

/-- The test of whole numbers is the test against both ends, in powers of ten and two. -/
theorem within_iff (x : Double) (k : Int) (d : Nat) :
    x.within k d = true ↔ x.Covers (d * 10 ^ k) := by
  have hlow := quarter_le x k x.lowerEnd d
  have hhigh := le_quarter x k x.upperEnd d
  have hlow' := not_congr (le_quarter x k x.lowerEnd d)
  have hhigh' := not_congr (quarter_le x k x.upperEnd d)
  rw [not_le, not_le] at hlow' hhigh'
  unfold within
  dsimp only
  split
  · rename_i hm
    rw [Bool.and_eq_true, decide_eq_true_iff, decide_eq_true_iff, hlow, hhigh]
    exact ⟨fun h => ⟨h.1, h.2, fun hodd => by omega⟩, fun h => ⟨h.low, h.high⟩⟩
  · rename_i hm
    rw [Bool.and_eq_true, decide_eq_true_iff, decide_eq_true_iff, hlow', hhigh']
    exact ⟨fun h => ⟨h.1.le, h.2.le, fun _ => h⟩, fun h => h.odd (by omega)⟩

/-- What is taken is within the ends, since it was tested. -/
theorem nearest?_covers {d : Nat} (h : x.nearest? k = some d) : x.Covers (d * 10 ^ k) := by
  rw [← within_iff]
  unfold nearest? at h
  dsimp only at h
  split at h
  · rename_i h₁ h₂
    split at h <;> cases h <;> assumption
  · cases h
    assumption
  · cases h
    assumption
  · cases h

theorem four_quarters (x : Double) : 4 * (2 : ℚ) ^ (x.exponent - 2) = 2 ^ x.exponent := by
  rw [zpow_sub₀ (by norm_num)]
  norm_num
  ring

/-- The number itself lies between the two multiples that are looked at. -/
theorem between (x : Double) (k : Int) :
    let below := 4 * x.significand * (x.quarter k).num / (x.quarter k).den
    (below : ℚ) * 10 ^ k ≤ x.significand * 2 ^ x.exponent ∧
      (x.significand : ℚ) * 2 ^ x.exponent < (below + 1 : Nat) * 10 ^ k := by
  intro below
  have hvalue : (x.significand : ℚ) * 2 ^ x.exponent =
      (4 * x.significand : Nat) * 2 ^ (x.exponent - 2) := by
    rw [← four_quarters]
    push_cast
    ring
  rw [hvalue]
  constructor
  · exact (le_quarter x k _ below).mp (Nat.div_mul_le_self _ _)
  · rw [← not_le, ← le_quarter, not_le]
    exact Nat.lt_mul_of_div_lt (Nat.lt_succ_self _) (x.den_quarter k)

theorem lowerEnd_lt (hz : x.isZero = false) : x.lowerEnd < 4 * x.significand := by
  have := significand_pos hz
  unfold lowerEnd
  split <;> omega

theorem covers_of_lt {v : ℚ} (hlow : x.lowerEnd * (2 : ℚ) ^ (x.exponent - 2) < v)
    (hhigh : v < x.upperEnd * (2 : ℚ) ^ (x.exponent - 2)) : x.Covers v :=
  ⟨hlow.le, hhigh.le, fun _ => ⟨hlow, hhigh⟩⟩

/-- Where the interval is wider than the power, one of the two multiples next to the number lies in
it. -/
theorem exists_nearest? (hz : x.isZero = false)
    (hwide : (10 : ℚ) ^ k < (x.upperEnd - x.lowerEnd : ℚ) * 2 ^ (x.exponent - 2)) :
    ∃ d, x.nearest? k = some d := by
  have hu : (0 : ℚ) < 2 ^ (x.exponent - 2) := zpow_pos (by norm_num) _
  obtain ⟨hbelow, habove⟩ := x.between k
  have hlow : x.lowerEnd * (2 : ℚ) ^ (x.exponent - 2) < x.significand * 2 ^ x.exponent := by
    rw [← four_quarters, ← mul_assoc, mul_comm _ (4 : ℚ)]
    exact mul_lt_mul_of_pos_right (by exact_mod_cast lowerEnd_lt hz) hu
  have hhigh : x.significand * (2 : ℚ) ^ x.exponent < x.upperEnd * 2 ^ (x.exponent - 2) := by
    rw [← four_quarters, ← mul_assoc, mul_comm _ (4 : ℚ)]
    refine mul_lt_mul_of_pos_right ?_ hu
    unfold upperEnd
    push_cast
    linarith
  unfold nearest?
  dsimp only at hbelow habove ⊢
  generalize 4 * x.significand * (x.quarter k).num / (x.quarter k).den = below at hbelow habove ⊢
  cases h₁ : x.within k below <;> cases h₂ : x.within k (below + 1)
  · -- both lie outside, one below and one above
    rw [← Bool.not_eq_true, within_iff] at h₁ h₂
    have hout₁ := not_lt.mp fun h => h₁ (covers_of_lt h (hbelow.trans_lt hhigh))
    have hout₂ := not_lt.mp fun h => h₂ (covers_of_lt (hlow.trans habove) h)
    push_cast at hout₂
    linarith
  · exact ⟨_, rfl⟩
  · exact ⟨_, rfl⟩
  · dsimp only
    split
    · exact ⟨_, rfl⟩
    · exact ⟨_, rfl⟩

theorem ratio_value (x : Double) : x.ratio.value = x.significand * 2 ^ x.exponent := by
  rw [ratio, Ratio.value_scale _ (by decide), Ratio.value]
  simp

/-- Seventeen digits are finer than the interval. -/
theorem wide (hz : x.isZero = false) :
    (10 : ℚ) ^ (x.ratio.decade - 16) < (x.upperEnd - x.lowerEnd : ℚ) * 2 ^ (x.exponent - 2) := by
  have hu : (0 : ℚ) < 2 ^ (x.exponent - 2) := zpow_pos (by norm_num) _
  have hm : (0 : ℚ) < x.significand := by exact_mod_cast significand_pos hz
  have hm' : (x.significand : ℚ) ≤ 2 ^ 53 := by exact_mod_cast x.significand_lt.le
  have hvalue := x.ratio_value
  have hd : 0 < x.ratio.den := Ratio.den_scale Nat.one_pos (by decide) _
  have hn : 0 < x.ratio.num := by
    apply Ratio.num_pos_of_value
    rw [hvalue, ← four_quarters]
    positivity
  obtain ⟨hdecade, _⟩ := Ratio.decade_spec hn hd
  have hstep : (10 : ℚ) ^ (x.ratio.decade - 16) * 10 ^ 16 ≤
      x.significand * 4 * 2 ^ (x.exponent - 2) := by
    rw [mul_assoc, four_quarters, ← hvalue]
    refine le_of_eq_of_le ?_ hdecade
    rw [zpow_sub₀ (by norm_num)]
    norm_num
  have hwidth : x.significand * 4 < (x.upperEnd - x.lowerEnd : ℚ) * 10 ^ 16 := by
    unfold upperEnd lowerEnd
    split
    · rename_i h
      have hsig : x.significand = 2 ^ 52 := by
        rw [significand, if_neg (by omega), h.1]
        rfl
      rw [hsig]
      norm_num
    · have hpos := significand_pos hz
      rw [Nat.cast_sub (by omega)]
      push_cast
      linarith
  nlinarith

/-- The search stops at a decimal that reads back as the number. -/
theorem shortest_covers (hz : x.isZero = false) : x.Covers x.shortest.value := by
  unfold shortest
  rw [if_neg (by simp [hz])]
  dsimp only
  cases hfound : (List.range 17).findSome? fun (n : Nat) =>
      (x.nearest? (x.ratio.decade - n)).map fun d => Decimal.strip 17 ⟨d, x.ratio.decade - n⟩ with
  | none =>
    obtain ⟨d, hd⟩ := exists_nearest? hz (wide hz)
    have hnone := List.findSome?_eq_none_iff.mp hfound 16 (by simp)
    rw [show ((16 : Nat) : Int) = 16 from rfl, hd] at hnone
    cases hnone
  | some found =>
    obtain ⟨n, _, hn⟩ := List.exists_of_findSome?_eq_some hfound
    obtain ⟨d, hd, rfl⟩ := Option.map_eq_some_iff.mp hn
    rw [Option.getD_some, Decimal.value_strip]
    exact nearest?_covers hd

/-- Every decimal of the value gives the number back. -/
theorem ofDecimal_shortest (hx : x.isFinite = true) {n : Nat} {e : Int}
    (h : (n : ℚ) * 10 ^ e = x.shortest.value) : ofDecimal x.negative n e = x := by
  cases hz : x.isZero with
  | false =>
    apply Covers.ofDecimal_eq _ hx hz
    rw [h]
    exact shortest_covers hz
  | true =>
    have hpow : (10 : ℚ) ^ e ≠ 0 := zpow_ne_zero _ (by norm_num)
    have hn : n = 0 := by
      rw [shortest, if_pos hz, Decimal.value] at h
      simpa [hpow] using h
    obtain ⟨hfield, hfraction⟩ : x.exponentField = 0 ∧ x.fraction = 0 := by simpa [isZero] using hz
    have hmagnitude : x.magnitude = 0 := by rw [magnitude, hfield, hfraction, Nat.zero_mul]
    rw [hn, ofDecimal_zero, ← hmagnitude, ofMagnitude_magnitude]

end Double

end TreeLang
