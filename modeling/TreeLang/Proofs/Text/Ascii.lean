import TreeLang.Text.Utf8

namespace TreeLang.Text

/-- The character that one byte stands for where every byte is a character of its own. -/
abbrev charOf (b : UInt8) : Char := Char.ofNat b.toNat

theorem toNat_charOf (b : UInt8) : (charOf b).toNat = b.toNat := by
  have hb := b.toNat_lt
  rw [charOf, Char.ofNat, dif_pos (Or.inl (by omega))]
  rfl

theorem charOf_inj {a b : UInt8} : charOf a = charOf b ↔ a = b := by
  rw [← Char.toNat_inj, toNat_charOf, toNat_charOf, UInt8.toNat_inj]

def IsAscii (c : Char) : Prop := c.toNat < 128

instance (c : Char) : Decidable (IsAscii c) := inferInstanceAs (Decidable (c.toNat < 128))

theorem encode_ascii {c : Char} (hc : IsAscii c) : encode [c] = [UInt8.ofNat c.toNat] := by
  have hsmall : c.val.toNat ≤ 127 := Nat.le_of_lt_succ hc
  simp only [encode, List.flatMap_singleton, String.utf8EncodeChar, if_pos hsmall]
  rfl

theorem encode_cons (c : Char) (cs : List Char) : encode (c :: cs) = encode [c] ++ encode cs := by
  simp [encode]

theorem encode_charOf {b : UInt8} (hb : b.toNat < 128) : encode [charOf b] = [b] := by
  have hc : IsAscii (charOf b) := by rwa [IsAscii, toNat_charOf]
  rw [encode_ascii hc, toNat_charOf, UInt8.ofNat_toNat]

/-- A character below 128 is the character of its byte. -/
theorem exists_byte {c : Char} (hc : IsAscii c) : ∃ b : UInt8, charOf b = c ∧ encode [c] = [b] := by
  refine ⟨UInt8.ofNat c.toNat, ?_, encode_ascii hc⟩
  have hlt : c.toNat < 2 ^ 8 := Nat.lt_trans hc (by decide)
  rw [← Char.toNat_inj, toNat_charOf, UInt8.toNat_ofNat_of_lt' hlt]

theorem length_encode {cs : List Char} (h : ∀ c ∈ cs, IsAscii c) :
    (encode cs).length = cs.length := by
  induction cs with
  | nil => rfl
  | cons c cs ih =>
    obtain ⟨hc, hcs⟩ := List.forall_mem_cons.mp h
    rw [encode_cons, encode_ascii hc, List.singleton_append, List.length_cons, ih hcs,
      List.length_cons]

/-- Bytes below 128 are decoded without anything pending between them. -/
theorem decodeFrom_ascii {cs : List Char} (h : ∀ c ∈ cs, IsAscii c) :
    decodeFrom none (encode cs) = cs := by
  induction cs with
  | nil => rfl
  | cons c cs ih =>
    obtain ⟨hc, hcs⟩ := List.forall_mem_cons.mp h
    obtain ⟨b, hb, henc⟩ := exists_byte hc
    have hlt : b.toNat < 0x80 := by
      rw [← toNat_charOf, hb]
      exact hc
    rw [encode_cons, henc]
    simp only [List.singleton_append, decodeFrom, feed, begin, lead?, if_pos hlt, ih hcs]
    exact congrArg (· :: cs) hb

/-- A text of such characters is the text of its bytes. -/
theorem decode?_encode {cs : List Char} (h : ∀ c ∈ cs, IsAscii c) :
    decode? (encode cs) = some cs := by
  simp [decode?, decodeLossy, decodeFrom_ascii h]

theorem isAscii_of_isDigit {c : Char} (h : c.isDigit = true) : IsAscii c := by
  simp only [Char.isDigit, Bool.and_eq_true, decide_eq_true_eq] at h
  have hle : c.val.toNat ≤ 57 := UInt32.le_iff_toNat_le.mp h.2
  exact Nat.lt_of_le_of_lt hle (by decide)

theorem encode_replicate {c : Char} (hc : IsAscii c) (n : Nat) :
    encode (List.replicate n c) = List.replicate n (UInt8.ofNat c.toNat) := by
  induction n with
  | zero => rfl
  | succ n ih =>
    rw [List.replicate_succ, encode_cons, encode_ascii hc, ih, List.singleton_append,
      List.replicate_succ]

theorem ascii_replicate {c : Char} (hc : IsAscii c) (n : Nat) :
    ∀ x ∈ List.replicate n c, IsAscii x := by
  intro x hx
  rwa [List.eq_of_mem_replicate hx]

theorem ascii_of_mem_toDigits {base n : Nat} (hbase : 1 < base) (hsmall : base ≤ 16) :
    ∀ c ∈ Nat.toDigits base n, IsAscii c := by
  have hdigit : ∀ m < 16, IsAscii (Nat.digitChar m) := by decide
  induction n using Nat.strongRecOn with
  | _ n ih =>
    rcases Nat.lt_or_ge n base with hlt | hge
    · rw [Nat.toDigits_of_lt_base hlt]
      exact List.forall_mem_singleton.mpr (hdigit n (by omega))
    · have hless : n / base < n := Nat.div_lt_self (by omega) hbase
      have hlast : n % base < base := Nat.mod_lt n (by omega)
      rw [Nat.toDigits_of_base_le hbase hge]
      exact List.forall_mem_append.mpr
        ⟨ih _ hless, List.forall_mem_singleton.mpr (hdigit _ (by omega))⟩

theorem toNat_toUpper (c : Char) :
    c.toUpper.toNat = if 97 ≤ c.toNat ∧ c.toNat ≤ 122 then c.toNat - 32 else c.toNat := by
  have hrange : ('a'.val ≤ c.val ∧ c.val ≤ 'z'.val) ↔ 97 ≤ c.toNat ∧ c.toNat ≤ 122 := by
    rw [UInt32.le_iff_toNat_le, UInt32.le_iff_toNat_le]
    rfl
  unfold Char.toUpper
  by_cases h : 97 ≤ c.toNat ∧ c.toNat ≤ 122
  · have hsum : (c.val + ('A'.val - 'a'.val)).toNat = (c.toNat + (2 ^ 32 - 32)) % 2 ^ 32 :=
      UInt32.toNat_add _ _
    rw [dif_pos (hrange.mpr h), if_pos h]
    exact hsum.trans (by omega)
  · rw [dif_neg (mt hrange.mp h), if_neg h]

theorem ascii_toUpper {c : Char} (hc : IsAscii c) : IsAscii c.toUpper := by
  unfold IsAscii at hc ⊢
  rw [toNat_toUpper]
  split <;> omega

end TreeLang.Text
