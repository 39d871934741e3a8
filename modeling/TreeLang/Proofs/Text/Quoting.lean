import Mathlib.Data.List.Basic
import TreeLang.Proofs.Json.Reading
import TreeLang.Proofs.Text.Words
import TreeLang.Text.Quoted

namespace TreeLang.Text

def isBreak (c : Char) : Bool :=
  c = '\n' || c = '\x0b' || c = '\x0c' || c = '\r' || c = '\x85' || c = '\u2028' || c = '\u2029'

def Unbroken (cs : List Char) : Prop := ∀ c ∈ cs, isBreak c = false

instance (cs : List Char) : Decidable (Unbroken cs) :=
  inferInstanceAs (Decidable (∀ c ∈ cs, isBreak c = false))

theorem unbroken_nil : Unbroken [] := List.forall_mem_nil _

theorem unbroken_append {as bs : List Char} :
    Unbroken (as ++ bs) ↔ Unbroken as ∧ Unbroken bs := List.forall_mem_append

theorem isHidden_of_isBreak {c : Char} (h : isBreak c = true) : isHidden c = true := by
  simp only [isBreak, Bool.or_eq_true, decide_eq_true_eq] at h
  obtain (((((rfl | rfl) | rfl) | rfl) | rfl) | rfl) | rfl := h <;> decide +kernel

/-- What holds of every digit of a base holds of the digits of a number. -/
theorem forall_mem_toDigits {P : Char → Prop} {base : Nat} (hbase : 1 < base)
    (hP : ∀ m < base, P (Nat.digitChar m)) (n : Nat) : ∀ c ∈ Nat.toDigits base n, P c := by
  induction n using Nat.strongRecOn with
  | _ n ih =>
    rcases Nat.lt_or_ge n base with hlt | hge
    · rw [Nat.toDigits_of_lt_base hlt]
      exact List.forall_mem_singleton.mpr (hP n hlt)
    · have hless : n / base < n := Nat.div_lt_self (by omega) hbase
      rw [Nat.toDigits_of_base_le hbase hge]
      exact List.forall_mem_append.mpr
        ⟨ih _ hless, List.forall_mem_singleton.mpr (hP _ (Nat.mod_lt n (by omega)))⟩

/-- How a character is quoted: by one letter behind a backslash, by its code point, or as it is. -/
theorem quoteChar_cases (c : Char) :
    (∃ d, (c, d) ∈ [('\x00', '0'), ('\t', 't'), ('\r', 'r'), ('\n', 'n'), ('"', '"'), ('\\', '\\')] ∧
      quoteChar c = ['\\', d]) ∨
    isHidden c = true ∧
      quoteChar c = '\\' :: 'u' :: '\x7b' :: (Nat.toDigits 16 c.toNat ++ ['\x7d']) ∨
    isHidden c = false ∧ c ≠ '"' ∧ c ≠ '\\' ∧ quoteChar c = [c] := by
  unfold quoteChar
  split
  case h_7 hquote hslash =>
    split
    · rename_i h
      exact .inr (.inl ⟨h, rfl⟩)
    · rename_i h
      exact .inr (.inr ⟨Bool.eq_false_iff.mpr h, hquote, hslash, rfl⟩)
  all_goals exact .inl ⟨_, by decide, rfl⟩

/-- Whatever a character is, its quoted form shows itself. -/
theorem shown_quoteChar (c : Char) : ∀ d ∈ quoteChar c, isHidden d = false := by
  obtain ⟨d, hd, hc⟩ | ⟨-, hc⟩ | ⟨hshown, -, -, hc⟩ := quoteChar_cases c
  · rw [hc]
    simp only [List.mem_cons, Prod.mk.injEq, List.not_mem_nil, or_false] at hd
    obtain ⟨-, rfl⟩ | ⟨-, rfl⟩ | ⟨-, rfl⟩ | ⟨-, rfl⟩ | ⟨-, rfl⟩ | ⟨-, rfl⟩ := hd <;> decide
  · rw [hc]
    have hdigit : ∀ m < 16, isHidden m.digitChar = false := by decide
    have hdigits : ∀ d ∈ Nat.toDigits 16 c.toNat, isHidden d = false :=
      forall_mem_toDigits (by decide) hdigit c.toNat
    simp only [List.forall_mem_cons, List.forall_mem_append]
    exact ⟨by decide, by decide, by decide, hdigits, by decide, List.forall_mem_nil _⟩
  · rw [hc]
    exact List.forall_mem_singleton.mpr hshown

/-- Whatever is hidden is escaped. -/
theorem shown_quoteChars (cs : List Char) : ∀ d ∈ quoteChars cs, isHidden d = false := by
  unfold quoteChars
  refine List.forall_mem_append.mpr ⟨List.forall_mem_cons.mpr ⟨by decide, ?_⟩, by decide⟩
  intro d hd
  obtain ⟨c, -, hc⟩ := List.mem_flatMap.mp hd
  exact shown_quoteChar c d hc

/-- A quoted text is on one line. -/
theorem unbroken_quoteChars (cs : List Char) : Unbroken (quoteChars cs) := by
  refine fun d hd => Bool.eq_false_iff.mpr fun hbreak => ?_
  have hshown := shown_quoteChars cs d hd
  rw [isHidden_of_isBreak hbreak] at hshown
  cases hshown

def escaped? : Char → Option Char
  | '0' => some '\x00'
  | 't' => some '\t'
  | 'r' => some '\r'
  | 'n' => some '\n'
  | '"' => some '"'
  | '\\' => some '\\'
  | _ => none

def push (c : Char) (r : Option (List Char × List Char)) : Option (List Char × List Char) :=
  r.map fun (cs, rest) => (c :: cs, rest)

mutual

/-- The characters up to the closing quote, and what follows it. -/
def unquote : List Char → Option (List Char × List Char)
  | [] => none
  | '"' :: cs => some ([], cs)
  | '\\' :: 'u' :: '\x7b' :: cs => unquoteCode 0 cs
  | '\\' :: d :: cs => (escaped? d).bind fun c => push c (unquote cs)
  | c :: cs => push c (unquote cs)

/-- The rest of a code point, of which `code` has been read. -/
def unquoteCode (code : Nat) : List Char → Option (List Char × List Char)
  | [] => none
  | '\x7d' :: cs => push (Char.ofNat code) (unquote cs)
  | d :: cs => (Json.hexValue? d).bind fun n => unquoteCode (16 * code + n) cs

end

theorem unquoteCode_digit {m : Nat} (h : m < 16) (code : Nat) (rest : List Char) :
    unquoteCode code (m.digitChar :: rest) = unquoteCode (16 * code + m) rest := by
  have hbrace : ∀ m < 16, m.digitChar ≠ '\x7d' := by decide
  rw [unquoteCode.eq_3 _ _ _ (hbrace m h), Json.hexValue?_digitChar h, Option.bind_some]

theorem unquoteCode_toDigits (n : Nat) (rest : List Char) :
    unquoteCode 0 (Nat.toDigits 16 n ++ rest) = unquoteCode n rest := by
  induction n using Nat.strongRecOn generalizing rest with
  | _ n ih =>
    rcases Nat.lt_or_ge n 16 with hlt | hge
    · rw [Nat.toDigits_of_lt_base hlt, List.singleton_append, unquoteCode_digit hlt, Nat.mul_zero,
        Nat.zero_add]
    · rw [Nat.toDigits_of_base_le (by decide) hge, List.append_assoc, ih _ (by omega),
        List.singleton_append, unquoteCode_digit (Nat.mod_lt n (by decide)), Nat.div_add_mod]

/-- Every character is read back, escaped or not. -/
theorem unquote_quoteChar (c : Char) (rest : List Char) :
    unquote (quoteChar c ++ rest) = push c (unquote rest) := by
  obtain ⟨d, hd, hc⟩ | ⟨-, hc⟩ | ⟨-, hquote, hslash, hc⟩ := quoteChar_cases c
  · rw [hc]
    simp only [List.mem_cons, Prod.mk.injEq, List.not_mem_nil, or_false] at hd
    obtain ⟨rfl, rfl⟩ | ⟨rfl, rfl⟩ | ⟨rfl, rfl⟩ | ⟨rfl, rfl⟩ | ⟨rfl, rfl⟩ | ⟨rfl, rfl⟩ := hd <;> rfl
  · rw [hc]
    simp only [List.cons_append, List.append_assoc, List.nil_append]
    rw [unquote, unquoteCode_toDigits, unquoteCode, Char.ofNat_toNat]
  · rw [hc, List.singleton_append, unquote.eq_def]
    split <;> simp_all

/-- A quoted text is read back, up to its closing quote. -/
theorem unquote_quoted (cs rest : List Char) :
    unquote (cs.flatMap quoteChar ++ '"' :: rest) = some (cs, rest) := by
  induction cs with
  | nil => rfl
  | cons c cs ih =>
    rw [List.flatMap_cons, List.append_assoc, unquote_quoteChar, ih]
    rfl

theorem quote_injective {s t : String} (h : quote s = quote t) : s = t := by
  have hchars : quoteChars s.toList = quoteChars t.toList := by
    rw [← toList_quote, ← toList_quote, h]
  have hbody : s.toList.flatMap quoteChar ++ ['"'] = t.toList.flatMap quoteChar ++ ['"'] :=
    (List.cons_eq_cons.mp hchars).2
  have hs := unquote_quoted s.toList []
  rw [hbody, unquote_quoted] at hs
  exact String.toList_inj.mp (congrArg Prod.fst (Option.some.inj hs)).symm

end TreeLang.Text
