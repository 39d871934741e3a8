import Mathlib.Data.List.Basic

namespace TreeLang.Text

section Deciding

-- There are finitely many characters, but what is said of those in a text is decided on the text alone.

variable {p : Char → Prop} [DecidablePred p]

instance (priority := high) decidableForallChar (cs : List Char) : Decidable (∀ c ∈ cs, p c) :=
  List.decidableBAll p cs

instance (priority := high) decidableForallChar? (c? : Option Char) : Decidable (∀ c ∈ c?, p c) :=
  Option.decidableForallMem c?

instance (priority := high) decidableExistsChar? (c? : Option Char) : Decidable (∃ c ∈ c?, p c) :=
  Option.decidableExistsMem c?

end Deciding

variable {p : Char → Bool} {cs rest : List Char} {word : String}

def skip (text : String) (cs : List Char) : Option (List Char) :=
  text.toList.isPrefixOf? cs

/-- A text is skipped where it stands at the front. -/
theorem skip_append (text : String) (cs : List Char) : skip text (text.toList ++ cs) = some cs :=
  List.isPrefixOf?_eq_some_iff_append_eq.mpr rfl

theorem skip_eq_none {text : String} {c : Char} (hc : text.toList.head? = some c)
    (hcs : cs.head? ≠ some c) : skip text cs = none := by
  refine Option.eq_none_iff_forall_ne_some.mpr fun rest h => hcs ?_
  rw [← List.isPrefixOf?_eq_some_iff_append_eq.mp h, List.head?_append, hc]
  rfl

def readWhile (p : Char → Bool) (cs : List Char) : String × List Char :=
  (String.ofList (cs.takeWhile p), cs.dropWhile p)

def Until (p : Char → Bool) (rest : List Char) : Prop := ∀ c ∈ rest.head?, p c = false

theorem until_nil : Until p [] := fun _ hc => nomatch hc

theorem until_text {text : String} (h : text.toList.head?.any (!p ·) = true) (rest : List Char) :
    Until p (text.toList ++ rest) := by
  intro c hc
  obtain ⟨d, hd, hp⟩ := (Option.any_eq_true _ _).mp h
  rw [List.head?_append, hd] at hc
  cases hc
  exact Bool.not_eq_eq_eq_not.mp hp

/-- A word is read off where a character of another kind follows. -/
theorem readWhile_append (hword : ∀ c ∈ word.toList, p c = true) (hrest : Until p rest) :
    readWhile p (word.toList ++ rest) = (word, rest) := by
  have hspan : rest.takeWhile p = [] ∧ rest.dropWhile p = rest := by
    cases rest with
    | nil => exact ⟨rfl, rfl⟩
    | cons c cs => simp [hrest c rfl]
  rw [readWhile, List.takeWhile_append_of_pos hword, List.dropWhile_append_of_pos hword, hspan.1,
    hspan.2, List.append_nil, String.ofList_toList]

def isWord (c : Char) : Bool :=
  c.isAlphanum || c = '_' || 128 ≤ c.toNat

/-- The text has no other characters than names have. -/
def IsName (name : String) : Prop := ∀ c ∈ name.toList, isWord c = true

instance (name : String) : Decidable (IsName name) :=
  inferInstanceAs (Decidable (∀ c ∈ name.toList, isWord c = true))

def readWord (cs : List Char) : String × List Char :=
  readWhile isWord cs

theorem readWord_append (hword : ∀ c ∈ word.toList, isWord c = true) (hrest : Until isWord rest) :
    readWord (word.toList ++ rest) = (word, rest) :=
  readWhile_append hword hrest

theorem readWord_eq_empty (h : Until isWord cs) : readWord cs = ("", cs) := by
  have hword : readWord ("".toList ++ cs) = ("", cs) := readWord_append (by decide) h
  exact hword

end TreeLang.Text
