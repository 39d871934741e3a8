import Mathlib.Data.List.Forall2

namespace TreeLang.Text

section Lists

variable {α β γ : Type} {p : α → Bool} {as as' rest rest' : List α} {R : β → γ → Prop}

theorem append_inj_of_mark (has : ∀ a ∈ as, p a = false) (has' : ∀ a ∈ as', p a = false)
    (hrest : ∀ a ∈ rest.head?, p a = true) (hrest' : ∀ a ∈ rest'.head?, p a = true)
    (h : as ++ rest = as' ++ rest') : as = as' ∧ rest = rest' := by
  have hcut : ∀ {xs ys : List α}, (∀ a ∈ xs, p a = false) → (∀ a ∈ ys.head?, p a = true) →
      (xs ++ ys).takeWhile (!p ·) = xs := by
    intro xs ys hxs hys
    have hpass : ∀ a ∈ xs, (!p a) = true := fun a ha => by rw [hxs a ha]; rfl
    rw [List.takeWhile_append_of_pos hpass]
    cases ys with
    | nil => rw [List.takeWhile_nil, List.append_nil]
    | cons y ys => rw [List.takeWhile_cons_of_neg (by simp [hys y rfl]), List.append_nil]
  obtain rfl : as = as' := by rw [← hcut has hrest, h, hcut has' hrest']
  exact ⟨rfl, List.append_cancel_left h⟩

/-- A list with a mark at its head and nowhere else. -/
def Marked (p : α → Bool) (as : List α) : Prop :=
  ∃ a rest, as = a :: rest ∧ p a = true ∧ ∀ b ∈ rest, p b = false

theorem head?_flatMap_marked {f : β → List α} {bs : List β} (h : ∀ b ∈ bs, Marked p (f b)) :
    ∀ a ∈ (bs.flatMap f).head?, p a = true := by
  cases bs with
  | nil => exact fun _ ha => nomatch ha
  | cons b bs =>
    obtain ⟨a, rest, hf, hp, -⟩ := h b List.mem_cons_self
    rw [List.flatMap_cons, hf]
    intro c hc
    cases hc
    exact hp

theorem forall₂_of_flatMap_eq {f : β → List α} {g : γ → List α} {bs : List β} {cs : List γ}
    (hf : ∀ b ∈ bs, Marked p (f b)) (hg : ∀ c ∈ cs, Marked p (g c))
    (hR : ∀ b ∈ bs, ∀ c ∈ cs, f b = g c → R b c) (h : bs.flatMap f = cs.flatMap g) :
    List.Forall₂ R bs cs := by
  induction bs generalizing cs with
  | nil =>
    cases cs with
    | nil => exact .nil
    | cons c cs =>
      obtain ⟨a, rest, hc, -⟩ := hg c List.mem_cons_self
      rw [List.flatMap_cons, hc] at h
      cases h
  | cons b bs ih =>
    obtain ⟨a, as, hb, -, has⟩ := hf b List.mem_cons_self
    have hbs := fun x hx => hf x (List.mem_cons_of_mem b hx)
    cases cs with
    | nil =>
      rw [List.flatMap_cons, hb] at h
      cases h
    | cons c cs =>
      obtain ⟨a', as', hc, -, has'⟩ := hg c List.mem_cons_self
      have hcs := fun x hx => hg x (List.mem_cons_of_mem c hx)
      rw [List.flatMap_cons, List.flatMap_cons, hb, hc, List.cons_append, List.cons_append] at h
      obtain ⟨rfl, htail⟩ := List.cons_eq_cons.mp h
      obtain ⟨rfl, hrest⟩ :=
        append_inj_of_mark has has' (head?_flatMap_marked hbs) (head?_flatMap_marked hcs) htail
      exact .cons (hR b List.mem_cons_self c List.mem_cons_self (hb.trans hc.symm))
        (ih hbs hcs
          (fun x hx y hy => hR x (List.mem_cons_of_mem b hx) y (List.mem_cons_of_mem c hy))
          hrest)

theorem forall₂_of_map_zipIdx_eq {f : β × Nat → α} {g : γ × Nat → α} {bs : List β} {cs : List γ}
    {n : Nat} (hR : ∀ b ∈ bs, ∀ c ∈ cs, ∀ i, f (b, i) = g (c, i) → R b c)
    (h : (bs.zipIdx n).map f = (cs.zipIdx n).map g) : List.Forall₂ R bs cs := by
  induction bs generalizing cs n with
  | nil =>
    cases cs with
    | nil => exact .nil
    | cons c cs => cases h
  | cons b bs ih =>
    cases cs with
    | nil => cases h
    | cons c cs =>
      obtain ⟨hhead, htail⟩ := List.cons_eq_cons.mp h
      exact .cons (hR b List.mem_cons_self c List.mem_cons_self n hhead)
        (ih (fun x hx y hy => hR x (List.mem_cons_of_mem b hx) y (List.mem_cons_of_mem c hy)) htail)

theorem map_eq_of_forall₂ {k : β → α} {k' : γ → α} {bs : List β} {cs : List γ}
    (h : List.Forall₂ (fun b c => k b = k' c) bs cs) : bs.map k = cs.map k' := by
  rwa [← List.forall₂_eq_eq_eq, List.forall₂_map_left_iff, List.forall₂_map_right_iff]

end Lists

/-- Behind the first text, each one has a separator in front of it. -/
theorem toList_intercalate_cons (sep text : String) (texts : List String) :
    (sep.intercalate (text :: texts)).toList =
      text.toList ++ texts.flatMap fun t => sep.toList ++ t.toList := by
  induction texts generalizing text with
  | nil => rw [String.intercalate_singleton, List.flatMap_nil, List.append_nil]
  | cons text' texts ih =>
    rw [String.intercalate_cons_cons, String.toList_append, String.toList_append, ih,
      List.flatMap_cons, List.append_assoc, List.append_assoc]

/-- What holds of the characters of separators and texts holds of all characters. -/
theorem forall_mem_intercalate {P : Char → Prop} {sep : String} {texts : List String}
    (hsep : ∀ c ∈ sep.toList, P c) (h : ∀ t ∈ texts, ∀ c ∈ t.toList, P c) :
    ∀ c ∈ (sep.intercalate texts).toList, P c := by
  cases texts with
  | nil => exact fun c hc => nomatch hc
  | cons t ts =>
    rw [toList_intercalate_cons]
    refine List.forall_mem_append.mpr ⟨h t List.mem_cons_self, fun c hc => ?_⟩
    obtain ⟨t', ht', hc⟩ := List.mem_flatMap.mp hc
    exact (List.mem_append.mp hc).elim (hsep c) (h t' (List.mem_cons_of_mem t ht') c)

/-- Texts are found between separators, where each is there and none has the character that a
separator begins with. -/
theorem intercalate_injective {sep : String} {c : Char} {cs : List Char} (hsep : sep.toList = c :: cs)
    (hcs : c ∉ cs) {texts texts' : List String} (h : ∀ t ∈ texts, t ≠ "" ∧ c ∉ t.toList)
    (h' : ∀ t ∈ texts', t ≠ "" ∧ c ∉ t.toList)
    (heq : sep.intercalate texts = sep.intercalate texts') : texts = texts' := by
  have hother : ∀ {ds : List Char}, c ∉ ds → ∀ d ∈ ds, (d == c) = false :=
    fun hds d hd => beq_eq_false_iff_ne.mpr fun he => hds (he ▸ hd)
  have hmarked : ∀ {texts : List String}, (∀ t ∈ texts, t ≠ "" ∧ c ∉ t.toList) →
      ∀ t ∈ texts, Marked (· == c) (sep.toList ++ t.toList) := by
    intro texts h t ht
    refine ⟨c, cs ++ t.toList, by rw [hsep, List.cons_append], beq_self_eq_true c, ?_⟩
    exact hother fun hm => (List.mem_append.mp hm).elim hcs (h t ht).2
  have hchars := congrArg String.toList heq
  match texts, texts' with
  | [], [] => rfl
  | [], t' :: _ =>
    rw [toList_intercalate_cons] at hchars
    have hnil := (List.append_eq_nil_iff.mp hchars.symm).1
    exact absurd (String.toList_eq_nil_iff.mp hnil) (h' t' List.mem_cons_self).1
  | t :: _, [] =>
    rw [toList_intercalate_cons] at hchars
    have hnil := (List.append_eq_nil_iff.mp hchars).1
    exact absurd (String.toList_eq_nil_iff.mp hnil) (h t List.mem_cons_self).1
  | t :: texts, t' :: texts' =>
    rw [toList_intercalate_cons, toList_intercalate_cons] at hchars
    have hm := hmarked fun x hx => h x (List.mem_cons_of_mem t hx)
    have hm' := hmarked fun x hx => h' x (List.mem_cons_of_mem t' hx)
    obtain ⟨hhead, htail⟩ := append_inj_of_mark (hother (h t List.mem_cons_self).2)
      (hother (h' t' List.mem_cons_self).2) (head?_flatMap_marked hm) (head?_flatMap_marked hm') hchars
    have hall : List.Forall₂ (· = ·) texts texts' := forall₂_of_flatMap_eq hm hm'
      (fun x _ y _ hxy => String.toList_inj.mp (List.append_cancel_left hxy)) htail
    rw [List.forall₂_eq_eq_eq] at hall
    rw [String.toList_inj.mp hhead, hall]

def Lacks (x : Char) (text : String) : Prop := x ∉ text.toList

instance (x : Char) (text : String) : Decidable (Lacks x text) :=
  inferInstanceAs (Decidable (x ∉ text.toList))

section Lacks

variable {x : Char} {text text' sep : String} {texts : List String}

theorem lacks_append : Lacks x (text ++ text') ↔ Lacks x text ∧ Lacks x text' := by
  simp only [Lacks, String.toList_append, List.mem_append, not_or]

theorem lacks_of_forall {p : Char → Bool} (hp : p x = false)
    (h : ∀ c ∈ text.toList, p c = true) : Lacks x text := fun hm => by
  rw [h _ hm] at hp
  cases hp

/-- A character that is in no part and not in the separator is nowhere. -/
theorem lacks_intercalate (hsep : Lacks x sep) (h : ∀ text ∈ texts, Lacks x text) :
    Lacks x (sep.intercalate texts) := by
  have hother : ∀ {text : String}, Lacks x text → ∀ c ∈ text.toList, c ≠ x :=
    fun hlacks c hc he => hlacks (he ▸ hc)
  exact fun hm => forall_mem_intercalate (hother hsep) (fun t ht => hother (h t ht)) x hm rfl

theorem lacks_join (h : ∀ text ∈ texts, Lacks x text) : Lacks x (String.join texts) := by
  induction texts with
  | nil => exact List.not_mem_nil
  | cons text texts ih =>
    obtain ⟨htext, htexts⟩ := List.forall_mem_cons.mp h
    rw [String.join_cons]
    exact lacks_append.mpr ⟨htext, ih htexts⟩

end Lacks

/-- The text of rows, each with a line feed behind it. -/
def unlines (rows : List String) : String :=
  String.join (rows.map (· ++ "\n"))

@[simp] theorem unlines_nil : unlines [] = "" := rfl

@[simp] theorem unlines_cons (row : String) (rows : List String) :
    unlines (row :: rows) = row ++ "\n" ++ unlines rows := by
  rw [unlines, List.map_cons, String.join_cons]
  rfl

theorem unlines_append (rows rows' : List String) :
    unlines (rows ++ rows') = unlines rows ++ unlines rows' := by
  rw [unlines, List.map_append, String.join_append]
  rfl

theorem unlines_map {α : Type} (f : α → String) (xs : List α) :
    unlines (xs.map f) = String.join (xs.map fun x => f x ++ "\n") := by
  rw [unlines, List.map_map]
  rfl

theorem unlines_flatMap {α : Type} (f : α → List String) (xs : List α) :
    unlines (xs.flatMap f) = String.join (xs.map fun x => unlines (f x)) := by
  induction xs with
  | nil => rfl
  | cons x xs ih => rw [List.flatMap_cons, unlines_append, ih, List.map_cons, String.join_cons]

def IsRow (text : String) : Prop := '\n' ∉ text.toList

instance (text : String) : Decidable (IsRow text) :=
  inferInstanceAs (Decidable ('\n' ∉ text.toList))

/-- Rows without line feeds are found again in their text. -/
theorem unlines_injective {rows rows' : List String} (h : ∀ row ∈ rows, IsRow row)
    (h' : ∀ row ∈ rows', IsRow row) (heq : unlines rows = unlines rows') : rows = rows' := by
  have hlist : ∀ (row : String) (rows : List String),
      (unlines (row :: rows)).toList = row.toList ++ '\n' :: (unlines rows).toList := by
    intro row rows
    rw [unlines_cons, String.toList_append, String.toList_append, List.append_assoc]
    rfl
  induction rows generalizing rows' with
  | nil =>
    cases rows' with
    | nil => rfl
    | cons row' rows' =>
      have hnil := congrArg String.toList heq
      rw [hlist] at hnil
      simp at hnil
  | cons row rows ih =>
    cases rows' with
    | nil =>
      have hnil := congrArg String.toList heq
      rw [hlist] at hnil
      simp at hnil
    | cons row' rows' =>
      have hchars := congrArg String.toList heq
      rw [hlist, hlist] at hchars
      have hother : ∀ {row : String}, IsRow row → ∀ c ∈ row.toList, (c == '\n') = false :=
        fun hrow c hc => beq_eq_false_iff_ne.mpr fun he => hrow (he ▸ hc)
      obtain ⟨hrow, hrest⟩ := append_inj_of_mark (hother (h row List.mem_cons_self))
        (hother (h' row' List.mem_cons_self)) (by simp) (by simp) hchars
      rw [String.toList_inj.mp hrow, ih (fun x hx => h x (List.mem_cons_of_mem row hx))
        (fun x hx => h' x (List.mem_cons_of_mem row' hx))
        (String.toList_inj.mp (List.cons_eq_cons.mp hrest).2)]

end TreeLang.Text
