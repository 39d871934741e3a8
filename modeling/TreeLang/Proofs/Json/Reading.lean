import TreeLang.Proofs.Json.Numbers

namespace TreeLang.Json

theorem hexValue?_digitChar {n : Nat} (h : n < 16) : hexValue? n.digitChar = some n := by
  revert n
  decide

/-- The four digits of an escaped control character are those of its code. -/
theorem hex4?_control {n : Nat} (h : n < 0x20) :
    hex4? '0' '0' (n / 16).digitChar (n % 16).digitChar = some n := by
  have hzero : hexValue? '0' = some 0 := rfl
  have hhigh := hexValue?_digitChar (show n / 16 < 16 by omega)
  have hlow := hexValue?_digitChar (show n % 16 < 16 by omega)
  simp only [hex4?, hzero, hhigh, hlow, Option.bind_eq_bind, Option.bind_some, Option.pure_def,
    Option.some.injEq]
  omega

theorem stringBody_plain {strict : Bool} {c : Char} {cs : List Char} (hquote : c ≠ '"')
    (hslash : c ≠ '\\') (hc : 0x20 ≤ c.toNat) :
    stringBody strict (c :: cs) = push c (stringBody strict cs) := by
  rw [stringBody.eq_def]
  split <;> simp_all

/-- A character that has been escaped is read as this character. -/
theorem stringBody_escape (c : Char) (cs : List Char) :
    stringBody true (escape c ++ cs) = push c (stringBody true cs) := by
  unfold escape
  split
  · rfl
  · rfl
  · rfl
  · rfl
  · rfl
  · rfl
  · rfl
  · split
    · rename_i hcontrol
      have hhex := hex4?_control hcontrol
      simp only [List.cons_append, List.nil_append]
      rw [stringBody, hhex]
      have hlow : isLow c.toNat = false := by simp [isLow]; omega
      have hhigh : isHigh c.toNat = false := by simp [isHigh]; omega
      simp [hlow, hhigh, Char.ofNat_toNat]
    · rename_i hquote hslash _ _ _ _ _ hcontrol
      exact stringBody_plain hquote hslash (Nat.not_lt.mp hcontrol)

/-- A string is read back character by character up to its closing quote. -/
theorem stringBody_chars (s rest : List Char) :
    stringBody true (s.flatMap escape ++ '"' :: rest) = .ok (s, rest) := by
  induction s with
  | nil => rfl
  | cons c cs ih =>
    rw [List.flatMap_cons, List.append_assoc, stringBody_escape, ih]
    rfl

structure Layout.Blank (l : Layout) : Prop where
  lead : ∀ depth, ∀ c ∈ l.lead depth, isSpace c = true
  gap : ∀ c ∈ l.gap, isSpace c = true

theorem blank_indented : Layout.indented.Blank where
  lead depth c hc := by
    rcases List.mem_cons.mp hc with rfl | hc
    · rfl
    · rw [(List.mem_replicate.mp hc).2]
      rfl
  gap c hc := by
    rw [List.mem_singleton.mp hc]
    rfl

theorem skipSpace_append {bs cs : List Char} (h : ∀ c ∈ bs, isSpace c = true) :
    skipSpace (bs ++ cs) = skipSpace cs := by
  unfold skipSpace
  exact List.dropWhile_append_of_pos h

theorem skipSpace_cons {c : Char} {cs : List Char} (h : isSpace c = false) :
    skipSpace (c :: cs) = c :: cs := by
  simp [skipSpace, h]

variable {ignored : List String → Bool} {fuel : Nat} {p : Place}

theorem value_blank {bs cs : List Char} (h : ∀ c ∈ bs, isSpace c = true) :
    value ignored fuel p (bs ++ cs) = value ignored fuel p cs := by
  cases fuel with
  | zero => simp [value]
  | succ fuel => simp only [value, skipSpace_append h]

theorem elements_blank {bs cs : List Char} (h : ∀ c ∈ bs, isSpace c = true) :
    elements ignored fuel p (bs ++ cs) = elements ignored fuel p cs := by
  cases fuel with
  | zero => simp [elements]
  | succ fuel => simp only [elements, value_blank h]

theorem members_blank {bs cs : List Char} (h : ∀ c ∈ bs, isSpace c = true) :
    members ignored fuel p (bs ++ cs) = members ignored fuel p cs := by
  cases fuel with
  | zero => simp [members]
  | succ fuel => simp only [members, skipSpace_append h]

theorem isSpace_iff {c : Char} :
    isSpace c = true ↔ c = ' ' ∨ c = '\n' ∨ c = '\t' ∨ c = '\r' := by
  simp [isSpace, or_assoc]

/-- A digit is no blank, so a number is not skipped. -/
theorem isSpace_of_isDigit {c : Char} (h : c.isDigit = true) : isSpace c = false := by
  rw [← Bool.not_eq_true, isSpace_iff]
  rintro (rfl | rfl | rfl | rfl) <;> cases h

/-- A number stops before a blank and before what may follow a value. -/
theorem stops_blank {bs cs : List Char} (h : ∀ c ∈ bs, isSpace c = true) (hcs : Stops cs) :
    Stops (bs ++ cs) := by
  cases bs with
  | nil => exact hcs
  | cons b bs =>
    rintro c ⟨⟩
    rcases isSpace_iff.mp (h b List.mem_cons_self) with rfl | rfl | rfl | rfl <;> decide

mutual

def depth : Json → Nat
  | array xs => elementDepth xs + 1
  | object ms => memberDepth ms + 1
  | _ => 0

def elementDepth : List Json → Nat
  | [] => 0
  | x :: xs => max x.depth (elementDepth xs)

def memberDepth : List (String × Json) → Nat
  | [] => 0
  | (_, x) :: ms => max x.depth (memberDepth ms)

end

mutual

def written : Json → Json
  | number n => number n.written
  | array xs => array (elementsWritten xs)
  | object ms => object (membersWritten ms)
  | j => j

def elementsWritten : List Json → List Json
  | [] => []
  | x :: xs => x.written :: elementsWritten xs

def membersWritten : List (String × Json) → List (String × Json)
  | [] => []
  | (k, x) :: ms => (k, x.written) :: membersWritten ms

end

mutual

def Numbers (P : Numeral → Prop) : Json → Prop
  | number n => P n
  | array xs => ElementNumbers P xs
  | object ms => MemberNumbers P ms
  | _ => True

def ElementNumbers (P : Numeral → Prop) : List Json → Prop
  | [] => True
  | x :: xs => x.Numbers P ∧ ElementNumbers P xs

def MemberNumbers (P : Numeral → Prop) : List (String × Json) → Prop
  | [] => True
  | (_, x) :: ms => x.Numbers P ∧ MemberNumbers P ms

end

section

variable {cs bs rest : List Char} {c : Char} {x : Json} {xs : List Json} {e : Fault} {key : String}

theorem value_digit (hc : c.isDigit = true) : value ignored (fuel + 1) p (c :: cs) =
    (numeral p.strict false (c :: cs)).map fun (n, rest) => (.number n, rest) := by
  rw [value, skipSpace_cons (isSpace_of_isDigit hc)]
  split <;> simp_all

/-- An array that is not empty is read as its elements, one bracket deeper. -/
theorem value_array (hbs : ∀ b ∈ bs, isSpace b = true) (hspace : isSpace c = false) (hc : c ≠ ']') :
    value ignored (fuel + 1) p ('[' :: (bs ++ c :: cs)) = match p.enter? with
      | none => .error .malformed
      | some p' =>
        (elements ignored fuel p'.element (c :: cs)).map fun (xs, rest) => (.array xs, rest) := by
  rw [value, skipSpace_cons (c := '[') rfl]
  simp only [skipSpace_append hbs, skipSpace_cons hspace]
  cases p.enter? with
  | none => rfl
  | some p' =>
    dsimp only
    split
    · simp_all
    · rfl

theorem elements_last (hbs : ∀ b ∈ bs, isSpace b = true)
    (h : value ignored fuel p cs = .ok (x, bs ++ ']' :: rest)) :
    elements ignored (fuel + 1) p cs = .ok ([x], rest) := by
  simp only [elements, h, bind, Except.bind, skipSpace_append hbs, skipSpace_cons (c := ']') rfl]
  rfl

theorem elements_more (h : value ignored fuel p cs = .ok (x, ',' :: rest)) :
    elements ignored (fuel + 1) p cs =
      (elements ignored fuel p rest).map fun (xs, rest) => (x :: xs, rest) := by
  simp only [elements, h, bind, Except.bind, skipSpace_cons (c := ',') rfl]
  cases elements ignored fuel p rest <;> rfl

theorem elements_fail (h : value ignored fuel p cs = .error e) :
    elements ignored (fuel + 1) p cs = .error e := by
  simp only [elements, h, bind, Except.bind]

/-- An object that is not empty is read as its members, one bracket deeper. -/
theorem value_object (hbs : ∀ b ∈ bs, isSpace b = true) :
    value ignored (fuel + 1) p ('\x7b' :: (bs ++ '"' :: cs)) = match p.enter? with
      | none => .error .malformed
      | some p' => (members ignored fuel p' ('"' :: cs)).map fun (ms, rest) => (.object ms, rest) := by
  rw [value, skipSpace_cons (c := '\x7b') rfl]
  simp only [skipSpace_append hbs, skipSpace_cons (c := '"') rfl]
  cases p.enter? <;> rfl

/-- The last member is followed by the closing brace, with blanks around the colon and behind the value.
-/
theorem members_last {gap : List Char} (hp : p.strict = true) (hgap : ∀ b ∈ gap, isSpace b = true)
    (hbs : ∀ b ∈ bs, isSpace b = true)
    (h : value ignored fuel (p.member ignored key) cs = .ok (x, bs ++ '\x7d' :: rest)) :
    members ignored (fuel + 1) p (stringChars key ++ ':' :: (gap ++ cs)) = .ok ([(key, x)], rest) := by
  simp only [stringChars, members, List.cons_append, skipSpace_cons (c := '"') rfl, hp,
    List.append_assoc, List.nil_append, stringBody_chars, bind, Except.bind,
    skipSpace_cons (c := ':') rfl, value_blank hgap, String.ofList_toList, h, skipSpace_append hbs,
    skipSpace_cons (c := '\x7d') rfl]
  rfl

theorem members_more {gap : List Char} (hp : p.strict = true) (hgap : ∀ b ∈ gap, isSpace b = true)
    (h : value ignored fuel (p.member ignored key) cs = .ok (x, ',' :: rest)) :
    members ignored (fuel + 1) p (stringChars key ++ ':' :: (gap ++ cs)) =
      (members ignored fuel p rest).map fun (ms, rest) => ((key, x) :: ms, rest) := by
  simp only [stringChars, members, List.cons_append, skipSpace_cons (c := '"') rfl, hp,
    List.append_assoc, List.nil_append, stringBody_chars, bind, Except.bind,
    skipSpace_cons (c := ':') rfl, value_blank hgap, String.ofList_toList, h,
    skipSpace_cons (c := ',') rfl]
  cases members ignored fuel p rest <;> rfl

theorem members_fail {gap : List Char} (hp : p.strict = true) (hgap : ∀ b ∈ gap, isSpace b = true)
    (h : value ignored fuel (p.member ignored key) cs = .error e) :
    members ignored (fuel + 1) p (stringChars key ++ ':' :: (gap ++ cs)) = .error e := by
  simp only [stringChars, members, List.cons_append, skipSpace_cons (c := '"') rfl, hp,
    List.append_assoc, List.nil_append, stringBody_chars, bind, Except.bind,
    skipSpace_cons (c := ':') rfl, value_blank hgap, String.ofList_toList, h]

end

/-- A place where a value counts, with everything inside it. -/
structure Place.Counts (ignored : List String → Bool) (p : Place) : Prop where
  strict : p.strict = true
  inside : ∀ keys, keys ≠ [] → ignored (keys ++ p.path) = false

/-- A member that is not left out counts where its object does. -/
theorem Place.Counts.member (h : p.Counts ignored) (key : String) :
    (p.member ignored key).Counts ignored := by
  constructor
  · have hkey := h.inside [key] (by simp)
    rw [List.singleton_append] at hkey
    simp [Place.member, h.strict, hkey]
  · intro keys hkeys
    have hkey := h.inside (keys ++ [key]) (by simp)
    rwa [List.append_assoc, List.singleton_append] at hkey

theorem Place.Counts.element (h : p.Counts ignored) : p.element.Counts ignored := by
  refine ⟨h.strict, fun keys hkeys => ?_⟩
  have hkey := h.inside (keys ++ [""]) (by simp)
  rwa [List.append_assoc, List.singleton_append] at hkey

theorem Place.Counts.open (h : p.Counts ignored) (depth : Nat) :
    Place.Counts ignored { p with depth := depth } := ⟨h.strict, h.inside⟩

def Place.admit {α : Type} (p : Place) (needed : Nat) (a : α) (rest : List Char) :
    Except Fault (α × List Char) :=
  if needed ≤ p.depth then .ok (a, rest) else .error .malformed

/-- What may be written and read: its numbers do not overflow. -/
abbrev Readable : Json → Prop := Numbers fun n => n.written.double.isFinite = true

section

variable {l : Layout} {rest : List Char}

/-- No value begins with a blank or a bracket that closes. -/
theorem head_chars (l : Layout) (d : Nat) (j : Json) :
    ∃ c cs, j.chars l d = c :: cs ∧ isSpace c = false ∧ c ≠ ']' := by
  cases j with
  | null => exact ⟨_, _, rfl, rfl, by decide⟩
  | bool b => cases b <;> exact ⟨_, _, rfl, rfl, by decide⟩
  | number n =>
    rw [chars, Numeral.chars_eq]
    cases n.negative with
    | true => exact ⟨_, _, rfl, rfl, by decide⟩
    | false =>
      obtain ⟨c, cs, hcs, hc⟩ := n.regular_spelling.head
      refine ⟨c, cs, hcs, isSpace_of_isDigit hc, ?_⟩
      rintro rfl
      cases hc
  | string s => exact ⟨_, _, rfl, rfl, by decide⟩
  | array xs => cases xs <;> exact ⟨_, _, rfl, rfl, by decide⟩
  | object ms => cases ms <;> exact ⟨_, _, rfl, rfl, by decide⟩

/-- A number whose value is finite is read as it is spelled. -/
theorem value_number {n : Numeral} (hfinite : n.written.double.isFinite = true)
    (hrest : Stops rest) :
    value ignored (fuel + 1) p (n.chars ++ rest) = .ok (.number n.written, rest) := by
  have hread : ∀ negative, n.negative = negative →
      numeral p.strict negative (n.spelling.chars ++ rest) = .ok (n.written, rest) := by
    rintro _ rfl
    exact numeral_spelled n.regular_spelling hrest hfinite
  rw [Numeral.chars_eq]
  cases hneg : n.negative with
  | true =>
    simp only [if_true, List.cons_append, List.nil_append, value, skipSpace_cons (c := '-') rfl,
      hread true hneg]
    rfl
  | false =>
    obtain ⟨c, cs, hcs, hc⟩ := n.regular_spelling.head
    have hread' := hread false hneg
    simp only [Bool.false_eq_true, if_false, List.nil_append]
    rw [hcs, List.cons_append] at hread' ⊢
    rw [value_digit hc, hread']
    rfl

/-- An element ends before the next or before the bracket. -/
theorem stops_elementChars (hl : l.Blank) (d : Nat) (xs : List Json) (rest : List Char) :
    Stops (elementChars l d xs ++ rest) := by
  cases xs with
  | nil =>
    rw [elementChars, List.append_assoc]
    exact stops_blank (hl.lead d) (by simp [Stops])
  | cons x xs => simp [elementChars, Stops]

theorem stops_memberChars (hl : l.Blank) (d : Nat) (ms : List (String × Json)) (rest : List Char) :
    Stops (memberChars l d ms ++ rest) := by
  cases ms with
  | nil =>
    rw [memberChars, List.append_assoc]
    exact stops_blank (hl.lead d) (by simp [Stops])
  | cons m ms => simp [memberChars, Stops]

end

theorem admit_of_le {α : Type} {n : Nat} {a : α} {rest : List Char} (h : n ≤ p.depth) :
    p.admit n a rest = .ok (a, rest) := if_pos h

theorem admit_of_lt {α : Type} {n : Nat} {a : α} {rest : List Char} (h : p.depth < n) :
    p.admit n a rest = .error .malformed := if_neg (Nat.not_le.mpr h)

/-- A bracket opens one more. -/
theorem admit_enter {α β : Type} {n : Nat} {a : α} {rest : List Char} (hp : p.strict = true)
    (read : Place → Except Fault (α × List Char)) (g : α → β)
    (hread : ∀ depth, read { p with depth := depth } = Place.admit { p with depth := depth } n a rest) :
    (match p.enter? with
      | none => .error .malformed
      | some p' => (read p').map fun (a, rest) => (g a, rest)) = p.admit (n + 1) (g a) rest := by
  rcases Nat.eq_zero_or_pos p.depth with h0 | hpos
  · have henter : p.enter? = none := by simp [Place.enter?, hp, h0]
    rw [henter, admit_of_lt (by omega)]
  · have henter : p.enter? = some { p with depth := p.depth - 1 } := by
      simp [Place.enter?, hp, Nat.pos_iff_ne_zero.mp hpos]
    simp only [henter, hread]
    rcases Nat.lt_or_ge (p.depth - 1) n with hlt | hge
    · rw [admit_of_lt (show Place.depth { p with depth := p.depth - 1 } < n from hlt),
        admit_of_lt (by omega)]
      rfl
    · rw [admit_of_le (show n ≤ Place.depth { p with depth := p.depth - 1 } from hge),
        admit_of_le (by omega)]
      rfl

def listChars (l : Layout) (d : Nat) : List Json → List Char
  | [] => []
  | x :: xs => x.chars l (d + 1) ++ elementChars l d xs

def entryChars (l : Layout) (d : Nat) : List (String × Json) → List Char
  | [] => []
  | (k, x) :: ms =>
    stringChars k ++ ':' :: (l.gap ++ (x.chars l (d + 1) ++ memberChars l d ms))

theorem value_entries {l : Layout} (hl : l.Blank) {d : Nat} {k : String} {x : Json}
    {ms : List (String × Json)} {rest : List Char} (hp : p.strict = true)
    (hmembers : ∀ depth, members ignored fuel { p with depth := depth }
      (entryChars l d ((k, x) :: ms) ++ rest) =
      Place.admit { p with depth := depth } (memberDepth ((k, x) :: ms))
        (membersWritten ((k, x) :: ms)) rest) :
    value ignored (fuel + 1) p ((object ((k, x) :: ms)).chars l d ++ rest) =
      p.admit (object ((k, x) :: ms)).depth (object ((k, x) :: ms)).written rest := by
  simp only [chars, entryChars, stringChars, List.cons_append, List.append_assoc] at hmembers ⊢
  rw [value_object (hl.lead _)]
  exact admit_enter hp _ Json.object hmembers

mutual

/-- A document that has been written is read where it opens no more brackets than the place admits. -/
theorem value_chars {l : Layout} (hl : l.Blank) : ∀ (j : Json) (d fuel : Nat) {p : Place}
    {rest : List Char}, p.Counts ignored → j.Readable → Stops rest →
    2 * (j.chars l d).length ≤ fuel + 1 →
    value ignored (fuel + 1) p (j.chars l d ++ rest) = p.admit j.depth j.written rest
  | .null, d, fuel, p, rest, _, _, _, _ => (admit_of_le (Nat.zero_le p.depth)).symm
  | .bool true, d, fuel, p, rest, _, _, _, _ => (admit_of_le (Nat.zero_le p.depth)).symm
  | .bool false, d, fuel, p, rest, _, _, _, _ => (admit_of_le (Nat.zero_le p.depth)).symm
  | .number n, d, fuel, p, rest, _, hj, hrest, _ =>
    (value_number hj hrest).trans (admit_of_le (Nat.zero_le p.depth)).symm
  | .string s, d, fuel, p, rest, hp, _, _, _ => by
    refine Eq.trans ?_ (admit_of_le (Nat.zero_le p.depth)).symm
    simp only [chars, stringChars, List.cons_append, List.append_assoc, List.nil_append, value,
      skipSpace_cons (c := '"') rfl, hp.strict, stringBody_chars]
    simp [Except.map, written]
  | .array [], d, fuel, p, rest, hp, _, _, _ =>
    admit_enter hp.strict (fun _ => .ok ([], rest)) Json.array fun depth =>
      (admit_of_le (Nat.zero_le depth)).symm
  | .array (x :: xs), d, fuel, p, rest, hp, hj, hrest, hfuel => by
    simp only [chars, List.length_append, List.length_cons] at hfuel
    obtain ⟨fuel, rfl⟩ : ∃ f, fuel = f + 1 := ⟨fuel - 1, by omega⟩
    obtain ⟨c, cs, hcs, hspace, hc⟩ := head_chars l (d + 1) x
    have helements : ∀ depth, elements ignored (fuel + 1) (Place.element { p with depth := depth })
        (listChars l d (x :: xs) ++ rest) =
        Place.admit { p with depth := depth } (elementDepth (x :: xs)) (elementsWritten (x :: xs)) rest :=
      fun depth => elements_chars hl (x :: xs) d fuel (by simp) (hp.open depth).element hj
        (by simp only [listChars, List.length_append]; omega)
    simp only [chars, listChars, hcs, List.cons_append, List.append_assoc] at helements ⊢
    rw [value_array (hl.lead _) hspace hc]
    exact admit_enter hp.strict (fun p' => elements ignored (fuel + 1) p'.element _) Json.array helements
  | .object [], d, fuel, p, rest, hp, _, _, _ =>
    admit_enter hp.strict (fun _ => .ok ([], rest)) Json.object fun depth =>
      (admit_of_le (Nat.zero_le depth)).symm
  | .object ((k, x) :: ms), d, fuel, p, rest, hp, hj, hrest, hfuel => by
    simp only [chars, List.length_append, List.length_cons] at hfuel
    obtain ⟨fuel, rfl⟩ : ∃ f, fuel = f + 1 := ⟨fuel - 1, by omega⟩
    refine value_entries hl hp.strict fun depth => ?_
    exact members_chars hl ((k, x) :: ms) d fuel (by simp) hp.strict
      (fun m _ => (hp.open depth).member m.1) hj
      (by simp only [entryChars, List.length_append, List.length_cons]; omega)

/-- The elements of an array are read one after the other, each with its own blanks in front. -/
theorem elements_chars {l : Layout} (hl : l.Blank) : ∀ (xs : List Json) (d fuel : Nat)
    {p : Place} {rest : List Char}, xs ≠ [] → p.Counts ignored →
    ElementNumbers (fun n => n.written.double.isFinite = true) xs →
    2 * (listChars l d xs).length ≤ fuel →
    elements ignored (fuel + 1) p (listChars l d xs ++ rest) =
      p.admit (elementDepth xs) (elementsWritten xs) rest
  | [], _, _, _, _, hne, _, _, _ => absurd rfl hne
  | [x], d, fuel, p, rest, _, hp, hx, hfuel => by
    simp only [listChars, elementChars, List.length_append, List.length_cons] at hfuel
    obtain ⟨fuel, rfl⟩ : ∃ f, fuel = f + 1 := ⟨fuel - 1, by omega⟩
    have hvalue := value_chars hl x (d + 1) fuel hp hx.1 (stops_elementChars hl d [] rest) (by omega)
    simp only [listChars, elementChars, List.append_assoc] at hvalue ⊢
    rcases Nat.lt_or_ge p.depth x.depth with hlt | hge
    · rw [admit_of_lt hlt] at hvalue
      rw [elements_fail hvalue, admit_of_lt (by simp only [elementDepth]; omega)]
    · rw [admit_of_le hge] at hvalue
      rw [List.singleton_append] at hvalue ⊢
      rw [elements_last (hl.lead d) hvalue, admit_of_le (by simp only [elementDepth]; omega)]
      rfl
  | x :: y :: ys, d, fuel, p, rest, _, hp, hx, hfuel => by
    simp only [listChars, elementChars, List.length_append, List.length_cons] at hfuel
    obtain ⟨fuel, rfl⟩ : ∃ f, fuel = f + 1 := ⟨fuel - 1, by omega⟩
    have hvalue := value_chars hl x (d + 1) fuel hp hx.1 (stops_elementChars hl d (y :: ys) rest)
      (by omega)
    have hmore : elements ignored (fuel + 1) p (listChars l d (y :: ys) ++ rest) = _ :=
      elements_chars hl (y :: ys) d fuel (by simp) hp hx.2
        (by simp only [listChars, List.length_append]; omega)
    simp only [listChars, elementChars, List.cons_append, List.append_assoc] at hvalue hmore ⊢
    rcases Nat.lt_or_ge p.depth x.depth with hlt | hge
    · rw [admit_of_lt hlt] at hvalue
      rw [elements_fail hvalue, admit_of_lt (by rw [elementDepth]; omega)]
    · rw [admit_of_le hge] at hvalue
      rw [elements_more hvalue, elements_blank (hl.lead _), hmore]
      rcases Nat.lt_or_ge p.depth (elementDepth (y :: ys)) with hlt' | hge'
      · rw [admit_of_lt hlt', admit_of_lt (by rw [elementDepth]; omega)]
        rfl
      · rw [admit_of_le hge', admit_of_le (by rw [elementDepth]; omega)]
        rfl

/-- The members of an object are read one after the other, with their keys. -/
theorem members_chars {l : Layout} (hl : l.Blank) : ∀ (ms : List (String × Json)) (d fuel : Nat)
    {p : Place} {rest : List Char}, ms ≠ [] → p.strict = true →
    (∀ m ∈ ms, (p.member ignored m.1).Counts ignored) →
    MemberNumbers (fun n => n.written.double.isFinite = true) ms →
    2 * (entryChars l d ms).length ≤ fuel →
    members ignored (fuel + 1) p (entryChars l d ms ++ rest) =
      p.admit (memberDepth ms) (membersWritten ms) rest
  | [], _, _, _, _, hne, _, _, _, _ => absurd rfl hne
  | [(k, x)], d, fuel, p, rest, _, hp, hms, hx, hfuel => by
    simp only [entryChars, memberChars, List.length_append, List.length_cons] at hfuel
    obtain ⟨fuel, rfl⟩ : ∃ f, fuel = f + 1 := ⟨fuel - 1, by omega⟩
    have hvalue := value_chars hl x (d + 1) fuel (hms (k, x) List.mem_cons_self) hx.1
      (stops_memberChars hl d [] rest) (by omega)
    simp only [entryChars, memberChars, List.append_assoc, List.cons_append] at hvalue ⊢
    rcases Nat.lt_or_ge p.depth x.depth with hlt | hge
    · rw [admit_of_lt (show (p.member ignored k).depth < x.depth from hlt)] at hvalue
      rw [members_fail hp hl.gap hvalue, admit_of_lt (by simp only [memberDepth]; omega)]
    · rw [admit_of_le (show x.depth ≤ (p.member ignored k).depth from hge)] at hvalue
      rw [List.nil_append] at hvalue ⊢
      rw [members_last hp hl.gap (hl.lead d) hvalue, admit_of_le (by simp only [memberDepth]; omega)]
      rfl
  | (k, x) :: m :: ms, d, fuel, p, rest, _, hp, hms, hx, hfuel => by
    obtain ⟨k', y⟩ := m
    simp only [entryChars, memberChars, List.length_append, List.length_cons] at hfuel
    obtain ⟨fuel, rfl⟩ : ∃ f, fuel = f + 1 := ⟨fuel - 1, by omega⟩
    have hvalue := value_chars hl x (d + 1) fuel (hms (k, x) List.mem_cons_self) hx.1
      (stops_memberChars hl d ((k', y) :: ms) rest) (by omega)
    have hmore : members ignored (fuel + 1) p (entryChars l d ((k', y) :: ms) ++ rest) = _ :=
      members_chars hl ((k', y) :: ms) d fuel (by simp) hp
        (fun m hm => hms m (List.mem_cons_of_mem _ hm)) hx.2
        (by simp only [entryChars, List.length_append, List.length_cons]; omega)
    simp only [entryChars, memberChars, List.append_assoc, List.cons_append] at hvalue hmore ⊢
    rcases Nat.lt_or_ge p.depth x.depth with hlt | hge
    · rw [admit_of_lt (show (p.member ignored k).depth < x.depth from hlt)] at hvalue
      rw [members_fail hp hl.gap hvalue, admit_of_lt (by rw [memberDepth]; omega)]
    · rw [admit_of_le (show x.depth ≤ (p.member ignored k).depth from hge)] at hvalue
      rw [members_more hp hl.gap hvalue, members_blank (hl.lead _), hmore]
      rcases Nat.lt_or_ge p.depth (memberDepth ((k', y) :: ms)) with hlt' | hge'
      · rw [admit_of_lt hlt', admit_of_lt (by rw [memberDepth]; omega)]
        rfl
      · rw [admit_of_le hge', admit_of_le (by rw [memberDepth]; omega)]
        rfl

end

/-- An object that has been written is read back unless it opens too many brackets. -/
theorem parse_pretty {ignored : List String → Bool} {m : String × Json} {ms : List (String × Json)}
    (hcounts : ∀ m' ∈ m :: ms, ∀ keys, ignored (keys ++ [m'.1]) = false)
    (hj : (object (m :: ms)).Readable) : parse ignored (object (m :: ms)).pretty =
      if (object (m :: ms)).depth ≤ maxDepth then .ok (object (m :: ms)).written
      else .error .malformed := by
  obtain ⟨k, x⟩ := m
  have hvalue : value ignored (2 * ((object ((k, x) :: ms)).chars .indented 0).length + 2)
      ⟨true, [], maxDepth⟩ ((object ((k, x) :: ms)).chars .indented 0 ++ []) = _ :=
    value_entries blank_indented rfl fun depth => by
      refine members_chars blank_indented ((k, x) :: ms) 0 _ (by simp) rfl (fun m hm => ⟨?_, ?_⟩) hj ?_
      · have hkey := hcounts m hm []
        rw [List.nil_append] at hkey
        simp [Place.member, hkey]
      · exact fun keys _ => hcounts m hm keys
      · simp only [entryChars, chars, List.length_append, List.length_cons]
        omega
  rw [List.append_nil] at hvalue
  simp only [parse, pretty, String.toList_ofList, fuelFor, hvalue]
  rcases Nat.lt_or_ge maxDepth (object ((k, x) :: ms)).depth with hlt | hge
  · rw [admit_of_lt hlt, if_neg (Nat.not_le.mpr hlt)]
    rfl
  · rw [admit_of_le hge, if_pos hge]
    rfl

end TreeLang.Json
