import TreeLang.Proofs.Json.Reading
import TreeLang.Proofs.Outcome

namespace TreeLang.Json

variable {ignored : List String → Bool}

abbrev InRange : Json → Prop := Numbers fun n => n.double.isFinite = true

structure Admitted (depth : Nat) (j : Json) : Prop where
  inRange : j.InRange
  shallow : j.depth ≤ depth

theorem admitted_array {d : Nat} {xs : List Json} :
    (array xs).Admitted (d + 1) ↔ ∀ x ∈ xs, x.Admitted d := by
  constructor
  · rintro ⟨hrange, hdepth⟩ x hx
    induction xs with
    | nil => cases hx
    | cons y ys ih =>
      simp only [depth, elementDepth] at hdepth ih
      rcases List.mem_cons.mp hx with rfl | hx
      · exact ⟨hrange.1, by omega⟩
      · exact ih hrange.2 (by omega) hx
  · intro h
    induction xs with
    | nil => exact ⟨trivial, Nat.le_add_left 1 d⟩
    | cons y ys ih =>
      obtain ⟨hrange, hdepth⟩ := ih fun x hx => h x (List.mem_cons_of_mem y hx)
      obtain ⟨hy, hyd⟩ := h y List.mem_cons_self
      refine ⟨⟨hy, hrange⟩, ?_⟩
      simp only [depth, elementDepth] at hdepth ⊢
      omega

/-- An object opens one bracket, so its members stand where one bracket less is left. -/
theorem admitted_object {d : Nat} {ms : List (String × Json)} :
    (object ms).Admitted (d + 1) ↔ ∀ m ∈ ms, m.2.Admitted d := by
  constructor
  · rintro ⟨hrange, hdepth⟩ m hm
    induction ms with
    | nil => cases hm
    | cons n ns ih =>
      simp only [depth, memberDepth] at hdepth ih
      rcases List.mem_cons.mp hm with rfl | hm
      · exact ⟨hrange.1, by omega⟩
      · exact ih hrange.2 (by omega) hm
  · intro h
    induction ms with
    | nil => exact ⟨trivial, Nat.le_add_left 1 d⟩
    | cons n ns ih =>
      obtain ⟨hrange, hdepth⟩ := ih fun m hm => h m (List.mem_cons_of_mem n hm)
      obtain ⟨hn, hnd⟩ := h n List.mem_cons_self
      refine ⟨⟨hn, hrange⟩, ?_⟩
      simp only [depth, memberDepth] at hdepth ⊢
      omega

theorem Admitted.depth_pos {d : Nat} {j : Json} (h : j.Admitted d) (hj : 0 < j.depth) :
    ∃ d', d = d' + 1 := ⟨d - 1, by have := h.shallow; omega⟩

/-- A number that is read where values count never overflows: the reader refuses one beyond binary64. -/
theorem isFinite_numeral {negative : Bool} {cs rest : List Char} {n : Numeral}
    (h : numeral true negative cs = .ok (n, rest)) : n.double.isFinite = true := by
  unfold numeral at h
  obtain ⟨_, _, h⟩ := bind_eq_ok.mp h
  obtain ⟨_, _, h⟩ := bind_eq_ok.mp h
  obtain ⟨_, _, h⟩ := bind_eq_ok.mp h
  dsimp only at h
  split at h
  · cases h
  · rename_i hfinite
    cases h
    simpa using hfinite

theorem Place.enter?_eq_some {p p' : Place} (hp : p.strict = true) (h : p.enter? = some p') :
    p' = { p with depth := p'.depth } ∧ p.depth = p'.depth + 1 := by
  rw [Place.enter?, hp] at h
  simp only [Bool.not_true, Bool.false_eq_true, if_false] at h
  split at h
  · cases h
  · cases h
    exact ⟨by rw [← hp], by dsimp only; omega⟩

variable (ignored) in
/-- What some fuel reads is admitted wherever it counts. -/
structure Strict (fuel : Nat) : Prop where
  value : ∀ {p : Place} {cs rest : List Char} {j : Json}, p.Counts ignored →
    value ignored fuel p cs = .ok (j, rest) → j.Admitted p.depth
  elements : ∀ {p : Place} {cs rest : List Char} {xs : List Json}, p.Counts ignored →
    elements ignored fuel p cs = .ok (xs, rest) → ∀ x ∈ xs, x.Admitted p.depth
  members : ∀ {p : Place} {cs rest : List Char} {ms : List (String × Json)},
    members ignored fuel p cs = .ok (ms, rest) →
    ∀ m ∈ ms, (p.member ignored m.1).Counts ignored → m.2.Admitted p.depth

variable {fuel : Nat} {p : Place} {cs rest : List Char}

/-- How the reader comes to a value with more fuel. What stands between brackets is read one bracket
deeper, with the fuel that is left. -/
inductive Reads (ignored : List String → Bool) (fuel : Nat) (p : Place) (rest : List Char) : Json → Prop
  | null : Reads ignored fuel p rest .null
  | bool (b : Bool) : Reads ignored fuel p rest (.bool b)
  | string (s : String) : Reads ignored fuel p rest (.string s)
  | number {negative : Bool} {cs : List Char} {n : Numeral}
    (h : numeral p.strict negative cs = .ok (n, rest)) : Reads ignored fuel p rest (.number n)
  | array {p' : Place} {xs : List Json} (henter : p.enter? = some p')
    (h : xs = [] ∨ ∃ cs, elements ignored fuel p'.element cs = .ok (xs, rest)) :
    Reads ignored fuel p rest (.array xs)
  | object {p' : Place} {ms : List (String × Json)} (henter : p.enter? = some p')
    (h : ms = [] ∨ ∃ cs, members ignored fuel p' cs = .ok (ms, rest)) :
    Reads ignored fuel p rest (.object ms)

/-- The first character decides what is read. -/
theorem value_reads {j : Json} (hread : value ignored (fuel + 1) p cs = .ok (j, rest)) :
    Reads ignored fuel p rest j := by
  rw [value] at hread
  split at hread
  · cases hread
  · obtain ⟨_, _, ⟨⟩⟩ := map_eq_ok.mp hread
    exact .null
  · obtain ⟨_, _, ⟨⟩⟩ := map_eq_ok.mp hread
    exact .bool true
  · obtain ⟨_, _, ⟨⟩⟩ := map_eq_ok.mp hread
    exact .bool false
  · obtain ⟨⟨s, _⟩, _, ⟨⟩⟩ := map_eq_ok.mp hread
    exact .string (.ofList s)
  · obtain ⟨⟨n, _⟩, hn, ⟨⟩⟩ := map_eq_ok.mp hread
    exact .number hn
  · split at hread
    · cases hread
    · rename_i henter
      split at hread
      · cases hread
        exact .array henter (.inl rfl)
      · obtain ⟨⟨xs, _⟩, hxs, ⟨⟩⟩ := map_eq_ok.mp hread
        exact .array henter (.inr ⟨_, hxs⟩)
  · split at hread
    · cases hread
    · rename_i henter
      split at hread
      · cases hread
        exact .object henter (.inl rfl)
      · obtain ⟨⟨ms, _⟩, hms, ⟨⟩⟩ := map_eq_ok.mp hread
        exact .object henter (.inr ⟨_, hms⟩)
  · split at hread
    · obtain ⟨⟨n, _⟩, hn, ⟨⟩⟩ := map_eq_ok.mp hread
      exact .number hn
    · cases hread

/-- Of an object, the members that count, wherever it stands itself. -/
theorem Strict.object (h : Strict ignored fuel) {ms : List (String × Json)} {d : Nat}
    (hp : p.strict = true) (hd : p.depth = d + 1) (hread : Reads ignored fuel p rest (.object ms)) :
    ∀ m ∈ ms, (p.member ignored m.1).Counts ignored → m.2.Admitted d := by
  cases hread with
  | @object p' _ henter hms =>
    obtain ⟨hp', hdepth⟩ := Place.enter?_eq_some hp henter
    obtain rfl | ⟨cs, hms⟩ := hms
    · simp
    · rintro m hm hcounts
      have hm := h.members hms m hm (by rw [hp']; exact hcounts.open p'.depth)
      rwa [show p'.depth = d by omega] at hm

/-- Of an array, the elements, wherever it stands itself. -/
theorem Strict.array (h : Strict ignored fuel) {xs : List Json} {d : Nat}
    (hp : p.strict = true) (hd : p.depth = d + 1) (hcounts : p.element.Counts ignored)
    (hread : Reads ignored fuel p rest (.array xs)) : ∀ x ∈ xs, x.Admitted d := by
  cases hread with
  | @array p' _ henter hxs =>
    obtain ⟨hp', hdepth⟩ := Place.enter?_eq_some hp henter
    obtain rfl | ⟨cs, hxs⟩ := hxs
    · simp
    · have hxs := h.elements (by rw [hp']; exact hcounts.open p'.depth) hxs
      rwa [show p'.element.depth = d by change p'.depth = d; omega] at hxs

/-- More fuel: each kind of value is admitted where it stands. -/
theorem Strict.value_succ (h : Strict ignored fuel) (hp : p.Counts ignored) {j : Json}
    (hread : Json.value ignored (fuel + 1) p cs = .ok (j, rest)) : j.Admitted p.depth := by
  have hreads := value_reads hread
  cases hreads with
  | null => exact ⟨trivial, Nat.zero_le _⟩
  | bool b => exact ⟨trivial, Nat.zero_le _⟩
  | string s => exact ⟨trivial, Nat.zero_le _⟩
  | number hn =>
    rw [hp.strict] at hn
    exact ⟨isFinite_numeral hn, Nat.zero_le _⟩
  | array henter hxs =>
    have hdepth := (Place.enter?_eq_some hp.strict henter).2
    rw [hdepth]
    exact admitted_array.mpr (h.array hp.strict hdepth hp.element (.array henter hxs))
  | object henter hms =>
    have hdepth := (Place.enter?_eq_some hp.strict henter).2
    rw [hdepth]
    exact admitted_object.mpr fun m hm =>
      h.object hp.strict hdepth (.object henter hms) m hm (hp.member m.1)

theorem Strict.elements_succ (h : Strict ignored fuel) (hp : p.Counts ignored) {xs : List Json}
    (hread : Json.elements ignored (fuel + 1) p cs = .ok (xs, rest)) :
    ∀ x ∈ xs, x.Admitted p.depth := by
  rw [Json.elements] at hread
  obtain ⟨⟨x, _⟩, hx, hread⟩ := bind_eq_ok.mp hread
  dsimp only at hread
  split at hread
  · cases hread
  · cases hread
    rintro y hy
    cases List.mem_singleton.mp hy
    exact h.value hp hx
  · obtain ⟨⟨xs, _⟩, hxs, ⟨⟩⟩ := bind_eq_ok.mp hread
    rintro y hy
    rcases List.mem_cons.mp hy with rfl | hy
    · exact h.value hp hx
    · exact h.elements hp hxs y hy
  · cases hread

theorem Strict.members_succ (h : Strict ignored fuel) {ms : List (String × Json)}
    (hread : Json.members ignored (fuel + 1) p cs = .ok (ms, rest)) :
    ∀ m ∈ ms, (p.member ignored m.1).Counts ignored → m.2.Admitted p.depth := by
  rw [Json.members] at hread
  split at hread
  · cases hread
  · obtain ⟨⟨key, _⟩, _, hread⟩ := bind_eq_ok.mp hread
    dsimp only at hread
    split at hread
    · cases hread
    · obtain ⟨⟨x, _⟩, hx, hread⟩ := bind_eq_ok.mp hread
      dsimp only at hread
      split at hread
      · cases hread
      · cases hread
        rintro m hm hcounts
        cases List.mem_singleton.mp hm
        exact h.value (p := p.member ignored (.ofList key)) hcounts hx
      · obtain ⟨⟨ms, _⟩, hms, ⟨⟩⟩ := bind_eq_ok.mp hread
        rintro m hm hcounts
        rcases List.mem_cons.mp hm with rfl | hm
        · exact h.value (p := p.member ignored (.ofList key)) hcounts hx
        · exact h.members hms m hm hcounts
      · cases hread
    · cases hread
  · cases hread

/-- What the reader gives back where values count is finite and opens no more brackets than the place
allows, with any fuel. -/
theorem strict (ignored : List String → Bool) (fuel : Nat) : Strict ignored fuel := by
  induction fuel with
  | zero =>
    constructor
    · intro p cs rest j _ hread
      simp [Json.value] at hread
    · intro p cs rest xs _ hread
      simp [Json.elements] at hread
    · intro p cs rest ms hread
      simp [Json.members] at hread
  | succ fuel ih =>
    exact ⟨fun hp => ih.value_succ hp, fun hp => ih.elements_succ hp, ih.members_succ⟩

theorem parse_eq_ok {text : String} {j : Json} (h : parse ignored text = .ok j) :
    ∃ rest, value ignored (fuelFor text.toList) ⟨true, [], maxDepth⟩ text.toList = .ok (j, rest) := by
  obtain ⟨⟨j', rest⟩, hread, h⟩ := bind_eq_ok.mp h
  dsimp only at h
  split at h
  · cases h
    exact ⟨rest, hread⟩
  · cases h

/-- A member that counts, of a text that is an object. The object itself need not count as a whole. -/
theorem admitted_of_parse_object {text : String} {ms : List (String × Json)}
    (h : parse ignored text = .ok (.object ms)) {m : String × Json} (hm : m ∈ ms)
    (hcounts : ∀ keys, ignored (keys ++ [m.1]) = false) : m.2.Admitted (maxDepth - 1) := by
  obtain ⟨rest, hread⟩ := parse_eq_ok h
  refine (strict ignored _).object rfl rfl (value_reads hread) m hm ⟨?_, fun keys _ => hcounts keys⟩
  have hkey := hcounts []
  rw [List.nil_append] at hkey
  simp [Place.member, hkey]

theorem admitted_of_parse_array {text : String} {xs : List Json}
    (h : parse ignored text = .ok (.array xs))
    (hcounts : ∀ keys, keys ≠ [] → ignored (keys ++ [""]) = false) :
    ∀ x ∈ xs, x.Admitted (maxDepth - 1) := by
  obtain ⟨rest, hread⟩ := parse_eq_ok h
  exact (strict ignored _).array (p := ⟨true, [], maxDepth⟩) rfl rfl ⟨rfl, hcounts⟩ (value_reads hread)

end TreeLang.Json
