
namespace TreeLang

variable {ε ε' σ α β : Type}

theorem bind_eq_ok {r : Except ε α} {f : α → Except ε β} {b : β} :
    (r >>= f) = .ok b ↔ ∃ a, r = .ok a ∧ f a = .ok b := by
  cases r <;> simp [bind, Except.bind]

theorem map_eq_ok {r : Except ε α} {f : α → β} {b : β} :
    r.map f = .ok b ↔ ∃ a, r = .ok a ∧ f a = b := by
  cases r <;> simp [Except.map]

def outcome (m : ExceptT ε (StateM σ) α) (s : σ) : Except ε α × σ := m.run.run s

def Gives (m : ExceptT ε (StateM σ) α) (s : σ) (a : α) (t : σ) : Prop :=
  outcome m s = (.ok a, t)

def Fails (m : ExceptT ε (StateM σ) α) (s : σ) (e : ε) (t : σ) : Prop :=
  outcome m s = (.error e, t)

/-- A computation ends in one way. -/
theorem gives_or_fails (m : ExceptT ε (StateM σ) α) (s : σ) :
    (∃ a t, Gives m s a t) ∨ ∃ e t, Fails m s e t := by
  unfold Gives Fails
  rcases outcome m s with ⟨e | a, t⟩
  · exact .inr ⟨e, t, rfl⟩
  · exact .inl ⟨a, t, rfl⟩

theorem gives_of_some {m : ExceptT ε (StateM σ) α} {s : σ} {a : α}
    (h : (outcome m s).1.toOption = some a) : Gives m s a (outcome m s).2 := by
  unfold Gives
  rcases ho : outcome m s with ⟨e | b, t⟩
  · rw [ho] at h
    cases h
  · rw [ho] at h
    cases h
    rfl

theorem gives_unique {m : ExceptT ε (StateM σ) α} {s t t' : σ} {a a' : α}
    (h : Gives m s a t) (h' : Gives m s a' t') : a = a' ∧ t = t' := by
  have he := h.symm.trans h'
  simpa using he

theorem gives_not_fails {m : ExceptT ε (StateM σ) α} {s t t' : σ} {a : α} {e : ε}
    (h : Gives m s a t) (h' : Fails m s e t') : False := by
  have he := h.symm.trans h'
  simp at he

/-- A failure leaves out what would come next. -/
theorem outcome_bind (m : ExceptT ε (StateM σ) α) (f : α → ExceptT ε (StateM σ) β) (s : σ) :
    outcome (m >>= f) s =
      match outcome m s with
      | (.ok a, t) => outcome (f a) t
      | (.error e, t) => (.error e, t) := by
  change (match m.run.run s with | (x, t) => ExceptT.bindCont f x t) = _
  unfold outcome
  rcases m.run.run s with ⟨_ | _, _⟩ <;> rfl

theorem outcome_get (f : σ → ExceptT ε (StateM σ) α) (s : σ) :
    outcome (do f (← get)) s = outcome (f s) s := rfl

/-- What is done with the result of a computation, whichever it is. -/
theorem run_outcome (m : ExceptT ε (StateM σ) α) (f : Except ε α → StateM σ β) (s : σ) :
    (do f (← m.run)).run s = (f (outcome m s).1).run (outcome m s).2 := rfl

theorem outcome_adapt (m : ExceptT ε (StateM σ) α) (f : ε → ε') (s : σ) :
    outcome (m.adapt f) s = ((outcome m s).1.mapError f, (outcome m s).2) := rfl

theorem outcome_tryCatch (m : ExceptT ε (StateM σ) α) (f : ε → ExceptT ε (StateM σ) α) (s : σ) :
    outcome (tryCatch m f) s =
      match outcome m s with
      | (.ok a, t) => (.ok a, t)
      | (.error e, t) => outcome (f e) t := by
  change (match m.run.run s with
    | (x, t) => (match x with
      | Except.ok a => pure (Except.ok a)
      | Except.error e => f e : StateM σ (Except ε α)) t) = _
  unfold outcome
  rcases m.run.run s with ⟨_ | _, _⟩ <;> rfl

@[simp] theorem exists_unit {p : Unit → Prop} : (∃ u, p u) ↔ p () :=
  ⟨fun ⟨_, h⟩ => h, fun h => ⟨(), h⟩⟩

@[simp] theorem gives_pure {a b : α} {s t : σ} :
    Gives (pure b : ExceptT ε (StateM σ) α) s a t ↔ a = b ∧ t = s := by
  change (Except.ok b, s) = (Except.ok a, t) ↔ _
  simp [eq_comm]

/-- What two computations did one after the other. No later proof opens a monad: it takes a computation
apart by this and by the equivalences for the single steps. -/
@[simp] theorem gives_bind {m : ExceptT ε (StateM σ) α} {f : α → ExceptT ε (StateM σ) β} {s u : σ}
    {b : β} : Gives (m >>= f) s b u ↔ ∃ a t, Gives m s a t ∧ Gives (f a) t b u := by
  unfold Gives
  rw [outcome_bind]
  rcases outcome m s with ⟨e | a, t⟩
  · simp
  · exact ⟨fun h => ⟨a, t, rfl, h⟩, by rintro ⟨_, _, ⟨rfl⟩, h⟩; exact h⟩

@[simp] theorem gives_map {m : ExceptT ε (StateM σ) α} {f : α → β} {s u : σ} {b : β} :
    Gives (f <$> m) s b u ↔ ∃ a, Gives m s a u ∧ b = f a := by
  rw [map_eq_pure_bind, gives_bind]
  constructor
  · rintro ⟨a, t, hm, hp⟩
    obtain ⟨rfl, rfl⟩ := gives_pure.mp hp
    exact ⟨a, hm, rfl⟩
  · rintro ⟨a, hm, rfl⟩
    exact ⟨a, u, hm, gives_pure.mpr ⟨rfl, rfl⟩⟩

@[simp] theorem gives_discard {m : ExceptT ε (StateM σ) α} {s t : σ} {u : PUnit} :
    Gives (discard m) s u t ↔ ∃ a, Gives m s a t := by
  change Gives ((fun _ => PUnit.unit) <$> m) s u t ↔ _
  simp

@[simp] theorem gives_throw {e : ε} {s t : σ} {a : α} :
    ¬ Gives (throw e : ExceptT ε (StateM σ) α) s a t := by
  intro h
  change (Except.error e, s) = (Except.ok a, t) at h
  cases h

@[simp] theorem gives_get {s t u : σ} :
    Gives (get : ExceptT ε (StateM σ) σ) s t u ↔ t = s ∧ u = s := by
  change (Except.ok s, s) = (Except.ok t, u) ↔ _
  simp [eq_comm]

@[simp] theorem gives_set {s t u : σ} {a : PUnit} :
    Gives (set t : ExceptT ε (StateM σ) PUnit) s a u ↔ u = t := by
  change (Except.ok .unit, t) = (Except.ok a, u) ↔ _
  simp [eq_comm]

@[simp] theorem gives_modify {f : σ → σ} {s u : σ} {a : PUnit} :
    Gives (modify f : ExceptT ε (StateM σ) PUnit) s a u ↔ u = f s := by
  change (Except.ok .unit, f s) = (Except.ok a, u) ↔ _
  simp [eq_comm]

@[simp] theorem gives_liftExcept {x : Except ε α} {s u : σ} {a : α} :
    Gives (liftExcept x : ExceptT ε (StateM σ) α) s a u ↔ x = .ok a ∧ u = s := by
  cases x with
  | ok b =>
    change (Except.ok b, s) = (Except.ok a, u) ↔ _
    simp [eq_comm]
  | error e =>
    change (Except.error e, s) = (Except.ok a, u) ↔ _
    simp

@[simp] theorem gives_lift {m : StateM σ α} {s u : σ} {a : α} :
    Gives (liftM m : ExceptT ε (StateM σ) α) s a u ↔ m.run s = (a, u) := by
  change (match m.run s with | (a, t) => (Except.ok a, t)) = (Except.ok a, u) ↔ _
  rcases m.run s with ⟨b, t⟩
  exact ⟨fun h => by cases h; rfl, fun h => by cases h; rfl⟩

/-- Changing the failures does not change a result. -/
@[simp] theorem gives_adapt {m : ExceptT ε (StateM σ) α} {f : ε → ε'} {s u : σ} {a : α} :
    Gives (m.adapt f) s a u ↔ Gives m s a u := by
  unfold Gives
  rw [outcome_adapt]
  rcases outcome m s with ⟨_ | _, _⟩
  · constructor <;> intro h <;> cases h
  · constructor <;> intro h <;> cases h <;> rfl

/-- A handler that fails again gives nothing of its own. -/
theorem gives_tryCatch {m : ExceptT ε (StateM σ) α} {f : ε → ExceptT ε (StateM σ) α} {s u : σ}
    {a : α} (hf : ∀ e t, ¬ Gives (f e) t a u) : Gives (tryCatch m f) s a u ↔ Gives m s a u := by
  unfold Gives
  rw [outcome_tryCatch]
  rcases outcome m s with ⟨e | _, t⟩
  · exact ⟨fun h => absurd h (hf e t), fun h => by cases h⟩
  · simp

@[simp] theorem fails_pure {b : α} {s t : σ} {e : ε} :
    ¬ Fails (pure b : ExceptT ε (StateM σ) α) s e t := by
  intro h
  change (Except.ok b, s) = (Except.error e, t) at h
  cases h

/-- The first computation failed, or the second one did where the first one left off. -/
@[simp] theorem fails_bind {m : ExceptT ε (StateM σ) α} {f : α → ExceptT ε (StateM σ) β} {s u : σ}
    {e : ε} : Fails (m >>= f) s e u ↔ Fails m s e u ∨ ∃ a t, Gives m s a t ∧ Fails (f a) t e u := by
  unfold Gives Fails
  rw [outcome_bind]
  rcases outcome m s with ⟨e' | a, t⟩
  · simp
  · constructor
    · exact fun h => .inr ⟨a, t, rfl, h⟩
    · rintro (h | ⟨_, _, ⟨rfl⟩, h⟩)
      · cases h
      · exact h

@[simp] theorem fails_map {m : ExceptT ε (StateM σ) α} {f : α → β} {s u : σ} {e : ε} :
    Fails (f <$> m) s e u ↔ Fails m s e u := by
  rw [map_eq_pure_bind, fails_bind]
  simp

@[simp] theorem fails_discard {m : ExceptT ε (StateM σ) α} {s t : σ} {e : ε} :
    Fails (discard m) s e t ↔ Fails m s e t := by
  change Fails ((fun _ => PUnit.unit) <$> m) s e t ↔ _
  simp

@[simp] theorem fails_throw {e e' : ε} {s t : σ} :
    Fails (throw e : ExceptT ε (StateM σ) α) s e' t ↔ e' = e ∧ t = s := by
  change (Except.error e, s) = (Except.error e', t) ↔ _
  simp [eq_comm]

@[simp] theorem fails_get {s t : σ} {e : ε} : ¬ Fails (get : ExceptT ε (StateM σ) σ) s e t := by
  intro h
  change (Except.ok s, s) = (Except.error e, t) at h
  cases h

@[simp] theorem fails_set {s t u : σ} {e : ε} :
    ¬ Fails (set t : ExceptT ε (StateM σ) PUnit) s e u := by
  intro h
  change (Except.ok PUnit.unit, t) = (Except.error e, u) at h
  cases h

@[simp] theorem fails_modify {f : σ → σ} {s u : σ} {e : ε} :
    ¬ Fails (modify f : ExceptT ε (StateM σ) PUnit) s e u := by
  intro h
  change (Except.ok PUnit.unit, f s) = (Except.error e, u) at h
  cases h

@[simp] theorem fails_liftExcept {x : Except ε α} {s u : σ} {e : ε} :
    Fails (liftExcept x : ExceptT ε (StateM σ) α) s e u ↔ x = .error e ∧ u = s := by
  cases x with
  | ok b =>
    change (Except.ok b, s) = (Except.error e, u) ↔ _
    simp
  | error e' =>
    change (Except.error e', s) = (Except.error e, u) ↔ _
    simp [eq_comm]

@[simp] theorem fails_lift {m : StateM σ α} {s u : σ} {e : ε} :
    ¬ Fails (liftM m : ExceptT ε (StateM σ) α) s e u := by
  intro h
  change (match m.run s with | (a, t) => (Except.ok a, t)) = (Except.error e, u) at h
  cases h

@[simp] theorem fails_adapt {m : ExceptT ε (StateM σ) α} {f : ε → ε'} {s u : σ} {e : ε'} :
    Fails (m.adapt f) s e u ↔ ∃ d, Fails m s d u ∧ e = f d := by
  unfold Fails
  rw [outcome_adapt]
  rcases outcome m s with ⟨d | _, t⟩
  · exact ⟨fun h => by cases h; exact ⟨d, rfl, rfl⟩, by rintro ⟨_, ⟨rfl⟩, rfl⟩; rfl⟩
  · constructor
    · intro h
      cases h
    · rintro ⟨_, h, _⟩
      cases h

/-- A handler that cleans up and fails again passes the failure on. -/
theorem fails_tryCatch {m : ExceptT ε (StateM σ) α} {f : ε → ExceptT ε (StateM σ) α} {s u : σ}
    {e : ε} : Fails (tryCatch m f) s e u ↔ ∃ d t, Fails m s d t ∧ Fails (f d) t e u := by
  unfold Fails
  rw [outcome_tryCatch]
  rcases outcome m s with ⟨d | _, t⟩
  · exact ⟨fun h => ⟨d, t, rfl, h⟩, by rintro ⟨_, _, ⟨rfl⟩, h⟩; exact h⟩
  · simp

end TreeLang
