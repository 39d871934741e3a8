import TreeLang.Proofs.Agreement.Names
import TreeLang.Proofs.Lowering.Total

namespace TreeLang

/-- A name that is bound around the function at hand only has been read or written. -/
def Diagnostic.Unstored (d : Diagnostic) : Prop := ∃ name, d.cause = .unboundStorage name

def Cause.Unstored : Cause → Prop
  | .unboundStorage _ => True
  | .located d => d.Unstored
  | _ => False

/-- A name without a slot stays the cause when it is pinned to a place. -/
theorem Diagnostic.unstored_pin {cause : Cause} (h : cause.Unstored) (function node : String) :
    (Diagnostic.pin function node cause).Unstored := by
  unfold Cause.Unstored at h
  split at h
  · exact ⟨_, rfl⟩
  · exact h
  · cases h

namespace Lowering

open TreeLang.Tree (Ty Expr Stmt FunctionDecl)
open Typing (Registry Callee Scopes coercible)
open Ir (Knowledge)
open Lower

variable {r : Registry} {ds ds' : List FunctionDecl} {g g' : Knowledge} {c c' : Context}
  {pending : List Nat} {e : Cause} {s : Scopes}

/-- An expression that has to have a value fails by itself, or comes to its end without one. -/
theorem fails_needed {role : String} {expr : Expr} {m : Lower Cause (Option Typed)}
    (h : Fails (needed role expr m) c e c') : Fails m c e c' ∨ Gives m c none c' := by
  unfold needed at h
  rcases fails_bind.mp h with h | ⟨v, d, hm, h⟩
  · exact .inl h
  · cases v with
    | none =>
      obtain ⟨_, rfl⟩ := fails_throw.mp h
      exact .inr hm
    | some t => exact absurd h fails_pure

/-- A name in force fails for want of a slot only. -/
theorem fails_storage (hc : c.frames ≠ []) (ha : Agrees s c) {name : String} {ty : Ty}
    (hname : s.lookup name = some ty) (h : Fails (storage name) c e c') : e.Unstored := by
  unfold storage at h
  rcases fails_bind.mp h with hno | ⟨f, d, hf, hslot⟩
  · exact ((succeeds_frame hc).not_fails hno).elim
  · obtain ⟨_, rfl⟩ := gives_frame.mp hf
    split at hslot
    · exact absurd hslot fails_pure
    · rcases fails_bind.mp hslot with hno | ⟨d', _, hget, hthrow⟩
      · exact absurd hno fails_get
      · obtain ⟨rfl, rfl⟩ := gives_get.mp hget
        rw [ha.lookup, hname] at hthrow
        obtain ⟨rfl, _⟩ := fails_throw.mp hthrow
        trivial

/-- A name that the check knows can fail for want of a slot alone. -/
theorem fails_readName (hs : Sound r g c) (ha : Agrees s c) {name : String} {ty : Ty}
    (hname : s.lookup name = some ty) (h : Fails (readName name) c e c') : e.Unstored := by
  unfold readName at h
  rcases fails_bind.mp h with hslot | ⟨st, d, hst, hload⟩
  · exact fails_storage hs.frames ha hname hslot
  · obtain ⟨_, rfl⟩ := gives_storage.mp hst
    rcases fails_bind.mp hload with hno | ⟨x, d, _, hno⟩
    · exact ((succeeds_define hs (.load · st.slot st.ty.toIr)).not_fails hno).elim
    · exact absurd hno fails_pure

theorem Working.succeeds_switchTo (h : Working r ds g c g' c' pending) {id : Nat}
    (hid : id ∈ pending) : Succeeds (Lower.switchTo id) c' := by
  obtain ⟨_, k, hk, _⟩ := h.laid.waiting id hid
  exact Lowering.succeeds_switchTo h.frames ⟨k, Ir.Function.mem_of_block? hk, Ir.Function.block?_id hk⟩

/-- A part of a conditional or a loop that has been lowered before another one. -/
structure Preceded {α : Type} (r : Registry) (ds : List FunctionDecl) (m : Lower Cause α)
    (c c' : Context) (g' : Knowledge) : Prop where
  part : ∃ g₁ c₁ a c₂, Rebuilt c c₁ ∧ Sound r g₁ c₁ ∧ Gives m c₁ a c₂ ∧
    Lowered r ds g₁ c₁ g' c₂ ∧ Rebuilt c₂ c'
  sound : Sound r g' c'

/-- The blocks of a conditional are laid out without failure, so one of its parts has failed, the second
one behind the first. -/
theorem fails_conditional (hs : Sound r g c) {condition : Ir.Operand}
    {thenPart elsePart : Lower Cause Unit} (hcond : Holds r g c condition .bool)
    (hthen : ∀ g c c', Sound r g c → Gives thenPart c () c' → ∃ g', Lowered r ds g c g' c')
    (helse : ∀ g c c', Sound r g c → Gives elsePart c () c' → ∃ g', Lowered r ds' g c g' c')
    (h : Fails (conditional condition thenPart elsePart) c e c') :
    (∃ g₁ c₁, Rebuilt c c₁ ∧ Sound r g₁ c₁ ∧ ∃ d, Fails thenPart c₁ e d) ∨
      ∃ g₂ c₂, Preceded r ds thenPart c c₂ g₂ ∧ ∃ d, Fails elsePart c₂ e d := by
  unfold conditional at h
  rcases fails_bind.mp h with h | ⟨thenId, c₁, h₁, h⟩
  · exact ((succeeds_createBlock hs.frames _).not_fails h).elim
  obtain ⟨g₁, w₁, _, _, open₁, _⟩ := (Working.refl hs).createBlock h₁
  rcases fails_bind.mp h with h | ⟨elseId, c₂, h₂, h⟩
  · exact ((succeeds_createBlock w₁.frames _).not_fails h).elim
  obtain ⟨g₂, w₂, _, _, open₂, _⟩ := w₁.createBlock h₂
  rcases fails_bind.mp h with h | ⟨mergeId, c₃, h₃, h⟩
  · exact ((succeeds_createBlock w₂.frames _).not_fails h).elim
  obtain ⟨g₃, w₃, _, _, open₃, _⟩ := w₂.createBlock h₃
  rcases fails_bind.mp h with h | ⟨_, c₄, h₄, h⟩
  · exact ((succeeds_terminate w₃.frames (open₃ (open₂ (open₁ hs.isOpen)))
      (.branch condition thenId elseId)).not_fails h).elim
  obtain ⟨g₄, w₄, _⟩ := sound_branch hs hcond h₁ h₂ h₃ h₄
  rcases fails_bind.mp h with h | ⟨_, c₅, h₅, h⟩
  · exact ((w₄.succeeds_switchTo (by simp)).not_fails h).elim
  obtain ⟨g₅, w₅, open₅, hne⟩ := sound_thenPart hs hcond h₁ h₂ h₃ h₄ h₅
  have hr₅ : Rebuilt c c₅ :=
    ((((tame_createBlock _ _ _ _ h₁).trans (tame_createBlock _ _ _ _ h₂)).trans
      (tame_createBlock _ _ _ _ h₃)).trans (tame_terminate _ _ _ _ h₄)).trans (tame_switchTo _ _ _ _ h₅)
  -- the first part is the first step that may fail
  rcases fails_bind.mp h with h | ⟨_, c₆, h₆, h⟩
  · exact .inl ⟨g₅, c₅, hr₅, w₅.sound hs open₅, c', h⟩
  obtain ⟨g₆, l₆⟩ := hthen g₅ c₅ c₆ (w₅.sound hs open₅) h₆
  have w₆ := w₅.trans l₆.toWorking
  rcases fails_bind.mp h with h | ⟨_, c₇, h₇, h⟩
  · exact ((succeeds_fallThrough l₆.frames l₆.isOpen mergeId).not_fails h).elim
  obtain ⟨w₇, _⟩ := w₆.fallThrough l₆.isOpen (w₆.target (by simp)) h₇
  rcases fails_bind.mp h with h | ⟨_, c₈, h₈, h⟩
  · exact ((w₇.succeeds_switchTo (by simp)).not_fails h).elim
  obtain ⟨w₈, open₈⟩ := sound_elsePart w₆ l₆.isOpen hne h₇ h₈
  have hr₈ : Rebuilt c₆ c₈ := (tame_fallThrough _ _ _ _ h₇).trans (tame_switchTo _ _ _ _ h₈)
  have hpre : Preceded r ds thenPart c c₈ g₆ :=
    ⟨⟨g₅, c₅, (), c₆, hr₅, w₅.sound hs open₅, h₆, l₆, hr₈⟩, w₈.sound hs open₈⟩
  rcases fails_bind.mp h with h | ⟨_, c₉, h₉, h⟩
  · exact .inr ⟨g₆, c₈, hpre, c', h⟩
  -- and what follows the second part does not fail
  obtain ⟨g₉, l₉⟩ := helse g₆ c₈ c₉ (w₈.sound hs open₈) h₉
  have w₉ := w₈.trans l₉.toWorking
  rcases fails_bind.mp h with h | ⟨_, c₁₀, h₁₀, h⟩
  · exact ((succeeds_fallThrough l₉.frames l₉.isOpen mergeId).not_fails h).elim
  obtain ⟨w₁₀, _⟩ := w₉.fallThrough l₉.isOpen (w₉.target (by simp)) h₁₀
  exact ((w₁₀.succeeds_switchTo (by simp)).not_fails h).elim

/-- In a loop it is the condition, or the body behind it. -/
theorem fails_repeated (hs : Sound r g c) {condition : Lower Cause Ir.Operand}
    {body : Lower Cause Unit}
    (hcond : ∀ g c o c', Sound r g c → Gives condition c o c' →
      ∃ g', Lowered r ds g c g' c' ∧ Holds r g' c' o .bool)
    (hbody : ∀ g c c', Sound r g c → Gives body c () c' → ∃ g', Lowered r ds' g c g' c')
    (h : Fails (repeated condition body) c e c') :
    (∃ g₁ c₁, Rebuilt c c₁ ∧ Sound r g₁ c₁ ∧ ∃ d, Fails condition c₁ e d) ∨
      ∃ g₂ c₂, Preceded r ds condition c c₂ g₂ ∧ ∃ d, Fails body c₂ e d := by
  unfold repeated at h
  rcases fails_bind.mp h with h | ⟨condId, c₁, h₁, h⟩
  · exact ((succeeds_createBlock hs.frames _).not_fails h).elim
  obtain ⟨g₁, w₁, _, _, open₁, _⟩ := (Working.refl hs).createBlock h₁
  rcases fails_bind.mp h with h | ⟨bodyId, c₂, h₂, h⟩
  · exact ((succeeds_createBlock w₁.frames _).not_fails h).elim
  obtain ⟨g₂, w₂, _, _, open₂, _⟩ := w₁.createBlock h₂
  rcases fails_bind.mp h with h | ⟨exitId, c₃, h₃, h⟩
  · exact ((succeeds_createBlock w₂.frames _).not_fails h).elim
  obtain ⟨g₃, w₃, _, _, open₃, _⟩ := w₂.createBlock h₃
  rcases fails_bind.mp h with h | ⟨_, c₄, h₄, h⟩
  · exact ((succeeds_terminate w₃.frames (open₃ (open₂ (open₁ hs.isOpen)))
      (.jump condId)).not_fails h).elim
  obtain ⟨g₄, w₄, _⟩ := sound_jump hs h₁ h₂ h₃ h₄
  rcases fails_bind.mp h with h | ⟨_, c₅, h₅, h⟩
  · exact ((w₄.succeeds_switchTo (by simp)).not_fails h).elim
  obtain ⟨g₅, w₅, open₅, hne, t₅⟩ := sound_round hs h₁ h₂ h₃ h₄ h₅
  have hr₅ : Rebuilt c c₅ :=
    ((((tame_createBlock _ _ _ _ h₁).trans (tame_createBlock _ _ _ _ h₂)).trans
      (tame_createBlock _ _ _ _ h₃)).trans (tame_terminate _ _ _ _ h₄)).trans (tame_switchTo _ _ _ _ h₅)
  rcases fails_bind.mp h with h | ⟨o, c₆, h₆, h⟩
  · exact .inl ⟨g₅, c₅, hr₅, w₅.sound hs open₅, c', h⟩
  obtain ⟨g₆, l₆, ho⟩ := hcond g₅ c₅ o c₆ (w₅.sound hs open₅) h₆
  have w₆ := w₅.trans l₆.toWorking
  rcases fails_bind.mp h with h | ⟨_, c₇, h₇, h⟩
  · exact ((succeeds_terminate l₆.frames l₆.isOpen (.branch o bodyId exitId)).not_fails h).elim
  obtain ⟨w₇, _⟩ := sound_choice w₆ ho h₇
  rcases fails_bind.mp h with h | ⟨_, c₈, h₈, h⟩
  · exact ((w₇.succeeds_switchTo (by simp)).not_fails h).elim
  obtain ⟨w₈, open₈, t₈⟩ := sound_body w₆ hne ho h₇ h₈
  have hr₈ : Rebuilt c₆ c₈ := (tame_terminate _ _ _ _ h₇).trans (tame_switchTo _ _ _ _ h₈)
  have hpre : Preceded r ds condition c c₈ g₆ :=
    ⟨⟨g₅, c₅, o, c₆, hr₅, w₅.sound hs open₅, h₆, l₆, hr₈⟩, w₈.sound hs open₈⟩
  rcases fails_bind.mp h with h | ⟨_, c₉, h₉, h⟩
  · exact .inr ⟨g₆, c₈, hpre, c', h⟩
  obtain ⟨g₉, l₉⟩ := hbody g₆ c₈ c₉ (w₈.sound hs open₈) h₉
  have t₉ := l₉.target_trans (t₈ condId (l₆.target_trans t₅))
  rcases fails_bind.mp h with h | ⟨_, c₁₀, h₁₀, h⟩
  · exact ((succeeds_fallThrough l₉.frames l₉.isOpen condId).not_fails h).elim
  obtain ⟨w₁₀, _⟩ := (w₈.trans l₉.toWorking).fallThrough l₉.isOpen t₉ h₁₀
  exact ((w₁₀.succeeds_switchTo (by simp)).not_fails h).elim

end Lowering

end TreeLang
