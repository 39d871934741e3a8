import TreeLang.Proofs.Simulation.Cells

namespace TreeLang

namespace Simulation

open TreeLang.Tree (Ty Expr Stmt FunctionDecl)
open Typing (Registry Callee coercible)
open Ir (Knowledge)
open Machine (Activation Caller State Steps Fault)
open Lowering
open Lower
open Meaning (Value World Eval Names Stop)

variable {r : Registry} {g : Knowledge} {c c' d d' : Context} {m : Ir.Module} {F : Ir.Function}
  {cs : List Caller} {w : World} {s s' : State} {names : Names} {id : Nat} {bound : Nat}

/-- Turning to another block adds nothing, so what is still in the finished function was there before.
-/
theorem stays_of_switchTo (h : Gives (switchTo id) c () c') (hF : Stays m F c') : Stays m F c := by
  obtain ⟨f, rest, hc, _, rfl⟩ := gives_switchTo.mp h
  obtain rfl := Context.top_eq hc
  have hcode := hF.code
  rw [Context.top_withBuilder (by simp [hc])] at hcode
  exact ⟨hcode, hF.strings⟩

theorem stays_of_terminate {t : Ir.Terminator} (h : Gives (emit (·.terminate t)) c () c')
    (hF : Stays m F c') : Stays m F c := by
  obtain ⟨f, rest, j, k, hc, _, hk, hu, rfl⟩ := gives_terminate.mp h
  obtain rfl := Context.top_eq hc
  have hcode := hF.code
  rw [Context.top_withBuilder (by simp [hc])] at hcode
  exact ⟨hcode.of_finish hk hu, hF.strings⟩

theorem stays_of_createBlock {label : String} (h : Gives (createBlock label) c id c')
    (hF : Stays m F c') : Stays m F c := by
  obtain ⟨f, rest, hc, _, rfl⟩ := gives_createBlock.mp h
  obtain rfl := Context.top_eq hc
  have hcode := hF.code
  rw [Context.top_withBuilder (by simp [hc])] at hcode
  refine ⟨⟨hcode.slots, ?_, ?_⟩, hF.strings⟩
  · intro j k K hk hK
    exact hcode.begun j k K (Ir.Function.block?_extend_of_some hk label) hK
  · intro j k K hk hK hset
    exact hcode.ended j k K (Ir.Function.block?_extend_of_some hk label) hK hset

theorem fallThrough_terminates (ho : c.top.builder.IsOpen) (h : Gives (fallThrough id) c () c') :
    Gives (emit (·.terminate (.jump id))) c () c' := by
  obtain ⟨f, rest, hc, ⟨hterm, _⟩ | ⟨_, hjump⟩⟩ := gives_fallThrough.mp h
  · obtain rfl := Context.top_eq hc
    obtain ⟨j, k, hj, hk, hu⟩ := ho
    simp [Ir.Builder.isTerminated, hj, hk, Ir.Block.isTerminated, hu] at hterm
  · exact hjump

theorem point_createBlock {label : String} (h : Gives (createBlock label) c id c')
    (hp : Point F cs c.top.builder w s) : Point F cs c'.top.builder w s := by
  obtain ⟨f, rest, hc, _, rfl⟩ := gives_createBlock.mp h
  obtain rfl := Context.top_eq hc
  rw [Context.top_withBuilder (by simp [hc])]
  obtain ⟨j, k, K, hj, hk, hK⟩ := hp.stands.place
  exact ⟨⟨hp.stands.function, j, k, K, hj, Ir.Function.block?_extend_of_some hk label, hK⟩,
    hp.callers, hp.console, hp.types, hp.cells⟩

/-- The machine is at the end of the block that has been ended, and what it leads to is there. -/
theorem at_terminator (hfin : F.Finished) {t : Ir.Terminator}
    (h : Gives (emit (·.terminate t)) c () c') (hset : t ≠ .unset) (hF : Stays m F c')
    (hp : Point F cs c.top.builder w s) :
    s.current.code = [] ∧ s.current.terminator = t ∧
      ∀ target ∈ t.successors, ∃ K, F.block? target = some K := by
  obtain ⟨f, rest, j, k, hc, hj, _, _, rfl⟩ := gives_terminate.mp h
  obtain rfl := Context.top_eq hc
  have hcode := hF.code
  rw [Context.top_withBuilder (by simp [hc])] at hcode
  obtain ⟨hnil, hterm, K, hK, ht⟩ := hp.stands.finished hset hj hcode
  exact ⟨hnil, hterm, fun target htarget => hfin.targets j K hK target (ht ▸ htarget)⟩

structure Waiting (c : Context) (id : Nat) : Prop where
  ne_entry : id ≠ 0
  empty : ∃ k, c.top.builder.function.block? id = some k ∧ k.body = []

theorem waiting_of_pending {ds : List FunctionDecl} {g' : Knowledge} {pending : List Nat}
    (h : Working r ds g c g' c' pending) (hs : Sound r g c) (hid : id ∈ pending) :
    Waiting c' id := by
  obtain ⟨hle, k, hk, hempty, _⟩ := h.laid.waiting id hid
  have hpos := hs.shaped.pos
  exact ⟨by omega, k, hk, hempty⟩

/-- A jump to a block that waits leads to where the builder turns to it. -/
theorem jump_waiting (hfin : F.Finished) (hwait : Waiting d id) (h : Gives (switchTo id) d () d')
    (htarget : ∃ K, F.block? id = some K) {b : Ir.Builder} (hp : Point F cs b w s) :
    ∃ a, s.current.jump id = .ok a ∧ Point F cs d'.top.builder w { s with current := a } ∧
      ∀ n, Kept m n s { s with current := a } := by
  obtain ⟨f, rest, hc, _, rfl⟩ := gives_switchTo.mp h
  obtain rfl := Context.top_eq hc
  obtain ⟨k, hk, hempty⟩ := hwait.empty
  obtain ⟨K, hK⟩ := htarget
  obtain ⟨a, ha, hvalues, hslots, hstands⟩ :=
    Stands.arrive hfin hp.stands.function hk hempty hwait.ne_entry hK
  rw [Context.top_withBuilder (by simp [hc])]
  refine ⟨a, ha, ⟨hstands, hp.callers, hp.console, hp.types, hslots ▸ hp.cells⟩, ?_⟩
  intro n o _
  cases o with
  | constant | str => rfl
  | temp | param => simp [Activation.value, hvalues]

/-- From the end of one block to the beginning of another. -/
theorem advance_jump (hfin : F.Finished) (h : Gives (emit (·.terminate (.jump id))) c () c')
    (hF : Stays m F c') (hwait : Waiting d id) (h' : Gives (switchTo id) d () d')
    (hp : Point F cs c.top.builder w s) :
    ∃ s', Steps m 1 s s' ∧ Point F cs d'.top.builder w s' ∧ ∀ n, Kept m n s s' := by
  obtain ⟨hcode, hterm, htargets⟩ := at_terminator hfin h (by simp) hF hp
  obtain ⟨a, ha, hp', hk⟩ :=
    jump_waiting hfin hwait h' (htargets id (by simp [Ir.Terminator.successors])) hp
  exact ⟨_, .one (State.step_jump hcode hterm ha), hp', hk⟩

/-- A branch leads to the block for what its condition holds. -/
theorem advance_branch (hfin : F.Finished) {o : Ir.Operand} {thenId elseId : Nat} {b : Bool}
    (h : Gives (emit (·.terminate (.branch o thenId elseId))) c () c') (hF : Stays m F c')
    (hid : (if b then thenId else elseId) = id) (hwait : Waiting d id)
    (h' : Gives (switchTo id) d () d') (hp : Point F cs c.top.builder w s)
    (ho : s.current.value m o = .ok (.ofBool b)) :
    ∃ s', Steps m 1 s s' ∧ Point F cs d'.top.builder w s' ∧ ∀ n, Kept m n s s' := by
  subst hid
  obtain ⟨hcode, hterm, htargets⟩ := at_terminator hfin h (by simp) hF hp
  have htarget : (if b then thenId else elseId) ∈
      (Ir.Terminator.branch o thenId elseId).successors := by
    cases b <;> simp [Ir.Terminator.successors]
  obtain ⟨a, ha, hp', hk⟩ := jump_waiting hfin hwait h' (htargets _ htarget) hp
  exact ⟨_, .one (State.step_branch hcode hterm ho ha), hp', hk⟩

/-- At a `return` with a value the machine is about to give the value out. -/
theorem returning_value (hfin : F.Finished) {n : Nat} {o : Ir.Operand} {v : Value}
    (h : Gives (emit (·.terminate (.ret (some o)))) c () c') (hF : Stays m F c')
    (hp : Point F cs c.top.builder w s) (hv : Bears m n s o v) (hty : v.ty.toIr = F.returns) :
    Returning m F cs (some v) w.console s := by
  obtain ⟨hcode, hterm, _⟩ := at_terminator hfin h (by simp) hF hp
  obtain ⟨_, x, hx, hval⟩ := hv
  refine ⟨hp.stands.function, hp.callers, hp.console, some x, State.step_ret hcode hterm hx, hval, ?_⟩
  rw [Value.ty_of_ofMachine hval, hty]

theorem returning_none (hfin : F.Finished) (h : Gives (emit (·.terminate (.ret none))) c () c')
    (hF : Stays m F c') (hp : Point F cs c.top.builder w s) (hvoid : F.returns = .void) :
    Returning m F cs none w.console s := by
  obtain ⟨hcode, hterm, _⟩ := at_terminator hfin h (by simp) hF hp
  exact ⟨hp.stands.function, hp.callers, hp.console, none, State.step_ret_none hcode hterm, hvoid⟩

theorem stops_return (hfin : F.Finished) (hty : F.returns = c.top.returns.toIr)
    (h : Gives (returnFrom none) c () c') (hF : Stays m F c') (hp : Point F cs c.top.builder w s) :
    Stops m F cs bound s (.returned none) w.console := by
  obtain ⟨f, rest, value, d, d', j, d'', hc, ⟨_, _, hnone, _⟩ | ⟨_, rfl, hvoid, rfl⟩, ht, hb, hsw⟩ :=
    gives_returnFrom.mp h
  · cases hnone
  · obtain rfl := Context.top_eq hc
    rw [hvoid] at hty
    have hF' := stays_of_createBlock hb (stays_of_switchTo hsw hF)
    exact ⟨0, s, .refl m s, returning_none hfin ht hF' hp hty⟩

/-- A `return` leaves the function with its value in the type that the function returns. -/
theorem stops_return_value (hfin : F.Finished) (hty : F.returns = c.top.returns.toIr)
    (hs : Sound r g c) {t : Typed} {v : Value} (hfit : t.Fits r g c)
    (h : Gives (returnFrom (some t)) c () c') (hF : Stays m F c')
    (hp : Point F cs c.top.builder w s) (hv : Denotes m (temps c) s t v) :
    ∃ u, v.convert c.top.returns = .ok u ∧
      Stops m F cs bound s (.returned (some u)) w.console := by
  obtain ⟨f, rest, value, d, d', j, d'', hc, ⟨_, o, ⟨rfl⟩, rfl, _, _, hco⟩ | ⟨hsome, _⟩, ht, hb, hsw⟩ :=
    gives_returnFrom.mp h
  · obtain rfl := Context.top_eq hc
    have hF' := stays_of_createBlock hb (stays_of_switchTo hsw hF)
    obtain ⟨u, hu, k, s', hk, ha, hbears⟩ :=
      advance_coerce hs hfit hco (stays_of_terminate ht hF') hp hv
    refine ⟨u, hu, k, s', hk, returning_value hfin ht hF' ha.point hbears ?_⟩
    rw [hty, ty_convert hu]
  · cases hsome

/-- Lowering of a part takes what holds of the function at hand from `I` to `I'`, and the machine does
on its code what `x` says. -/
structure Runs (r : Registry) (m : Ir.Module) (F : Ir.Function) (cs : List Caller) (bound : Nat)
    (ds : List FunctionDecl) (I I' : Context → Prop) (part : Lower Cause Unit) (x : Eval Unit) :
    Prop where
  moves : Moves r ds I I' part
  reaches : ∀ g c c' w s, Sound r g c → I c → Gives part c () c' → Stays m F c' →
    Point F cs c.top.builder w s → Reaches m F cs bound c c' s w x fun _ _ => True

/-- The machine comes to where a part begins, goes through it, and leaves it for where the lowering
goes on. -/
theorem reaches_through {x : Eval Unit} {e : Context} {k : Nat} (hk : Steps m k s s')
    (hsame : ∀ n, Kept m n s s') (hle : temps c ≤ temps d)
    (h : Reaches m F cs bound d e s' w x fun _ _ => True)
    (hout : ∀ w' s'', Point F cs e.top.builder w' s'' → ∃ j t, Steps m j s'' t ∧
      Point F cs c'.top.builder w' t ∧ ∀ n, Kept m n s'' t) :
    Reaches m F cs bound c c' s w x fun _ _ => True := by
  refine (Follows.advance h ?_).after hk (Nat.le_add_left bound k)
  intro _ w' s'' ha
  obtain ⟨j, t, hj, hp, hkept⟩ := hout w' s'' ha.1.point
  refine ⟨j, t, hj, ⟨hp, ?_⟩, trivial⟩
  exact ((hsame (temps c)).trans ha.1.kept hle).trans (hkept (temps c)) (Nat.le_refl _)

/-- The machine follows a conditional through the branch that its condition selects. -/
theorem reaches_conditional {ds ds' : List FunctionDecl} {I I' I'' : Context → Prop}
    {o : Ir.Operand} {b : Bool} {thenPart elsePart : Lower Cause Unit} {x y : Eval Unit}
    (hfin : F.Finished) (hI : Robust I) (hI' : Robust I') (hs : Sound r g c) (hi : I c)
    (hcond : Holds r g c o .bool) (hthen : Runs r m F cs bound ds I I' thenPart x)
    (helse : Runs r m F cs bound ds' I' I'' elsePart y)
    (h : Gives (conditional o thenPart elsePart) c () c') (hF : Stays m F c')
    (hp : Point F cs c.top.builder w s) (ho : s.current.value m o = .ok (.ofBool b)) :
    Reaches m F cs bound c c' s w (if b then x else y) fun _ _ => True := by
  obtain ⟨thenId, elseId, mergeId, c₁, c₂, c₃, c₄, c₅, c₆, c₇, c₈, c₉, c₁₀, h₁, h₂, h₃, h₄, h₅, h₆,
    h₇, h₈, h₉, h₁₀, h₁₁⟩ := gives_conditional h
  -- what the lowering did, block by block
  obtain ⟨g₅, w₄, end₄, hnodup⟩ := sound_branch hs hcond h₁ h₂ h₃ h₄
  obtain ⟨w₅, open₅, _⟩ := w₄.switchTo (by grind) end₄ h₅
  have s₅ := w₅.sound hs open₅
  obtain ⟨⟨g₆, l₆⟩, i₆⟩ := hthen.moves g₅ c₅ c₆ s₅ h₆
  have w₆ := w₅.trans l₆.toWorking
  have j₇ := fallThrough_terminates l₆.isOpen h₇
  obtain ⟨w₇, end₇, _⟩ := w₆.fallThrough l₆.isOpen (w₆.target (by simp)) h₇
  obtain ⟨w₈, open₈, _⟩ := w₇.switchTo (by grind) end₇ h₈
  have s₈ := w₈.sound hs open₈
  obtain ⟨⟨g₉, l₉⟩, _⟩ := helse.moves g₆ c₈ c₉ s₈ h₉
  have w₉ := w₈.trans l₉.toWorking
  have j₁₀ := fallThrough_terminates l₉.isOpen h₁₀
  obtain ⟨w₁₀, _, _⟩ := w₉.fallThrough l₉.isOpen (w₉.target (by simp)) h₁₀
  -- what holds where the parts begin
  have hr₅ : Rebuilt c c₅ :=
    ((((tame_createBlock _ _ _ _ h₁).trans (tame_createBlock _ _ _ _ h₂)).trans
      (tame_createBlock _ _ _ _ h₃)).trans (tame_terminate _ _ _ _ h₄)).trans
      (tame_switchTo _ _ _ _ h₅)
  have hr₈ : Rebuilt c₆ c₈ := (tame_fallThrough _ _ _ _ h₇).trans (tame_switchTo _ _ _ _ h₈)
  have hi₅ := hI c c₅ hs.frames hr₅ hi
  have hi₈ := hI' c₆ c₈ l₆.frames hr₈ (i₆ hi₅)
  -- what stays of it, from the last block to the first
  have f₁₀ := stays_of_switchTo h₁₁ hF
  have f₉ := stays_of_terminate j₁₀ f₁₀
  have f₈ := stays_of_lowered f₉ s₈ l₉
  have f₇ := stays_of_switchTo h₈ f₈
  have f₆ := stays_of_terminate j₇ f₇
  have f₄ := stays_of_switchTo h₅ (stays_of_lowered f₆ s₅ l₆)
  have p₃ := point_createBlock h₃ (point_createBlock h₂ (point_createBlock h₁ hp))
  have hmerge : Waiting c₁₀ mergeId := waiting_of_pending w₁₀ hs (by simp)
  cases b with
  | true =>
    obtain ⟨s', hk, hp', hsame⟩ := advance_branch hfin h₄ f₄ (b := true) rfl
      (waiting_of_pending w₄ hs (by simp)) h₅ p₃ ho
    refine reaches_through hk hsame (temps_le w₅)
      (hthen.reaches g₅ c₅ c₆ w s' s₅ hi₅ h₆ f₆ hp') ?_
    intro w' s'' hp''
    obtain ⟨t, ht, hpt, hkept⟩ := advance_jump hfin j₇ f₇ hmerge h₁₁ hp''
    exact ⟨1, t, ht, hpt, hkept⟩
  | false =>
    obtain ⟨s', hk, hp', hsame⟩ := advance_branch hfin h₄ f₄ (b := false) rfl
      (waiting_of_pending w₇ hs (by simp)) h₈ p₃ ho
    refine reaches_through hk hsame (temps_le w₈)
      (helse.reaches g₆ c₈ c₉ w s' s₈ hi₈ h₉ f₉ hp') ?_
    intro w' s'' hp''
    obtain ⟨t, ht, hpt, hkept⟩ := advance_jump hfin j₁₀ f₁₀ hmerge h₁₁ hp''
    exact ⟨1, t, ht, hpt, hkept⟩

/-- Each round leads from `P` to `P` in at least one step, so with `n` rounds allowed the machine takes
`n` steps before the evaluation gives up. -/
theorem follows_iterate {x : Eval Bool} {y : Eval Unit} {P Q R : World → State → Prop}
    (htest : ∀ w s, P w s → Follows m F cs bound s w x fun b w' s' => if b then R w' s' else Q w' s')
    (hround : ∀ w s, R w s → Follows m F cs bound s w y fun _ w' s' =>
      ∃ s'', s'.step m = .inl s'' ∧ P w' s'') {n k : Nat} (hn : k ≤ n)
    (hk : k ≤ bound) (h : P w s) :
    Follows m F cs k s w (Eval.iterate x y n) fun _ w' s' => Q w' s' := by
  induction n generalizing w s k with
  | zero => exact follows_of_fails (fails_throw.mpr ⟨rfl, rfl⟩) ⟨0, s, hn, .refl m s⟩
  | succ n ih =>
    rw [Eval.iterate]
    apply ((htest w s h).mono hk fun _ _ _ hp => hp).bind
    intro b w' s' hp
    cases b with
    | false => exact follows_pure hp
    | true =>
      apply ((hround w' s' hp).mono hk fun _ _ _ hp => hp).bind
      intro _ w'' s'' hback
      obtain ⟨t, ht, hp⟩ := hback
      exact (ih (k := k - 1) (by omega) (by omega) hp).after (.one ht) (by omega)

/-- Lowering of a condition takes what holds of the function at hand from `I` to `I'`, and what the
machine branches on behind it is what `x` says. -/
structure Tests (r : Registry) (m : Ir.Module) (F : Ir.Function) (cs : List Caller) (bound : Nat)
    (ds : List FunctionDecl) (I I' : Context → Prop) (part : Lower Cause Ir.Operand)
    (x : Eval Bool) : Prop where
  moves : MovesTest r ds I I' part
  reaches : ∀ g c o c' w s, Sound r g c → I c → Gives part c o c' → Stays m F c' →
    Point F cs c.top.builder w s → Reaches m F cs bound c c' s w x fun b s' =>
      s'.current.value m o = .ok (.ofBool b)

/-- The machine follows a loop as long as its condition holds. -/
theorem reaches_repeated {ds ds' : List FunctionDecl} {I I' I'' : Context → Prop} {n : Nat}
    {condition : Lower Cause Ir.Operand} {body : Lower Cause Unit} {x : Eval Bool} {y : Eval Unit}
    (hfin : F.Finished) (hI : Robust I) (hI' : Robust I') (hs : Sound r g c) (hi : I c)
    (htest : Tests r m F cs (n + 1) ds I I' condition x)
    (hbody : Runs r m F cs (n + 1) ds' I' I'' body y)
    (h : Gives (repeated condition body) c () c') (hF : Stays m F c')
    (hp : Point F cs c.top.builder w s) :
    Reaches m F cs (n + 1) c c' s w (Eval.iterate x y n) fun _ _ => True := by
  obtain ⟨condId, bodyId, exitId, o, c₁, c₂, c₃, c₄, c₅, c₆, c₇, c₈, c₉, c₁₀, h₁, h₂, h₃, h₄, h₅, h₆,
    h₇, h₈, h₉, h₁₀, h₁₁⟩ := gives_repeated h
  -- what the lowering did, block by block
  obtain ⟨g₅, w₄, end₄, hnodup, t₄⟩ := sound_jump hs h₁ h₂ h₃ h₄
  obtain ⟨w₅, open₅, t₅⟩ := w₄.switchTo (by grind) end₄ h₅
  have s₅ := w₅.sound hs open₅
  obtain ⟨⟨g₆, l₆, ho⟩, i₆⟩ := htest.moves g₅ c₅ o c₆ s₅ h₆
  have w₆ := w₅.trans l₆.toWorking
  obtain ⟨w₇, end₇, t₇⟩ := sound_choice w₆ ho h₇
  obtain ⟨w₈, open₈, t₈⟩ := w₇.switchTo (by grind) end₇ h₈
  have s₈ := w₈.sound hs open₈
  obtain ⟨⟨g₉, l₉⟩, _⟩ := hbody.moves g₆ c₈ c₉ s₈ h₉
  have j₁₀ := fallThrough_terminates l₉.isOpen h₁₀
  have t₉ := l₉.target_trans (t₈ condId (t₇ condId (l₆.target_trans (t₅ condId t₄))))
  obtain ⟨w₁₀, _, _⟩ := (w₈.trans l₉.toWorking).fallThrough l₉.isOpen t₉ h₁₀
  -- what holds where the condition and the body begin
  have hr₅ : Rebuilt c c₅ :=
    ((((tame_createBlock _ _ _ _ h₁).trans (tame_createBlock _ _ _ _ h₂)).trans
      (tame_createBlock _ _ _ _ h₃)).trans (tame_terminate _ _ _ _ h₄)).trans
      (tame_switchTo _ _ _ _ h₅)
  have hr₈ : Rebuilt c₆ c₈ := (tame_terminate _ _ _ _ h₇).trans (tame_switchTo _ _ _ _ h₈)
  have hi₅ := hI c c₅ hs.frames hr₅ hi
  have hi₈ := hI' c₆ c₈ l₆.frames hr₈ (i₆ hi₅)
  -- what stays of it, from the last block to the first
  have f₁₀ := stays_of_switchTo h₁₁ hF
  have f₉ := stays_of_terminate j₁₀ f₁₀
  have f₇ := stays_of_switchTo h₈ (stays_of_lowered f₉ s₈ l₉)
  have f₆ := stays_of_terminate h₇ f₇
  have f₄ := stays_of_switchTo h₅ (stays_of_lowered f₆ s₅ l₆)
  have hhead : Waiting c₄ condId := waiting_of_pending w₄ hs (by simp)
  -- the way to the head of the loop, then the rounds
  obtain ⟨s', hk, hp', hsame⟩ := advance_jump hfin h₄ f₄ hhead h₅
    (point_createBlock h₃ (point_createBlock h₂ (point_createBlock h₁ hp)))
  have hrounds : Follows m F cs n s' w (Eval.iterate x y n) fun _ w' t =>
      Point F cs c'.top.builder w' t ∧ Kept m (temps c) s t := by
    apply follows_iterate
      (P := fun w t => Point F cs c₅.top.builder w t ∧ Kept m (temps c) s t)
      (R := fun w t => Point F cs c₈.top.builder w t ∧ Kept m (temps c) s t) ?_ ?_
      (Nat.le_refl n) (Nat.le_succ n) ⟨hp', hsame (temps c)⟩
    · intro w t ht
      apply Follows.advance (htest.reaches g₅ c₅ o c₆ w t s₅ hi₅ h₆ f₆ ht.1)
      intro b w' t' ha
      have hkept := ht.2.trans ha.1.kept (temps_le w₅)
      cases b with
      | true =>
        obtain ⟨t'', hj, hpt, hk⟩ := advance_branch hfin h₇ f₇ (b := true) rfl
          (waiting_of_pending w₇ hs (by simp)) h₈ ha.1.point ha.2
        exact ⟨1, t'', hj, hpt, hkept.trans (hk (temps c)) (Nat.le_refl _)⟩
      | false =>
        obtain ⟨t'', hj, hpt, hk⟩ := advance_branch hfin h₇ f₇ (b := false) rfl
          (waiting_of_pending w₁₀ hs (by simp)) h₁₁ ha.1.point ha.2
        exact ⟨1, t'', hj, hpt, hkept.trans (hk (temps c)) (Nat.le_refl _)⟩
    · intro w t ht
      apply Follows.mono (hbody.reaches g₆ c₈ c₉ w t s₈ hi₈ h₉ f₉ ht.1) (Nat.le_refl _)
      intro _ w' t' ha
      obtain ⟨t'', ⟨_, hj, rfl⟩, hpt, hk⟩ := advance_jump hfin j₁₀ f₁₀ hhead h₅ ha.1.point
      have hkept := ht.2.trans ha.1.kept (temps_le w₈)
      exact ⟨_, hj, hpt, hkept.trans (hk (temps c)) (Nat.le_refl _)⟩
  apply (hrounds.after hk (Nat.le_of_eq (Nat.add_comm n 1))).mono (Nat.le_refl _)
  intro _ w' t ht
  exact ⟨⟨ht.1, ht.2⟩, trivial⟩

end Simulation

end TreeLang
