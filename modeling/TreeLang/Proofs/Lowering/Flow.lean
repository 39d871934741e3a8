import TreeLang.Proofs.Lowering.Values

namespace TreeLang.Lowering

open TreeLang.Tree (Ty Expr Stmt FunctionDecl)
open Typing (Registry Callee coercible)
open Ir (Knowledge Certified Surroundings)
open Ir.Builder (Laid)
open Lower

variable {r : Registry} {ds ds' : List FunctionDecl} {g g' g'' : Knowledge} {c c' c'' : Context}
  {pending : List Nat} {id : Nat} {u : Unit}

def Ended (b : Ir.Builder) : Prop :=
  ∃ id k, b.current = some id ∧ b.function.block? id = some k ∧ k.terminator ≠ .unset

theorem Ended.extend {b : Ir.Builder} (h : Ended b) (label : String) :
    Ended { b with function := b.function.extend label } := by
  obtain ⟨j, k, hj, hk, hu⟩ := h
  exact ⟨j, k, hj, Ir.Function.block?_extend_of_some hk label, hu⟩

theorem ended_finish {b : Ir.Builder} {k : Ir.Block} (hid : b.current = some id)
    (hk : b.function.block? id = some k) {t : Ir.Terminator} (hset : t ≠ .unset) :
    Ended { b with function := b.function.updateBlock id (.finish t) } :=
  ⟨id, k.finish t, hid, Ir.Function.block?_finish_self hk t, hset⟩

theorem jump_of_fallThrough (ho : c.top.builder.IsOpen) (hg : Gives (fallThrough id) c u c') :
    Gives (emit (·.terminate (.jump id))) c u c' := by
  obtain ⟨f, rest, hc, ⟨hterm, _⟩ | ⟨_, hjump⟩⟩ := gives_fallThrough.mp hg
  · obtain rfl := Context.top_eq hc
    obtain ⟨j, k, hj, hk, hu⟩ := ho
    simp [Ir.Builder.isTerminated, hj, hk, Ir.Block.isTerminated, hu] at hterm
  · exact hjump

/-- A block of the region that code in the region may lead to: it begins with what was known where
the region began. -/
def Target (g : Knowledge) (c : Context) (g' : Knowledge) (c' : Context) (id : Nat) : Prop :=
  c.top.builder.function.nextBlock ≤ id ∧ id < c'.top.builder.function.nextBlock ∧
    g' id = c.top.builder.known g

namespace Working

/-- The blocks that were made for later are targets. -/
theorem target (h : Working r ds g c g' c' pending) (hid : id ∈ pending) : Target g c g' c' id :=
  ⟨(h.laid.waiting id hid).1, Laid.lt_of_pending h.laid.toGrown hid, h.laid.promised id hid⟩

/-- A target of the region stays one while a part of it is laid out. -/
theorem target_trans {pending' : List Nat} (h' : Working r ds' g' c' g'' c'' pending')
    (ht : Target g c g' c' id) : Target g c g'' c'' id :=
  ⟨ht.1, Nat.lt_of_lt_of_le ht.2.1 h'.laid.nextBlock, (h'.laid.before id ht.2.1).trans ht.2.2⟩

/-- A new block is pending, and begins with what was known where the region began. -/
theorem createBlock (h : Working r ds g c g' c' pending) {label : String}
    (hg : Gives (createBlock label) c' id c'') :
    ∃ g'', Working r ds g c g'' c'' (id :: pending) ∧ id ∉ pending ∧
      (∀ j, Target g c g' c' j → Target g c g'' c'' j) ∧
      (c'.top.builder.IsOpen → c''.top.builder.IsOpen) ∧
      (Ended c'.top.builder → Ended c''.top.builder) := by
  obtain ⟨f, rest, hc, rfl, rfl⟩ := gives_createBlock.mp hg
  obtain rfl := Context.top_eq hc
  have ht := Context.top_withBuilder h.frames
    { c'.top.builder with function := c'.top.builder.function.extend label }
  refine ⟨_, h.step (h.laid.extend label) List.prefix_rfl, ?_, ?_, ?_, ?_⟩
  · exact fun hm => Nat.lt_irrefl _ (Laid.lt_of_pending h.laid.toGrown hm)
  · intro j hj
    refine ⟨hj.1, ?_, ?_⟩
    · rw [ht]
      exact Nat.lt_succ_of_lt hj.2.1
    · exact (if_neg (Nat.ne_of_lt hj.2.1)).trans hj.2.2
  · rw [ht]
    exact fun ho => ho.extend label
  · rw [ht]
    exact fun he => he.extend label

/-- A block may end in any legal terminator that leads to targets only. -/
theorem terminate (h : Working r ds g c g' c' pending) {t : Ir.Terminator}
    (hg : Gives (emit (·.terminate t)) c' u c'') (hset : t ≠ .unset)
    (hlegal : t.Legal (c'.surroundings r) (c'.top.builder.known g'))
    (ht : ∀ s ∈ t.successors, Target g c g' c' s) :
    Working r ds g c g' c'' pending ∧ Ended c''.top.builder ∧
      ∀ j, Target g c g' c' j → Target g c g' c'' j := by
  obtain ⟨f, rest, id, k, hc, hid, hk, _, rfl⟩ := gives_terminate.mp hg
  obtain rfl := Context.top_eq hc
  have htop := Context.top_withBuilder h.frames
    { c'.top.builder with function := c'.top.builder.function.updateBlock id (.finish t) }
  refine ⟨h.step (h.laid.finish hid hlegal fun s hs => ht s hs) List.prefix_rfl, ?_, ?_⟩
  · rw [htop]
    exact ended_finish hid hk hset
  · intro j hj
    refine ⟨hj.1, ?_, hj.2.2⟩
    rw [htop]
    exact hj.2.1

/-- Work goes on in a pending block once the block at hand has ended. -/
theorem switchTo (h : Working r ds g c g' c' (id :: pending)) (hid : id ∉ pending)
    (he : Ended c'.top.builder) (hg : Gives (switchTo id) c' u c'') :
    Working r ds g c g' c'' pending ∧ c''.top.builder.IsOpen ∧
      ∀ j, Target g c g' c' j → Target g c g' c'' j := by
  obtain ⟨f, rest, hc, _, rfl⟩ := gives_switchTo.mp hg
  obtain rfl := Context.top_eq hc
  obtain ⟨j, k, hj, hk, hset⟩ := he
  have htop := Context.top_withBuilder h.frames { c'.top.builder with current := some id }
  refine ⟨h.step (h.laid.switch hid hj hk hset) List.prefix_rfl, ?_, ?_⟩
  · obtain ⟨_, l, hl, _, hu⟩ := h.laid.waiting id List.mem_cons_self
    rw [htop]
    exact ⟨id, l, rfl, hl, hu⟩
  · intro j hj
    refine ⟨hj.1, ?_, hj.2.2⟩
    rw [htop]
    exact hj.2.1

/-- A block that has not ended yet jumps to the target. -/
theorem fallThrough (h : Working r ds g c g' c' pending) (ho : c'.top.builder.IsOpen)
    (ht : Target g c g' c' id) (hg : Gives (fallThrough id) c' u c'') :
    Working r ds g c g' c'' pending ∧ Ended c''.top.builder ∧
      ∀ j, Target g c g' c' j → Target g c g' c'' j := by
  refine h.terminate (jump_of_fallThrough ho hg) (by simp) trivial fun s hs => ?_
  rw [show s = id by simpa [Ir.Terminator.successors] using hs]
  exact ht

end Working

/-- Behind a `return` work goes on in a block of its own. -/
theorem sound_returnFrom (hs : Sound r g c) {t : Option Typed} (ht : ∀ t' ∈ t, t'.Fits r g c)
    (h : Gives (returnFrom t) c u c') : ∃ g', Lowered r [] g c g' c' := by
  obtain ⟨f, rest, value, d, d', id, d'', hc, hval, hret, hcreate, hswitch⟩ := gives_returnFrom.mp h
  obtain rfl := Context.top_eq hc
  have hval : Lowered r [] g c g d ∧
      (Ir.Terminator.ret value).Legal (d.surroundings r) (d.top.builder.known g) := by
    have hreturns := hs.returns
    rcases hval with ⟨t', v, rfl, rfl, hne, _, hco⟩ | ⟨_, rfl, hvoid, rfl⟩
    · obtain ⟨hl, hv⟩ := sound_coerce hs (ht t' rfl) hco
      have he : d.top.builder.function.returns = c.top.returns.toIr :=
        hl.laid.returns.trans hreturns
      refine ⟨hl, ?_, ?_⟩
      · change d.top.builder.function.returns ≠ .void
        rw [he]
        exact fun hr => hne (Ty.toIr_injective hr)
      · change Holds r g d v d.top.builder.function.returns
        rw [he]
        exact hv
    · refine ⟨.refl hs, ?_⟩
      change d.top.builder.function.returns = .void
      rw [hreturns, hvoid]
      rfl
  obtain ⟨hl, hlegal⟩ := hval
  obtain ⟨h₁, hend, _⟩ := hl.toWorking.terminate hret (by simp) hlegal
    (by simp [Ir.Terminator.successors])
  obtain ⟨g', h₂, hid, _, _, hend₂⟩ := h₁.createBlock hcreate
  obtain ⟨h₃, ho, _⟩ := h₂.switchTo hid (hend₂ hend) hswitch
  exact ⟨g', h₃, ho⟩

section

variable {thenId elseId mergeId : Nat} {c₁ c₂ c₃ c₄ c₅ c₆ c₇ : Context}

/-- The branch to the parts of a conditional, whose blocks are pending. -/
theorem sound_branch (hs : Sound r g c) {condition : Ir.Operand}
    (hcond : Holds r g c condition .bool) (h₁ : Gives (createBlock "then") c thenId c₁)
    (h₂ : Gives (createBlock "else") c₁ elseId c₂) (h₃ : Gives (createBlock "ifcont") c₂ mergeId c₃)
    (h₄ : Gives (emit (·.terminate (.branch condition thenId elseId))) c₃ () c₄) :
    ∃ g', Working r [] g c g' c₄ [thenId, elseId, mergeId] ∧ Ended c₄.top.builder ∧
      [thenId, elseId, mergeId].Nodup := by
  obtain ⟨g₁, w₁, n₁, _⟩ := (Working.refl hs).createBlock h₁
  obtain ⟨g₂, w₂, n₂, _⟩ := w₁.createBlock h₂
  obtain ⟨g₃, w₃, n₃, _⟩ := w₂.createBlock h₃
  obtain ⟨w₄, end₄, _⟩ := w₃.terminate h₄ (by simp) (hcond.mono w₃) fun s hs => by
    rcases List.mem_cons.mp hs with rfl | hs
    · exact w₃.target (by simp)
    · rw [List.mem_singleton.mp hs]
      exact w₃.target (by simp)
  exact ⟨g₃, { w₄ with laid := w₄.laid.congr fun j => by grind }, end₄, by grind⟩

/-- The block where the first part of a conditional begins. -/
theorem sound_thenPart (hs : Sound r g c) {condition : Ir.Operand}
    (hcond : Holds r g c condition .bool) (h₁ : Gives (createBlock "then") c thenId c₁)
    (h₂ : Gives (createBlock "else") c₁ elseId c₂) (h₃ : Gives (createBlock "ifcont") c₂ mergeId c₃)
    (h₄ : Gives (emit (·.terminate (.branch condition thenId elseId))) c₃ () c₄)
    (h₅ : Gives (switchTo thenId) c₄ () c₅) :
    ∃ g', Working r [] g c g' c₅ [elseId, mergeId] ∧ c₅.top.builder.IsOpen ∧ elseId ≠ mergeId := by
  obtain ⟨g', w₄, end₄, hnodup⟩ := sound_branch hs hcond h₁ h₂ h₃ h₄
  obtain ⟨w₅, open₅, _⟩ := w₄.switchTo (by grind) end₄ h₅
  exact ⟨g', w₅, open₅, by grind⟩

/-- The first part leads to where the parts meet, and the second one begins. -/
theorem sound_elsePart (w : Working r ds g c g' c₅ [elseId, mergeId])
    (ho : c₅.top.builder.IsOpen) (hne : elseId ≠ mergeId)
    (h₆ : Gives (fallThrough mergeId) c₅ () c₆) (h₇ : Gives (switchTo elseId) c₆ () c₇) :
    Working r ds g c g' c₇ [mergeId] ∧ c₇.top.builder.IsOpen := by
  obtain ⟨w₆, end₆, _⟩ := w.fallThrough ho (w.target (by simp)) h₆
  obtain ⟨w₇, open₇, _⟩ := w₆.switchTo (by simpa using hne) end₆ h₇
  exact ⟨w₇, open₇⟩

/-- Work goes on where the parts of a conditional, or the rounds of a loop, have ended. -/
theorem sound_join (w : Working r ds g c g' c₅ [mergeId]) (ho : c₅.top.builder.IsOpen)
    {target : Nat} (ht : Target g c g' c₅ target) (h₆ : Gives (fallThrough target) c₅ () c₆)
    (h₇ : Gives (switchTo mergeId) c₆ () c₇) : Lowered r ds g c g' c₇ := by
  obtain ⟨w₆, end₆, _⟩ := w.fallThrough ho ht h₆
  obtain ⟨w₇, open₇, _⟩ := w₆.switchTo (by simp) end₆ h₇
  exact ⟨w₇, open₇⟩

end

/-- The parts of a conditional are lowered in blocks of their own. -/
theorem sound_conditional (hs : Sound r g c) {condition : Ir.Operand}
    {thenPart elsePart : Lower Cause Unit} (hcond : Holds r g c condition .bool)
    (hthen : ∀ g c c', Sound r g c → Gives thenPart c () c' → ∃ g', Lowered r ds g c g' c')
    (helse : ∀ g c c', Sound r g c → Gives elsePart c () c' → ∃ g', Lowered r ds' g c g' c')
    (h : Gives (conditional condition thenPart elsePart) c u c') :
    ∃ g', Lowered r (ds ++ ds') g c g' c' := by
  obtain ⟨thenId, elseId, mergeId, c₁, c₂, c₃, c₄, c₅, c₆, c₇, c₈, c₉, c₁₀, h₁, h₂, h₃, h₄, h₅, h₆,
    h₇, h₈, h₉, h₁₀, h₁₁⟩ := gives_conditional h
  obtain ⟨g₅, w₅, open₅, hne⟩ := sound_thenPart hs hcond h₁ h₂ h₃ h₄ h₅
  obtain ⟨g₆, l₆⟩ := hthen g₅ c₅ c₆ (w₅.sound hs open₅) h₆
  obtain ⟨w₈, open₈⟩ := sound_elsePart (w₅.trans l₆.toWorking) l₆.isOpen hne h₇ h₈
  obtain ⟨g₉, l₉⟩ := helse g₆ c₈ c₉ (w₈.sound hs open₈) h₉
  have w₉ := w₈.trans l₉.toWorking
  exact ⟨g₉, sound_join w₉ l₉.isOpen (w₉.target (by simp)) h₁₀ h₁₁⟩

section

variable {condId bodyId exitId : Nat} {c₁ c₂ c₃ c₄ c₅ c₆ c₇ : Context}

/-- The jump to the head of a loop, whose blocks are pending. -/
theorem sound_jump (hs : Sound r g c) (h₁ : Gives (createBlock "loop.cond") c condId c₁)
    (h₂ : Gives (createBlock "loop.body") c₁ bodyId c₂)
    (h₃ : Gives (createBlock "loop.exit") c₂ exitId c₃)
    (h₄ : Gives (emit (·.terminate (.jump condId))) c₃ () c₄) :
    ∃ g', Working r [] g c g' c₄ [condId, bodyId, exitId] ∧ Ended c₄.top.builder ∧
      [condId, bodyId, exitId].Nodup ∧ Target g c g' c₄ condId := by
  obtain ⟨g₁, w₁, n₁, _⟩ := (Working.refl hs).createBlock h₁
  obtain ⟨g₂, w₂, n₂, _⟩ := w₁.createBlock h₂
  obtain ⟨g₃, w₃, n₃, _⟩ := w₂.createBlock h₃
  have hstart : Target g c g₃ c₃ condId := w₃.target (by simp)
  obtain ⟨w₄, end₄, t₄⟩ := w₃.terminate h₄ (by simp) trivial fun s hs => by
    rw [show s = condId by simpa [Ir.Terminator.successors] using hs]
    exact hstart
  exact ⟨g₃, { w₄ with laid := w₄.laid.congr fun j => by grind }, end₄, by grind, t₄ condId hstart⟩

theorem sound_round (hs : Sound r g c) (h₁ : Gives (createBlock "loop.cond") c condId c₁)
    (h₂ : Gives (createBlock "loop.body") c₁ bodyId c₂)
    (h₃ : Gives (createBlock "loop.exit") c₂ exitId c₃)
    (h₄ : Gives (emit (·.terminate (.jump condId))) c₃ () c₄)
    (h₅ : Gives (switchTo condId) c₄ () c₅) :
    ∃ g', Working r [] g c g' c₅ [bodyId, exitId] ∧ c₅.top.builder.IsOpen ∧ bodyId ≠ exitId ∧
      Target g c g' c₅ condId := by
  obtain ⟨g', w₄, end₄, hnodup, t₄⟩ := sound_jump hs h₁ h₂ h₃ h₄
  obtain ⟨w₅, open₅, t₅⟩ := w₄.switchTo (by grind) end₄ h₅
  exact ⟨g', w₅, open₅, by grind, t₅ condId t₄⟩

theorem sound_choice (w : Working r ds g c g' c₅ [bodyId, exitId]) {test : Ir.Operand}
    (hcond : Holds r g' c₅ test .bool)
    (h₆ : Gives (emit (·.terminate (.branch test bodyId exitId))) c₅ () c₆) :
    Working r ds g c g' c₆ [bodyId, exitId] ∧ Ended c₆.top.builder ∧
      ∀ id, Target g c g' c₅ id → Target g c g' c₆ id := by
  apply w.terminate h₆ (by simp) hcond
  intro s hs
  rcases List.mem_cons.mp hs with rfl | hs
  · exact w.target (by simp)
  · rw [List.mem_singleton.mp hs]
    exact w.target (by simp)

theorem sound_body (w : Working r ds g c g' c₅ [bodyId, exitId]) (hne : bodyId ≠ exitId)
    {test : Ir.Operand} (hcond : Holds r g' c₅ test .bool)
    (h₆ : Gives (emit (·.terminate (.branch test bodyId exitId))) c₅ () c₆)
    (h₇ : Gives (switchTo bodyId) c₆ () c₇) :
    Working r ds g c g' c₇ [exitId] ∧ c₇.top.builder.IsOpen ∧
      ∀ id, Target g c g' c₅ id → Target g c g' c₇ id := by
  obtain ⟨w₆, end₆, t₆⟩ := sound_choice w hcond h₆
  obtain ⟨w₇, open₇, t₇⟩ := w₆.switchTo (by simpa using hne) end₆ h₇
  exact ⟨w₇, open₇, fun id ht => t₇ id (t₆ id ht)⟩

end

/-- Each round of a loop begins with what was known where the loop began. -/
theorem sound_repeated (hs : Sound r g c) {condition : Lower Cause Ir.Operand}
    {body : Lower Cause Unit}
    (hcond : ∀ g c o c', Sound r g c → Gives condition c o c' →
      ∃ g', Lowered r ds g c g' c' ∧ Holds r g' c' o .bool)
    (hbody : ∀ g c c', Sound r g c → Gives body c () c' → ∃ g', Lowered r ds' g c g' c')
    (h : Gives (repeated condition body) c u c') : ∃ g', Lowered r (ds ++ ds') g c g' c' := by
  obtain ⟨condId, bodyId, exitId, o, c₁, c₂, c₃, c₄, c₅, c₆, c₇, c₈, c₉, c₁₀, h₁, h₂, h₃, h₄, h₅, h₆,
    h₇, h₈, h₉, h₁₀, h₁₁⟩ := gives_repeated h
  obtain ⟨g₅, w₅, open₅, hne, t₅⟩ := sound_round hs h₁ h₂ h₃ h₄ h₅
  obtain ⟨g₆, l₆, ho⟩ := hcond g₅ c₅ o c₆ (w₅.sound hs open₅) h₆
  obtain ⟨w₈, open₈, t₈⟩ := sound_body (w₅.trans l₆.toWorking) hne ho h₇ h₈
  obtain ⟨g₉, l₉⟩ := hbody g₆ c₈ c₉ (w₈.sound hs open₈) h₉
  have t₉ := l₉.target_trans (t₈ condId (l₆.target_trans t₅))
  exact ⟨g₉, sound_join (w₈.trans l₉.toWorking) l₉.isOpen t₉ h₁₀ h₁₁⟩

end TreeLang.Lowering
