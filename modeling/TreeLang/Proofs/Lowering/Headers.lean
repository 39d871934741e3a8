import TreeLang.Proofs.Builder.Loops
import TreeLang.Proofs.Lowering.Loops
import TreeLang.Proofs.Lowering.Region

namespace TreeLang.Lowering

open TreeLang.Tree (Ty Expr Stmt FunctionDecl)
open Typing (Registry)
open Ir.Builder (SameFlow Ordered Circuit Grown)
open Lower

variable {r : Registry} {c c' c₁ c₂ c₃ c₄ d : Context} {order pending heads : List Nat}
  {backs backs' : List (Nat × Nat)} {ls : List Loop} {xs ys : List Return} {u : Unit}

/-- Work without control flow leaves the edges and the cursor alone. -/
theorem still_straight (hc : c.frames ≠ []) (h : Straight c c') :
    c'.frames ≠ [] ∧ SameFlow c.top.builder c'.top.builder := by
  induction h with
  | refl => exact ⟨hc, .refl _⟩
  | define _ _ hg ih =>
    obtain ⟨f, rest, id, hf, hid, rfl, rfl⟩ := gives_define.mp hg
    obtain rfl := Context.top_eq hf
    refine ⟨Context.frames_withBuilder_ne ih.1 _, ?_⟩
    rw [Context.top_withBuilder ih.1]
    exact ih.2.trans (.assign _ _ _)
  | append _ _ hg ih =>
    obtain ⟨f, rest, id, hf, hid, rfl⟩ := gives_append.mp hg
    obtain rfl := Context.top_eq hf
    refine ⟨Context.frames_withBuilder_ne ih.1 _, ?_⟩
    rw [Context.top_withBuilder ih.1]
    exact ih.2.trans (.add _ _ _)

theorem still_alloca (hc : c.frames ≠ []) {name : String} {ty : Ir.Ty} {slot : Nat}
    (hg : Gives (build (·.alloca name ty)) c slot c') :
    c'.frames ≠ [] ∧ SameFlow c.top.builder c'.top.builder := by
  obtain ⟨f, rest, hf, _, _, rfl⟩ := gives_alloca.mp hg
  obtain rfl := Context.top_eq hf
  refine ⟨Context.frames_withBuilder_ne hc _, ?_⟩
  rw [Context.top_withBuilder hc]
  exact .reserve _ _ _

theorem still_declareVar (hc : c.frames ≠ []) {name : String} {ty : Ty} {s : Storage}
    (hg : Gives (declareVar name ty) c s c') :
    c'.frames ≠ [] ∧ SameFlow c.top.builder c'.top.builder := by
  obtain ⟨slot, d, f, rest, ha, hf, _, rfl⟩ := gives_declareVar.mp hg
  obtain ⟨-, hs⟩ := still_alloca hc ha
  rw [Context.top_eq hf] at hs
  exact ⟨List.cons_ne_nil _ _, hs⟩

theorem still_storeParams {ps : List Tree.Param} {index : Nat} (hc : c.frames ≠ [])
    (h : Gives (storeParams index ps) c u c') :
    c'.frames ≠ [] ∧ SameFlow c.top.builder c'.top.builder := by
  induction ps generalizing index c with
  | nil =>
    obtain ⟨_, rfl⟩ := gives_pure.mp h
    exact ⟨hc, .refl _⟩
  | cons p ps ih =>
    obtain ⟨_, slot, d, d', ha, hstore, h⟩ := storeParams_cons h
    obtain ⟨hd, s₁⟩ := still_alloca hc ha
    obtain ⟨hd', s₂⟩ := still_straight hd (.append .refl rfl hstore)
    obtain ⟨hc', s₃⟩ := ih (c := d'.bindParam p slot) (List.cons_ne_nil _ _) h
    exact ⟨hc', (s₁.trans s₂).trans s₃⟩

/-- The cursor of the function at hand has come to its blocks in this order, and `heads` are the blocks
where loops begin. -/
structure Toured (c : Context) (order : List Nat) (backs : List (Nat × Nat))
    (heads pending : List Nat) : Prop where
  frames : c.frames ≠ []
  numbered : c.top.builder.function.Numbered
  ordered : Ordered c.top.builder order backs pending
  heads : c.top.builder.function.labelled "loop.cond" = heads

namespace Toured

theorem still (h : Toured c order backs heads pending)
    (hs : c'.frames ≠ [] ∧ SameFlow c.top.builder c'.top.builder) :
    Toured c' order backs heads pending :=
  ⟨hs.1, hs.2.numbered h.numbered, h.ordered.still hs.2, (hs.2.labelled _).trans h.heads⟩

theorem mono (h : Toured c order backs heads pending) (hsub : backs ⊆ backs') :
    Toured c order backs' heads pending :=
  ⟨h.frames, h.numbered, h.ordered.mono hsub, h.heads⟩

/-- The builder goes on from one point to another. -/
theorem step (hc : c.frames ≠ []) {b : Ir.Builder} (hn : b.function.Numbered)
    (ho : Ordered b order backs pending) (hh : b.function.labelled "loop.cond" = heads) :
    Toured (c.withBuilder b) order backs heads pending := by
  refine ⟨Context.frames_withBuilder_ne hc _, ?_, ?_, ?_⟩
  all_goals rwa [Context.top_withBuilder hc]

theorem createBlock (h : Toured c order backs heads pending) {label : String} {id : Nat}
    (hg : Gives (createBlock label) c id c') :
    Toured c' order backs (heads ++ if label = "loop.cond" then [id] else []) (id :: pending) := by
  obtain ⟨f, rest, hf, rfl, rfl⟩ := gives_createBlock.mp hg
  obtain rfl := Context.top_eq hf
  refine step h.frames ?_ ?_ ?_
  · exact h.numbered.extend label
  · exact h.ordered.extend h.numbered label
  · exact (Ir.Function.labelled_extend label).trans (by rw [h.heads])

/-- An edge leads to a pending block, or back from the block at hand. -/
theorem terminate (h : Toured c order backs heads pending) {t : Ir.Terminator}
    (ht : ∀ s ∈ t.successors, s ∈ pending ∨
      ∃ id, c.top.builder.current = some id ∧ (id, s) ∈ backs)
    (hg : Gives (emit (·.terminate t)) c u c') : Toured c' order backs heads pending := by
  obtain ⟨f, rest, id, k, hf, hid, _, _, rfl⟩ := gives_terminate.mp hg
  obtain rfl := Context.top_eq hf
  refine step h.frames ?_ ?_ ?_
  · exact h.numbered.updateBlock (.finish t) fun _ => rfl
  · refine h.ordered.finish hid fun s hs => (ht s hs).imp_right ?_
    rintro ⟨j, hj, hm⟩
    cases hid.symm.trans hj
    exact hm
  · exact Ir.Function.labelled_finish.trans h.heads

/-- The cursor comes to a pending block, which is the next one in order. -/
theorem switchTo {id : Nat} (h : Toured c order backs heads (id :: pending))
    (hg : Gives (switchTo id) c u c') : Toured c' (order ++ [id]) backs heads pending := by
  obtain ⟨f, rest, hf, _, rfl⟩ := gives_switchTo.mp hg
  obtain rfl := Context.top_eq hf
  refine step h.frames ?_ ?_ ?_
  · exact h.numbered
  · exact h.ordered.switch
  · exact h.heads

theorem perm {pending' : List Nat} (h : Toured c order backs heads pending)
    (hp : pending.Perm pending') : Toured c order backs heads pending' :=
  ⟨h.frames, h.numbered, h.ordered.perm hp, h.heads⟩

/-- Of the three blocks that a part opens, at most the first is the head of a loop. -/
theorem opens (h : Toured c order backs heads pending) {l₁ l₂ l₃ : String} {first second third : Nat}
    {t : Ir.Terminator} (h₂ : l₂ ≠ "loop.cond") (h₃ : l₃ ≠ "loop.cond")
    (ht : ∀ s ∈ t.successors, s = first ∨ s = second)
    (hg : OpensAs l₁ l₂ l₃ c first second third t c') :
    Toured c' (order ++ [first]) backs (heads ++ if l₁ = "loop.cond" then [first] else [])
      (second :: third :: pending) := by
  obtain ⟨c₁, c₂, c₃, c₄, hg₁, hg₂, hg₃, hg₄, hg₅⟩ := hg
  have t₃ := ((h.createBlock hg₁).createBlock hg₂).createBlock hg₃
  rw [if_neg h₂, if_neg h₃, List.append_nil, List.append_nil] at t₃
  have t₄ := t₃.terminate (fun s hs => .inl ?_) hg₄
  · refine (t₄.perm ?_).switchTo hg₅
    exact ((List.Perm.swap _ _ _).trans (.cons _ (.swap _ _ _))).trans (.swap _ _ _)
  · rcases ht s hs with rfl | rfl <;> simp

theorem turns (h : Toured c order backs heads (next :: pending)) {t : Ir.Terminator}
    (ht : ∀ s ∈ t.successors, s ∈ next :: pending ∨
      ∃ id, c.top.builder.current = some id ∧ (id, s) ∈ backs)
    (hg : Turns c t next c') : Toured c' (order ++ [next]) backs heads pending := by
  obtain ⟨d, hend, hswitch⟩ := hg
  exact (h.terminate ht hend).switchTo hswitch

theorem returned {t : Option Typed} {x : Return} (h : Toured c order backs heads pending)
    (hx : Returned t x c c') : ∃ next, Toured c' (order ++ [next]) backs heads pending := by
  obtain ⟨d, d₁, d₂, next, hd, hret, hcreate, hswitch⟩ := hx.steps
  have t₁ := (h.still (still_straight h.frames hd)).terminate (by simp [Ir.Terminator.successors]) hret
  have t₂ := t₁.createBlock hcreate
  rw [if_neg (by decide), List.append_nil] at t₂
  exact ⟨next, t₂.switchTo hswitch⟩

theorem plain (h : Toured c order backs heads pending) :
    ∃ order', Toured c order' (backs ++ ([] : List Loop).map fun l => (l.back, l.head))
      (heads ++ ([] : List Loop).map (·.head)) pending :=
  ⟨order, by simpa using h⟩

end Toured

theorem turns_of_falls {goal next : Nat} (ho : c.top.builder.IsOpen) (h : Falls c goal next c') :
    Turns c (.jump goal) next c' := by
  obtain ⟨d, hfall, hswitch⟩ := h
  exact ⟨d, jump_of_fallThrough ho hfall, hswitch⟩

/-- Where the two parts of a conditional or a loop begin and end. Work on the first part goes from
`c₁` to `c₂`, work on the second one from `c₃` to `c₄`. -/
structure Parts (c c₁ c₂ c₃ c₄ : Context) (first second third : Nat) : Prop where
  first_eq : first = c.top.builder.function.nextBlock
  second_eq : second = first + 1
  third_eq : third = second + 1
  next₁ : c₁.top.builder.function.nextBlock = third + 1
  cur₁ : c₁.top.builder.current = some first
  ready₁ : c₁.Ready
  grown₁ : Grown c₁.top.builder c₂.top.builder []
  ready₂ : c₂.Ready
  next₃ : c₃.top.builder.function.nextBlock = c₂.top.builder.function.nextBlock
  cur₃ : c₃.top.builder.current = some second
  ready₃ : c₃.Ready
  grown₂ : Grown c₃.top.builder c₄.top.builder []
  ready₄ : c₄.Ready

theorem parts {first second third : Nat} {t t' : Ir.Terminator} (hr : c.Ready)
    (opens : Opens c first second third t c₁) (hset : t ≠ .unset) (hret : ∀ value, t ≠ .ret value)
    (ht : ∀ s ∈ t.successors, s = first ∨ s = second) (part₁ : Traced r xs c₁ c₂)
    (turns : c₂.top.builder.IsOpen → Turns c₂ t' second c₃) (hset' : t' ≠ .unset)
    (hret' : ∀ value, t' ≠ .ret value) (ht' : ∀ s ∈ t'.successors, s = second ∨ s = third)
    (part₂ : Traced r ys c₃ c₄) : Parts c c₁ c₂ c₃ c₄ first second third := by
  obtain ⟨s₁, o₁, cur₁, hfirst, hsecond, hthird, next₁⟩ := Spans.opens hr opens hset hret ht
  obtain ⟨p₁, o₂⟩ := part₁.spans (s₁.ready o₁)
  have s₂ := s₁.trans p₁
  obtain ⟨s₃, o₃, cur₃, next₃⟩ := s₂.turns (by simp only [List.mem_singleton]; omega) hset' hret'
    (fun s hs => s₂.target (by simpa using ht' s hs)) (turns o₂)
  obtain ⟨p₂, o₄⟩ := part₂.spans (s₃.ready o₃)
  exact ⟨hfirst, hsecond, hthird, next₁, cur₁, s₁.ready o₁, p₁.region.toGrown, p₁.ready o₂, next₃,
    cur₃, s₃.ready o₃, p₂.region.toGrown, p₂.ready o₄⟩

theorem Looped.conditionalParts {ms : List Loop} {thenId elseId mergeId : Nat} {o : Ir.Operand}
    (hr : c.Ready)
    (opens : OpensAs "then" "else" "ifcont" c thenId elseId mergeId (.branch o thenId elseId) c₁)
    (thenPart : Looped r ls c₁ c₂) (falls : Falls c₂ mergeId elseId c₃)
    (elsePart : Looped r ms c₃ c₄) : Parts c c₁ c₂ c₃ c₄ thenId elseId mergeId := by
  obtain ⟨xs, hx⟩ := thenPart.traced
  obtain ⟨ys, hy⟩ := elsePart.traced
  exact parts hr opens.opens (by simp) (by simp) (by simp [Ir.Terminator.successors]) hx
    (fun ho => turns_of_falls ho falls) (by simp) (by simp) (by simp [Ir.Terminator.successors]) hy

theorem Looped.loopParts {ms : List Loop} {condId bodyId exitId : Nat} {o : Ir.Operand}
    (hr : c.Ready)
    (opens : OpensAs "loop.cond" "loop.body" "loop.exit" c condId bodyId exitId (.jump condId) c₁)
    (test : Looped r ls c₁ c₂) (turns : Turns c₂ (.branch o bodyId exitId) bodyId c₃)
    (round : Looped r ms c₃ c₄) : Parts c c₁ c₂ c₃ c₄ condId bodyId exitId := by
  obtain ⟨xs, hx⟩ := test.traced
  obtain ⟨ys, hy⟩ := round.traced
  exact parts hr opens.opens (by simp) (by simp) (by simp [Ir.Terminator.successors]) hx
    (fun _ => turns) (by simp) (by simp) (by simp [Ir.Terminator.successors]) hy

/-- A lowering that laid out loops leaves a region behind, and more can be lowered after it. -/
theorem Looped.spans (h : Looped r ls c c') (hr : c.Ready) :
    ∃ xs, Spans xs c c' [] ∧ c'.Ready := by
  obtain ⟨xs, hx⟩ := h.traced
  obtain ⟨hs, ho⟩ := hx.spans hr
  exact ⟨xs, hs, hs.ready ho⟩

/-- Edges lead on in the order of the cursor, but for those from the ends of the loops to their
heads. -/
theorem Looped.toured (h : Looped r ls c c') (hr : c.Ready)
    (ht : Toured c order backs heads pending) :
    ∃ order', Toured c' order' (backs ++ ls.map fun l => (l.back, l.head))
      (heads ++ ls.map (·.head)) pending := by
  induction h generalizing order backs heads pending with
  | refl c => exact ⟨order, by simpa using ht⟩
  | trans h _ ih ih' =>
    obtain ⟨_, -, hd⟩ := h.spans hr
    obtain ⟨order₁, t₁⟩ := ih hr ht
    obtain ⟨order₂, t₂⟩ := ih' hd t₁
    exact ⟨order₂, by simpa using t₂⟩
  | straight h => exact (ht.still (still_straight hr.frames h)).plain
  | text hg =>
    obtain ⟨_, rfl⟩ := lower_str.mp hg
    refine (ht.still ?_).plain
    exact ⟨hr.frames, .refl _⟩
  | declare hg => exact (ht.still (still_declareVar hr.frames hg)).plain
  | @function decl c c' hg =>
    have hapart : Apart c c' := by
      have h := lowerFunction_apart r decl c
      rwa [hg] at h
    have htop : c'.top = c.top := by
      unfold Context.top
      rw [hapart.frames]
    exact (ht.still ⟨hapart.frames ▸ hr.frames, htop ▸ .refl _⟩).plain
  | bare _ hx =>
    obtain ⟨_, t₁⟩ := ht.returned hx
    exact t₁.plain
  | ret _ _ _ hx ih =>
    obtain ⟨order₁, t₁⟩ := ih hr ht
    obtain ⟨next, t₂⟩ := t₁.returned hx
    exact ⟨_, t₂⟩
  | conditional opens thenPart falls elsePart joins ih ih' =>
    have hp := conditionalParts hr opens thenPart falls elsePart
    have t₁ := ht.opens (by decide) (by decide) (by simp [Ir.Terminator.successors]) opens
    obtain ⟨order₂, t₂⟩ := ih hp.ready₁ t₁
    have t₃ := t₂.turns (fun s hs => .inl (by simp_all [Ir.Terminator.successors]))
      (turns_of_falls hp.ready₂.isOpen falls)
    obtain ⟨order₄, t₄⟩ := ih' hp.ready₃ t₃
    have t₅ := t₄.turns (fun s hs => .inl (by simp_all [Ir.Terminator.successors]))
      (turns_of_falls hp.ready₄.isOpen joins)
    exact ⟨_, by simpa using t₅⟩
  | @repeated l ls ms _ _ _ _ _ _ _ _ _ opens _ test turns _ round ends repeats ih ih' =>
    have hp := loopParts hr opens test turns round
    have t₁ := ht.opens (by decide) (by decide) (by simp [Ir.Terminator.successors]) opens
    obtain ⟨order₂, t₂⟩ := ih hp.ready₁ t₁
    have t₃ := t₂.turns (fun s hs => .inl (by
      rcases (by simpa [Ir.Terminator.successors] using hs) with rfl | rfl <;> simp)) turns
    obtain ⟨order₄, t₄⟩ := ih' hp.ready₃ t₃
    have hsub : backs ++ ls.map (fun l => (l.back, l.head)) ++ ms.map (fun l => (l.back, l.head)) ⊆
        backs ++ (l :: (ls ++ ms)).map fun l => (l.back, l.head) := by simp
    have t₅ := (t₄.mono hsub).turns
      (fun s hs => .inr ⟨l.back, ends, by simp_all [Ir.Terminator.successors]⟩)
      (turns_of_falls hp.ready₄.isOpen repeats)
    exact ⟨_, by simpa using t₅⟩

/-- A part of a conditional or a loop is left: its last block ends, and the cursor moves on. -/
theorem turned {next : Nat} {t : Ir.Terminator} (hc : c.frames ≠ []) (hg : Turns c t next c') :
    ∃ id k, c.top.builder.current = some id ∧ c.top.builder.function.block? id = some k ∧
      c'.top.builder = ⟨c.top.builder.function.updateBlock id (.finish t), some next⟩ := by
  obtain ⟨d, hend, hswitch⟩ := hg
  obtain ⟨f, rest, id, k, hf, hid, hk, _, rfl⟩ := gives_terminate.mp hend
  obtain ⟨f', rest', hf', _, rfl⟩ := gives_switchTo.mp hswitch
  obtain rfl := Context.top_eq hf
  obtain rfl := Context.top_eq hf'
  refine ⟨id, k, hid, hk, ?_⟩
  rw [Context.top_withBuilder (Context.frames_withBuilder_ne hc _), Context.top_withBuilder hc]

/-- A loop that has been laid out stays one when work goes back to a block in front of it. -/
theorem circuit_turns {low head back next : Nat} {t : Ir.Terminator} (hc : c.frames ≠ [])
    (h : Circuit c.top.builder low head back) (ht : ∀ s ∈ t.successors, s < low) (hn : next < low)
    (hg : Turns c t next c') : Circuit c'.top.builder low head back := by
  obtain ⟨id, k, hid, -, htop⟩ := turned hc hg
  rw [htop]
  exact (h.finish hid ht).switch hn

/-- What the two parts have laid out stays, since both are left for blocks from before them. -/
theorem Parts.circuits {first second third : Nat} {t t' : Ir.Terminator}
    (hp : Parts c c₁ c₂ c₃ c₄ first second third) (turns : Turns c₂ t second c₃)
    (ht : ∀ s ∈ t.successors, s ≤ third) (ends : Turns c₄ t' third c')
    (ht' : ∀ s ∈ t'.successors, s ≤ third) (head back : Nat) :
    (Circuit c₂.top.builder c₁.top.builder.function.nextBlock head back ∨
      Circuit c₄.top.builder c₃.top.builder.function.nextBlock head back) →
    Circuit c'.top.builder c.top.builder.function.nextBlock head back := by
  have := hp.first_eq
  have := hp.second_eq
  have := hp.third_eq
  have := hp.next₁
  have := hp.next₃
  have := hp.grown₁.nextBlock
  rintro (h | h)
  · have h₃ := circuit_turns hp.ready₂.frames h (fun s hs => by have := ht s hs; omega) (by omega)
      turns
    exact (circuit_turns hp.ready₄.frames (h₃.grown hp.grown₂)
      (fun s hs => by have := ht' s hs; omega) (by omega) ends).mono (by omega)
  · exact (circuit_turns hp.ready₄.frames h (fun s hs => by have := ht' s hs; omega) (by omega)
      ends).mono (by omega)

/-- Nothing but the block at hand leads to the blocks of a new loop, and to the first one only. -/
theorem edges_opens {first second third : Nat} (hr : c.Ready)
    (h : Opens c first second third (.jump first) c') :
    ∀ x, ∀ t ∈ c'.top.builder.function.graph.successors x,
      c.top.builder.function.nextBlock ≤ t → t = first := by
  obtain ⟨l₁, l₂, l₃, c₁, c₂, c₃, c₄, h₁, h₂, h₃, h₄, h₅⟩ := h
  have hmake : ∀ {c c' : Context} {label : String} {id : Nat}, c.frames ≠ [] →
      c.top.builder.function.Numbered → Gives (createBlock label) c id c' →
      c'.frames ≠ [] ∧ c'.top.builder.function.Numbered ∧ ∀ x,
        c'.top.builder.function.graph.successors x = c.top.builder.function.graph.successors x := by
    intro c c' label id hc hn hg
    obtain ⟨f, rest, hf, rfl, rfl⟩ := gives_createBlock.mp hg
    obtain rfl := Context.top_eq hf
    rw [Context.top_withBuilder hc]
    exact ⟨Context.frames_withBuilder_ne hc _, hn.extend label,
      fun _ => Ir.Function.successors_extend hn⟩
  obtain ⟨hc₁, n₁, e₁⟩ := hmake hr.frames hr.shaped.toNumbered h₁
  obtain ⟨hc₂, n₂, e₂⟩ := hmake hc₁ n₁ h₂
  obtain ⟨hc₃, n₃, e₃⟩ := hmake hc₂ n₂ h₃
  obtain ⟨id, k, -, -, htop⟩ := turned hc₃ ⟨c₄, h₄, h₅⟩
  intro x t ht hle
  rw [htop] at ht
  rcases Ir.Function.mem_successors_finish ht with ⟨-, ht⟩ | ht
  · simpa [Ir.Terminator.successors] using ht
  · rw [e₃, e₂, e₁] at ht
    obtain ⟨k, hk, ht⟩ := Ir.Function.mem_successors.mp ht
    have := hr.shaped.targets x k hk t ht
    omega

theorem Parts.circuit {head bodyId exitId back : Nat} {o : Ir.Operand} (hr : c.Ready)
    (hp : Parts c c₁ c₂ c₃ c₄ head bodyId exitId)
    (opens : Opens c head bodyId exitId (.jump head) c₁)
    (turns : Turns c₂ (.branch o bodyId exitId) bodyId c₃)
    (ends : c₄.top.builder.current = some back) (repeats : Turns c₄ (.jump head) exitId c') :
    Circuit c'.top.builder c.top.builder.function.nextBlock head back := by
  have := hp.first_eq
  have := hp.second_eq
  have := hp.third_eq
  have := hp.next₁
  have := hp.next₃
  have := hp.grown₁.nextBlock
  have := hp.grown₂.nextBlock
  -- all blocks of the loop but the one behind it
  let D : Nat → Prop := fun id => head ≤ id ∧ id ≠ exitId
  have hD : ∀ {b : Ir.Builder} {id first : Nat}, b.current = some first → D first →
      exitId < b.function.nextBlock → b.Owns id → D id := by
    intro b id first hcur hfirst hlt ho
    rcases ho with ho | ho
    · cases hcur.symm.trans ho
      exact hfirst
    · exact ⟨by omega, by omega⟩
  have hhead : D head := ⟨Nat.le_refl _, by omega⟩
  have hbody : D bodyId := ⟨by omega, by omega⟩
  have g₁ : c₁.top.builder.function.Gated head D := fun x t ht hm =>
    .inl (edges_opens hr opens x t ht (by have := hm.1; omega))
  have g₂ := hp.grown₁.gated_inside g₁ (fun id hid => ⟨by omega, by omega⟩) ⟨head, hp.cur₁, hhead⟩
  obtain ⟨id, k, hid, -, htop⟩ := turned hp.ready₂.frames turns
  have g₃ : c₃.top.builder.function.Gated head D := by
    rw [htop]
    exact g₂.finish (.inl (hD hp.cur₁ hhead (by omega) (hp.grown₁.owns (.inl hid))))
  have g₄ := (hp.grown₂.gated_inside g₃ (fun id hid => ⟨by omega, by omega⟩)
    ⟨bodyId, hp.cur₃, hbody⟩).below hp.ready₄.shaped.toNumbered
  obtain ⟨id, k, hid, hk, htop⟩ := turned hp.ready₄.frames repeats
  cases ends.symm.trans hid
  have hback : D back := hD hp.cur₃ hbody (by omega) (hp.grown₂.owns (.inl ends))
  have hlt := hp.ready₄.shaped.lt hk
  rw [htop]
  refine ⟨⟨_, g₄.finish (.inl ⟨hback, hlt⟩), ⟨hback, hlt⟩, fun id hid => ⟨?_, hid.2⟩⟩,
    ⟨k.finish (.jump head), Ir.Function.block?_finish_self hk _, rfl⟩,
    fun he => hback.2 (Option.some.inj he).symm⟩
  have := hid.1.1
  omega

/-- Each loop leads back from its end to its head, and is entered at the head only. -/
theorem Looped.circuits (h : Looped r ls c c') (hr : c.Ready) :
    ∀ l ∈ ls, Circuit c'.top.builder c.top.builder.function.nextBlock l.head l.back := by
  induction h with
  | refl | straight | text | declare | function | bare => exact fun l hl => nomatch hl
  | trans h h' ih ih' =>
    obtain ⟨_, s₁, hd⟩ := h.spans hr
    obtain ⟨_, s₂, -⟩ := h'.spans hd
    intro l hl
    rcases List.mem_append.mp hl with hl | hl
    · exact (ih hr l hl).grown s₂.region.toGrown
    · exact (ih' hd l hl).mono s₁.region.nextBlock
  | ret _ _ h hx ih =>
    obtain ⟨_, -, hd⟩ := h.spans hr
    obtain ⟨s₂, -⟩ := Spans.returned hd hx
    exact fun l hl => (ih hr l hl).grown s₂.region.toGrown
  | conditional opens thenPart falls elsePart joins ih ih' =>
    have hp := conditionalParts hr opens thenPart falls elsePart
    have hkept := hp.circuits
      (turns_of_falls hp.ready₂.isOpen falls) (by simp [Ir.Terminator.successors])
      (turns_of_falls hp.ready₄.isOpen joins) (by simp [Ir.Terminator.successors])
    intro l hl
    exact hkept _ _ ((List.mem_append.mp hl).imp (ih hp.ready₁ l) (ih' hp.ready₃ l))
  | repeated opens _ test turns _ round ends repeats ih ih' =>
    have hp := loopParts hr opens test turns round
    have := hp.second_eq
    have := hp.third_eq
    have hrepeats := turns_of_falls hp.ready₄.isOpen repeats
    have hkept := hp.circuits turns
      (by simp [Ir.Terminator.successors]; omega) hrepeats
      (by simp [Ir.Terminator.successors]; omega)
    intro l hl
    rcases List.mem_cons.mp hl with rfl | hl
    · exact hp.circuit hr opens.opens turns ends hrepeats
    · exact hkept _ _ ((List.mem_append.mp hl).imp (ih hp.ready₁ l) (ih' hp.ready₃ l))

end TreeLang.Lowering
