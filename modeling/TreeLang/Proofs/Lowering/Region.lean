import TreeLang.Proofs.Builder.Spans
import TreeLang.Proofs.Lowering.Functions
import TreeLang.Proofs.Lowering.Steady
import TreeLang.Proofs.Lowering.Trace

namespace TreeLang.Lowering

open TreeLang.Tree (Ty Expr Stmt FunctionDecl)
open Typing (Registry)
open Ir.Builder (Spanned Region)
open Lower

variable {r : Registry} {c c' d d' : Context} {xs ys : List Return} {pending : List Nat} {u : Unit}

/-- Lowering may go on: the function at hand is in shape, and its block has not ended. -/
structure Context.Ready (c : Context) : Prop where
  frames : c.frames ≠ []
  shaped : c.top.builder.function.Shaped
  isOpen : c.top.builder.IsOpen

theorem Sound.ready {g : Ir.Knowledge} (h : Sound r g c) : c.Ready := ⟨h.frames, h.shaped, h.isOpen⟩

/-- The blocks that the `return` statements ended, and what each of them returns. -/
def exits (xs : List Return) : List (Nat × Option Ir.Operand) :=
  xs.map fun x => (x.block, x.operand)

/-- The function at hand has grown by a region, whose returns are `xs`. -/
structure Spans (xs : List Return) (c c' : Context) (pending : List Nat) : Prop where
  frames : c'.frames ≠ []
  tail : c'.frames.tail = c.frames.tail
  region : Spanned c.top.builder c'.top.builder (exits xs) pending

namespace Spans

theorem refl (h : c.Ready) : Spans [] c c [] := ⟨h.frames, rfl, .refl h.shaped h.isOpen⟩

/-- Two regions, one behind the other, are a region. -/
theorem trans (h : Spans xs c d pending) (h' : Spans ys d c' []) : Spans (xs ++ ys) c c' pending where
  frames := h'.frames
  tail := h'.tail.trans h.tail
  region := by
    unfold exits
    rw [List.map_append]
    exact h.region.trans h'.region

/-- Work that returns nowhere may follow any other. -/
theorem andThen (h : Spans xs c d pending) (h' : Spans [] d c' []) : Spans xs c c' pending := by
  have ht := h.trans h'
  rwa [List.append_nil] at ht

theorem ready (h : Spans xs c d pending) (ho : d.top.builder.IsOpen) : d.Ready :=
  ⟨h.frames, h.region.shaped, ho⟩

theorem of_same (hr : c.Ready) (hc : c'.frames ≠ []) (htail : c'.frames.tail = c.frames.tail)
    (htop : c'.top.builder = c.top.builder) : Spans [] c c' [] :=
  ⟨hc, htail, by rw [htop]; exact .refl hr.shaped hr.isOpen⟩

/-- The builder goes on from one point to another. -/
theorem step (h : Spans xs c d pending) {b : Ir.Builder} {pending' : List Nat}
    (hb : Spanned c.top.builder b (exits xs) pending') : Spans xs c (d.withBuilder b) pending' where
  frames := Context.frames_withBuilder_ne h.frames b
  tail := (Context.tail_withBuilder b).trans h.tail
  region := by
    rw [Context.top_withBuilder h.frames b]
    exact hb

/-- Instructions that are added to the block at hand are a region without new blocks. -/
theorem straight (hr : c.Ready) (h : Straight c c') : Spans [] c c' [] ∧ c'.top.builder.IsOpen := by
  induction h with
  | refl => exact ⟨.refl hr, hr.isOpen⟩
  | define _ hi hg ih =>
    obtain ⟨f, rest, id, hf, hid, rfl, rfl⟩ := gives_define.mp hg
    obtain rfl := Context.top_eq hf
    refine ⟨ih.1.step (ih.1.region.assign (hi _) hid), ?_⟩
    rw [Context.top_withBuilder ih.1.frames]
    exact ih.2.assign _
  | append _ hi hg ih =>
    obtain ⟨f, rest, id, hf, hid, rfl⟩ := gives_append.mp hg
    obtain rfl := Context.top_eq hf
    refine ⟨ih.1.step (ih.1.region.add hi hid), ?_⟩
    rw [Context.top_withBuilder ih.1.frames]
    exact ih.2.add _

theorem alloca (hr : c.Ready) {name : String} {ty : Ir.Ty} {slot : Nat}
    (hg : Gives (build (·.alloca name ty)) c slot c') :
    Spans [] c c' [] ∧ c'.top.builder.IsOpen := by
  obtain ⟨f, rest, hf, _, _, rfl⟩ := gives_alloca.mp hg
  obtain rfl := Context.top_eq hf
  refine ⟨(refl hr).step ((refl hr).region.reserve name ty), ?_⟩
  rw [Context.top_withBuilder hr.frames]
  exact hr.isOpen.reserve name ty

theorem declareVar (hr : c.Ready) {name : String} {ty : Ty} {s : Storage}
    (hg : Gives (declareVar name ty) c s c') : Spans [] c c' [] ∧ c'.top.builder.IsOpen := by
  obtain ⟨slot, d, f, rest, ha, hf, _, rfl⟩ := gives_declareVar.mp hg
  obtain ⟨hspans, ho⟩ := alloca hr ha
  have hsame : Spans [] d { d with
      scopes := d.scopes.declare name ty
      frames := { f with locals := (name, s) :: f.locals } :: rest } [] :=
    of_same (hspans.ready ho) (List.cons_ne_nil _ _) (by rw [hf]; rfl)
      (by rw [Context.top_eq hf]; rfl)
  refine ⟨hspans.trans hsame, ?_⟩
  rw [Context.top_eq hf] at ho
  exact ho

/-- A slot for each parameter, and the parameter in it. -/
theorem storeParams {ps : List Tree.Param} {index : Nat} (hr : c.Ready)
    (h : Gives (storeParams index ps) c u c') : Spans [] c c' [] ∧ c'.top.builder.IsOpen := by
  induction ps generalizing index c with
  | nil =>
    obtain ⟨_, rfl⟩ := gives_pure.mp h
    exact ⟨.refl hr, hr.isOpen⟩
  | cons p ps ih =>
    obtain ⟨_, slot, d, d', ha, hstore, h⟩ := storeParams_cons h
    obtain ⟨s₁, o₁⟩ := alloca hr ha
    obtain ⟨s₂, o₂⟩ := straight (s₁.ready o₁) (.append .refl rfl hstore)
    have s₃ := s₁.andThen s₂
    have hbind : Spans [] d' (d'.bindParam p slot) [] :=
      .of_same (s₂.ready o₂) (List.cons_ne_nil _ _) rfl rfl
    obtain ⟨s₄, o₄⟩ := ih (hbind.ready o₂) h
    exact ⟨(s₃.andThen hbind).andThen s₄, o₄⟩

/-- A new block belongs to the region and is pending. -/
theorem createBlock (h : Spans xs c d pending) {label : String} {id : Nat}
    (hg : Gives (createBlock label) d id d') :
    Spans xs c d' (id :: pending) ∧ id = d.top.builder.function.nextBlock ∧
      d'.top.builder.function.nextBlock = id + 1 ∧
      d'.top.builder.current = d.top.builder.current ∧
      (Ended d.top.builder → Ended d'.top.builder) := by
  obtain ⟨f, rest, hf, rfl, rfl⟩ := gives_createBlock.mp hg
  obtain rfl := Context.top_eq hf
  refine ⟨h.step (h.region.extend label), rfl, ?_⟩
  rw [Context.top_withBuilder h.frames]
  exact ⟨rfl, rfl, fun he => he.extend label⟩

/-- The edges of a region lead to its new blocks. -/
theorem terminate (h : Spans xs c d pending) {t : Ir.Terminator} (hset : t ≠ .unset)
    (ht : ∀ s ∈ t.successors, c.top.builder.function.nextBlock ≤ s ∧
      s < d.top.builder.function.nextBlock ∧ d.top.builder.current ≠ some s)
    (hret : ∀ value, t = .ret value → ∃ x ∈ xs, d.top.builder.current = some x.block ∧
      x.operand = value)
    (hg : Gives (emit (·.terminate t)) d u d') :
    Spans xs c d' pending ∧ Ended d'.top.builder ∧
      d'.top.builder.function.nextBlock = d.top.builder.function.nextBlock := by
  obtain ⟨f, rest, id, k, hf, hid, hk, _, rfl⟩ := gives_terminate.mp hg
  obtain rfl := Context.top_eq hf
  have honward : t.Onward (exits xs) id := by
    refine ⟨fun hm => (ht id hm).2.2 hid, fun value hv => ?_⟩
    obtain ⟨x, hx, hblock, hoperand⟩ := hret value hv
    cases hid.symm.trans hblock
    exact List.mem_map.mpr ⟨x, hx, by rw [hoperand]⟩
  refine ⟨h.step (h.region.finish hid (fun s hs => ⟨(ht s hs).1, (ht s hs).2.1⟩) honward), ?_⟩
  rw [Context.top_withBuilder h.frames]
  exact ⟨ended_finish hid hk hset, rfl⟩

/-- Work goes on in a pending block of the region. -/
theorem switchTo {next : Nat} (h : Spans xs c d (next :: pending)) (hn : next ∉ pending)
    (he : Ended d.top.builder) (hg : Gives (switchTo next) d u d') :
    Spans xs c d' pending ∧ d'.top.builder.IsOpen ∧ d'.top.builder.current = some next ∧
      d'.top.builder.function = d.top.builder.function := by
  obtain ⟨f, rest, hf, _, rfl⟩ := gives_switchTo.mp hg
  obtain rfl := Context.top_eq hf
  obtain ⟨j, k, hj, hk, hset⟩ := he
  obtain ⟨_, l, hl, _, hu⟩ := h.region.waiting next List.mem_cons_self
  refine ⟨h.step (h.region.switch hn hj hk hset), ?_⟩
  rw [Context.top_withBuilder h.frames]
  exact ⟨⟨next, l, rfl, hl, hu⟩, rfl, rfl⟩

/-- The block that a `return` ends is the one it says. -/
theorem leaves (hr : c.Ready) {x : Return} (hcur : c.top.builder.current = some x.block)
    (hd : Straight c d) (hg : Gives (emit (·.terminate (.ret x.operand))) d u d') :
    Spans [x] c d' [] ∧ Ended d'.top.builder := by
  obtain ⟨s, -⟩ := straight hr hd
  have hx : Spans [x] c d [] := ⟨s.frames, s.tail, s.region.mono (List.nil_subset _)⟩
  obtain ⟨s₁, end₁, -⟩ := hx.terminate (by simp) (by simp [Ir.Terminator.successors])
    (fun value hv => ⟨x, List.mem_singleton_self x, hd.current.trans hcur, by cases hv; rfl⟩) hg
  exact ⟨s₁, end₁⟩

theorem returned (hr : c.Ready) {t : Option Typed} {x : Return} (h : Returned t x c c') :
    Spans [x] c c' [] ∧ c'.top.builder.IsOpen := by
  obtain ⟨d, d₁, d₂, next, hd, hret, hcreate, hswitch⟩ := h.steps
  obtain ⟨s₁, end₁⟩ := leaves hr h.current hd hret
  obtain ⟨s₂, _, _, _, end₂⟩ := s₁.createBlock hcreate
  obtain ⟨s₃, open₃, _⟩ := s₂.switchTo (by simp) (end₂ end₁) hswitch
  exact ⟨s₃, open₃⟩

section

variable {first second third next goal : Nat} {t : Ir.Terminator}

/-- The start of a conditional or a loop. Its blocks are new and follow each other. -/
theorem opens (hr : c.Ready) (h : Opens c first second third t c') (hset : t ≠ .unset)
    (hret : ∀ value, t ≠ .ret value) (ht : ∀ s ∈ t.successors, s = first ∨ s = second) :
    Spans [] c c' [second, third] ∧ c'.top.builder.IsOpen ∧
      c'.top.builder.current = some first ∧ first = c.top.builder.function.nextBlock ∧
      second = first + 1 ∧ third = second + 1 ∧
      c'.top.builder.function.nextBlock = third + 1 := by
  obtain ⟨l₁, l₂, l₃, c₁, c₂, c₃, c₄, h₁, h₂, h₃, h₄, h₅⟩ := h
  obtain ⟨s₁, id₁, next₁, cur₁, _⟩ := (refl hr).createBlock h₁
  obtain ⟨s₂, id₂, next₂, cur₂, _⟩ := s₁.createBlock h₂
  obtain ⟨s₃, id₃, next₃, cur₃, _⟩ := s₂.createBlock h₃
  obtain ⟨j, k, hj, hk, _⟩ := hr.isOpen
  have hlt := hr.shaped.lt hk
  have hcur : c₃.top.builder.current = some j := cur₃.trans (cur₂.trans (cur₁.trans hj))
  obtain ⟨s₄, end₄, next₄⟩ := s₃.terminate hset (fun s hs => by
    have hs := ht s hs
    rw [hcur]
    refine ⟨by omega, by omega, ?_⟩
    simp only [ne_eq, Option.some.injEq]
    omega) (fun value hv => absurd hv (hret value)) h₄
  have hpending : Spans [] c c₄ [first, second, third] :=
    ⟨s₄.frames, s₄.tail, s₄.region.congr fun id => by simp [or_comm, or_left_comm]⟩
  obtain ⟨s₅, open₅, cur₅, fun₅⟩ := hpending.switchTo (by
    simp only [List.mem_cons, List.not_mem_nil, or_false]
    omega) end₄ h₅
  refine ⟨s₅, open₅, cur₅, id₁, by omega, by omega, ?_⟩
  rw [fun₅]
  omega

/-- A part of a conditional or a loop is left, and the next one begins. -/
theorem turns (h : Spans xs c d (next :: pending)) (hn : next ∉ pending) (hset : t ≠ .unset)
    (hret : ∀ value, t ≠ .ret value)
    (ht : ∀ s ∈ t.successors, c.top.builder.function.nextBlock ≤ s ∧
      s < d.top.builder.function.nextBlock ∧ d.top.builder.current ≠ some s)
    (hg : Turns d t next d') :
    Spans xs c d' pending ∧ d'.top.builder.IsOpen ∧ d'.top.builder.current = some next ∧
      d'.top.builder.function.nextBlock = d.top.builder.function.nextBlock := by
  obtain ⟨d₁, hend, hswitch⟩ := hg
  obtain ⟨s₁, end₁, next₁⟩ := h.terminate hset ht (fun value hv => absurd hv (hret value)) hend
  obtain ⟨s₂, open₂, cur₂, fun₂⟩ := s₁.switchTo hn end₁ hswitch
  exact ⟨s₂, open₂, cur₂, by rw [fun₂, next₁]⟩

/-- A block that is left for one of the region keeps the work in it. -/
theorem falls (h : Spans xs c d (next :: pending)) (hn : next ∉ pending) (ho : d.top.builder.IsOpen)
    (ht : c.top.builder.function.nextBlock ≤ goal ∧
      goal < d.top.builder.function.nextBlock ∧ d.top.builder.current ≠ some goal)
    (hg : Falls d goal next d') :
    Spans xs c d' pending ∧ d'.top.builder.IsOpen ∧ d'.top.builder.current = some next ∧
      d'.top.builder.function.nextBlock = d.top.builder.function.nextBlock := by
  obtain ⟨d₁, hfall, hswitch⟩ := hg
  refine h.turns hn (by simp) (by simp) (fun s hs => ?_) ⟨d₁, jump_of_fallThrough ho hfall, hswitch⟩
  rw [show s = goal by simpa [Ir.Terminator.successors] using hs]
  exact ht

theorem target (h : Spans xs c d pending) (ht : goal ∈ pending) :
    c.top.builder.function.nextBlock ≤ goal ∧ goal < d.top.builder.function.nextBlock ∧
      d.top.builder.current ≠ some goal :=
  ⟨(h.region.waiting goal ht).1, Ir.Builder.Laid.lt_of_pending h.region.toGrown ht,
    h.region.current_ne_pending ht⟩

/-- The cursor does not come back to an older block that it has left. -/
theorem current_ne (h : Spans xs c d []) (goal : Nat)
    (hlt : goal < c.top.builder.function.nextBlock) (hne : c.top.builder.current ≠ some goal) :
    d.top.builder.current ≠ some goal := by
  obtain ⟨k, hk⟩ := h.region.numbered.block? hlt
  exact h.region.toGrown.current_ne hk hne

end

end Spans

theorem Context.ready_enter (c : Context) (name : String) (params : List Tree.Param) (returns : Ty) :
    (c.enter (.start name params returns)).Ready where
  frames := List.cons_ne_nil _ _
  shaped := Ir.Function.shaped_empty _ _ _
  isOpen := ⟨0, .empty 0 "entry", rfl, rfl, rfl⟩

/-- A function that has been begun, from its entry on. -/
theorem Spans.enterFunction {name : String} {params : List Tree.Param} {returns : Ty}
    (h : Gives (enterFunction name params returns) c u c') :
    Spans [] (c.enter (.start name params returns)) c' [] ∧ c'.Ready := by
  obtain ⟨s, ho⟩ := Spans.storeParams (c.ready_enter name params returns)
    (gives_enterFunction.mp h)
  exact ⟨s, s.ready ho⟩

/-- A trace from an open block lays out a region, and returns where `return` statements were lowered
only. -/
theorem Traced.spans (h : Traced r xs c c') (hr : c.Ready) :
    Spans xs c c' [] ∧ c'.top.builder.IsOpen := by
  induction h with
  | refl c => exact ⟨.refl hr, hr.isOpen⟩
  | trans _ _ ih ih' =>
    obtain ⟨s, ho⟩ := ih hr
    obtain ⟨s', ho'⟩ := ih' (s.ready ho)
    exact ⟨s.trans s', ho'⟩
  | straight h => exact Spans.straight hr h
  | text hg =>
    obtain ⟨_, rfl⟩ := lower_str.mp hg
    exact ⟨.of_same hr hr.frames rfl rfl, hr.isOpen⟩
  | declare hg => exact Spans.declareVar hr hg
  | @function decl c c' hg =>
    have hapart : Apart c c' := by
      have h := lowerFunction_apart r decl c
      rwa [hg] at h
    have htop : c'.top = c.top := by
      unfold Context.top
      rw [hapart.frames]
    exact ⟨.of_same hr (hapart.frames ▸ hr.frames) (by rw [hapart.frames]) (by rw [htop]),
      htop ▸ hr.isOpen⟩
  | bare _ hx => exact Spans.returned hr hx
  | ret _ _ _ hx ih =>
    obtain ⟨s, ho⟩ := ih hr
    obtain ⟨s', ho'⟩ := Spans.returned (s.ready ho) hx
    exact ⟨s.trans s', ho'⟩
  | conditional opens _ falls _ joins ih ih' =>
    obtain ⟨s₁, o₁, -, -, -, hthird, -⟩ := Spans.opens hr opens (by simp) (by simp)
      (by simp [Ir.Terminator.successors])
    obtain ⟨s₂, o₂⟩ := ih (s₁.ready o₁)
    have s₂ := s₁.trans s₂
    obtain ⟨s₃, o₃, -⟩ := s₂.falls (by simp only [List.mem_singleton]; omega) o₂
      (s₂.target (by simp)) falls
    obtain ⟨s₄, o₄⟩ := ih' (s₃.ready o₃)
    have s₄ := s₃.trans s₄
    obtain ⟨s₅, o₅, -⟩ := s₄.falls (by simp) o₄ (s₄.target (by simp)) joins
    exact ⟨s₅, o₅⟩
  | @repeated _ _ condId _ _ _ _ _ _ _ _ _ opens _ turns _ repeats ih ih' =>
    obtain ⟨s₁, o₁, -, hfirst, hsecond, hthird, hnext⟩ := Spans.opens hr opens (by simp) (by simp)
      (by simp [Ir.Terminator.successors])
    obtain ⟨s₂, o₂⟩ := ih (s₁.ready o₁)
    have hle₂ := s₂.region.nextBlock
    have s₂ := s₁.trans s₂
    obtain ⟨s₃, o₃, cur₃, next₃⟩ := s₂.turns (by simp only [List.mem_singleton]; omega) (by simp)
      (by simp) (fun s hs => s₂.target (by simpa [Ir.Terminator.successors] using hs)) turns
    obtain ⟨s₄, o₄⟩ := ih' (s₃.ready o₃)
    -- the rounds lead back to the first block, which the cursor left for the second one
    have hback := s₄.current_ne condId (by omega) (by
      rw [cur₃]
      simp only [ne_eq, Option.some.injEq]
      omega)
    have hle₄ := s₄.region.nextBlock
    have s₄ := s₃.trans s₄
    obtain ⟨s₅, o₅, -⟩ := s₄.falls (by simp) o₄ ⟨by omega, by omega, hback⟩ repeats
    exact ⟨s₅, o₅⟩

def Continues (f : Frame) (rest : List Frame) (c' : Context) : Prop :=
  ∃ f', c'.frames = f' :: rest ∧ f'.builder.function.Shaped ∧ f.builder.Region f'.builder

theorem ready_of_frames {f : Frame} {rest : List Frame} (hc : c.frames = f :: rest)
    (hs : f.builder.function.Shaped) (ho : f.builder.IsOpen) : c.Ready := by
  obtain rfl := Context.top_eq hc
  exact ⟨by simp [hc], hs, ho⟩

/-- Whatever the trace of a lowering, the function at hand has grown by a region. -/
theorem Traces.continues {values : List (Option Expr)} {f : Frame} {rest : List Frame}
    (h : Traces r values c c') (hc : c.frames = f :: rest) (hs : f.builder.function.Shaped)
    (ho : f.builder.IsOpen) : Continues f rest c' := by
  obtain ⟨xs, hx, _⟩ := h
  obtain ⟨hspans, hopen⟩ := hx.spans (ready_of_frames hc hs ho)
  obtain rfl := Context.top_eq hc
  refine ⟨c'.top, ?_, hspans.region.shaped, hspans.region.region hs hopen⟩
  rw [Context.frames_eq hspans.frames, hspans.tail, hc]
  rfl

/-- A function is begun in shape, at an open block. Whatever is lowered with success in such a frame,
be it an expression, a statement or a block of statements, lays out a region from there, and leaves the
frame as such a one. -/
theorem lower_region (r : Registry) :
    (∀ name params returns c c', Gives (enterFunction name params returns) c () c' →
      ∃ f, c'.frames = f :: c.frames ∧ f.builder.function.Shaped ∧ f.builder.IsOpen) ∧
    ∀ (c : Context) (f : Frame) (rest : List Frame), c.frames = f :: rest →
      f.builder.function.Shaped → f.builder.IsOpen →
      (∀ e v c', Gives (lowerExpr r e) c v c' → Continues f rest c') ∧
      (∀ s v c', Gives (lowerStmt r s) c v c' → Continues f rest c') ∧
      ∀ block v c', Gives (lowerBlock r block) c v c' → Continues f rest c' := by
  refine ⟨fun name params returns c c' h => ?_, fun c f rest hc hs ho =>
    ⟨fun e v c' h => ?_, fun s v c' h => ?_, fun block v c' h => ?_⟩⟩
  · obtain ⟨s, hr⟩ := Spans.enterFunction h
    exact ⟨c'.top, by rw [Context.frames_eq hr.frames, s.tail]; rfl, hr.shaped, hr.isOpen⟩
  · exact (lowerExpr_traced r e h).continues hc hs ho
  · have hs' : Gives (lowerStmtValue r s) c v c' := by
      unfold lowerStmt at h
      simp only [gives_bind, gives_get, pinned, gives_adapt] at h
      obtain ⟨_, _, ⟨rfl, rfl⟩, h⟩ := h
      exact h
    exact (lowerStmtValue_traced r s hs').continues hc hs ho
  · exact (lowerStmts_traced r none block h).continues hc hs ho

/-- A loop with a conditional, a `return` and a function in its body, behind a variable. -/
theorem lower_region_loop :
    let block : Tree.Block :=
      [.var "x" .int (some (.int 3)),
        .loop [.assign "x" (.int 1)] (.binary .lt (.ident "x") (.int 5))
          [.assign "x" (.binary .add (.ident "x") (.int 1))]
          [.ite (.ident "x") [.ret (some (.ident "x"))] none,
            .function ⟨"g", [⟨"y", .int⟩], .int, [.ret (some (.ident "y"))]⟩]]
    let r : Registry := ⟨Tree.nestedFunctions block⟩
    let enter := enterFunction "f" [⟨"z", .int⟩] .int
    ∃ c f c', Gives enter (.start "m") () c ∧ c.frames = [f] ∧
      Gives (lowerBlock r block) c none c' ∧ Continues f [] c' := by
  intro block r enter
  obtain ⟨hbegun, hgrown⟩ := lower_region r
  have henter := gives_of_some (m := enter) (s := .start "m") (a := ()) (by decide +kernel)
  obtain ⟨f, hc, hs, ho⟩ := hbegun _ _ _ _ _ henter
  have h := gives_of_some (m := lowerBlock r block) (s := (outcome enter (.start "m")).2)
    (a := none) (by decide +kernel)
  exact ⟨_, f, _, henter, hc, h, (hgrown _ f [] hc hs ho).2.2 block none _ h⟩

end TreeLang.Lowering
