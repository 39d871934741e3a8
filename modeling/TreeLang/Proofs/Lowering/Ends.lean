import TreeLang.Proofs.Builder.Stranded
import TreeLang.Proofs.Lowering.Programs
import TreeLang.Proofs.Lowering.Region

namespace TreeLang.Lowering

open TreeLang.Tree (Ty Expr Stmt FunctionDecl returnsAtEnd returnValues)
open Typing (Registry)
open Ir.Builder (Stranded)
open Lower

variable {r : Registry} {c c' d : Context} {xs ys : List Return} {D : Nat → Prop} {u : Unit}

/-- No edge leads to a block that has just been made. -/
theorem closed_createBlock (hc : c.frames ≠ []) (h : c.top.builder.function.Shaped)
    {label : String} {id : Nat} (hg : Gives (createBlock label) c id c') :
    c'.top.builder.function.Closed (· = id) := by
  obtain ⟨f, rest, hf, rfl, rfl⟩ := gives_createBlock.mp hg
  obtain rfl := Context.top_eq hf
  rw [Context.top_withBuilder hc]
  exact Ir.Function.closed_extend h label

/-- A set of blocks stays closed if the block at hand is in it or no target is. -/
theorem closed_terminate (hc : c.frames ≠ []) {t : Ir.Terminator}
    (h : c.top.builder.function.Closed D)
    (ht : (∃ id, c.top.builder.current = some id ∧ D id) ∨ ∀ s ∈ t.successors, ¬ D s)
    (hg : Gives (emit (·.terminate t)) c u c') :
    c'.frames ≠ [] ∧ c'.top.builder.function.Closed D := by
  obtain ⟨f, rest, id, k, hf, hid, _, _, rfl⟩ := gives_terminate.mp hg
  obtain rfl := Context.top_eq hf
  refine ⟨Context.frames_withBuilder_ne hc _, ?_⟩
  rw [Context.top_withBuilder hc]
  refine h.finish (ht.imp_left ?_)
  rintro ⟨j, hj, hD⟩
  cases hid.symm.trans hj
  exact hD

theorem closed_switchTo (hc : c.frames ≠ []) {id : Nat} (h : c.top.builder.function.Closed D)
    (hg : Gives (switchTo id) c u c') :
    c'.top.builder.function.Closed D ∧ c'.top.builder.current = some id := by
  obtain ⟨f, rest, hf, _, rfl⟩ := gives_switchTo.mp hg
  obtain rfl := Context.top_eq hf
  rw [Context.top_withBuilder hc]
  exact ⟨h, rfl⟩

/-- A block that control cannot come to may lead anywhere. -/
theorem closed_falls (hr : c.Ready) {goal next : Nat} (h : c.top.builder.function.Closed D)
    (hcur : ∃ id, c.top.builder.current = some id ∧ D id) (hg : Falls c goal next c') :
    c'.top.builder.function.Closed D ∧ c'.top.builder.current = some next := by
  obtain ⟨d, hfall, hswitch⟩ := hg
  obtain ⟨hframes, hclosed⟩ :=
    closed_terminate hr.frames h (.inl hcur) (jump_of_fallThrough hr.isOpen hfall)
  exact closed_switchTo hframes hclosed hswitch

/-- Nothing leads to the third of the blocks before the parts have been laid out. -/
theorem closed_opens (hr : c.Ready) {first second third : Nat} {t : Ir.Terminator}
    (ht : ∀ s ∈ t.successors, s = first ∨ s = second) (h : Opens c first second third t c') :
    c'.top.builder.function.Closed (· = third) := by
  obtain ⟨l₁, l₂, l₃, c₁, c₂, c₃, c₄, h₁, h₂, h₃, h₄, h₅⟩ := h
  obtain ⟨s₁, id₁, next₁, -⟩ := (Spans.refl hr).createBlock h₁
  obtain ⟨s₂, id₂, next₂, -⟩ := s₁.createBlock h₂
  obtain ⟨s₃, id₃, -⟩ := s₂.createBlock h₃
  have hclosed := closed_createBlock s₂.frames s₂.region.shaped h₃
  obtain ⟨hframes, hclosed⟩ := closed_terminate s₃.frames hclosed (.inr fun s hs he => by
    have := ht s hs
    omega) h₄
  exact (closed_switchTo hframes hclosed h₅).1

/-- Behind a `return` work goes on in a block that no edge leads to. -/
theorem stranded_returned (hr : c.Ready) {t : Option Typed} {x : Return} (h : Returned t x c c') :
    Stranded c.top.builder c'.top.builder := by
  obtain ⟨d, d₁, d₂, next, hd, hret, hcreate, hswitch⟩ := h.steps
  obtain ⟨s₁, end₁⟩ := Spans.leaves hr h.current hd hret
  obtain ⟨s₂, hnext, hnext₂, -, end₂⟩ := s₁.createBlock hcreate
  obtain ⟨-, -, hcur, hfun⟩ := s₂.switchTo (by simp) (end₂ end₁) hswitch
  have hclosed := closed_createBlock s₁.frames s₁.region.shaped hcreate
  have hle := s₁.region.nextBlock
  refine ⟨(· = next), hfun ▸ hclosed, ⟨next, hcur, rfl⟩, fun id hid => ?_⟩
  rw [hfun, hnext₂]
  omega

section

variable {thenId elseId mergeId : Nat} {o : Ir.Operand} {c₁ c₂ c₃ c₄ : Context}

/-- Where both parts of a conditional are left behind, so is the block where they meet. -/
theorem stranded_conditional (hr : c.Ready)
    (opens : Opens c thenId elseId mergeId (.branch o thenId elseId) c₁)
    (thenPart : Traced r xs c₁ c₂) (hthen : c₁.Ready → Stranded c₁.top.builder c₂.top.builder)
    (falls : Falls c₂ mergeId elseId c₃)
    (elsePart : Traced r ys c₃ c₄) (helse : c₃.Ready → Stranded c₃.top.builder c₄.top.builder)
    (joins : Falls c₄ mergeId mergeId c') : Stranded c.top.builder c'.top.builder := by
  obtain ⟨s₁, o₁, -, hfirst, hsecond, hthird, hnext₁⟩ := Spans.opens hr opens (by simp) (by simp)
    (by simp [Ir.Terminator.successors])
  have closed₁ := closed_opens hr (by simp [Ir.Terminator.successors]) opens
  -- the first part
  have r₁ := s₁.ready o₁
  obtain ⟨t₂, o₂⟩ := thenPart.spans r₁
  obtain ⟨D, closedD, curD, hD⟩ := hthen r₁
  have closed₂ := closedD.union (t₂.region.toGrown.closed closed₁ fun id hid => by omega)
  have s₂ := s₁.trans t₂
  obtain ⟨s₃, o₃, -, hnext₃⟩ := s₂.falls (by simp only [List.mem_singleton]; omega) o₂
    (s₂.target (by simp)) falls
  obtain ⟨closed₃, -⟩ := closed_falls (t₂.ready o₂) closed₂
    (curD.imp fun id hid => ⟨hid.1, .inl hid.2⟩) falls
  have hle₂ := t₂.region.nextBlock
  -- the second part, which leads into neither
  have r₃ := s₃.ready o₃
  obtain ⟨t₄, o₄⟩ := elsePart.spans r₃
  obtain ⟨E, closedE, curE, hE⟩ := helse r₃
  have closed₄ := (t₄.region.toGrown.closed closed₃ fun id hid => by
    rcases hid with hid | hid
    · have := hD id hid
      omega
    · omega).union closedE
  have s₄ := s₃.trans t₄
  obtain ⟨s₅, o₅, -, hnext₅⟩ := s₄.falls (by simp) o₄ (s₄.target (by simp)) joins
  obtain ⟨closed₅, cur₅⟩ := closed_falls (t₄.ready o₄) closed₄
    (curE.imp fun id hid => ⟨hid.1, .inr hid.2⟩) joins
  have hle₄ := t₄.region.nextBlock
  refine ⟨_, closed₅, ⟨mergeId, cur₅, .inl (.inr rfl)⟩, fun id hid => ?_⟩
  rcases hid with (hid | hid) | hid
  · have := hD id hid
    omega
  · omega
  · have := hE id hid
    omega

end

mutual

/-- A statement that definitely returns is a `return`, or a conditional with two branches that do. -/
theorem lowerStmtValue_stranded (r : Registry) : ∀ (s : Stmt) {c c' : Context} {v : Option Typed},
    c.Ready → s.definitelyReturns = true → Gives (lowerStmtValue r s) c v c' →
    Stranded c.top.builder c'.top.builder
  | .expr _, _, _, _, _, hret, _ => by cases hret
  | .var _ _ _, _, _, _, _, hret, _ => by cases hret
  | .function _, _, _, _, _, hret, _ => by cases hret
  | .loop _ _ _ _, _, _, _, _, hret, _ => by cases hret
  | .ite _ _ none, _, _, _, _, hret, _ => by cases hret
  | .ret none, c, c', v, hr, _, h => by
    obtain ⟨t, d, ⟨_, rfl, rfl⟩ | ⟨_, _, hnone, _⟩, hret, _⟩ := lower_ret.mp h
    · obtain ⟨block, operand, hx⟩ := returned_of_gives hret
      exact stranded_returned hr (hx none)
    · cases hnone
  | .ret (some e), c, c', v, hr, _, h => by
    obtain ⟨t, d, ⟨hsome, _⟩ | ⟨_, u, ⟨rfl⟩, rfl, _, he⟩, hret, _⟩ := lower_ret.mp h
    · cases hsome
    · obtain ⟨xs, hxs, _⟩ := lowerExpr_traced r e he
      obtain ⟨hspans, ho⟩ := hxs.spans hr
      obtain ⟨block, operand, hx⟩ := returned_of_gives hret
      exact (stranded_returned (hspans.ready ho) (hx none)).mono hspans.region.nextBlock
  | .ite cond thenBlock (some elseBlock), c, c', v, hr, hret, h => by
    obtain ⟨hthen, helse⟩ := Bool.and_eq_true_iff.mp hret
    obtain ⟨t, d, o, d', he, htest, hcond, _⟩ := lower_ite.mp h
    obtain ⟨xs, hxs, _⟩ := (lowerExpr_traced r cond he).straight (.test .refl htest)
    obtain ⟨hspans, ho⟩ := hxs.spans hr
    obtain ⟨thenId, elseId, mergeId, c₁, c₂, c₃, c₄, c₅, c₆, c₇, c₈, c₉, c₁₀, h₁, h₂, h₃, h₄, h₅, h₆,
      h₇, h₈, h₉, h₁₀, h₁₁⟩ := gives_conditional hcond
    obtain ⟨v₁, hb₁⟩ := lowerBranch_some.mp h₆
    obtain ⟨v₂, hb₂⟩ := lowerBranch_some.mp h₉
    obtain ⟨ys, hys, _⟩ := lowerStmts_traced r none thenBlock hb₁
    obtain ⟨zs, hzs, _⟩ := lowerStmts_traced r none elseBlock hb₂
    exact (stranded_conditional (hspans.ready ho) ⟨_, _, _, c₁, c₂, c₃, c₄, h₁, h₂, h₃, h₄, h₅⟩ hys
      (fun hr => lowerStmts_stranded r thenBlock hr hthen hb₁) ⟨c₇, h₇, h₈⟩ hzs
      (fun hr => lowerStmts_stranded r elseBlock hr helse hb₂) ⟨c₁₀, h₁₀, h₁₁⟩).mono
      hspans.region.nextBlock

/-- A list of statements definitely returns through the last of them. -/
theorem lowerStmts_stranded (r : Registry) : ∀ (ss : List Stmt) {c c' : Context}
    {last v : Option Typed}, c.Ready → returnsAtEnd ss = true → Gives (lowerStmts r last ss) c v c' →
    Stranded c.top.builder c'.top.builder
  | [], _, _, _, _, _, hret, _ => by cases hret
  | [s], c, c', last, v, hr, hret, h => by
    obtain ⟨w, d, hw, hnil⟩ := lowerStmts_cons.mp h
    obtain ⟨_, rfl⟩ := lowerStmts_nil.mp hnil
    exact lowerStmtValue_stranded r s hr hret hw
  | s :: s' :: ss, c, c', last, v, hr, hret, h => by
    obtain ⟨w, d, hw, hss⟩ := lowerStmts_cons.mp h
    obtain ⟨xs, hxs, _⟩ := lowerStmtValue_traced r s hw
    obtain ⟨hspans, ho⟩ := hxs.spans hr
    exact (lowerStmts_stranded r (s' :: ss) (hspans.ready ho) hret hss).mono hspans.region.nextBlock

end

/-- Where control cannot come to the end of a function, nothing is added there. -/
theorem close_unreached (ending : Ending) {id : Nat} (hc : c.frames ≠ [])
    (hid : c.top.builder.current = some id) (hr : c.top.builder.isReachable id = false) :
    Gives (close ending) c () c := by
  unfold close
  simp only [gives_bind, gives_frame]
  refine ⟨c.top, c, ⟨⟨_, Context.frames_eq hc⟩, rfl⟩, ?_⟩
  simp [hid, hr]

/-- The returns of `F` are those of the `return` statements of the body, as they were lowered between
the two points. -/
def ReturnsOf (r : Registry) (body : List Stmt) (d d' : Context) (F : Ir.Function) : Prop :=
  ∃ xs, Traced r xs d d' ∧ xs.map (·.value) = returnValues body ∧
    ∀ k ∈ F.blocks, ∀ operand, k.terminator = .ret operand →
      ∃ x ∈ xs, x.block = k.id ∧ x.operand = operand

section

variable {name : String} {params : List Tree.Param} {returns : Ty} {body : List Stmt}
  {d' : Context} {v : Option Typed}

/-- Behind a body that definitely returns, the block at hand cannot be reached. -/
theorem stranded_body (hret : returnsAtEnd body = true)
    (henter : Gives (enterFunction name params returns) c () d)
    (hbody : Gives (lowerStmts r none body) d v d') :
    ∃ id, d'.frames ≠ [] ∧ d'.top.builder.current = some id ∧ d'.top.builder.isReachable id = false := by
  obtain ⟨-, hr⟩ := Spans.enterFunction henter
  obtain ⟨xs, hxs, _⟩ := lowerStmts_traced r none body hbody
  obtain ⟨s', o'⟩ := hxs.spans hr
  obtain ⟨id, _, hid, _⟩ := s'.region.cursor
  exact ⟨id, s'.frames, hid, (lowerStmts_stranded r body hr hret hbody).not_reachable
    hr.shaped.toNumbered s'.region.shaped.toNumbered hid⟩

/-- Nothing but the `return` statements of a body ends a block in a return. -/
theorem returnsOf_body (henter : Gives (enterFunction name params returns) c () d)
    (hbody : Gives (lowerStmts r none body) d v d') :
    ReturnsOf r body d d' d'.top.builder.prune.function := by
  obtain ⟨s, hr⟩ := Spans.enterFunction henter
  obtain ⟨xs, hxs, hvalues⟩ := lowerStmts_traced r none body hbody
  obtain ⟨s', -⟩ := hxs.spans hr
  have hall := s.trans s'
  refine ⟨xs, hxs, hvalues, fun k hk operand hret => ?_⟩
  have hk : k ∈ d'.top.builder.function.blocks := (List.mem_filter.mp hk).1
  have hfind := Ir.Function.block?_of_mem hall.region.shaped.toNumbered.nodup hk
  -- every block has been made since the function was begun, or is its entry
  have howns : (Frame.start name params returns).builder.Owns k.id := by
    rcases Nat.eq_zero_or_pos k.id with hzero | hpos
    · exact .inl (congrArg some hzero.symm)
    · exact .inr hpos
  have hm := (hall.region.onward k.id k hfind howns).2 operand hret
  obtain ⟨x, hx, he⟩ := List.mem_map.mp hm
  obtain ⟨hblock, hoperand⟩ := Prod.mk.inj he
  exact ⟨x, hx, hblock, hoperand⟩

/-- A function whose body definitely returns is finished as its body left it. -/
theorem finished_of_returnsAtEnd (hret : returnsAtEnd body = true)
    (henter : Gives (enterFunction name params returns) c () d)
    (hbody : Gives (lowerStmts r none body) d v d') {ending : Ending} {d'' : Context} {f : Frame}
    {rest : List Frame} (hclose : Gives (close ending) d' () d'') (hf : d''.frames = f :: rest)
    {m : Ir.Module} (hm : (f.builder.prune.build >>= d''.module.define) = .ok m) :
    m.functions = d'.module.functions ++ [d'.top.builder.prune.function] := by
  obtain ⟨id, hframes, hid, hreach⟩ := stranded_body hret henter hbody
  obtain ⟨-, rfl⟩ := gives_unique hclose (close_unreached ending hframes hid hreach)
  obtain rfl := Context.top_eq hf
  obtain ⟨F, hF, _, _, rfl⟩ := define_eq_ok hm
  rw [(Ir.Builder.build_eq_ok.mp hF).2]

end

/-- Where a block definitely returns, lowering it ends at a block that no path leads to from the
entry. So a function, or a program, with such a body is finished as the body left it: closing it adds
nothing, and each return in it was emitted for a `return` statement of its own. -/
theorem returnsAtEnd_sound (r : Registry) (block : Tree.Block) (hret : returnsAtEnd block = true) :
    (∀ c f rest v c', c.frames = f :: rest → f.builder.function.Shaped → f.builder.IsOpen →
      Gives (lowerBlock r block) c v c' →
      ∃ f' id, c'.frames = f' :: rest ∧ f'.builder.current = some id ∧
        ¬ f'.builder.function.graph.Reached id) ∧
    (∀ name params returns c d v d', Gives (enterFunction name params returns) c () d →
      Gives (lowerBlock r block) d v d' →
      (∀ ending, Gives (close ending) d' () d') ∧
        ReturnsOf r block d d' d'.top.builder.prune.function) ∧
    (∀ name params returns c c', Gives (lowerFunction r ⟨name, params, returns, block⟩) c () c' →
      ∃ d v d', Gives (enterFunction name params returns) c () d ∧
        Gives (lowerBlock r block) d v d' ∧
        c'.module.functions = d'.module.functions ++ [d'.top.builder.prune.function] ∧
        ReturnsOf r block d d' d'.top.builder.prune.function) ∧
    ∀ c c', Gives (lowerEntry r block) c () c' →
      ∃ d v d', Gives (enterFunction entryName [] .int) c () d ∧ Gives (lowerBlock r block) d v d' ∧
        c'.module.functions = d'.module.functions ++ [d'.top.builder.prune.function] ∧
        ReturnsOf r block d d' d'.top.builder.prune.function := by
  refine ⟨?_, ?_, ?_, ?_⟩
  · intro c f rest v c' hc hs ho h
    have hr := ready_of_frames hc hs ho
    obtain ⟨xs, hxs, _⟩ := lowerStmts_traced r none block h
    obtain ⟨s, _⟩ := hxs.spans hr
    obtain ⟨id, _, hid, _⟩ := s.region.cursor
    refine ⟨c'.top, id, ?_, hid, fun hreached => ?_⟩
    · rw [Context.frames_eq s.frames, s.tail, hc]
      rfl
    · have hno := (lowerStmts_stranded r block hr hret h).not_reachable hr.shaped.toNumbered
        s.region.shaped.toNumbered hid
      rw [Ir.Builder.isReachable_iff.mpr hreached] at hno
      cases hno
  · intro name params returns c d v d' henter hbody
    obtain ⟨id, hframes, hid, hreach⟩ := stranded_body hret henter hbody
    exact ⟨fun ending => close_unreached ending hframes hid hreach, returnsOf_body henter hbody⟩
  · intro name params returns c c' h
    obtain ⟨v, d, d', d'', f, rest, m, henter, hbody, hclose, hf, hm, rfl⟩ :=
      gives_lowerFunction.mp h
    exact ⟨d, v, d', henter, hbody, finished_of_returnsAtEnd hret henter hbody hclose hf hm,
      returnsOf_body henter hbody⟩
  · intro c c' h
    obtain ⟨v, d, d', d'', f, rest, m, henter, hbody, hclose, hf, hm, rfl⟩ := gives_lowerEntry.mp h
    exact ⟨d, v, d', henter, hbody, finished_of_returnsAtEnd hret henter hbody hclose hf hm,
      returnsOf_body henter hbody⟩

/-- A loop that may return, then a conditional both of whose parts do; lowered where it stands, and as
the body of a function. -/
theorem returnsAtEnd_sound_conditional :
    let block : Tree.Block :=
      [.var "x" .int (some (.int 0)),
        .loop [] (.ident "x") [] [.ret (some (.int 1))],
        .ite (.ident "x") [.ret (some (.int 2)), .ret (some (.ident "x"))]
          (some [.ite (.int 1) [.ret (some (.int 3))] (some [.ret (some (.int 4))])])]
    let decl : FunctionDecl := ⟨"f", [⟨"y", .int⟩], .int, block⟩
    let r : Registry := ⟨[decl]⟩
    let c := (Context.start "m").enter (.start entryName [] .int)
    returnsAtEnd block = true ∧
      (∃ c', Gives (lowerBlock r block) c none c' ∧ ∃ f' id, c'.frames = [f'] ∧
        f'.builder.current = some id ∧ ¬ f'.builder.function.graph.Reached id) ∧
      ∃ c', Gives (lowerFunction r decl) c () c' ∧
        ∃ d v d', Gives (enterFunction "f" decl.params .int) c () d ∧
          Gives (lowerBlock r block) d v d' ∧
          c'.module.functions = d'.module.functions ++ [d'.top.builder.prune.function] ∧
          ReturnsOf r block d d' d'.top.builder.prune.function := by
  intro block decl r c
  have hret : returnsAtEnd block = true := rfl
  have hblock := gives_of_some (m := lowerBlock r block) (s := c) (a := none) (by decide +kernel)
  have hdecl := gives_of_some (m := lowerFunction r decl) (s := c) (a := ()) (by decide +kernel)
  obtain ⟨hends, -, hfunction, -⟩ := returnsAtEnd_sound r block hret
  exact ⟨hret, ⟨_, hblock, hends c _ [] none _ rfl (Ir.Function.shaped_empty _ _ _)
    ⟨0, .empty 0 "entry", rfl, rfl, rfl⟩ hblock⟩, _, hdecl, hfunction "f" _ .int c _ hdecl⟩

end TreeLang.Lowering
