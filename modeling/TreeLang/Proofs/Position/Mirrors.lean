import TreeLang.Proofs.Agreement.Progress
import TreeLang.Proofs.Position.Moved
import TreeLang.Proofs.Position.Twins

namespace TreeLang.Lowering

open TreeLang.Tree (Ty Expr Stmt FunctionDecl)
open Typing (Registry Callee)
open Lower

/-- What a part of a tree adds to a module, and what its counterpart adds to the other one. -/
structure Share where
  texts : List String
  texts' : List String
  made : List FunctionDecl

namespace Share

def none : Share := ⟨[], [], []⟩

def and (σ τ : Share) : Share :=
  ⟨σ.texts ++ τ.texts, σ.texts' ++ τ.texts', σ.made ++ τ.made⟩

@[simp] theorem and_none (σ : Share) : σ.and none = σ := by
  simp [and, none]

theorem and_assoc (σ τ υ : Share) : (σ.and τ).and υ = σ.and (τ.and υ) := by
  simp [and]

end Share

/-- The registries announce the same functions, whose bodies may differ. -/
def Alike (r r' : Registry) : Prop :=
  ∀ name, (r'.get? name).map (·.bare) = (r.get? name).map (·.bare)

theorem Alike.get?_eq_none {r r' : Registry} (h : Alike r r') {name : String} :
    r'.get? name = none ↔ r.get? name = none := by
  rw [← Option.map_eq_none_iff, h name, Option.map_eq_none_iff]

variable {r r' : Registry} {ρ : Nat → Nat} {n n' : Nat} {σ τ : Share}

/-- Texts and functions have been added to the module, and the functions around the one at hand stay
as they were. -/
structure Added (texts : List String) (Fs : List Ir.Function) (c c' : Context) : Prop where
  strings : c'.module.strings = c.module.strings ++ texts
  functions : c'.module.functions = c.module.functions ++ Fs
  externals : ∀ name, (∀ F ∈ Fs, F.name ≠ name) →
    c'.module.external? name = c.module.external? name
  tail : c'.frames.tail = c.frames.tail
  name : c'.top.builder.function.name = c.top.builder.function.name

theorem Still.added {c c' : Context} (h : Still c c') : Added [] [] c c' where
  strings := by rw [h.module, List.append_nil]
  functions := by rw [h.module, List.append_nil]
  externals _ _ := by rw [h.module]
  tail := h.tail
  name := h.name

/-- What is added later stands behind what was added before. -/
theorem Added.trans {texts texts' : List String} {Fs Fs' : List Ir.Function} {c c' c'' : Context}
    (h : Added texts Fs c c') (h' : Added texts' Fs' c' c'') :
    Added (texts ++ texts') (Fs ++ Fs') c c'' where
  strings := by rw [h'.strings, h.strings, List.append_assoc]
  functions := by rw [h'.functions, h.functions, List.append_assoc]
  externals name hname := by
    rw [h'.externals name fun F hF => hname F (List.mem_append_right _ hF),
      h.externals name fun F hF => hname F (List.mem_append_left _ hF)]
  tail := h'.tail.trans h.tail
  name := h'.name.trans h.name

/-- The function at hand goes to the module, and work goes on in the one around it. -/
theorem Added.define {texts : List String} {Fs : List Ir.Function} {c d : Context} {f : Frame}
    (h : Added texts Fs (c.enter f) d) (F : Ir.Function) :
    Added texts (Fs ++ [F]) c { d with
      module := { d.module with
        functions := d.module.functions ++ [F]
        externals := d.module.externals.filter (·.name != F.name) }
      scopes := d.scopes.leave
      frames := d.frames.tail } where
  strings := h.strings
  functions := by
    rw [← List.append_assoc]
    exact congrArg (· ++ [F]) h.functions
  externals name hname := by
    have hold := h.externals name fun G hG => hname G (List.mem_append_left _ hG)
    have hne : F.name ≠ name := hname F (List.mem_append_right _ (List.mem_singleton.mpr rfl))
    refine Eq.trans ?_ hold
    unfold Ir.Module.external?
    rw [List.find?_filter]
    refine congrArg (List.find? · d.module.externals) (funext fun x => ?_)
    by_cases hx : x.name = name
    · simp [hx, hne.symm]
    · simp [hx]
  tail := congrArg List.tail h.tail
  name := by
    have htail : d.frames.tail = c.frames := h.tail
    simp [Context.top, htail]

def Filled (ρ : Nat → Nat) (σ : Share) (c c' k k' : Context) : Prop :=
  ∃ Fs Fs', Added σ.texts Fs c c' ∧ Added σ.texts' Fs' k k' ∧
    Fs'.Perm (Fs.map (·.renumber ρ)) ∧ Fs'.map (·.name) = σ.made.map (·.name)

theorem Filled.of_still {c c' k k' : Context} (hc : Still c c') (hk : Still k k') :
    Filled ρ .none c c' k k' :=
  ⟨[], [], hc.added, hk.added, .nil, rfl⟩

theorem Filled.trans {c c' c'' k k' k'' : Context} (h : Filled ρ σ c c' k k')
    (h' : Filled ρ τ c' c'' k' k'') : Filled ρ (σ.and τ) c c'' k k'' := by
  obtain ⟨Fs, Fs', hc, hk, hperm, hnames⟩ := h
  obtain ⟨Gs, Gs', hc', hk', hperm', hnames'⟩ := h'
  refine ⟨Fs ++ Gs, Fs' ++ Gs', hc.trans hc', hk.trans hk', ?_, ?_⟩
  · rw [List.map_append]
    exact hperm.append hperm'
  · rw [List.map_append, hnames, hnames', ← List.map_append]
    rfl

/-- The modules before two corresponding parts: how many strings they hold, and that the second one
does not yet hold the functions that are to come. -/
structure Beside (r r' : Registry) (n n' : Nat) (ds : List FunctionDecl) (c k : Context) : Prop where
  strings : c.module.strings.length = n
  strings' : k.module.strings.length = n'
  externals : ∀ name, r.get? name = none → c.module.external? name = Ir.prototype? name
  externals' : ∀ name, r'.get? name = none → k.module.external? name = Ir.prototype? name
  fresh : Fresh ds k.module
  registered : Registered r' ds

namespace Beside

variable {ds ds' : List FunctionDecl} {c c' k k' : Context}

theorem left (h : Beside r r' n n' (ds ++ ds') c k) : Beside r r' n n' ds c k :=
  { h with fresh := h.fresh.left, registered := h.registered.left }

theorem right (h : Beside r r' n n' (ds ++ ds') c k) : Beside r r' n n' ds' c k :=
  { h with fresh := h.fresh.comm.left, registered := h.registered.right }

theorem congr (h : Beside r r' n n' ds c k) (hc : c'.module = c.module)
    (hk : k'.module = k.module) : Beside r r' n n' ds c' k' := by
  refine ⟨?_, ?_, ?_, ?_, ?_, h.registered⟩
  · rw [hc, h.strings]
  · rw [hk, h.strings']
  · rw [hc]
    exact h.externals
  · rw [hk]
    exact h.externals'
  · rw [hk]
    exact h.fresh

theorem before (h : Beside r r' n n' ds c k) {texts : List String} {Fs : List Ir.Function}
    (ha : Added texts Fs c c') (hFs : ∀ F ∈ Fs, r.get? F.name ≠ none) :
    Beside r r' (n + texts.length) n' ds c' k :=
  { h with
    strings := by rw [ha.strings, List.length_append, h.strings]
    externals := by
      intro name hnone
      rw [ha.externals name, h.externals name hnone]
      intro F hF he
      exact hFs F hF (he ▸ hnone) }

theorem after (h : Beside r r' n n' (ds ++ ds') c k) {texts : List String} {Fs : List Ir.Function}
    (ha : Added texts Fs k k') (hFs : Fs.map (·.name) = ds.map (·.name)) :
    Beside r r' n (n' + texts.length) ds' c k' := by
  have hname : ∀ F ∈ Fs, ∃ d ∈ ds, d.name = F.name := by
    intro F hF
    have hm : F.name ∈ Fs.map (·.name) := List.mem_map_of_mem hF
    rw [hFs] at hm
    exact List.mem_map.mp hm
  refine { h.right with strings' := ?_, externals' := ?_, fresh := ⟨h.fresh.comm.left.nodup, ?_⟩ }
  · rw [ha.strings, List.length_append, h.strings']
  · intro name hnone
    rw [ha.externals name, h.externals' name hnone]
    intro F hF he
    obtain ⟨d, hd, hdF⟩ := hname F hF
    rw [← he, ← hdF, h.registered d (List.mem_append_left _ hd)] at hnone
    cases hnone
  · intro d hd F hF
    rw [ha.functions] at hF
    rcases List.mem_append.mp hF with hF | hF
    · exact h.fresh.absent d (List.mem_append_right _ hd) F hF
    · obtain ⟨e, he, heF⟩ := hname F hF
      have hn := h.fresh.nodup
      rw [List.map_append, List.nodup_append] at hn
      rw [← heF]
      exact hn.2.2 e.name (List.mem_map_of_mem he) d.name (List.mem_map_of_mem hd)

/-- The functions of a share are known to the first registry too. -/
theorem known (halike : Alike r r') (h : Beside r r' n n' ds c k) {Fs Fs' : List Ir.Function}
    (hperm : Fs'.Perm (Fs.map (·.renumber ρ))) (hFs : Fs'.map (·.name) = ds.map (·.name)) :
    ∀ F ∈ Fs, r.get? F.name ≠ none := by
  intro F hF hnone
  have hm : F.name ∈ Fs'.map (·.name) :=
    List.mem_map.mpr ⟨F.renumber ρ, hperm.mem_iff.mpr (List.mem_map_of_mem hF), rfl⟩
  rw [hFs] at hm
  obtain ⟨d, hd, he⟩ := List.mem_map.mp hm
  rw [← halike.get?_eq_none, ← he, h.registered d hd] at hnone
  cases hnone

/-- Behind corresponding parts the modules are beside each other again, with more strings. -/
theorem next (halike : Alike r r') (h : Beside r r' n n' (σ.made ++ ds) c k)
    (hf : Filled ρ σ c c' k k') :
    Beside r r' (n + σ.texts.length) (n' + σ.texts'.length) ds c' k' := by
  obtain ⟨Fs, Fs', hc, hk, hperm, hnames⟩ := hf
  exact (h.after hk hnames).before hc (h.left.known halike hperm hnames)

end Beside

/-- What succeeds in the first run succeeds in the second one, is called `f` of it there, and both
modules are filled with a share. -/
def Mirrors {ε ε' α β : Type} (r r' : Registry) (ρ : Nat → Nat) (n n' : Nat) (σ : Share) (f : α → β)
    (m : Lower ε α) (m' : Lower ε' β) : Prop :=
  ∀ c a c' k, Beside r r' n n' σ.made c k → Twin ρ c k → Gives m c a c' →
    ∃ k', Gives m' k (f a) k' ∧ Twin ρ c' k' ∧ Filled ρ σ c c' k k'

section

variable {ε ε' α β γ δ : Type} {f : α → β} {g : γ → δ} {m : Lower ε α} {m' : Lower ε' β}
  {h : α → Lower ε γ} {h' : β → Lower ε' δ}

/-- Twin work on the functions at hand adds nothing to the modules. -/
theorem Level.mirrors (hm : Level ρ f m m') : Mirrors r r' ρ n n' .none f m m' := by
  intro c a c' k _ ht hg
  obtain ⟨k', hk', ht', hc, hk⟩ := hm c a c' k ht hg
  exact ⟨k', hk', ht', .of_still hc hk⟩

/-- Two runs mirror each other if their parts do, where the second part starts from as many more
strings. -/
theorem mirrors_bind (halike : Alike r r') (hm : Mirrors r r' ρ n n' σ f m m')
    (hh : ∀ a, Mirrors r r' ρ (n + σ.texts.length) (n' + σ.texts'.length) τ g (h a) (h' (f a))) :
    Mirrors r r' ρ n n' (σ.and τ) g (m >>= h) (m' >>= h') := by
  intro c b c' k hbeside ht hg
  obtain ⟨a, d, ha, hb⟩ := gives_bind.mp hg
  obtain ⟨l, hl, ht₁, hf₁⟩ := hm c a d k hbeside.left ht ha
  obtain ⟨k', hk', ht₂, hf₂⟩ := hh a d b c' l (hbeside.next halike hf₁) ht₁ hb
  exact ⟨k', gives_bind.mpr ⟨f a, l, hl, hk'⟩, ht₂, hf₁.trans hf₂⟩

theorem mirrors_refused {e : ε} {h : α → Lower ε γ} {m' : Lower ε' δ} :
    Mirrors r r' ρ n n' σ g (throw e >>= h) m' := by
  intro c b c' k _ _ hg
  obtain ⟨_, _, hthrow, _⟩ := gives_bind.mp hg
  exact absurd hthrow gives_throw

theorem mirrors_nothing :
    Mirrors r r' ρ n n' .none id (pure () : Lower ε Unit) (pure () : Lower ε' Unit) :=
  Level.mirrors (level_pure rfl)

/-- The contexts themselves may be looked at where the runs agree in what follows. -/
theorem mirrors_get {h : Context → Lower ε α} {h' : Context → Lower ε' β}
    (hh : ∀ c k, Mirrors r r' ρ n n' σ f (h c) (h' k)) :
    Mirrors r r' ρ n n' σ f (get >>= h) (get >>= h') := by
  intro c a c' k hbeside ht hg
  obtain ⟨_, _, hget, hg⟩ := gives_bind.mp hg
  obtain ⟨rfl, rfl⟩ := gives_get.mp hget
  obtain ⟨k', hk', hrest⟩ := hh _ k _ a c' k hbeside ht hg
  exact ⟨k', gives_bind.mpr ⟨k, k, gives_get.mpr ⟨rfl, rfl⟩, hk'⟩, hrest⟩

theorem mirrors_after (halike : Alike r r') (hm : Level ρ f m m')
    (hh : ∀ a, Mirrors r r' ρ n n' σ g (h a) (h' (f a))) :
    Mirrors r r' ρ n n' σ g (m >>= h) (m' >>= h') := by
  have hbind := mirrors_bind (σ := .none) halike hm.mirrors hh
  exact hbind

theorem mirrors_before (halike : Alike r r') (hm : Mirrors r r' ρ n n' σ f m m')
    (hh : ∀ a, Level ρ g (h a) (h' (f a))) : Mirrors r r' ρ n n' σ g (m >>= h) (m' >>= h') := by
  have hbind := mirrors_bind halike hm fun a => (hh a).mirrors
  rwa [Share.and_none] at hbind

theorem mirrors_adapt {ζ ζ' : Type} (e : ε → ζ) (e' : ε' → ζ') (hm : Mirrors r r' ρ n n' σ f m m') :
    Mirrors r r' ρ n n' σ f (m.adapt e) (m'.adapt e') := by
  intro c a c' k hbeside ht hg
  obtain ⟨k', hk', hrest⟩ := hm c a c' k hbeside ht (gives_adapt.mp hg)
  exact ⟨k', gives_adapt.mpr hk', hrest⟩

theorem mirrors_discard (hm : Mirrors r r' ρ n n' σ f m m') :
    Mirrors r r' ρ n n' σ id (discard m) (discard m') := by
  intro c a c' k hbeside ht hg
  obtain ⟨b, hb⟩ := gives_discard.mp hg
  obtain ⟨k', hk', hrest⟩ := hm c b c' k hbeside ht hb
  exact ⟨k', gives_discard.mpr ⟨f b, hk'⟩, hrest⟩

end

theorem mirrors_needed {role role' : String} {e e' : Expr} {m m' : Lower Cause (Option Typed)}
    (hm : Mirrors r r' ρ n n' σ (Option.map (Typed.renumber ρ)) m m') :
    Mirrors r r' ρ n n' σ (Typed.renumber ρ) (needed role e m) (needed role' e' m') := by
  intro c t c' k hbeside ht hg
  obtain ⟨k', hk', hrest⟩ := hm c _ c' k hbeside ht (gives_needed.mp hg)
  exact ⟨k', gives_needed.mpr hk', hrest⟩

/-- Conditionals mirror each other if their branches do. -/
theorem mirrors_conditional (halike : Alike r r') (condition : Ir.Operand)
    {thenPart thenPart' elsePart elsePart' : Lower Cause Unit}
    (hthen : Mirrors r r' ρ n n' σ id thenPart thenPart')
    (helse : Mirrors r r' ρ (n + σ.texts.length) (n' + σ.texts'.length) τ id elsePart elsePart') :
    Mirrors r r' ρ n n' (σ.and τ) id (conditional condition thenPart elsePart)
      (conditional (condition.renumber ρ) thenPart' elsePart') := by
  unfold conditional
  apply mirrors_after halike (level_createBlock "then")
  intro thenId
  apply mirrors_after halike (level_createBlock "else")
  intro elseId
  apply mirrors_after halike (level_createBlock "ifcont")
  intro mergeId
  apply mirrors_after halike (level_terminate (.branch condition thenId elseId))
  intro _
  apply mirrors_after halike (level_switchTo thenId)
  intro _
  apply mirrors_bind halike hthen
  intro _
  apply mirrors_after halike (level_fallThrough mergeId)
  intro _
  apply mirrors_after halike (level_switchTo elseId)
  intro _
  apply mirrors_before halike helse
  intro _
  exact level_bind (level_fallThrough mergeId) fun _ => level_switchTo mergeId

theorem mirrors_repeated (halike : Alike r r') {condition condition' : Lower Cause Ir.Operand}
    {body body' : Lower Cause Unit}
    (hcond : Mirrors r r' ρ n n' σ (Ir.Operand.renumber ρ) condition condition')
    (hbody : Mirrors r r' ρ (n + σ.texts.length) (n' + σ.texts'.length) τ id body body') :
    Mirrors r r' ρ n n' (σ.and τ) id (repeated condition body) (repeated condition' body') := by
  unfold repeated
  apply mirrors_after halike (level_createBlock "loop.cond")
  intro condId
  apply mirrors_after halike (level_createBlock "loop.body")
  intro bodyId
  apply mirrors_after halike (level_createBlock "loop.exit")
  intro exitId
  apply mirrors_after halike (level_terminate (.jump condId))
  intro _
  apply mirrors_after halike (level_switchTo condId)
  intro _
  apply mirrors_bind halike hcond
  intro test
  apply mirrors_after halike (level_terminate (.branch test bodyId exitId))
  intro _
  apply mirrors_after halike (level_switchTo bodyId)
  intro _
  apply mirrors_before halike hbody
  intro _
  exact level_bind (level_fallThrough condId) fun _ => level_switchTo exitId

theorem resolve_alike (halike : Alike r r') {ds : List FunctionDecl} {c k : Context}
    (hbeside : Beside r r' n n' ds c k) {name : String} {callee : Callee}
    (h : Callee.resolve r c.module.external? name = .ok callee) :
    ∃ callee', Callee.resolve r' k.module.external? name = .ok callee' ∧
      Callee.Alike callee callee' := by
  have hsame := halike name
  unfold Callee.resolve at h ⊢
  cases hr : r.get? name with
  | none =>
    have hr' := halike.get?_eq_none.mpr hr
    rw [hr, hbeside.externals name hr] at h
    rw [hr', hbeside.externals' name hr']
    exact ⟨callee, h, ⟨rfl, rfl, rfl, fun _ => rfl⟩⟩
  | some d =>
    rw [hr] at h hsame
    cases h
    obtain ⟨d', hd', hbare⟩ := Option.map_eq_some_iff.mp hsame
    rw [hd']
    obtain ⟨name', params', returns', body'⟩ := d'
    obtain ⟨rfl, rfl, rfl, _⟩ := FunctionDecl.mk.inj hbare
    exact ⟨_, rfl, ⟨rfl, rfl, rfl, fun _ => rfl⟩⟩

def Defined (r : Registry) (name : String) (params : List Tree.Param) (returns : Ty)
    (ending : Option Typed → Ending) (body : List Stmt) (c c' : Context) : Prop :=
  ∃ v d d' d'' f rest m,
    Gives (enterFunction name params returns) c () d ∧ Gives (lowerStmts r none body) d v d' ∧
    Gives (close (ending v)) d' () d'' ∧ d''.frames = f :: rest ∧
    (f.builder.prune.build >>= d''.module.define) = .ok m ∧
    c' = { d'' with module := m, scopes := d''.scopes.leave, frames := rest }

/-- A function is defined beside the one at hand, of which the runs need not agree. -/
theorem defined_mirrors (ending : Option Typed → Ending) {name : String}
    {params : List Tree.Param} {returns : Ty} {body body' : List Stmt}
    (hending : ∀ v, (ending v).renumber ρ = ending (v.map (·.renumber ρ)))
    (hbody : Mirrors r r' ρ n n' σ (Option.map (Typed.renumber ρ)) (lowerStmts r none body)
      (lowerStmts r' none body')) {c c' k : Context} (hbeside : Beside r r' n n' σ.made c k)
    (habsent : ∀ F ∈ k.module.functions, F.name ≠ name) (hother : ∀ d ∈ σ.made, d.name ≠ name)
    (h : Defined r name params returns ending body c c') :
    ∃ k', Defined r' name params returns ending body' k k' ∧ c'.frames = c.frames ∧
      k'.frames = k.frames ∧
      Filled ρ (σ.and ⟨[], [], [⟨name, params, returns, body'⟩]⟩) c c' k k' := by
  obtain ⟨v, d, d', d'', f, rest, m, henter, hlower, hclose, hf, hm, rfl⟩ := h
  have hstart : Twin ρ (c.enter (.start name params returns))
      (k.enter (.start name params returns)) := ⟨List.cons_ne_nil _ _, List.cons_ne_nil _ _, rfl⟩
  obtain ⟨l, hl, ht₁, hc₁, hk₁⟩ :=
    level_storeParams 0 params _ () d _ hstart (gives_enterFunction.mp henter)
  obtain ⟨l', hl', ht₂, Fs, Fs', hc₂, hk₂, hperm, hnames⟩ :=
    hbody d v d' l (hbeside.congr hc₁.module hk₁.module) ht₁ hlower
  obtain ⟨l'', hl'', ht₃, hc₃, hk₃⟩ := level_close (ending v) d' () d'' l' ht₂ hclose
  rw [hending] at hl''
  have hc := (hc₁.added.trans hc₂).trans hc₃.added
  have hk := (hk₁.added.trans hk₂).trans hk₃.added
  simp only [List.nil_append, List.append_nil] at hc hk
  obtain rfl := Context.top_eq hf
  obtain rfl : rest = d''.frames.tail := by rw [hf]; rfl
  obtain ⟨F, hF, _, hname, rfl⟩ := define_eq_ok hm
  have hname : F.name = name := hname.trans hc.name
  have hF' : l''.top.builder.prune.build = .ok (F.renumber ρ) := by
    rw [ht₃.top]
    exact Ir.Builder.build_renumber hF
  have hnew : ∀ G ∈ l''.module.functions, G.name ≠ (F.renumber ρ).name := by
    intro G hG
    change G.name ≠ F.name
    rw [hname]
    rw [hk.functions] at hG
    rcases List.mem_append.mp hG with hG | hG
    · exact habsent G hG
    · have hm : G.name ∈ Fs'.map (·.name) := List.mem_map_of_mem hG
      rw [hnames] at hm
      obtain ⟨e, he, heG⟩ := List.mem_map.mp hm
      rw [← heG]
      exact hother e he
  have hdefine : (l''.top.builder.prune.build >>= l''.module.define) = .ok { l''.module with
      functions := l''.module.functions ++ [F.renumber ρ]
      externals := l''.module.externals.filter (·.name != (F.renumber ρ).name) } := by
    rw [hF']
    exact define_ok hnew
  refine ⟨_, ⟨_, l, l', l'', l''.top, l''.frames.tail, _, gives_enterFunction.mpr hl, hl', hl'',
    Context.frames_eq ht₃.frames', hdefine, rfl⟩, hc.tail, hk.tail, Fs ++ [F], Fs' ++ [F.renumber ρ],
    ?_, ?_, ?_, ?_⟩
  · have hadded := hc.define F
    rwa [← List.append_nil σ.texts] at hadded
  · have hadded := hk.define (F.renumber ρ)
    rwa [← List.append_nil σ.texts'] at hadded
  · rw [List.map_append]
    exact hperm.append_right _
  · change _ = (σ.made ++ [(⟨name, params, returns, body'⟩ : FunctionDecl)]).map (·.name)
    rw [List.map_append, List.map_append, hnames]
    exact congrArg (_ ++ [·]) hname

end TreeLang.Lowering
