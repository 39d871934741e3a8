import TreeLang.Proofs.Lowering.Flow

namespace TreeLang.Lowering

open TreeLang.Tree (Ty Expr Stmt FunctionDecl)
open Typing (Registry Callee coercible)
open Ir (Knowledge Certified Surroundings)
open Ir.Builder (Laid)
open Lower

variable {r : Registry} {ds : List FunctionDecl} {g g' : Knowledge} {c c' c'' : Context} {u : Unit}

/-- A function begins with an entry block alone, and nothing is known in it. -/
theorem sound_enter (ho : Orderly r c.module) (name : String) (params : List Tree.Param)
    (returns : Ty) : Sound r Knowledge.nothing (c.enter (.start name params returns)) where
  frames := List.cons_ne_nil _ _
  shaped := Ir.Function.shaped_empty _ _ _
  isOpen := ⟨0, .empty 0 "entry", rfl, rfl, rfl⟩
  certified := Ir.Function.certified_empty _ _ _ _ (Ty.toIr_ne_bool returns)
  stored := by intro name s hs; cases hs
  returns := rfl
  orderly := ho

theorem params_enter (r : Registry) (c : Context) (name : String) (params : List Tree.Param)
    (returns : Ty) (i : Nat) (p : Tree.Param) (hp : params[i]? = some p) :
    ((c.enter (.start name params returns)).surroundings r).params[0 + i]? = some p.ty.toIr := by
  change ((params.map fun p => (⟨p.name, p.ty.toIr⟩ : Ir.Param)).map (·.ty))[0 + i]? = _
  simp [hp]

/-- A parameter hides what had its name, and is bound before the next one. -/
def Context.bindParam (c : Context) (p : Tree.Param) (slot : Nat) : Context :=
  { c with
    scopes := c.scopes.declare p.name p.ty
    frames := { c.top with params := (p.name, ⟨slot, p.ty⟩) :: c.top.params } :: c.frames.tail }

/-- A parameter is given a slot and stored there, and hides what had its name. -/
theorem storeParams_cons {p : Tree.Param} {ps : List Tree.Param} {index : Nat}
    (h : Gives (storeParams index (p :: ps)) c u c') : p.ty ≠ .void ∧ ∃ slot d d',
      Gives (build (·.alloca p.name p.ty.toIr)) c slot d ∧
      Gives (emit (·.append (.store slot (.param index) p.ty.toIr))) d () d' ∧
      Gives (storeParams (index + 1) ps) (d'.bindParam p slot) u c' := by
  obtain ⟨hp, slot, d, d', f, rest, ha, hst, hf, h⟩ := gives_storeParams_cons.mp h
  obtain rfl := Context.top_eq hf
  refine ⟨hp, slot, d, d', ha, hst, ?_⟩
  unfold Context.bindParam
  rw [hf]
  exact h

/-- A parameter has a slot of its own, in which its argument is stored. -/
theorem sound_storeParam {p : Tree.Param} {index slot : Nat} {d d' : Context} (hs : Sound r g c)
    (hp : p.ty ≠ .void) (hparam : (c.surroundings r).params[index]? = some p.ty.toIr)
    (ha : Gives (build (·.alloca p.name p.ty.toIr)) c slot d)
    (hst : Gives (emit (·.append (.store slot (.param index) p.ty.toIr))) d () d') :
    Lowered r [] g c g d ∧ Lowered r [] g d g d' ∧ Lowered r [] g c g (d'.bindParam p slot) := by
  obtain ⟨l₁, hslot⟩ := sound_alloca hs ha (Ty.toIr_ne_bool p.ty)
  rw [← l₁.surroundings.params] at hparam
  have l₂ := sound_append (l₁.sound hs) hst rfl rfl ⟨hslot, .param hparam⟩
  have hslot' := Ir.getElem?_of_extended (l₂.laid.slots.map _) hslot
  have l₃ := l₁.trans l₂
  refine ⟨l₁, l₂, { l₃.toWorking with
    frames := List.cons_ne_nil _ _
    tail := l₃.tail
    stored := ?_ }, l₃.isOpen⟩
  intro other s hstore
  have hstore : (d'.top.locals.lookup other).or
      (((p.name, (⟨slot, p.ty⟩ : Storage)) :: d'.top.params).lookup other) = some s := hstore
  cases hlocal : d'.top.locals.lookup other with
  | some s' =>
    rw [hlocal] at hstore
    apply l₃.stored other s
    unfold Frame.storage?
    rw [hlocal]
    exact hstore
  | none =>
    rw [hlocal, Option.none_or, List.lookup_cons] at hstore
    split at hstore
    · cases hstore
      exact ⟨hp, hslot'⟩
    · apply l₃.stored other s
      unfold Frame.storage?
      rw [hlocal]
      exact hstore

/-- The parameters are stored one after the other, each with the type that the signature gives it. -/
theorem sound_storeParams {ps : List Tree.Param} {index : Nat} (hs : Sound r g c)
    (hps : ∀ (i : Nat) (p : Tree.Param), ps[i]? = some p →
      (c.surroundings r).params[index + i]? = some p.ty.toIr)
    (h : Gives (storeParams index ps) c u c') : Lowered r [] g c g c' := by
  induction ps generalizing index c with
  | nil =>
    obtain ⟨_, rfl⟩ := gives_pure.mp h
    exact .refl hs
  | cons p ps ih =>
    obtain ⟨hv, slot, d, d', ha, hst, h⟩ := storeParams_cons h
    obtain ⟨_, _, l⟩ := sound_storeParam hs hv (hps 0 p rfl) ha hst
    refine l.trans (ih (l.sound hs) (fun i q hq => ?_) h)
    rw [l.surroundings.params, show index + 1 + i = index + (i + 1) by omega]
    exact hps (i + 1) q hq

theorem module_storeParams {ps : List Tree.Param} {index : Nat}
    (h : Gives (storeParams index ps) c u c') : c'.module = c.module := by
  induction ps generalizing index c with
  | nil => rw [(gives_pure.mp h).2]
  | cons p ps ih =>
    obtain ⟨_, slot, d, d', ha, hst, h⟩ := storeParams_cons h
    obtain ⟨_, _, _, _, _, rfl⟩ := gives_alloca.mp ha
    obtain ⟨_, _, _, _, _, rfl⟩ := gives_append.mp hst
    have hmodule := ih h
    exact hmodule

/-- A function that has been begun is ready for its body. -/
theorem sound_enterFunction (ho : Orderly r c.module) {name : String} {params : List Tree.Param}
    {returns : Ty} (h : Gives (enterFunction name params returns) c u c') :
    Lowered r [] Knowledge.nothing (c.enter (.start name params returns)) Knowledge.nothing c' :=
  sound_storeParams (sound_enter ho name params returns) (params_enter r c name params returns)
    (gives_enterFunction.mp h)

def Lower.Ending.Fits (r : Registry) (g : Knowledge) (c : Context) : Ending → Prop
  | .value t => ∀ t' ∈ t, t'.Fits r g c
  | .zero => True

/-- The last block of a function ends in a `return`, if it can be reached. -/
theorem sound_close (hs : Sound r g c) (h : Working r ds g c g' c' [])
    (ho : c'.top.builder.IsOpen) (ending : Ending) (he : ending.Fits r g' c')
    (hg : Gives (close ending) c' u c'') : Working r ds g c g' c'' [] := by
  have hs' := h.sound hs ho
  obtain ⟨f, rest, hc, ⟨_, rfl⟩ | ⟨id, value, d, hid, _, _, hval, hret⟩⟩ := gives_close hg
  · exact h
  · obtain rfl := Context.top_eq hc
    have hval : Working r ds g c g' d [] ∧
        (Ir.Terminator.ret value).Legal (d.surroundings r) (d.top.builder.known g') := by
      rcases hval with ⟨hvoid, rfl, rfl⟩ | ⟨hne, v, rfl, ⟨t, rfl, hco⟩ | ⟨k, rfl, hk, rfl, rfl⟩⟩
      · refine ⟨h, ?_⟩
        change d.top.builder.function.returns = .void
        rw [hs'.returns, hvoid]
        rfl
      · obtain ⟨hl, hv⟩ := sound_coerce hs' (he t rfl) hco
        have hr : d.top.builder.function.returns = c'.top.returns.toIr :=
          hl.laid.returns.trans hs'.returns
        refine ⟨?_, ?_, ?_⟩
        · have := h.trans hl.toWorking
          rwa [List.append_nil] at this
        · change d.top.builder.function.returns ≠ .void
          rw [hr]
          exact fun hr => hne (Ty.toIr_injective hr)
        · change Holds r g' d v d.top.builder.function.returns
          rw [hr]
          exact hv
      · refine ⟨h, ?_, ?_⟩
        · change d.top.builder.function.returns ≠ .void
          rw [hs'.returns]
          exact fun hr => hne (Ty.toIr_injective hr)
        · change Holds r g' d (.constant k) d.top.builder.function.returns
          rw [hs'.returns, ← Ir.Constant.ty_of_zero? hk]
          exact .constant k
    exact (hval.1.terminate hret (by simp) hval.2 (by simp [Ir.Terminator.successors])).1

/-- A function goes to the module if it is finished and no function has its name. -/
theorem define_eq_ok {b : Ir.Builder} {m m' : Ir.Module}
    (h : (b.prune.build >>= m.define) = .ok m') : ∃ F, b.prune.build = .ok F ∧
      (∀ F' ∈ m.functions, F'.name ≠ F.name) ∧ F.name = b.function.name ∧
      m' = { m with
        functions := m.functions ++ [F]
        externals := m.externals.filter (·.name != F.name) } := by
  cases hb : b.prune.build with
  | error e => rw [hb] at h; cases h
  | ok F =>
    rw [hb] at h
    have hname : F.name = b.function.name := by
      rw [(Ir.Builder.build_eq_ok.mp hb).2]
      rfl
    have h : m.define F = .ok m' := h
    unfold Ir.Module.define at h
    split at h
    · cases h
    · rename_i hnot
      refine ⟨F, rfl, fun F' hF' he => hnot ?_, hname, (Except.ok.inj h).symm⟩
      exact List.any_eq_true.mpr ⟨F', hF', by simpa using he⟩

/-- Another function in the module leaves the externals of other names as they are. -/
theorem Orderly.define {m : Ir.Module} (h : Orderly r m) {F : Ir.Function}
    (hnew : ∀ F' ∈ m.functions, F'.name ≠ F.name)
    (hname : r.get? F.name = none → Ir.prototype? F.name = none) :
    Orderly r { m with
      functions := m.functions ++ [F]
      externals := m.externals.filter (·.name != F.name) } where
  names := by
    rw [List.map_append, List.nodup_append]
    refine ⟨h.names, by simp, ?_⟩
    intro n hn n' hn' he
    obtain ⟨F', hF', rfl⟩ := List.mem_map.mp hn
    rw [List.map_singleton, List.mem_singleton] at hn'
    exact hnew F' hF' (he.trans hn')
  prototypes x hx := h.prototypes (List.mem_filter.mp hx).1
  externals := by
    intro name hnone
    have hold := h.externals name hnone
    unfold Ir.Module.external? at hold ⊢
    rw [List.find?_filter]
    by_cases he : name = F.name
    · subst he
      rw [hname hnone]
      refine List.find?_eq_none.mpr fun x _ => ?_
      simp
    · rw [← hold]
      refine congrArg (List.find? · m.externals) (funext fun x => ?_)
      by_cases hx : x.name = name
      · simp [hx, he]
      · simp [hx]

end TreeLang.Lowering
