import TreeLang.Proofs.Safety.Activations
import TreeLang.Proofs.Simulation.Trees

namespace TreeLang

namespace Machine

theorem lookup_update_same {n : Nat} {z : Value} {slots : List (Nat × Value)}
    (h : slots.lookup n = some z) (k : Nat) : (update n z slots).lookup k = slots.lookup k := by
  by_cases hk : k = n
  · subst hk
    rw [lookup_update, h]
  · exact lookup_update_other z slots hk

/-- The slots are made where the code of a function begins; they hold their zeros already. -/
theorem steps_allocas {m : Ir.Module} {s : State} {is code : List Ir.Instruction}
    (hcode : s.current.code = is ++ code)
    (his : ∀ i ∈ is, ∃ n ty name z, i = .alloca n ty name ∧ Value.zero? ty = some z ∧
      s.current.slots.lookup n = some z) :
    ∃ slots, Steps m is.length s
        { s with current := { s.current with code := code, slots := slots } } ∧
      ∀ n, slots.lookup n = s.current.slots.lookup n := by
  induction is generalizing s with
  | nil =>
    refine ⟨s.current.slots, ?_, fun _ => rfl⟩
    rw [List.nil_append] at hcode
    subst hcode
    exact .refl m s
  | cons i is ih =>
    obtain ⟨n, ty, name, z, rfl, hz, hn⟩ := his i List.mem_cons_self
    have hsame := lookup_update_same hn
    have hstep := State.step_execute hcode rfl (m := m)
    simp only [Activation.execute, hz, State.proceed] at hstep
    obtain ⟨slots, hsteps, hslots⟩ := ih
      (s := { s with current := { s.current with
        code := is ++ code
        slots := update n z s.current.slots } }) rfl (by
        intro j hj
        obtain ⟨n', ty', name', z', hi, hz', hn'⟩ := his j (List.mem_cons_of_mem _ hj)
        exact ⟨n', ty', name', z', hi, hz', (hsame n').trans hn'⟩)
    exact ⟨slots, ⟨_, hstep, hsteps⟩, fun k => (hslots k).trans (hsame k)⟩

end Machine

namespace Simulation

open TreeLang.Tree (Ty Expr Stmt FunctionDecl nestedFunctions)
open Typing (Registry)
open Ir (Knowledge)
open Machine (Activation Caller State Steps Fault Console)
open Lowering
open Lower
open Meaning

variable {r : Registry} {g : Knowledge} {c c' : Context} {m : Ir.Module} {F : Ir.Function}
  {cs : List Caller} {env : Env} {names : Names} {w : World} {s : State}

/-- What a slot holds at first is what its cell holds at first. -/
theorem ofMachine_zero {ty : Ty} {x : Machine.Value} (h : Machine.Value.zero? ty.toIr = some x) :
    Value.ofMachine x = some (.zero ty) := by
  cases ty <;> cases h <;> rfl

theorem ty_zero {ty : Ty} (h : ty ≠ .void) : (Value.zero ty).ty = ty := by
  cases ty with
  | void => exact absurd rfl h
  | int | double | string => rfl

/-- Where the code of a function begins, its cells are zero. -/
theorem point_start {callees : String → Option Ir.External} {cells : List Ty}
    (hF : F.Sturdy callees m.strings.length g) (hcells : cells.map Ty.toIr = F.slots.map (·.ty))
    {xs : List Machine.Value} (hxs : xs.map Machine.Value.ty = F.params.map (·.ty)) :
    ∃ a, Activation.start F xs = .ok a ∧ ∀ cs console name params returns, ∃ k s',
      Steps m k ⟨a, cs, console⟩ s' ∧
      Point F cs (.start name params returns) ⟨cells.map .zero, console⟩ s' ∧
      ∀ i x, xs[i]? = some x → s'.current.value m (.param i) = .ok x := by
  obtain ⟨K, Ks, hblocks, hK⟩ := hF.first
  refine ⟨⟨F, K.instructions, K.terminator, xs.mapIdx fun i v => (.param i, v),
    Activation.zeroedSlots F⟩, by simp [Activation.start, hblocks, hxs], ?_⟩
  intro cs console name params returns
  have hentry : K.instructions = F.allocas ++ K.body := hF.hoisted.entry K (hF.entry.symm ▸ hK)
  have hallocas : ∀ i ∈ F.allocas, ∃ n ty name z, i = .alloca n ty name ∧
      Machine.Value.zero? ty = some z ∧ (Activation.zeroedSlots F).lookup n = some z := by
    intro i hi
    obtain ⟨n, hn, rfl⟩ := List.mem_mapIdx.mp hi
    have hslot : (F.slots.map (·.ty))[n]? = some F.slots[n].ty := by
      simp [List.getElem?_eq_getElem hn]
    obtain ⟨z, hz, hzero⟩ := Activation.keeps_zeroed hF hslot
    exact ⟨n, _, _, z, rfl, hzero, hz⟩
  obtain ⟨slots, hsteps, hslots⟩ := Machine.steps_allocas (m := m)
    (s := ⟨⟨F, K.instructions, K.terminator, xs.mapIdx fun i v => (.param i, v),
      Activation.zeroedSlots F⟩, cs, console⟩) hentry hallocas
  refine ⟨_, _, hsteps, ⟨⟨rfl, 0, .empty 0 "entry", K, rfl, rfl, hK, rfl, rfl⟩, rfl, rfl, ?_, ?_⟩, ?_⟩
  · rw [← hcells, List.map_map]
    apply List.map_congr_left
    intro ty hty
    have hne : ty ≠ .void := by
      rintro rfl
      have hmem : Ir.Ty.void ∈ F.slots.map (·.ty) := hcells ▸ List.mem_map_of_mem hty
      obtain ⟨slot, hslot, hvoid⟩ := List.mem_map.mp hmem
      exact (hF.certified.slots slot hslot).1 hvoid
    exact congrArg Ty.toIr (ty_zero hne)
  · intro i v hv
    rw [List.getElem?_map, Option.map_eq_some_iff] at hv
    obtain ⟨ty, hty, rfl⟩ := hv
    have hslot : (F.slots.map (·.ty))[i]? = some ty.toIr := by
      rw [← hcells, List.getElem?_map, hty]
      rfl
    obtain ⟨z, hz, hzero⟩ := Activation.keeps_zeroed hF hslot
    exact ⟨z, (hslots i).trans hz, ofMachine_zero hzero⟩
  · intro i x hx
    have hlookup := Activation.lookup_arguments hx 0
    simp only [Nat.zero_add] at hlookup
    simp [Activation.value, hlookup]

/-- An argument is stored in the slot of its parameter. -/
theorem advance_param {p : Tree.Param} {index slot : Nat} {v : Value} {done rest : List Value}
    {d d' : Context} {console : Console} (hs : Sound r g c) (hne : p.ty ≠ .void)
    (hparam : (c.surroundings r).params[index]? = some p.ty.toIr)
    (ha : Gives (build (·.alloca p.name p.ty.toIr)) c slot d)
    (hst : Gives (emit (·.append (.store slot (.param index) p.ty.toIr))) d () d')
    (hF : Stays m F (d'.bindParam p slot))
    (hp : Point F cs c.top.builder ⟨done ++ rest, console⟩ s) (hdone : slot = done.length)
    (hv : v.ty = p.ty) (hbear : Bears m (temps c) s (.param index) v) :
    Advances m F cs c (d'.bindParam p slot) s ⟨(done ++ [v]) ++ rest.drop 1, console⟩
      fun _ => True := by
  obtain ⟨l₁, l₂, _⟩ := sound_storeParam hs hne hparam ha hst
  have s₁ := l₁.sound hs
  have hF₂ : Stays m F d' := ⟨hF.code, hF.strings⟩
  -- the slot makes no difference, the store sets its cell
  have hp₁ : Point F cs d.top.builder ⟨done ++ rest, console⟩ s := by
    obtain ⟨f, _, hf, _, _, rfl⟩ := gives_alloca.mp ha
    obtain rfl := Context.top_eq hf
    rw [Context.top_withBuilder hs.frames]
    exact ⟨hp.stands.reserve _ _, hp.callers, hp.console, hp.types, hp.cells⟩
  obtain ⟨_, hslot⟩ := sound_alloca hs ha (Ty.toIr_ne_bool p.ty)
  obtain ⟨old, _, hold, hty, _⟩ := hp₁.cell (stays_of_lowered hF₂ s₁ l₂).code.slots hslot
  have hle := temps_le l₁.toWorking
  have hbear₁ := Carries.kept hbear (.refl m _ s) hle
  obtain ⟨k, s', hk, ha₁, _⟩ := step_store s₁ hst hF₂ hp₁ hold (hv.trans hty.symm) hbear₁
  have hcells : (done ++ rest).set slot v = (done ++ [v]) ++ rest.drop 1 := by
    rw [hdone]
    cases rest with
    | nil => simp [hdone] at hold
    | cons x xs => simp
  refine ⟨k, s', hk, ⟨?_, (Kept.refl m (temps c) s).trans ha₁.kept hle⟩, trivial⟩
  rw [← hcells]
  exact ha₁.point

/-- The arguments are stored one after the other. -/
theorem advance_params {ps : List Tree.Param} {index : Nat} {vs done rest : List Value}
    {console : Console} (hs : Sound r g c) (hm : Matches names c) (hlocals : c.top.locals = [])
    (hps : ∀ (i : Nat) (p : Tree.Param), ps[i]? = some p →
      (c.surroundings r).params[index + i]? = some p.ty.toIr)
    (hvs : vs.map (·.ty) = ps.map (·.ty)) (h : Gives (storeParams index ps) c () c')
    (hF : Stays m F c') (hp : Point F cs c.top.builder ⟨done ++ rest, console⟩ s)
    (hdone : done.length = index) (hindex : names.cells.length = index)
    (hbear : ∀ (i : Nat) (v : Value), vs[i]? = some v →
      Bears m (temps c) s (.param (index + i)) v) :
    Advances m F cs c c' s ⟨done ++ (vs ++ rest.drop vs.length), console⟩ fun _ => True := by
  induction ps generalizing index c names vs done rest s with
  | nil =>
    obtain ⟨_, rfl⟩ := gives_pure.mp h
    obtain rfl := List.map_eq_nil_iff.mp hvs
    exact .refl hp trivial
  | cons p ps ih =>
    obtain ⟨hne, slot, d, d', ha, hst, h⟩ := storeParams_cons h
    cases vs with
    | nil => cases hvs
    | cons v vs =>
      simp only [List.map_cons, List.cons.injEq] at hvs
      obtain ⟨_, _, l⟩ := sound_storeParam hs hne (hps 0 p rfl) ha hst
      have hs' := l.sound hs
      obtain ⟨hm', hslot, hlocals'⟩ := hm.bindParam hs.frames hlocals ha hst
      have hps' : ∀ (i : Nat) (q : Tree.Param), ps[i]? = some q →
          ((d'.bindParam p slot).surroundings r).params[index + 1 + i]? = some q.ty.toIr := by
        intro i q hq
        rw [l.surroundings.params, show index + 1 + i = index + (i + 1) by omega]
        exact hps (i + 1) q hq
      have hF' : Stays m F (d'.bindParam p slot) :=
        stays_of_lowered hF hs' (sound_storeParams hs' hps' h)
      have hle := temps_le l.toWorking
      refine (advance_param hs hne (hps 0 p rfl) ha hst hF' hp (by omega) hvs.1
        (hbear 0 v rfl)).trans hle fun s' ha' _ => ?_
      have hrest := ih hs' hm' hlocals' hps' hvs.2 h ha'.point (by simp [hdone])
        (by simp [Names.declare, hindex]) (by
          intro i u hu
          rw [show index + 1 + i = index + (i + 1) by omega]
          exact Carries.kept (hbear (i + 1) u hu) ha'.kept hle)
      simpa [List.drop_drop, Nat.add_comm] using hrest

/-- What a function returns where control reaches its end: the value of its last statement or, in the
entry function, 0. -/
inductive Closing (returns : Ty) :
    (Option Typed → Lower.Ending) → (Option Value → Except Fault (Option Value)) → Prop
  | value : Closing returns .value (lastValue returns)
  | zero (h : returns = .int) : Closing returns (fun _ => .zero) fun _ => .ok (some (.int 0))

theorem Closing.fits {returns : Ty} {last : Option Typed → Lower.Ending}
    {ending : Option Value → Except Fault (Option Value)} (h : Closing returns last ending)
    {t : Option Typed} (ht : ∀ t' ∈ t, t'.Fits r g c) : (last t).Fits r g c := by
  cases h with
  | value => exact ht
  | zero => trivial

/-- Where the machine gets to the end of a body, the block there can be reached, so it is ended. -/
theorem close_terminates {ending : Lower.Ending} (hs : Sound r g c)
    (h : Gives (close ending) c () c')
    (hp : Point c'.top.builder.prune.function cs c.top.builder w s) :
    ∃ value d, ((c.top.returns = .void ∧ value = none ∧ d = c) ∨
        (c.top.returns ≠ .void ∧ ∃ v, value = some v ∧
          ((∃ t, ending = .value (some t) ∧ Gives (coerce t c.top.returns) c v d) ∨
           ∃ k, ending = .zero ∧ Ir.Constant.zero? c.top.returns.toIr = some k ∧ v = .constant k ∧
            d = c))) ∧
      Gives (emit (·.terminate (.ret value))) d () c' := by
  obtain ⟨f, rest, hc, ⟨hdead, rfl⟩ | ⟨id, value, d, _, _, _, hval, hret⟩⟩ := gives_close h
  · obtain rfl := Context.top_eq hc
    obtain ⟨id, k, K, hid, hk, hK, _⟩ := hp.stands.place
    have hreach := Ir.Builder.isReachable_iff.mpr (Ir.Builder.block?_prune.mp hK).2
    obtain ⟨j, l, hj, hl, hu⟩ := hs.isOpen
    cases hj.symm.trans hid
    rcases hdead with hnone | hterm | ⟨j, hj', hdead⟩
    · rw [hnone] at hid
      cases hid
    · simp [Ir.Builder.isTerminated, hid, hl, Ir.Block.isTerminated, hu] at hterm
    · cases hid.symm.trans hj'
      rw [hreach] at hdead
      cases hdead
  · obtain rfl := Context.top_eq hc
    exact ⟨value, d, hval, hret⟩

/-- The end of a body returns what the language says. -/
theorem stops_close {last : Option Typed → Lower.Ending} {bound : Nat}
    {ending : Option Value → Except Fault (Option Value)} (hclosing : Closing c.top.returns last ending)
    (hfin : F.Finished) (hty : F.returns = c.top.returns.toIr) (hs : Sound r g c) {t : Option Typed}
    {u : Option Value} (hfit : ∀ t' ∈ t, t'.Fits r g c) (h : Gives (close (last t)) c () c')
    (hbuilt : F = c'.top.builder.prune.function) (hF : Stays m F c')
    (hp : Point F cs c.top.builder w s) (hu : Yields m (temps c) s t u) :
    ∃ v, ending u = .ok v ∧ Stops m F cs bound s (.returned v) w.console := by
  obtain ⟨value, d, hval, hret⟩ := close_terminates hs h (hbuilt ▸ hp)
  cases hclosing with
  | value =>
    rcases hval with ⟨hvoid, rfl, rfl⟩ | ⟨hne, o, rfl, ⟨t', ht', hco⟩ | ⟨_, hzero, _⟩⟩
    · refine ⟨none, by simp [lastValue, hvoid], 0, s, .refl m s, ?_⟩
      exact returning_none hfin hret hF hp (by rw [hty, hvoid]; rfl)
    · cases ht'
      cases u with
      | none => exact hu.elim
      | some x =>
        obtain ⟨y, hy, k, s', hk, ha, hb⟩ :=
          advance_coerce hs (hfit t' rfl) hco (stays_of_terminate hret hF) hp hu
        refine ⟨some y, by simp [lastValue, hne, hy], k, s', hk, ?_⟩
        exact returning_value hfin hret hF ha.point hb (by rw [hty, ty_convert hy])
    · cases hzero
  | zero hint =>
    rcases hval with ⟨hvoid, _⟩ | ⟨_, o, rfl, ⟨_, hvalue, _⟩ | ⟨k, _, hk, rfl, rfl⟩⟩
    · rw [hint] at hvoid
      cases hvoid
    · cases hvalue
    · rw [hint] at hty hk
      cases hk
      refine ⟨some (.int 0), rfl, 0, s, .refl m s, ?_⟩
      exact returning_value hfin hret hF hp (n := 0) ⟨trivial, .i32 0, rfl, rfl⟩ hty.symm

def beginning (literals : Nat) (params : List Tree.Param) (body : List Stmt) (vs : List Value) :
    List Value :=
  vs ++ (((Names.enter literals params).afterStmts body).cells.map .zero).drop vs.length

section

variable {literals : Nat} {params : List Tree.Param} {body : List Stmt} {vs : List Value}
  {console : Console}
  {ending : Option Value → Except Fault (Option Value)}

/-- An activation is the evaluation of its body and then of its end. -/
theorem activate_eq : activate env literals params body ending vs console =
    match outcome (do
        let last ← evalStmts env (Names.enter literals params) none body
        Eval.attempt (ending last)) ⟨beginning literals params body vs, console⟩ with
    | (.ok v, w) | (.error (.returned v), w) => (.ok v, w.console)
    | (.error (.halted halt), w) => (.error halt, w.console) := by
  unfold activate beginning
  rw [← List.map_drop]
  rfl

theorem activate_of_gives {u v : Option Value}
    (h : Gives (evalStmts env (Names.enter literals params) none body)
      ⟨beginning literals params body vs, console⟩ u w) (hv : ending u = .ok v) :
    activate env literals params body ending vs console = (.ok v, w.console) := by
  rw [activate_eq, outcome_bind, show outcome _ _ = (.ok u, w) from h]
  simp only [hv]
  rfl

/-- Where the body stops early, the activation ends as it stopped. -/
theorem activate_of_fails {stop : Stop} (ending : Option Value → Except Fault (Option Value))
    (h : Fails (evalStmts env (Names.enter literals params) none body)
      ⟨beginning literals params body vs, console⟩ stop w) :
    ended (activate env literals params body ending vs console).1 = stop ∧
      (activate env literals params body ending vs console).2 = w.console := by
  rw [activate_eq, outcome_bind, show outcome _ _ = (.error stop, w) from h]
  cases stop <;> exact ⟨rfl, rfl⟩

end

theorem types_of_ofMachine {xs : List Machine.Value} {vs : List Value}
    (h : xs.map Value.ofMachine = vs.map some) :
    xs.map Machine.Value.ty = (vs.map (·.ty)).map Ty.toIr := by
  induction xs generalizing vs with
  | nil =>
    obtain rfl := List.map_eq_nil_iff.mp h.symm
    rfl
  | cons x xs ih =>
    cases vs with
    | nil => cases h
    | cons v vs =>
      simp only [List.map_cons, List.cons.injEq] at h ⊢
      exact ⟨Value.ty_of_ofMachine h.1, ih h.2⟩

/-- The words passed to a function have the types of its parameters. -/
theorem types_of_arguments {literals : Nat} {name : String} {params : List Tree.Param} {returns : Ty}
    {body : List Stmt} {last : Option Typed → Lower.Ending} {strings : List String}
    (h : Compiled r literals name params returns body last strings F) {xs : List Machine.Value}
    {vs : List Value} (hxs : xs.map Value.ofMachine = vs.map some)
    (hvs : vs.map (·.ty) = params.map (·.ty)) :
    xs.map Machine.Value.ty = F.params.map (·.ty) := by
  rw [h.certified.2.1, types_of_ofMachine hxs, hvs, List.map_map]
  rfl

/-- The machine from the beginning of a function to that of its body: the arguments are in the first
cells then, and the others are zero. -/
theorem start_body {callees : String → Option Ir.External} {name : String}
    {params : List Tree.Param} {returns : Ty} {cells : List Ty} {xs : List Machine.Value}
    {vs : List Value} (hsturdy : F.Sturdy callees m.strings.length g)
    (hcells : cells.map Ty.toIr = F.slots.map (·.ty))
    (hargs : xs.map Machine.Value.ty = F.params.map (·.ty))
    (hxs : xs.map Value.ofMachine = vs.map some) (hvs : vs.map (·.ty) = params.map (·.ty))
    (ho : Orderly r c.module) (h : Gives (enterFunction name params returns) c () c')
    (hF : Stays m F c') :
    ∃ a, Activation.start F xs = .ok a ∧ ∀ cs console, ∃ k s, Steps m k ⟨a, cs, console⟩ s ∧
      Point F cs c'.top.builder ⟨vs ++ (cells.map .zero).drop vs.length, console⟩ s := by
  obtain ⟨a, ha, hstart⟩ := point_start hsturdy hcells hargs
  refine ⟨a, ha, fun cs console => ?_⟩
  obtain ⟨k, s, hk, hp, hvalues⟩ := hstart cs console name
    (params.map fun p => ⟨p.name, p.ty.toIr⟩) returns.toIr
  have hp : Point F cs (c.enter (.start name params returns)).top.builder
      ⟨[] ++ cells.map .zero, console⟩ s := hp
  have hbear : ∀ (i : Nat) (v : Value), vs[i]? = some v →
      Bears m (temps (c.enter (.start name params returns))) s (.param (0 + i)) v := by
    intro i v hv
    have hi : (xs.map Value.ofMachine)[i]? = some (some v) := by
      rw [hxs, List.getElem?_map, hv]
      rfl
    rw [List.getElem?_map, Option.map_eq_some_iff] at hi
    obtain ⟨x, hx, hval⟩ := hi
    rw [Nat.zero_add]
    exact ⟨trivial, x, hvalues i x hx, hval⟩
  obtain ⟨j, s', hj, ha', _⟩ := advance_params (sound_enter ho name params returns)
    (.enter c name params returns) rfl (params_enter r c name params returns) hvs
    (gives_enterFunction.mp h) hF hp rfl rfl hbear
  exact ⟨k + j, s', hk.trans hj, ha'.point⟩

/-- The machine from the beginning of a body to where the function returns. -/
theorem stops_body (st : Stage m F env) {literals : Nat} {params : List Tree.Param} {body : List Stmt}
    {last : Option Typed → Lower.Ending} {ending : Option Value → Except Fault (Option Value)}
    {v : Option Typed} {d : Context} {vs : List Value} {console : Console}
    (hclosing : Closing env.returns last ending)
    (hreg : Registered env.registry (nestedFunctions body)) (hs : Sound env.registry g c)
    (hi : Entered env (Names.enter literals params) c)
    (hlower : Gives (lowerStmts env.registry none body) c v d)
    (hclose : Gives (close (last v)) d () c') (hbuilt : F = c'.top.builder.prune.function)
    (hF : Stays m F c') (hp : Point F cs c.top.builder ⟨beginning literals params body vs, console⟩ s) :
    Stops m F cs (env.rounds + 1) s (ended (activate env literals params body ending vs console).1)
      (activate env literals params body ending vs console).2 := by
  obtain ⟨g', hl, hfit, hi'⟩ := keeps_stmts body hreg hs hi hlower
  have hs' := hl.sound hs
  have hw := sound_close hs' (.refl hs') hs'.isOpen (last v) (hclosing.fits hfit) hclose
  have hbody := reaches_stmts st body hreg hs (by simp) hi hlower (stays_of_working hF hs' hw) hp
    (u := none) trivial
  rcases Follows.cases hbody with ⟨u, w, k, s', hg, hk, ha, hu⟩ | ⟨stop, w, hf, hstop⟩
  · obtain ⟨x, hx, hstops⟩ := stops_close (hi'.returns ▸ hclosing) st.finished (st.returns_top hi')
      hs' hfit hclose hbuilt hF ha.point hu
    rw [activate_of_gives hg hx]
    exact hstops.after hk (Nat.le_add_left (env.rounds + 1) k)
  · obtain ⟨hended, hconsole⟩ := activate_of_fails ending hf
    rw [hended, hconsole]
    exact hstop

/-- A compiled function does what the evaluation of its body in an activation of its own says. -/
theorem stops_function (hserves : Serves m env) {literals : Nat} {name : String}
    {params : List Tree.Param} {body : List Stmt} {last : Option Typed → Lower.Ending}
    {ending : Option Value → Except Fault (Option Value)}
    (hcompiled : Compiled env.registry literals name params env.returns body last m.strings F)
    (hclosing : Closing env.returns last ending) {xs : List Machine.Value}
    {vs : List Value} (hxs : xs.map Value.ofMachine = vs.map some)
    (hvs : vs.map (·.ty) = params.map (·.ty)) :
    ∃ a, Activation.start F xs = .ok a ∧ ∀ cs console,
      Stops m F cs (env.rounds + 1) ⟨a, cs, console⟩
        (ended (activate env literals params body ending vs console).1)
        (activate env literals params body ending vs console).2 := by
  obtain ⟨g₀, hsturdy⟩ := hcompiled.sturdy
  have st : Stage m F env := ⟨hsturdy.toFinished, hcompiled.certified.2.2.1, hserves⟩
  have hargs := types_of_arguments hcompiled hxs hvs
  cases hcompiled with
  | @intro c d d' d'' v g g' count enter inside lower lowered close laid build hpre hreg =>
    have ho : Orderly env.registry c.module := by
      have hmodule := module_storeParams (gives_enterFunction.mp enter)
      have ho := inside.orderly
      rw [hmodule] at ho
      exact ho
    have l₁ := sound_enterFunction ho enter
    have s₁ := l₁.sound (sound_enter ho name params env.returns)
    have m₁ : Matches (.enter literals params) d := count ▸ storeParams_names
      (List.cons_ne_nil _ _) rfl (.enter c name params env.returns) (gives_enterFunction.mp enter)
    obtain ⟨g₂, l₂, hfit, i₂⟩ := keeps_stmts body hreg s₁ ⟨m₁, l₁.returns⟩ lower
    have s₂ := l₂.sound s₁
    have w₃ := sound_close s₂ (.refl s₂) s₂.isOpen (last v) (hclosing.fits hfit) close
    -- the function has the slots that the body has declared
    have hbuilt : F = d''.top.builder.prune.function := (Ir.Builder.build_eq_ok.mp build).2
    have hF : Stays m F d'' := ⟨hbuilt ▸ Ir.Builder.partOf_prune _, hpre⟩
    have hcells := i₂.cells
    rw [← (tame_close _ _ _ _ close).slots,
      show d''.top.builder.function.slots = F.slots by rw [hbuilt]; rfl] at hcells
    obtain ⟨a, ha, hstart⟩ := start_body hsturdy hcells hargs hxs hvs ho enter
      (stays_of_lowered (stays_of_working hF s₂ w₃) s₁ l₂)
    refine ⟨a, ha, fun cs console => ?_⟩
    obtain ⟨k, s, hk, hp⟩ := hstart cs console
    exact (stops_body st hclosing hreg s₁ ⟨m₁, l₁.returns⟩ lower close hbuilt hF hp).after hk
      (Nat.le_add_left (env.rounds + 1) k)

end Simulation

end TreeLang
