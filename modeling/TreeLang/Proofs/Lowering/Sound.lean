import TreeLang.Proofs.Builder.Layout
import TreeLang.Proofs.Lowering.Parts

namespace TreeLang.Lowering

open TreeLang.Tree (Ty Expr Stmt FunctionDecl nestedFunctions)
open Typing (Registry Callee coercible)
open Ir (Knowledge Certified Surroundings)
open Ir.Builder (Laid)
open Lower

def signature (decl : FunctionDecl) : Ir.External :=
  ⟨decl.name, decl.params.map (·.ty.toIr), decl.returns.toIr, false⟩

def callees (r : Registry) (name : String) : Option Ir.External :=
  match r.get? name with
  | some decl => some (signature decl)
  | none => Ir.prototype? name

namespace Context

variable {c : Context} {f : Frame} {rest : List Frame}

def top (c : Context) : Frame := c.frames.headD (.start entryName [] .int)

theorem top_eq (hc : c.frames = f :: rest) : c.top = f := by
  simp [top, hc]

theorem frames_eq (hc : c.frames ≠ []) : c.frames = c.top :: c.frames.tail := by
  obtain ⟨f, rest, hf⟩ := List.exists_cons_of_ne_nil hc
  simp [top, hf]

/-- Another builder at hand leaves the rest of its frame alone. -/
theorem top_withBuilder (hc : c.frames ≠ []) (b : Ir.Builder) :
    (c.withBuilder b).top = { c.top with builder := b } := by
  rw [top_eq (frames_withBuilder (frames_eq hc) b)]

@[simp] theorem tail_withBuilder (b : Ir.Builder) :
    (c.withBuilder b).frames.tail = c.frames.tail := by
  cases hf : c.frames <;> simp [withBuilder, hf]

@[simp] theorem module_withBuilder (b : Ir.Builder) : (c.withBuilder b).module = c.module := rfl

@[simp] theorem scopes_withBuilder (b : Ir.Builder) : (c.withBuilder b).scopes = c.scopes := rfl

theorem frames_withBuilder_ne (hc : c.frames ≠ []) (b : Ir.Builder) :
    (c.withBuilder b).frames ≠ [] := by
  rw [frames_withBuilder (frames_eq hc) b]
  exact List.cons_ne_nil _ _

/-- What the instructions of the function at hand may name. -/
def surroundings (r : Registry) (c : Context) : Surroundings :=
  c.top.builder.function.surroundings (callees r) c.module.strings.length

end Context

/-- Every name of the function has a slot of its type. -/
def Frame.Stored (f : Frame) : Prop :=
  ∀ name s, f.storage? name = some s → s.ty ≠ .void ∧
    (f.builder.function.slots.map (·.ty))[s.slot]? = some s.ty.toIr

structure Orderly (r : Registry) (m : Ir.Module) : Prop where
  names : (m.functions.map (·.name)).Nodup
  externals : ∀ name, r.get? name = none → m.external? name = Ir.prototype? name
  prototypes : m.externals ⊆ Ir.prototypes

structure Sound (r : Registry) (g : Knowledge) (c : Context) : Prop where
  frames : c.frames ≠ []
  shaped : c.top.builder.function.Shaped
  isOpen : c.top.builder.IsOpen
  certified : Certified (callees r) c.module.strings.length g c.top.builder.function
  stored : c.top.Stored
  returns : c.top.builder.function.returns = c.top.returns.toIr
  orderly : Orderly r c.module

/-- The declarations are those that the registry knows by their names. -/
def Registered (r : Registry) (ds : List FunctionDecl) : Prop :=
  ∀ d ∈ ds, r.get? d.name = some d

theorem Registered.left {r : Registry} {ds ds' : List FunctionDecl}
    (h : Registered r (ds ++ ds')) : Registered r ds :=
  fun d hd => h d (List.mem_append_left _ hd)

theorem Registered.right {r : Registry} {ds ds' : List FunctionDecl}
    (h : Registered r (ds ++ ds')) : Registered r ds' :=
  fun d hd => h d (List.mem_append_right _ hd)

theorem Registered.tail {r : Registry} {d : FunctionDecl} {ds : List FunctionDecl}
    (h : Registered r (d :: ds)) : Registered r ds :=
  fun e he => h e (List.mem_cons_of_mem d he)

/-- The function `F` is what became of a body that was lowered in a frame of its own. The module had
`literals` strings before, and behind that some of `strings`. -/
inductive Compiled (r : Registry) (literals : Nat) (name : String) (params : List Tree.Param) (returns : Ty)
    (body : List Stmt) (ending : Option Typed → Ending) (strings : List String) (F : Ir.Function) :
    Prop
  | intro {c d d' d'' : Context} {v : Option Typed} {g g' : Knowledge}
    (count : c.module.strings.length = literals)
    (enter : Gives (enterFunction name params returns) c () d)
    (inside : Sound r g d)
    (lower : Gives (lowerStmts r none body) d v d')
    (lowered : Sound r g' d')
    (close : Gives (close (ending v)) d' () d'')
    (laid : Laid (callees r) d''.module.strings.length .nothing
      (.start name (params.map fun p => ⟨p.name, p.ty.toIr⟩) returns.toIr) g' d''.top.builder [])
    (build : d''.top.builder.prune.build = .ok F)
    (strings : d''.module.strings <+: strings)
    (registered : Registered r (nestedFunctions body))

def FunctionDecl.Compiled (r : Registry) (d : FunctionDecl) (strings : List String)
    (F : Ir.Function) : Prop :=
  ∃ literals, Lowering.Compiled r literals d.name d.params d.returns d.body .value strings F

/-- What lowering may have done between two points of the function at hand. The declarations `ds`
have been lowered on the way, and some blocks of the function are pending. -/
structure Working (r : Registry) (ds : List FunctionDecl) (g : Knowledge) (c : Context)
    (g' : Knowledge) (c' : Context) (pending : List Nat) : Prop where
  frames : c'.frames ≠ []
  tail : c'.frames.tail = c.frames.tail
  laid : Laid (callees r) c'.module.strings.length g c.top.builder g' c'.top.builder pending
  stored : c'.top.Stored
  returns : c'.top.returns = c.top.returns
  outer : c'.scopes.outer = c.scopes.outer
  strings : c.module.strings <+: c'.module.strings
  functions : c.module.functions <+: c'.module.functions
  orderly : Orderly r c'.module
  made : ∀ F ∈ c'.module.functions, F ∈ c.module.functions ∨
    ∃ d ∈ ds, F.name = d.name ∧ FunctionDecl.Compiled r d c'.module.strings F
  found : ∀ d ∈ ds, ∃ F ∈ c'.module.functions, F.name = d.name ∧
    FunctionDecl.Compiled r d c'.module.strings F

structure Lowered (r : Registry) (ds : List FunctionDecl) (g : Knowledge) (c : Context)
    (g' : Knowledge) (c' : Context) : Prop extends Working r ds g c g' c' [] where
  isOpen : c'.top.builder.IsOpen

variable {r : Registry} {ds ds' : List FunctionDecl} {g g' g'' : Knowledge} {c c' c'' : Context}
  {pending : List Nat}

/-- What a body became stays so when the module gets more strings. -/
theorem Compiled.mono {literals : Nat} {name : String} {params : List Tree.Param} {returns : Ty}
    {body : List Stmt} {ending : Option Typed → Ending} {strings strings' : List String}
    {F : Ir.Function}
    (h : Compiled r literals name params returns body ending strings F)
    (hs : strings <+: strings') :
    Compiled r literals name params returns body ending strings' F := by
  obtain ⟨count, enter, inside, lower, lowered, close, laid, build, hpre, hreg⟩ := h
  exact .intro count enter inside lower lowered close laid build (hpre.trans hs) hreg

theorem FunctionDecl.Compiled.mono {d : FunctionDecl} {strings strings' : List String}
    {F : Ir.Function} (h : FunctionDecl.Compiled r d strings F) (hs : strings <+: strings') :
    FunctionDecl.Compiled r d strings' F :=
  h.imp fun _ hc => Lowering.Compiled.mono hc hs

/-- Slots that are added leave every stored name where it was. -/
theorem Frame.Stored.mono {f f' : Frame} (h : f.Stored) (hname : f'.storage? = f.storage?)
    (hslots : f.builder.function.slots <+: f'.builder.function.slots) : f'.Stored := by
  intro name s hs
  rw [hname] at hs
  obtain ⟨hv, hslot⟩ := h name s hs
  exact ⟨hv, Ir.getElem?_of_extended (hslots.map _) hslot⟩

namespace Working

theorem refl (h : Sound r g c) : Working r [] g c g c [] where
  frames := h.frames
  tail := rfl
  laid := .refl h.shaped h.isOpen h.certified
  stored := h.stored
  returns := rfl
  outer := rfl
  strings := List.prefix_rfl
  functions := List.prefix_rfl
  orderly := h.orderly
  made _ hF := .inl hF
  found _ hd := nomatch hd

/-- Work that has no block pending at its end may be followed by more work. -/
theorem trans (h : Working r ds g c g' c' pending) (h' : Working r ds' g' c' g'' c'' []) :
    Working r (ds ++ ds') g c g'' c'' pending where
  frames := h'.frames
  tail := h'.tail.trans h.tail
  laid := h.laid.trans h'.laid
  stored := h'.stored
  returns := h'.returns.trans h.returns
  outer := h'.outer.trans h.outer
  strings := h.strings.trans h'.strings
  functions := h.functions.trans h'.functions
  orderly := h'.orderly
  made F hF := by
    rcases h'.made F hF with hF | ⟨d, hd, hF⟩
    · rcases h.made F hF with hF | ⟨d, hd, hn, hF⟩
      · exact .inl hF
      · exact .inr ⟨d, List.mem_append_left _ hd, hn, hF.mono h'.strings⟩
    · exact .inr ⟨d, List.mem_append_right _ hd, hF⟩
  found d hd := by
    rcases List.mem_append.mp hd with hd | hd
    · obtain ⟨F, hF, hn, hc⟩ := h.found d hd
      exact ⟨F, h'.functions.subset hF, hn, hc.mono h'.strings⟩
    · exact h'.found d hd

theorem congr (h : Working r ds g c g' c' pending) (he : ∀ d, d ∈ ds ↔ d ∈ ds') :
    Working r ds' g c g' c' pending :=
  { h with
    made := by
      intro F hF
      rcases h.made F hF with hold | ⟨d, hd, hmade⟩
      · exact .inl hold
      · exact .inr ⟨d, (he d).mp hd, hmade⟩
    found := fun d hd => h.found d ((he d).mpr hd) }

/-- The builder goes on from one point to another. -/
theorem step (h : Working r ds g c g' c' pending) {b : Ir.Builder} {pending' : List Nat}
    (hlaid : Laid (callees r) c'.module.strings.length g c.top.builder g'' b pending')
    (hslots : c'.top.builder.function.slots <+: b.function.slots) :
    Working r ds g c g'' (c'.withBuilder b) pending' := by
  have ht := Context.top_withBuilder h.frames b
  exact { h with
    frames := Context.frames_withBuilder_ne h.frames b
    tail := (Context.tail_withBuilder b).trans h.tail
    laid := by rw [ht]; exact hlaid
    stored := by rw [ht]; exact h.stored.mono rfl hslots
    returns := by rw [ht]; exact h.returns }

/-- Where a working point is open, lowering may go on. -/
theorem sound (h : Working r ds g c g' c' pending) (hs : Sound r g c)
    (ho : c'.top.builder.IsOpen) : Sound r g' c' where
  frames := h.frames
  shaped := h.laid.shaped
  isOpen := ho
  certified := h.laid.certified
  stored := h.stored
  returns := by rw [h.laid.returns, hs.returns, h.returns]
  orderly := h.orderly

theorem surroundings (h : Working r ds g c g' c' pending) :
    (c.surroundings r).Within (c'.surroundings r) where
  params := congrArg (List.map _) h.laid.params
  returns := h.laid.returns
  slots := h.laid.slots.map _
  strings := h.strings.length_le
  callees := rfl

theorem hasType (h : Working r ds g c g' c' pending) {o : Ir.Operand} {ty : Ir.Ty}
    (ho : o.HasType (c.surroundings r) (c.top.builder.known g) ty) :
    o.HasType (c'.surroundings r) (c'.top.builder.known g') ty :=
  ho.mono h.surroundings h.laid.known

end Working

namespace Lowered

theorem refl (h : Sound r g c) : Lowered r [] g c g c := ⟨.refl h, h.isOpen⟩

theorem trans (h : Lowered r ds g c g' c') (h' : Lowered r ds' g' c' g'' c'') :
    Lowered r (ds ++ ds') g c g'' c'' :=
  ⟨h.toWorking.trans h'.toWorking, h'.isOpen⟩

/-- Work that lowers no declaration may follow any other. -/
theorem andThen (h : Lowered r ds g c g' c') (h' : Lowered r [] g' c' g'' c'') :
    Lowered r ds g c g'' c'' := by
  have ht := h.trans h'
  rwa [List.append_nil] at ht

theorem sound (h : Lowered r ds g c g' c') (hs : Sound r g c) : Sound r g' c' :=
  h.toWorking.sound hs h.isOpen

theorem congr (h : Lowered r ds g c g' c') (he : ∀ d, d ∈ ds ↔ d ∈ ds') :
    Lowered r ds' g c g' c' :=
  ⟨h.toWorking.congr he, h.isOpen⟩

end Lowered

/-- A lowered value is held in the function at hand as its type says. -/
structure Typed.Fits (r : Registry) (g : Knowledge) (c : Context) (t : Typed) : Prop where
  value : t.value.HasType (c.surroundings r) (c.top.builder.known g) t.repr
  repr : t.repr = t.ty.toIr ∨ (t.repr = .bool ∧ t.ty.isNumeric = true)
  ty : t.ty ≠ .void

/-- A value that fits before some work fits behind it. -/
theorem Typed.Fits.mono {t : Typed} (h : t.Fits r g c) (hw : Working r ds g c g' c' pending) :
    t.Fits r g' c' :=
  ⟨hw.hasType h.value, h.repr, h.ty⟩

theorem Typed.fits_plain {o : Ir.Operand} {ty : Ty} (hty : ty ≠ .void)
    (h : o.HasType (c.surroundings r) (c.top.builder.known g) ty.toIr) :
    (Typed.plain o ty).Fits r g c :=
  ⟨h, .inl rfl, hty⟩

end TreeLang.Lowering
