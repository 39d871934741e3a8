import Mathlib.Data.List.Basic
import TreeLang.Proofs.Attribution.Programs

namespace TreeLang

section Places

variable {α β : Type}

/-- The values that stand at places, in the order of the places: none is left out and none is listed
twice. -/
def Lists (at? : List Nat → Option α) (values : List α) : Prop :=
  ∃ places : List (List Nat), places.Pairwise (· < ·) ∧
    (∀ place, place ∈ places ↔ (at? place).isSome) ∧ places.map at? = values.map some

/-- The value at a place among parts, of which the first position picks one. -/
def among (at? : β → List Nat → Option α) (parts : List β) : List Nat → Option α
  | [] => none
  | i :: place => parts[i]?.bind (at? · place)

def moved (places : List (List Nat)) : List (List Nat) :=
  places.map (·.modifyHead (· + 1))

section Moved

variable {places : List (List Nat)} (hplaces : [] ∉ places)

include hplaces

/-- A declaration is never the whole that is walked. -/
theorem exists_cons_of_mem {place : List Nat} (h : place ∈ places) : ∃ i rest, place = i :: rest :=
  List.exists_cons_of_ne_nil fun he => hplaces (he ▸ h)

theorem nil_not_mem_moved : [] ∉ moved places := by
  intro hm
  obtain ⟨place, hplace, he⟩ := List.mem_map.mp hm
  obtain ⟨i, rest, rfl⟩ := exists_cons_of_mem hplaces hplace
  cases he

theorem cons_mem_moved {i : Nat} {rest : List Nat} :
    i :: rest ∈ moved places ↔ ∃ j, i = j + 1 ∧ j :: rest ∈ places := by
  rw [moved, List.mem_map]
  constructor
  · rintro ⟨place, hplace, he⟩
    obtain ⟨j, rest', rfl⟩ := exists_cons_of_mem hplaces hplace
    obtain ⟨rfl, rfl⟩ := List.cons_eq_cons.mp he
    exact ⟨j, rfl, hplace⟩
  · rintro ⟨j, rfl, hplace⟩
    exact ⟨_, hplace, rfl⟩

/-- The order of the places is kept when they move. -/
theorem pairwise_moved (h : places.Pairwise (· < ·)) : (moved places).Pairwise (· < ·) := by
  refine List.pairwise_map.mpr (h.imp_of_mem fun {a b} ha hb hlt => ?_)
  obtain ⟨i, as, rfl⟩ := exists_cons_of_mem hplaces ha
  obtain ⟨j, bs, rfl⟩ := exists_cons_of_mem hplaces hb
  simpa [List.cons_lt_cons_iff] using hlt

theorem map_among_moved (at? : β → List Nat → Option α) (part : β) (parts : List β) :
    (moved places).map (among at? (part :: parts)) = places.map (among at? parts) := by
  rw [moved, List.map_map]
  refine List.map_congr_left fun place hplace => ?_
  obtain ⟨i, rest, rfl⟩ := exists_cons_of_mem hplaces hplace
  rfl

end Moved

/-- The places in the first part come before all others. -/
theorem pairwise_places {inner others : List (List Nat)} (hinner : inner.Pairwise (· < ·))
    (hnil : [] ∉ others) (hothers : others.Pairwise (· < ·)) :
    (inner.map (0 :: ·) ++ moved others).Pairwise (· < ·) := by
  refine List.pairwise_append.mpr ⟨?_, pairwise_moved hnil hothers, ?_⟩
  · exact List.pairwise_map.mpr (hinner.imp fun hlt => List.cons_lt_cons_iff.mpr (.inr ⟨rfl, hlt⟩))
  · intro a ha b hb
    obtain ⟨as, -, rfl⟩ := List.mem_map.mp ha
    obtain ⟨i, bs, rfl⟩ := exists_cons_of_mem (nil_not_mem_moved hnil) hb
    obtain ⟨j, rfl, -⟩ := (cons_mem_moved hnil).mp hb
    exact List.cons_lt_cons_iff.mpr (.inl (Nat.succ_pos j))

/-- The values in parts are those of one part after the other. -/
theorem lists_among {at? : β → List Nat → Option α} {values : β → List α} {parts : List β}
    (h : ∀ part ∈ parts, Lists (at? part) (values part)) :
    Lists (among at? parts) (parts.flatMap values) := by
  induction parts with
  | nil => exact ⟨[], .nil, fun place => by cases place <;> simp [among], rfl⟩
  | cons part parts ih =>
    obtain ⟨inner, hinner, hmem, hvalues⟩ := h part List.mem_cons_self
    obtain ⟨others, hothers, hmem', hvalues'⟩ := ih fun p hp => h p (List.mem_cons_of_mem part hp)
    have hnil : [] ∉ others := fun hm => nomatch (hmem' []).mp hm
    refine ⟨inner.map (0 :: ·) ++ moved others, pairwise_places hinner hnil hothers, ?_, ?_⟩
    · intro place
      match place with
      | [] => simp [among, nil_not_mem_moved hnil]
      | 0 :: place => simp [among, cons_mem_moved hnil, hmem]
      | (i + 1) :: place => simp [among, cons_mem_moved hnil, hmem']
    · rw [List.map_append, map_among_moved hnil, hvalues', List.map_map, List.flatMap_cons,
        List.map_append, ← hvalues]
      rfl

/-- A value that stands at a node itself comes before those in its parts. -/
theorem lists_cons {at? inside : List Nat → Option α} {here : Option α} {values : List α}
    (h : Lists inside values) (hroot : at? [] = here) (hnil : inside [] = none)
    (hcons : ∀ i place, at? (i :: place) = inside (i :: place)) :
    Lists at? (here.toList ++ values) := by
  obtain ⟨places, hplaces, hmem, hvalues⟩ := h
  have hpath : ∀ place ∈ places, place ≠ [] := fun place hplace he => by
    have hsome := (hmem place).mp hplace
    rw [he, hnil] at hsome
    cases hsome
  have hsame : ∀ place ≠ [], at? place = inside place := fun place hne => by
    obtain ⟨i, rest, rfl⟩ := List.exists_cons_of_ne_nil hne
    exact hcons i rest
  have hmap : places.map at? = values.map some := by
    rw [← hvalues]
    exact List.map_congr_left fun place hplace => hsame place (hpath place hplace)
  have hiff : ∀ place ≠ [], place ∈ places ↔ (at? place).isSome := fun place hne => by
    rw [hmem, hsame place hne]
  cases here with
  | none =>
    refine ⟨places, hplaces, fun place => ?_, hmap⟩
    by_cases hne : place = []
    · subst hne
      exact iff_of_false (fun hm => hpath [] hm rfl) (by rw [hroot]; exact Bool.false_ne_true)
    · exact hiff place hne
  | some value =>
    refine ⟨[] :: places, List.pairwise_cons.mpr ⟨fun place hplace => ?_, hplaces⟩,
      fun place => ?_, ?_⟩
    · obtain ⟨i, rest, rfl⟩ := List.exists_cons_of_ne_nil (hpath place hplace)
      exact List.nil_lt_cons i rest
    · by_cases hne : place = []
      · subst hne
        exact iff_of_true List.mem_cons_self (by rw [hroot]; rfl)
      · rw [List.mem_cons, hiff place hne]
        exact or_iff_right hne
    · rw [List.map_cons, hroot, hmap]
      rfl

end Places

namespace Tree

inductive Node where
  | expr (e : Expr)
  | stmt (s : Stmt)

namespace Node

/-- The nodes directly below a node, in the order of the text. Those of a declaration are the
statements of its body. -/
def parts : Node → List Node
  | .expr (.int _) | .expr (.double _) | .expr (.str _) | .expr (.ident _) => []
  | .expr (.neg operand) => [.expr operand]
  | .expr (.binary _ lhs rhs) => [.expr lhs, .expr rhs]
  | .expr (.assign _ value) => [.expr value]
  | .expr (.call _ args) => args.map .expr
  | .expr (.block stmts) => stmts.map .stmt
  | .stmt (.expr e) => [.expr e]
  | .stmt (.var _ _ init) => init.toList.map .expr
  | .stmt (.function decl) => decl.body.map .stmt
  | .stmt (.ret value) => value.toList.map .expr
  | .stmt (.ite cond thenBlock elseBlock) =>
    .expr cond :: (thenBlock.map .stmt ++ (elseBlock.getD []).map .stmt)
  | .stmt (.loop init cond post body) =>
    init.map .expr ++ .expr cond :: (post.map .expr ++ body.map .stmt)

def declaration? : Node → Option FunctionDecl
  | .stmt (.function decl) => some decl
  | _ => none

/-- Only the statement that declares a function is a declaration. -/
theorem declaration?_eq_some {n : Node} {d : FunctionDecl} (h : n.declaration? = some d) :
    n = .stmt (.function d) := by
  unfold declaration? at h
  split at h
  · rw [Option.some.inj h]
  · cases h

/-- The declaration at the place that a path of positions among the parts leads to. -/
def declarationAt? (n : Node) : List Nat → Option FunctionDecl
  | [] => n.declaration?
  | i :: place => n.parts[i]?.bind (declarationAt? · place)

def outer : Node → List FunctionDecl
  | .expr e => e.outerFunctions
  | .stmt s => s.outerFunctions

def nested : Node → List FunctionDecl
  | .expr e => e.nestedFunctions
  | .stmt s => s.nestedFunctions

/-- The parts of a node are smaller, so a walk over them ends. -/
theorem sizeOf_lt_of_mem_parts {n part : Node} (h : part ∈ n.parts) : sizeOf part < sizeOf n := by
  have hexpr : ∀ {e : Expr} {es : List Expr}, e ∈ es → sizeOf e < sizeOf es := List.sizeOf_lt_of_mem
  have hstmt : ∀ {s : Stmt} {ss : List Stmt}, s ∈ ss → sizeOf s < sizeOf ss := List.sizeOf_lt_of_mem
  cases n with
  | expr e =>
    cases e <;> simp only [parts, List.mem_cons, List.mem_map, List.not_mem_nil] at h <;> grind
  | stmt s =>
    cases s with
    | function decl =>
      cases decl
      simp only [parts, List.mem_map] at h
      grind
    | ite cond thenBlock elseBlock =>
      cases elseBlock <;>
        simp only [parts, List.mem_cons, List.mem_append, List.mem_map] at h <;> grind
    | _ => simp only [parts, List.mem_cons, List.mem_append, List.mem_map] at h; grind

end Node

/-- Both walks go over the parts of a node in the order of the text, whatever its form. So one equation
stands for each of them. -/
theorem outerOfExprs_eq (es : List Expr) : outerOfExprs es = (es.map .expr).flatMap Node.outer := by
  induction es with
  | nil => rfl
  | cons e es ih => rw [outerOfExprs, ih, List.map_cons, List.flatMap_cons, Node.outer]

theorem outerOfBlock_eq (ss : List Stmt) : outerOfBlock ss = (ss.map .stmt).flatMap Node.outer := by
  induction ss with
  | nil => rfl
  | cons s ss ih => rw [outerOfBlock, ih, List.map_cons, List.flatMap_cons, Node.outer]

theorem nestedOfExprs_eq (es : List Expr) :
    nestedOfExprs es = (es.map .expr).flatMap Node.nested := by
  induction es with
  | nil => rfl
  | cons e es ih => rw [nestedOfExprs, ih, List.map_cons, List.flatMap_cons, Node.nested]

theorem nestedFunctions_eq (ss : List Stmt) :
    nestedFunctions ss = (ss.map .stmt).flatMap Node.nested := by
  induction ss with
  | nil => rfl
  | cons s ss ih => rw [nestedFunctions, ih, List.map_cons, List.flatMap_cons, Node.nested]

/-- A declaration comes before those in its body. -/
theorem FunctionDecl.withNested_eq (d : FunctionDecl) : d.withNested = d :: nestedFunctions d.body := by
  cases d
  rw [withNested]

namespace Node

/-- The deep walk meets a declaration, and then what is in its body. -/
theorem nested_eq (n : Node) : n.nested = n.declaration?.toList ++ n.parts.flatMap nested := by
  cases n with
  | expr e =>
    cases e <;>
      simp [nested, parts, declaration?, Expr.nestedFunctions, nestedOfExprs_eq, nestedFunctions_eq]
  | stmt s =>
    cases s with
    | expr | function | loop =>
      simp [nested, parts, declaration?, Stmt.nestedFunctions, nestedOfExprs_eq, nestedFunctions_eq,
        FunctionDecl.withNested_eq]
    | var _ _ init => cases init <;> simp [nested, parts, declaration?, Stmt.nestedFunctions]
    | ret value => cases value <;> simp [nested, parts, declaration?, Stmt.nestedFunctions]
    | ite _ _ elseBlock =>
      cases elseBlock <;> simp [nested, parts, declaration?, Stmt.nestedFunctions, nestedFunctions_eq]

/-- The shallow walk meets a declaration, and does not go on behind it. -/
theorem outer_eq (n : Node) :
    n.outer = n.declaration?.elim (n.parts.flatMap outer) ([·]) := by
  cases n with
  | expr e =>
    cases e <;>
      simp [outer, parts, declaration?, Expr.outerFunctions, outerOfExprs_eq, outerOfBlock_eq]
  | stmt s =>
    cases s with
    | expr | function | loop =>
      simp [outer, parts, declaration?, Stmt.outerFunctions, outerOfExprs_eq, outerOfBlock_eq]
    | var _ _ init => cases init <;> simp [outer, parts, declaration?, Stmt.outerFunctions]
    | ret value => cases value <;> simp [outer, parts, declaration?, Stmt.outerFunctions]
    | ite _ _ elseBlock =>
      cases elseBlock <;> simp [outer, parts, declaration?, Stmt.outerFunctions, outerOfBlock_eq]

/-- The deep walk lists the declaration at each place below a node, and at the node itself. -/
theorem lists_nested (n : Node) : Lists n.declarationAt? n.nested := by
  rw [nested_eq]
  have hparts : ∀ part ∈ n.parts, Lists part.declarationAt? part.nested := fun part hpart =>
    have := sizeOf_lt_of_mem_parts hpart
    lists_nested part
  exact lists_cons (lists_among hparts) rfl rfl fun _ _ => rfl
termination_by sizeOf n

/-- A deep walk is a shallow walk that goes on into the bodies. -/
theorem nested_eq_outer (n : Node) : n.nested = n.outer.flatMap FunctionDecl.withNested := by
  rw [outer_eq]
  cases hd : n.declaration? with
  | some d =>
    obtain rfl := declaration?_eq_some hd
    rw [nested, Stmt.nestedFunctions, Option.elim_some, List.flatMap_singleton]
  | none =>
    have hparts : n.parts.flatMap nested =
        n.parts.flatMap fun part => part.outer.flatMap FunctionDecl.withNested :=
      List.flatMap_congr fun part hpart =>
        have := sizeOf_lt_of_mem_parts hpart
        nested_eq_outer part
    rw [nested_eq, hd, hparts, Option.elim_none, List.flatMap_assoc]
    rfl
termination_by sizeOf n

end Node

/-- The deep walk of a block, statement by statement. -/
theorem nestedFunctions_outer (ss : List Stmt) : nestedFunctions ss =
    ss.flatMap fun s => s.outerFunctions.flatMap fun d => d :: nestedFunctions d.body := by
  rw [nestedFunctions_eq, List.flatMap_map, ← funext FunctionDecl.withNested_eq]
  exact List.flatMap_congr fun s _ => Node.nested_eq_outer (.stmt s)

end Tree

namespace Typing.Registry

open TreeLang.Tree (Block Node FunctionDecl nestedFunctions)

variable {program : Block}

/-- Whether a declaration, behind so many others, has the name of the entry or of one of those. -/
def clashes (ds : List FunctionDecl) (d : FunctionDecl) (behind : Nat) : Bool :=
  d.name = entryName ∨ d.name ∈ (ds.take behind).map (·.name)

def clash (d : FunctionDecl) : Diagnostic := ⟨d.name, d.header, .duplicateFunction d.name⟩

/-- The names that are taken are those of all earlier declarations, but for the entry's. -/
theorem duplicates_eq {seen : List String} {before ds : List FunctionDecl}
    (hseen : ∀ name ≠ entryName, name ∈ seen ↔ name ∈ before.map (·.name)) :
    duplicates seen ds = ((ds.zipIdx before.length).filter fun pair =>
      clashes (before ++ ds) pair.1 pair.2).map fun pair => clash pair.1 := by
  induction ds generalizing seen before with
  | nil => rfl
  | cons d ds ih =>
    have hclashes : clashes (before ++ d :: ds) d before.length =
        decide (d.name = entryName ∨ d.name ∈ seen) := by
      rw [clashes, List.take_left, decide_eq_decide]
      by_cases hentry : d.name = entryName
      · simp [hentry]
      · rw [hseen d.name hentry]
    have hrest : ∀ {seen' : List String},
        (∀ name ≠ entryName, name ∈ seen' ↔ name = d.name ∨ name ∈ seen) →
        duplicates seen' ds = ((ds.zipIdx (before.length + 1)).filter fun pair =>
          clashes (before ++ d :: ds) pair.1 pair.2).map fun pair => clash pair.1 := by
      intro seen' hseen'
      have hnames : ∀ name ≠ entryName, name ∈ seen' ↔ name ∈ (before ++ [d]).map (·.name) := by
        intro name hname
        rw [hseen' name hname, hseen name hname, List.map_append, List.mem_append, or_comm]
        simp
      rw [ih hnames, List.length_append, List.append_assoc]
      rfl
    rw [List.zipIdx_cons, duplicates, List.filter_cons, hclashes]
    split <;> rename_i h
    · -- The name is the entry's, or is taken already.
      have hsame : ∀ name ≠ entryName, name ∈ seen ↔ name = d.name ∨ name ∈ seen := by
        rintro name hname
        refine ⟨.inr, fun hor => hor.elim (fun he => ?_) id⟩
        exact he ▸ h.resolve_left (he ▸ hname)
      rw [hrest hsame, if_pos (decide_eq_true h)]
      rfl
    · rw [hrest fun name _ => List.mem_cons, if_neg (mt of_decide_eq_true h)]

/-- Collecting succeeds exactly where the names are distinct and none is that of the entry. -/
theorem collect_eq_ok_iff {r : Registry} : collect program = .ok r ↔
    r = ⟨nestedFunctions program⟩ ∧ ((nestedFunctions program).map (·.name)).Nodup ∧
      ∀ d ∈ nestedFunctions program, d.name ≠ entryName := by
  rw [collect_eq_ok, Lowering.duplicates_eq_nil, Lowering.registry, and_comm (b := List.Nodup _)]
  simp

/-- Otherwise each declaration whose name was taken is reported, in the order of the walk. -/
theorem collect_eq_error {ds : List Diagnostic} (h : collect program = .error ds) :
    ds = ((nestedFunctions program).zipIdx.filter fun pair =>
      clashes (nestedFunctions program) pair.1 pair.2).map fun pair => clash pair.1 := by
  have hds : ds = duplicates [] (nestedFunctions program) := by
    unfold collect at h
    simp only at h
    split at h
    · cases h
    · exact (Except.error.inj h).symm
  have hnone : ∀ name ≠ entryName, name ∈ [] ↔ name ∈ ([] : List FunctionDecl).map (·.name) :=
    fun _ _ => .rfl
  rw [hds]
  exact duplicates_eq hnone

/-- With distinct names, a registry finds each declaration under its name, and no other there. -/
theorem get?_eq_some_iff {ds : List FunctionDecl} (h : (ds.map (·.name)).Nodup) {name : String}
    {d : FunctionDecl} : get? ⟨ds⟩ name = some d ↔ d ∈ ds ∧ d.name = name := by
  constructor
  · intro hget
    exact ⟨List.mem_of_find?_eq_some hget, by simpa using List.find?_some hget⟩
  · rintro ⟨hd, rfl⟩
    exact Lowering.registered_of_nodup h d hd

/-- The deep walk lists each declaration of a block once, and is made up of shallow walks. The
registry of a program is that list where no name is the entry's or stands twice; elsewhere there is
one report for each declaration with such a name. -/
theorem collect_declarations (program : Block) :
    Lists (Node.expr (.block program)).declarationAt? (nestedFunctions program) ∧
    (nestedFunctions program = program.flatMap fun s =>
      s.outerFunctions.flatMap fun d => d :: nestedFunctions d.body) ∧
    ((∃ r, collect program = .ok r) ↔ ((nestedFunctions program).map (·.name)).Nodup ∧
      ∀ d ∈ nestedFunctions program, d.name ≠ entryName) ∧
    (∀ r, collect program = .ok r → r.functions = nestedFunctions program ∧
      ∀ name d, r.get? name = some d ↔ d ∈ nestedFunctions program ∧ d.name = name) ∧
    ∀ ds, collect program = .error ds → ds = ((nestedFunctions program).zipIdx.filter fun pair =>
      clashes (nestedFunctions program) pair.1 pair.2).map fun pair => clash pair.1 := by
  refine ⟨?_, Tree.nestedFunctions_outer program, ?_, ?_, fun ds => collect_eq_error⟩
  · exact Node.lists_nested (.expr (.block program))
  · simp [collect_eq_ok_iff]
  · rintro r h
    obtain ⟨rfl, hnodup, -⟩ := collect_eq_ok_iff.mp h
    exact ⟨rfl, fun name d => get?_eq_some_iff hnodup⟩

end Typing.Registry

end TreeLang
