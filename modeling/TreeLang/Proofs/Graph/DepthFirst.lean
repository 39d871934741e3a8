import Mathlib.Data.List.Chain
import Mathlib.Data.List.Nodup
import Mathlib.Data.List.Perm.Subperm
import Mathlib.Logic.Relation
import TreeLang.Proofs.Builder.Reachability

namespace TreeLang.Ir.Graph

variable {g : Graph} {b h t x y : Nat} {p c gone targets : List Nat} {w w' : Walk}

/-- A path of edges from the entry, the last block first. -/
inductive Route (g : Graph) : List Nat → Prop
  | entry : Route g [g.entry]
  | edge {x y : Nat} {p : List Nat} (h : Route g (x :: p)) (hy : y ∈ g.successors x) :
    Route g (y :: x :: p)

/-- The blocks of a cycle, in the order in which its edges pass them. -/
def IsCycle (g : Graph) : List Nat → Prop
  | [] => False
  | x :: xs => (x :: xs ++ [x]).IsChain fun x y => y ∈ g.successors x

theorem Route.reached (hp : g.Route (b :: p)) : g.Reached b := by
  generalize hq : b :: p = q at hp
  induction hp generalizing b p with
  | entry =>
    obtain ⟨rfl, -⟩ := List.cons.inj hq
    exact .entry
  | edge _ hy ih =>
    obtain ⟨rfl, -⟩ := List.cons.inj hq
    exact .edge (ih rfl) hy

theorem Reached.route (hb : g.Reached b) : ∃ p, g.Route (b :: p) := by
  induction hb with
  | entry => exact ⟨[], .entry⟩
  | edge _ hy ih =>
    obtain ⟨p, hp⟩ := ih
    exact ⟨_, .edge hp hy⟩

/-- A route passes through each of its blocks on a shorter route. -/
theorem Route.suffix {p q : List Nat} (hp : g.Route (p ++ b :: q)) : g.Route (b :: q) := by
  induction p with
  | nil => exact hp
  | cons x p ih =>
    refine ih ?_
    rw [List.cons_append] at hp
    generalize hr : p ++ b :: q = r at hp ⊢
    cases hp with
    | entry => simp at hr
    | edge h _ => exact h

theorem Route.isChain (hp : g.Route p) : p.IsChain fun y x => y ∈ g.successors x := by
  induction hp with
  | entry => exact .singleton _
  | edge _ hy ih => exact .cons_cons hy ih

/-- An edge back to a block of the route closes a cycle. -/
theorem Route.isCycle (hp : g.Route (b :: p)) (hm : h ∈ b :: p) (he : h ∈ g.successors b) :
    ∃ c, g.IsCycle c ∧ h ∈ c := by
  obtain ⟨before, after, heq⟩ := List.append_of_mem hm
  refine ⟨h :: before.reverse, ?_, List.mem_cons_self⟩
  have hseg : (before ++ [h]).IsChain fun y x => y ∈ g.successors x := by
    have hall := hp.isChain
    rw [heq, List.append_cons] at hall
    exact hall.left_of_append
  have hback : (h :: (before ++ [h])).IsChain fun y x => y ∈ g.successors x := by
    refine List.isChain_cons.mpr ⟨fun y hy => ?_, hseg⟩
    have hyb : y = b := by
      cases before with
      | nil => simp_all
      | cons => simp_all
    exact hyb ▸ he
  have hrev := List.isChain_reverse.mpr hback
  simpa [IsCycle] using hrev

/-- The visit of the targets of a block, at the end of a path that leads to the block, as a run of the
search without a bound. -/
inductive Explores (g : Graph) : Nat → List Nat → List Nat → Walk → Walk → Prop
  | done {block : Nat} {path : List Nat} {w : Walk} : Explores g block path [] w w
  | back {block target : Nat} {path targets : List Nat} {w w' : Walk} (hpath : target ∈ block :: path)
    (hrest : Explores g block path targets (w.mark target) w') :
    Explores g block path (target :: targets) w w'
  | known {block target : Nat} {path targets : List Nat} {w w' : Walk}
    (hpath : target ∉ block :: path) (hseen : target ∈ w.seen)
    (hrest : Explores g block path targets w w') :
    Explores g block path (target :: targets) w w'
  | fresh {block target : Nat} {path targets : List Nat} {w w₁ w' : Walk}
    (hpath : target ∉ block :: path) (hseen : target ∉ w.seen)
    (hvisit : Explores g target (block :: path) (g.successors target)
      { w with seen := target :: w.seen } w₁)
    (hrest : Explores g block path targets w₁ w') :
    Explores g block path (target :: targets) w w'

def Searched (g : Graph) (w : Walk) : Prop :=
  g.Explores g.entry [] (g.successors g.entry) ⟨[g.entry], []⟩ w

/-- Without a bound the search is a function all the same. -/
theorem Explores.unique {w₁ w₂ : Walk} (h₁ : g.Explores b p targets w w₁)
    (h₂ : g.Explores b p targets w w₂) : w₁ = w₂ := by
  induction h₁ generalizing w₂ with
  | done =>
    cases h₂
    rfl
  | back hpath _ ih =>
    cases h₂ with
    | back _ hrest => exact ih hrest
    | known hno => exact absurd hpath hno
    | fresh hno => exact absurd hpath hno
  | known hpath hseen _ ih =>
    cases h₂ with
    | back hon => exact absurd hon hpath
    | known _ _ hrest => exact ih hrest
    | fresh _ hno => exact absurd hseen hno
  | fresh hpath hseen _ _ ihv ih =>
    cases h₂ with
    | back hon => exact absurd hon hpath
    | known _ hon => exact absurd hon hseen
    | fresh _ _ hvisit hrest =>
      obtain rfl := ihv hvisit
      exact ih hrest

/-- Each block that is left by an edge is one of the graph. -/
theorem mem_keys (hy : y ∈ g.successors x) : x ∈ g.edges.map (·.1) := by
  unfold successors at hy
  cases hl : g.edges.lookup x with
  | none =>
    rw [hl] at hy
    cases hy
  | some targets =>
    obtain ⟨l₁, l₂, heq, -⟩ := List.lookup_eq_some_iff.mp hl
    simp [heq]

/-- The bound on the depth is never met: the blocks above are different blocks with edges. -/
theorem explores_descend {fuel : Nat} (hfuel : g.edges.length + 1 ≤ p.length + fuel)
    (hkeys : p ⊆ g.edges.map (·.1)) (hnodup : (b :: p).Nodup) :
    g.Explores b p (g.successors b) { w with seen := b :: w.seen } (g.descend fuel p b w) := by
  induction fuel generalizing b p w with
  | zero =>
    have hle := ((List.nodup_cons.mp hnodup).2.subperm hkeys).length_le
    rw [List.length_map] at hle
    omega
  | succ fuel ih =>
    unfold descend
    -- Along the targets of the block that are still to be visited.
    have hall : ∀ targets ⊆ g.successors b, ∀ w, g.Explores b p targets w
        (targets.foldl (fun w target =>
          if target ∈ b :: p then w.mark target
          else if target ∈ w.seen then w
          else g.descend fuel (b :: p) target w) w) := by
      intro targets hsub
      induction targets with
      | nil => exact fun w => .done
      | cons t ts ihts =>
        intro w
        have ht := hsub List.mem_cons_self
        have hrest := ihts fun x hx => hsub (List.mem_cons_of_mem _ hx)
        rw [List.foldl_cons]
        by_cases hpath : t ∈ b :: p
        · rw [if_pos hpath]
          exact .back hpath (hrest _)
        · rw [if_neg hpath]
          by_cases hseen : t ∈ w.seen
          · rw [if_pos hseen]
            exact .known hpath hseen (hrest _)
          · rw [if_neg hseen]
            refine .fresh hpath hseen (ih ?_ ?_ (List.nodup_cons.mpr ⟨hpath, hnodup⟩)) (hrest _)
            · rw [List.length_cons]
              omega
            · exact List.cons_subset.mpr ⟨mem_keys ht, hkeys⟩
    exact hall _ (List.Subset.refl _) _

/-- The search ends, and the headers are those it has found. -/
theorem searched (g : Graph) : ∃ w, g.Searched w ∧ g.loopHeaders = w.headers :=
  ⟨_, explores_descend (w := ⟨[], []⟩) (Nat.le_add_left _ _) (List.nil_subset _)
    (List.nodup_singleton _), rfl⟩

theorem mem_mark : x ∈ (w.mark h).headers ↔ x ∈ w.headers ∨ x = h := by
  unfold Walk.mark
  split
  · rename_i hm
    exact ⟨.inl, fun hx => hx.elim id fun he => he ▸ hm⟩
  · simp

@[simp] theorem seen_mark : (w.mark h).seen = w.seen := by
  unfold Walk.mark
  split <;> rfl

/-- What the search knows about a block that it leaves. It came there on a path without repetition,
and each target of the block is a header or among those left before. -/
structure Left (g : Graph) (headers before : List Nat) (x : Nat) : Prop where
  targets : ∀ t ∈ g.successors x, t ∈ headers ∨ t ∈ before
  route : ∃ p, g.Route (x :: p) ∧ (x :: p).Nodup ∧ ∀ t ∈ g.successors x, t ∈ x :: p → t ∈ headers

/-- The blocks that the search has left, the last one first. -/
inductive Settled (g : Graph) (headers : List Nat) : List Nat → Prop
  | nil : Settled g headers []
  | cons {x : Nat} {before : List Nat} (hx : g.Left headers before x)
    (hrest : Settled g headers before) : Settled g headers (x :: before)

/-- What an edge back onto the path says about its target. -/
def Closes (g : Graph) (h : Nat) : Prop :=
  ∃ b p, g.Route (b :: p) ∧ (b :: p).Nodup ∧ h ∈ b :: p ∧ h ∈ g.successors b

/-- The search at the end of a path, with the blocks it has left. -/
structure Tracks (g : Graph) (path gone : List Nat) (w : Walk) : Prop where
  route : g.Route path
  nodup : path.Nodup
  seen : ∀ x, x ∈ w.seen ↔ x ∈ path ∨ x ∈ gone
  headers : ∀ h ∈ w.headers, h ∈ w.seen ∧ g.Closes h
  settled : g.Settled w.headers gone

/-- What is known about a block that has been left stays known when more headers are found. -/
theorem Left.mono {headers headers' : List Nat} (hx : g.Left headers gone x)
    (hsub : headers ⊆ headers') : g.Left headers' gone x where
  targets t ht := (hx.targets t ht).imp_left fun h => hsub h
  route := by
    obtain ⟨p, hp, hnodup, hback⟩ := hx.route
    exact ⟨p, hp, hnodup, fun t ht hm => hsub (hback t ht hm)⟩

theorem Settled.mono {headers headers' : List Nat} (hs : g.Settled headers gone)
    (hsub : headers ⊆ headers') : g.Settled headers' gone := by
  induction hs with
  | nil => exact .nil
  | cons hx _ ih => exact .cons (hx.mono hsub) ih

/-- Of each block that was left something is known, from the time when it was left. -/
theorem Settled.knows {headers : List Nat} (hs : g.Settled headers gone) (hx : x ∈ gone) :
    ∃ before, before ⊆ gone ∧ g.Left headers before x := by
  induction hs with
  | nil => cases hx
  | @cons a before ha _ ih =>
    rcases List.mem_cons.mp hx with rfl | hx
    · exact ⟨before, List.subset_cons_self _ _, ha⟩
    · obtain ⟨before', hsub, hl⟩ := ih hx
      exact ⟨before', fun z hz => List.mem_cons_of_mem _ (hsub hz), hl⟩

/-- A target on the path is marked, and the search stays where it is. -/
theorem Tracks.mark (hw : g.Tracks (b :: p) gone w) (hm : h ∈ b :: p) (he : h ∈ g.successors b) :
    g.Tracks (b :: p) gone (w.mark h) where
  route := hw.route
  nodup := hw.nodup
  seen := by simpa using hw.seen
  headers k hk := by
    rw [seen_mark]
    rcases mem_mark.mp hk with hk | rfl
    · exact hw.headers k hk
    · exact ⟨(hw.seen k).mpr (.inl hm), b, p, hw.route, hw.nodup, hm, he⟩
  settled := hw.settled.mono fun _ hk => mem_mark.mpr (.inl hk)

/-- The search goes on to a block that it has not seen. -/
theorem Tracks.enter (hw : g.Tracks (b :: p) gone w) (ht : t ∈ g.successors b)
    (hpath : t ∉ b :: p) :
    g.Tracks (t :: b :: p) gone { w with seen := t :: w.seen } where
  route := .edge hw.route ht
  nodup := List.nodup_cons.mpr ⟨hpath, hw.nodup⟩
  seen x := by
    rw [List.mem_cons, hw.seen, List.mem_cons (l := b :: p), or_assoc]
  headers k hk := ⟨List.mem_cons_of_mem _ (hw.headers k hk).1, (hw.headers k hk).2⟩
  settled := hw.settled

/-- What is known where the search leaves the last block of its path. -/
theorem Tracks.last (hw : g.Tracks (b :: p) gone w)
    (htargets : ∀ t ∈ g.successors b, t ∈ w.headers ∨ t ∈ gone)
    (hback : ∀ t ∈ g.successors b, t ∈ b :: p → t ∈ w.headers) : g.Left w.headers gone b where
  targets := htargets
  route := ⟨p, hw.route, hw.nodup, hback⟩

/-- A block is left for good when all its targets have been visited. -/
theorem Tracks.leave (hw : g.Tracks (t :: b :: p) gone w) (hl : g.Left w.headers gone t) :
    g.Tracks (b :: p) (t :: gone) w where
  route := Route.suffix (p := [t]) hw.route
  nodup := (List.nodup_cons.mp hw.nodup).2
  seen x := by
    rw [hw.seen, List.mem_cons (l := b :: p), List.mem_cons (l := gone)]
    tauto
  headers := hw.headers
  settled := .cons hl hw.settled

/-- The search visits every target, and marks those that are on its path. -/
theorem Explores.tracks (he : g.Explores b p targets w w') (hsub : targets ⊆ g.successors b)
    (hw : g.Tracks (b :: p) gone w) :
    ∃ gone', g.Tracks (b :: p) gone' w' ∧ gone ⊆ gone' ∧ w.headers ⊆ w'.headers ∧
      ∀ t ∈ targets, (t ∈ b :: p → t ∈ w'.headers) ∧ (t ∈ w'.headers ∨ t ∈ gone') := by
  induction he generalizing gone with
  | done => exact ⟨gone, hw, List.Subset.refl _, List.Subset.refl _, fun t ht => nomatch ht⟩
  | back hpath _ ih =>
    obtain ⟨ht, hts⟩ := List.cons_subset.mp hsub
    obtain ⟨gone', hw', hgone, hheaders, htargets⟩ := ih hts (hw.mark hpath ht)
    have hmarked := hheaders (mem_mark.mpr (.inr rfl))
    refine ⟨gone', hw', hgone, fun h hh => hheaders (mem_mark.mpr (.inl hh)), ?_⟩
    exact List.forall_mem_cons.mpr ⟨⟨fun _ => hmarked, .inl hmarked⟩, htargets⟩
  | known hpath hseen _ ih =>
    obtain ⟨-, hts⟩ := List.cons_subset.mp hsub
    obtain ⟨gone', hw', hgone, hheaders, htargets⟩ := ih hts hw
    have hbefore := ((hw.seen _).mp hseen).resolve_left hpath
    exact ⟨gone', hw', hgone, hheaders,
      List.forall_mem_cons.mpr ⟨⟨fun h => absurd h hpath, .inr (hgone hbefore)⟩, htargets⟩⟩
  | fresh hpath _ _ _ ihv ih =>
    obtain ⟨ht, hts⟩ := List.cons_subset.mp hsub
    obtain ⟨gone₁, hw₁, hgone₁, hheaders₁, hall⟩ := ihv (List.Subset.refl _) (hw.enter ht hpath)
    have hlast := hw₁.last (fun t ht => (hall t ht).2) fun t ht => (hall t ht).1
    obtain ⟨gone', hw', hgone, hheaders, htargets⟩ := ih hts (hw₁.leave hlast)
    refine ⟨gone', hw', fun x hx => hgone (List.mem_cons_of_mem _ (hgone₁ hx)),
      fun x hx => hheaders (hheaders₁ hx), ?_⟩
    exact List.forall_mem_cons.mpr
      ⟨⟨fun h => absurd h hpath, .inr (hgone List.mem_cons_self)⟩, htargets⟩

/-- At its end the search has left every block that it has seen, the entry as the last one. -/
theorem settled (g : Graph) : ∃ before, g.Settled g.loopHeaders (g.entry :: before) ∧
    ∀ h ∈ g.loopHeaders, h ∈ g.entry :: before ∧ g.Closes h := by
  obtain ⟨w, hw, heq⟩ := g.searched
  have hstart : g.Tracks [g.entry] [] ⟨[g.entry], []⟩ :=
    { route := .entry, nodup := List.nodup_singleton _, seen := fun x => by simp
      headers := fun h hh => by cases hh
      settled := .nil }
  obtain ⟨before, hend, -, -, hall⟩ := Explores.tracks hw (List.Subset.refl _) hstart
  rw [heq]
  refine ⟨before, .cons ?_ hend.settled, fun h hh => ?_⟩
  · exact hend.last (fun t ht => (hall t ht).2) fun t ht => (hall t ht).1
  · obtain ⟨hseen, hcloses⟩ := hend.headers h hh
    refine ⟨?_, hcloses⟩
    rcases (hend.seen h).mp hseen with hm | hm
    · exact List.mem_singleton.mp hm ▸ List.mem_cons_self
    · exact List.mem_cons_of_mem _ hm

/-- The search comes to every block that some path leads to. -/
theorem mem_settled (hs : g.Settled g.loopHeaders (g.entry :: c))
    (hh : ∀ h ∈ g.loopHeaders, h ∈ g.entry :: c) (hx : g.Reached x) : x ∈ g.entry :: c := by
  induction hx with
  | entry => exact List.mem_cons_self
  | edge _ hy ih =>
    obtain ⟨before, hsub, hl⟩ := hs.knows ih
    exact (hl.targets _ hy).elim (hh _) fun hm => hsub hm

/-- A block that control comes to is visited at the end of a path without repetition, where its edges
onto the path are found. -/
theorem Reached.visited (hx : g.Reached x) : ∃ p, g.Route (x :: p) ∧ (x :: p).Nodup ∧
    ∀ t ∈ g.successors x, t ∈ x :: p → t ∈ g.loopHeaders := by
  obtain ⟨before, hs, hh⟩ := g.settled
  obtain ⟨_, -, hl⟩ := hs.knows (mem_settled hs (fun h hm => (hh h hm).1) hx)
  exact hl.route

/-- A header is marked for an edge that leads back onto the path. -/
theorem closes_of_mem_loopHeaders (hh : h ∈ g.loopHeaders) : g.Closes h := by
  obtain ⟨before, -, hall⟩ := g.settled
  exact (hall h hh).2

/-- Edges to blocks that are no headers lead back in time, so there is no cycle of them. -/
theorem Settled.acyclic {headers : List Nat} (hs : g.Settled headers gone) :
    ∀ x ∈ gone, ¬ Relation.TransGen (fun x y => y ∈ g.successors x ∧ y ∉ headers) x x := by
  induction hs with
  | nil => exact fun x hx => nomatch hx
  | @cons a before ha hrest ih =>
    -- What was left before `a` leads only to what was left before `a`.
    have hstay : ∀ {y z}, y ∈ before →
        Relation.TransGen (fun x y => y ∈ g.successors x ∧ y ∉ headers) y z → z ∈ before := by
      have hstep : ∀ {y z}, y ∈ before → z ∈ g.successors y ∧ z ∉ headers → z ∈ before := by
        intro y z hy hz
        obtain ⟨before', hsub, hl⟩ := hrest.knows hy
        exact hsub ((hl.targets z hz.1).resolve_left hz.2)
      intro y z hy hyz
      induction hyz with
      | single he => exact hstep hy he
      | tail _ he ihz => exact hstep ihz he
    intro x hx hcycle
    rcases List.mem_cons.mp hx with rfl | hx
    · obtain ⟨y, hxy, hyx⟩ := Relation.TransGen.head'_iff.mp hcycle
      have hy := (ha.targets y hxy.1).resolve_left hxy.2
      rcases Relation.reflTransGen_iff_eq_or_transGen.mp hyx with rfl | hyx
      · exact ih _ hy hcycle
      · exact ih _ (hstay hy hyx) hcycle
    · exact ih x hx hcycle

/-- Going along a chain leads from its first block to its last. -/
theorem transGen_of_isChain {r : Nat → Nat → Prop} {xs : List Nat}
    (hc : (x :: xs ++ [y]).IsChain r) : Relation.TransGen r x y := by
  induction xs generalizing x with
  | nil => exact .single (List.isChain_cons_cons.mp hc).1
  | cons z zs ih =>
    obtain ⟨hxz, hz⟩ := List.isChain_cons_cons.mp hc
    exact .head hxz (ih hz)

/-- Once one block of a cycle can be reached, all can. -/
theorem IsCycle.reached (hc : g.IsCycle c) (hr : ∃ x ∈ c, g.Reached x) : ∀ y ∈ c, g.Reached y := by
  cases c with
  | nil => exact hc.elim
  | cons a as =>
    have hclosed : ∀ {xs : List Nat} {x : Nat}, (x :: xs).IsChain (fun x y => y ∈ g.successors x) →
        g.Reached x → ∀ y ∈ x :: xs, g.Reached y := by
      intro xs
      induction xs with
      | nil => exact fun _ hx y hy => List.mem_singleton.mp hy ▸ hx
      | cons z zs ih =>
        intro x hxz hx
        obtain ⟨hz, hrest⟩ := List.isChain_cons_cons.mp hxz
        exact List.forall_mem_cons.mpr ⟨hx, ih hrest (.edge hx hz)⟩
    obtain ⟨x, hx, hr⟩ := hr
    obtain ⟨before, after, heq⟩ := List.append_of_mem hx
    have hend : (x :: (after ++ [a])).IsChain fun x y => y ∈ g.successors x := by
      have hc' : (before ++ (x :: (after ++ [a]))).IsChain fun x y => y ∈ g.successors x := by
        have := hc
        rw [IsCycle, heq] at this
        simpa using this
      exact hc'.right_of_append
    have ha : g.Reached a := hclosed hend hr a (by simp)
    have hall := hclosed hc ha
    intro y hy
    refine hall y ?_
    rw [List.mem_cons] at hy ⊢
    exact hy.imp_right fun h => List.mem_append_left _ h

/-- The search ends and has one result. Each header can be reached and lies on a cycle, and each cycle
that can be reached has a header, so that there is none exactly where no such cycle is. -/
theorem loopHeaders_mark_cycles (g : Graph) :
    (∃ w, g.Searched w ∧ g.loopHeaders = w.headers ∧ ∀ w', g.Searched w' → w' = w) ∧
      (∀ h ∈ g.loopHeaders, g.Reached h ∧ ∃ c, g.IsCycle c ∧ h ∈ c) ∧
      (∀ c, g.IsCycle c → (∃ x ∈ c, g.Reached x) → ∃ h ∈ c, h ∈ g.loopHeaders) ∧
      (g.loopHeaders = [] ↔ ∀ c, g.IsCycle c → ∀ x ∈ c, ¬ g.Reached x) := by
  have hsound : ∀ h ∈ g.loopHeaders, g.Reached h ∧ ∃ c, g.IsCycle c ∧ h ∈ c := by
    intro h hh
    obtain ⟨b, p, hp, -, hm, he⟩ := closes_of_mem_loopHeaders hh
    exact ⟨.edge hp.reached he, hp.isCycle hm he⟩
  have hcomplete : ∀ c, g.IsCycle c → (∃ x ∈ c, g.Reached x) → ∃ h ∈ c, h ∈ g.loopHeaders := by
    intro c hc hr
    by_contra hnone
    push Not at hnone
    obtain ⟨before, hs, hh⟩ := g.settled
    cases c with
    | nil => exact hc
    | cons x xs =>
      have hx := hc.reached hr x List.mem_cons_self
      have hplain : (x :: xs ++ [x]).IsChain fun y z => z ∈ g.successors y ∧ z ∉ g.loopHeaders := by
        refine List.IsChain.imp_of_mem_tail_imp (fun y z _ hz hyz => ⟨hyz, hnone z ?_⟩) hc
        simpa [or_comm] using hz
      exact hs.acyclic x (mem_settled hs (fun h hm => (hh h hm).1) hx) (transGen_of_isChain hplain)
  refine ⟨?_, hsound, hcomplete, ?_, ?_⟩
  · obtain ⟨w, hw, heq⟩ := g.searched
    exact ⟨w, hw, heq, fun w' hw' => Explores.unique hw' hw⟩
  · intro hnil c hc x hx hr
    obtain ⟨h, -, hh⟩ := hcomplete c hc ⟨x, hx, hr⟩
    exact List.not_mem_nil (hnil ▸ hh)
  · intro hnone
    refine List.eq_nil_iff_forall_not_mem.mpr fun h hh => ?_
    obtain ⟨hr, c, hc, hm⟩ := hsound h hh
    exact hnone c hc h hm hr

/-- Which block of a cycle with two ways into it is marked depends on the order of the edges. -/
example : (Graph.mk [(0, [1, 2]), (1, [2]), (2, [1])] 0).loopHeaders = [1] ∧
    (Graph.mk [(0, [2, 1]), (1, [2]), (2, [1])] 0).loopHeaders = [2] := by decide

end TreeLang.Ir.Graph
