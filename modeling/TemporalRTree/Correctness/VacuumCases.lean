import TemporalRTree.Correctness.VacuumTree

/-!
# `Correctness.VacuumCases` — what a completed walk can have done

`Vacuums` is the big-step reading of `rtree_vacuum_page` over some pages in turn: for each page, its children
if it is an inner page, then the page itself. The completed runs of the function are such walks
(`rtreeVacuumPage_vacuums`); what a walk leaves of the trees it is started at is then an induction over
`Vacuums` (`Vacuums.forest`, and `Vacuums.trees` for conditions that tie a tree to the box reported for it).
-/

namespace TemporalRTree
open EStateM Layout

/-! ## The big-step relation -/

/-- The tuples the leaf loop keeps, with their boxes. -/
def leafKept (callback : IndexBulkDeleteCallback) (items : List IndexTuple) :
    List (IndexTuple × RTreeTemporalBox) :=
  (items.filter (isAlive callback)).filterMap fun t => (rtreeIndexTupleBox t).map (t, ·)

/-- The downlinks of the children that are left, with their boxes. -/
def downlinksTo (walked : List (BlockNumber × RTreeTemporalBox)) : List (IndexTuple × RTreeTemporalBox) :=
  walked.map fun w => (rtreeFormTuple w.2 (childTid w.1), w.2)

/-- The box of what a page was rebuilt from. -/
def aggregateBox (kept : List (IndexTuple × RTreeTemporalBox)) : RTreeTemporalBox :=
  (kept.map Prod.snd).foldl aggregateStep emptyBox

/-- What a page rebuilt from `kept` is to its parent: a child with a box, unless it is empty. -/
def reported (blk : BlockNumber) (kept : List (IndexTuple × RTreeTemporalBox)) :
    List (BlockNumber × RTreeTemporalBox) :=
  if kept = [] then [] else [(blk, aggregateBox kept)]

/-- `page` was rebuilt from `kept` as `page'`. -/
def Rebuilds (page : DataPage) (kept : List (IndexTuple × RTreeTemporalBox)) (page' : DataPage) : Prop :=
  addTupleCopies (emptiedPage page) (kept.map Prod.fst) = (page', true)

/-- The trace of a page rebuilt as `page'`. -/
def rebuildTrace (env : Env) (blk : BlockNumber) (page' : DataPage) : List Event :=
  [Event.addItem true] ++ changeTrace env blk page' ++ [Event.unlock blk]

/-- A completed `rtree_vacuum_page` on each of some pages in turn: pages before, start blocks, the children left
    with their boxes, pages after, trace. -/
inductive Vacuums (env : Env) (callback : IndexBulkDeleteCallback) :
    List Page → List BlockNumber → List (BlockNumber × RTreeTemporalBox) → List Page → List Event → Prop where
  | nil {pages : List Page} : Vacuums env callback pages [] [] pages []
  | leaf {pages pages' : List Page} {blk : BlockNumber} {rest : List BlockNumber} {page' : DataPage}
      {walked : List (BlockNumber × RTreeTemporalBox)} {evs : List Event}
      (hblk : blk < pages.length)
      (hleaf : (pageAt pages blk).special.flags.leaf = true)
      (hpage : Rebuilds (pageAt pages blk) (leafKept callback (pageAt pages blk).items) page')
      (hrest : Vacuums env callback (pages.set blk (.data page')) rest walked pages' evs) :
      Vacuums env callback pages (blk :: rest)
        (reported blk (leafKept callback (pageAt pages blk).items) ++ walked) pages'
        ([Event.lock blk .exclusive] ++ rebuildTrace env blk page' ++ evs)
  | inner {pages pages₁ pages' : List Page} {blk : BlockNumber} {rest : List BlockNumber} {page' : DataPage}
      {kids walked : List (BlockNumber × RTreeTemporalBox)} {evs evs' : List Event}
      (hblk : blk < pages.length)
      (hinner : (pageAt pages blk).special.flags.leaf = false)
      (hkids : Vacuums env callback pages ((pageAt pages blk).items.map fun t => t.tTid.blkno) kids pages₁ evs)
      (hpage : Rebuilds (pageAt pages blk) (downlinksTo kids) page')
      (hrest : Vacuums env callback (pages₁.set blk (.data page')) rest walked pages' evs') :
      Vacuums env callback pages (blk :: rest) (reported blk (downlinksTo kids) ++ walked) pages'
        ([Event.lock blk .exclusive] ++ evs ++ rebuildTrace env blk page' ++ evs')

variable {env : Env} {callback : IndexBulkDeleteCallback}

/-- Walking some pages and then others is walking all of them. -/
theorem Vacuums.append {pages pages₁ pages' : List Page} {cs cs' : List BlockNumber}
    {walked walked' : List (BlockNumber × RTreeTemporalBox)} {evs evs' : List Event}
    (h : Vacuums env callback pages cs walked pages₁ evs)
    (h' : Vacuums env callback pages₁ cs' walked' pages' evs') :
    Vacuums env callback pages (cs ++ cs') (walked ++ walked') pages' (evs ++ evs') := by
  induction h with
  | nil => exact h'
  | leaf hblk hleaf hpage _ ih =>
      have hall := Vacuums.leaf hblk hleaf hpage (ih h')
      simpa only [List.append_assoc, List.cons_append] using hall
  | inner hblk hinner hkids hpage _ _ ih =>
      have hall := Vacuums.inner hblk hinner hkids hpage (ih h')
      simpa only [List.append_assoc, List.cons_append] using hall

theorem Vacuums.length_eq {pages pages' : List Page} {cs : List BlockNumber}
    {walked : List (BlockNumber × RTreeTemporalBox)} {evs : List Event}
    (h : Vacuums env callback pages cs walked pages' evs) : pages'.length = pages.length := by
  induction h with
  | nil => rfl
  | leaf _ _ _ _ ih => rw [ih, List.length_set]
  | inner _ _ _ _ _ ihkids ih => rw [ih, List.length_set, ihkids]

/-! ## Completed runs are big steps -/

/-- The leaf loop, whatever the counters. -/
theorem vacuumLeafItems_kept (items : List IndexTuple) (acc : VacuumItems) :
    (items.foldl (vacuumLeafItem callback) acc).tuples =
        acc.tuples ++ (leafKept callback items).map Prod.fst ∧
      (items.foldl (vacuumLeafItem callback) acc).boxes =
        acc.boxes ++ (leafKept callback items).map Prod.snd := by
  induction items generalizing acc with
  | nil => simp [leafKept]
  | cons t rest ih =>
      obtain ⟨htuples, hboxes⟩ := ih (vacuumLeafItem callback acc t)
      rw [List.foldl_cons, htuples, hboxes]
      cases hd : isDead callback t.tTid with
      | true => simp [vacuumLeafItem, hd, leafKept, isAlive]
      | false =>
          cases hbox : rtreeIndexTupleBox t with
          | none => simp [vacuumLeafItem, hd, leafKept, isAlive, hbox]
          | some box => simp [vacuumLeafItem, hd, leafKept, isAlive, hbox, VacuumItems.keep]

/-- A completed rebuild. -/
theorem rebuildPage_eq_ok {s s' : Rel} {blk : BlockNumber} {page : DataPage} {kept : VacuumItems}
    {pairs : List (IndexTuple × RTreeTemporalBox)} {res : Option RTreeTemporalBox × IndexBulkDeleteResult}
    (hblk : blk < s.pages.length) (htuples : kept.tuples = pairs.map Prod.fst)
    (hboxes : kept.boxes = pairs.map Prod.snd) (h : rebuildPage env blk page kept s = .ok res s') :
    ∃ page', Rebuilds page pairs page' ∧ res.1.toList.map (blk, ·) = reported blk pairs ∧
      s' = { pages := s.pages.set blk (.data page'), trace := s.trace ++ rebuildTrace env blk page' } := by
  cases hcopies : (addTupleCopies (emptiedPage page) kept.tuples).2 with
  | false =>
      rw [rebuildPage_run_of_fail hcopies] at h
      exact absurd h (by simp)
  | true =>
      rw [rebuildPage_run_of_ok hblk hcopies] at h
      injection h with h1 h2
      refine ⟨(addTupleCopies (emptiedPage page) kept.tuples).1, ?_, ?_, h2.symm⟩
      · rw [Rebuilds, ← htuples, ← hcopies]
      · rw [← h1, rebuildResult, htuples, hboxes, reported, aggregateBox]
        simp only [List.map_eq_nil_iff]
        split <;> rfl

section Runs
variable {fuel : Nat}

/-- The loop over the downlinks, given that the recursive calls are walks. -/
theorem vacuumChildren_vacuums
    (hvac : ∀ {blk stats res} {s s' : Rel}, rtreeVacuumPage env callback fuel blk stats s = .ok res s' →
      ∃ evs, Vacuums env callback s.pages [blk] (res.1.toList.map (blk, ·)) s'.pages evs ∧
        s'.trace = s.trace ++ evs)
    {items : List IndexTuple} {acc acc' : VacuumItems} {s s' : Rel}
    (h : vacuumChildren (rtreeVacuumPage env callback fuel) items acc s = .ok acc' s') :
    ∃ walked evs, Vacuums env callback s.pages (items.map fun t => t.tTid.blkno) walked s'.pages evs ∧
      s'.trace = s.trace ++ evs ∧ acc'.tuples = acc.tuples ++ (downlinksTo walked).map Prod.fst ∧
      acc'.boxes = acc.boxes ++ (downlinksTo walked).map Prod.snd := by
  induction items generalizing acc s with
  | nil =>
      obtain ⟨rfl, rfl⟩ : acc = acc' ∧ s = s' := by
        injection h with h1 h2
        exact ⟨h1, h2⟩
      exact ⟨[], [], .nil, by simp, by simp [downlinksTo], by simp [downlinksTo]⟩
  | cons itup rest ih =>
      rw [vacuumChildren] at h
      obtain ⟨⟨box, stats⟩, s₁, hchild, h⟩ := bind_eq_ok.mp h
      obtain ⟨evs, hwalk, htrace⟩ := hvac hchild
      cases box with
      | none =>
          obtain ⟨walked, evs', hrest, htrace', htuples, hboxes⟩ := ih h
          refine ⟨walked, evs ++ evs', hwalk.append hrest, ?_, htuples, hboxes⟩
          rw [htrace', htrace, List.append_assoc]
      | some childBox =>
          obtain ⟨walked, evs', hrest, htrace', htuples, hboxes⟩ := ih h
          refine ⟨(itup.tTid.blkno, childBox) :: walked, evs ++ evs', hwalk.append hrest, ?_, ?_, ?_⟩
          · rw [htrace', htrace, List.append_assoc]
          · rw [htuples]
            simp [VacuumItems.keep, downlinksTo]
          · rw [hboxes]
            simp [VacuumItems.keep, downlinksTo]

/-- **Every completed `rtree_vacuum_page` is such a walk.** -/
theorem rtreeVacuumPage_vacuums {blk : BlockNumber} {stats : IndexBulkDeleteResult} {s s' : Rel}
    {res : Option RTreeTemporalBox × IndexBulkDeleteResult}
    (h : rtreeVacuumPage env callback fuel blk stats s = .ok res s') :
    ∃ evs, Vacuums env callback s.pages [blk] (res.1.toList.map (blk, ·)) s'.pages evs ∧
      s'.trace = s.trace ++ evs := by
  induction fuel generalizing blk stats s s' res with
  | zero => exact absurd h (by simp [rtreeVacuumPage])
  | succ fuel ih =>
      rw [rtreeVacuumPage] at h
      by_cases hblk : blk < s.pages.length
      · rw [bind_of_ok (readBuffer_run_of_lt hblk), bind_of_ok (lockBuffer_run _ _ _),
          bind_of_ok (bufferGetPage_run _ _)] at h
        dsimp only at h
        cases hleaf : (pageAt s.pages blk).special.flags.leaf with
        | true =>
            rw [if_pos hleaf] at h
            obtain ⟨htuples, hboxes⟩ := @vacuumLeafItems_kept callback (pageAt s.pages blk).items
              { tuples := [], boxes := [], stats := stats }
            rw [List.nil_append] at htuples hboxes
            obtain ⟨page', hpage, hres, rfl⟩ := rebuildPage_eq_ok
              (s := { s with trace := s.trace ++ [Event.lock blk .exclusive] }) hblk htuples hboxes h
            rw [hres]
            have hwalk : Vacuums env callback s.pages [blk] _ _ _ := .leaf hblk hleaf hpage .nil
            rw [List.append_nil] at hwalk
            exact ⟨_, hwalk, by simp⟩
        | false =>
            rw [if_neg (by simp [hleaf])] at h
            obtain ⟨kept, s₁, hkids, h⟩ := bind_eq_ok.mp h
            obtain ⟨walked, evs, hwalked, htrace, htuples, hboxes⟩ := vacuumChildren_vacuums ih hkids
            rw [List.nil_append] at htuples hboxes
            have hlen : s₁.pages.length = s.pages.length := hwalked.length_eq
            obtain ⟨page', hpage, hres, rfl⟩ := rebuildPage_eq_ok (hlen ▸ hblk) htuples hboxes h
            rw [hres]
            have hwalk : Vacuums env callback s.pages [blk] _ _ _ := .inner hblk hleaf hwalked hpage .nil
            rw [List.append_nil] at hwalk
            exact ⟨_, hwalk, by simp [htrace]⟩
      · rw [bind_of_error (readBuffer_run_of_not_lt hblk)] at h
        exact absurd h (by simp)

end Runs

/-! ## What a walk leaves -/

theorem Rebuilds.page {page page' : DataPage} {kept : List (IndexTuple × RTreeTemporalBox)}
    (h : Rebuilds page kept page') : page'.items = kept.map Prod.fst ∧ page'.special = page.special := by
  have hcopies : (addTupleCopies (emptiedPage page) (kept.map Prod.fst)).2 = true := by rw [h]
  obtain ⟨hitems, hspecial⟩ := addTupleCopies_items hcopies
  rw [h] at hitems hspecial
  exact ⟨hitems, hspecial⟩

theorem reported_fst (blk : BlockNumber) (kept : List (IndexTuple × RTreeTemporalBox)) :
    (reported blk kept).map Prod.fst = if !kept.isEmpty then [blk] else [] := by
  cases kept <;> rfl

theorem mem_reported {blk : BlockNumber} {kept : List (IndexTuple × RTreeTemporalBox)}
    {w : BlockNumber × RTreeTemporalBox} (h : w ∈ reported blk kept) :
    kept ≠ [] ∧ w = (blk, aggregateBox kept) := by
  unfold reported at h
  split at h
  · exact absurd h (by simp)
  · next hne => exact ⟨hne, List.mem_singleton.mp h⟩

theorem mem_leafKept {items : List IndexTuple} {p : IndexTuple × RTreeTemporalBox}
    (h : p ∈ leafKept callback items) : p.1 ∈ items ∧ rtreeIndexTupleBox p.1 = some p.2 := by
  obtain ⟨t, ht, hp⟩ := List.mem_filterMap.mp h
  obtain ⟨box, hbox, rfl⟩ := Option.map_eq_some_iff.mp hp
  exact ⟨List.mem_of_mem_filter ht, hbox⟩

theorem leafKept_fst {items : List IndexTuple} (hkeys : ∀ t ∈ items, t.key.isSome = true) :
    (leafKept callback items).map Prod.fst = items.filter (isAlive callback) := by
  have hbox : ∀ t ∈ items.filter (isAlive callback),
      ((rtreeIndexTupleBox t).map (t, ·)).map Prod.fst = some t := by
    intro t ht
    obtain ⟨cube, hcube⟩ := Option.isSome_iff_exists.mp (hkeys t (List.mem_of_mem_filter ht))
    simp [rtreeIndexTupleBox, hcube]
  rw [leafKept, List.map_filterMap, List.filterMap_congr hbox, List.filterMap_some]

section Page
variable {pages pages₁ : List Page} {blk : BlockNumber} {page' : DataPage}
  {kept : List (IndexTuple × RTreeTemporalBox)} {level : Nat}

/-- A rebuilt page that is not empty fits its level. -/
theorem Rebuilds.nodeOk (h : Rebuilds (pageAt pages blk) kept page') (hp : NodeOk level (pageAt pages blk))
    (hkeys : ∀ p ∈ kept, p.1.key.isSome = true) (hne : page'.items ≠ []) : NodeOk level page' := by
  obtain ⟨hitems, hspecial⟩ := h.page
  refine hp.of_items hspecial ?_ hne
  rw [hitems]
  intro t ht
  obtain ⟨p, hp, rfl⟩ := List.mem_map.mp ht
  exact hkeys p hp

theorem Rebuilds.isEmpty_iff {page : DataPage} (h : Rebuilds page kept page') :
    (!kept.isEmpty) = true ↔ page'.items ≠ [] := by
  rw [h.page.1]
  simp

/-- A leaf of a walk. -/
theorem Rebuilds.leaf_spec (h : Rebuilds (pageAt pages blk) (leafKept callback (pageAt pages blk).items) page')
    (hp : NodeOk 0 (pageAt pages blk)) (hblk : blk < pages.length) :
    VacuumForest callback pages 0 [blk]
      ((reported blk (leafKept callback (pageAt pages blk).items)).map Prod.fst)
      (pages.set blk (.data page')) := by
  obtain ⟨hitems, hspecial⟩ := h.page
  rw [reported_fst]
  refine (vacuumSpec_leaf h.isEmpty_iff hblk ?_ hspecial (h.nodeOk hp ?_)).toVacuumForest
  · rw [hitems, leafKept_fst hp.keys]
  · exact fun p hkept => hp.keys _ (mem_leafKept hkept).1

/-- An inner page of a walk. -/
theorem Rebuilds.inner_spec {kids : List (BlockNumber × RTreeTemporalBox)}
    (h : Rebuilds (pageAt pages blk) (downlinksTo kids) page')
    (hf : nodes.Forest NodeOk (pageAt pages) (level + 1) [blk])
    (halloc : ∀ x ∈ nodes.forestBlocks (pageAt pages) (level + 1) [blk], x ∈ allocated pages)
    (hkids : VacuumForest callback pages level (nodes.kids (pageAt pages blk)) (kids.map Prod.fst) pages₁) :
    VacuumForest callback pages (level + 1) [blk] ((reported blk (downlinksTo kids)).map Prod.fst)
      (pages₁.set blk (.data page')) := by
  obtain ⟨hitems, hspecial⟩ := h.page
  have hlinks : nodes.kids page' = kids.map Prod.fst := by
    simp [nodes, hitems, downlinksTo, rtreeFormTuple, childTid]
  rw [reported_fst]
  refine (vacuumSpec_inner h.isEmpty_iff hf halloc (hlinks ▸ hkids) hspecial
    (h.nodeOk hf.kids.1 ?_)).toVacuumForest
  intro p hp
  obtain ⟨w, -, rfl⟩ := List.mem_map.mp hp
  exact rtreeFormTuple_key _ _

end Page

section Walk
variable {pages pages' : List Page} {cs : List BlockNumber} {walked : List (BlockNumber × RTreeTemporalBox)}
  {evs : List Event} {level : Nat}

/-- The children of the first of some inner pages. -/
theorem head_kids {blk : BlockNumber} {rest : List BlockNumber}
    (hf : nodes.Forest NodeOk (pageAt pages) (level + 1) (blk :: rest))
    (halloc : ∀ x ∈ nodes.forestBlocks (pageAt pages) (level + 1) (blk :: rest), x ∈ allocated pages) :
    nodes.Forest NodeOk (pageAt pages) (level + 1) [blk] ∧
      (∀ x ∈ nodes.forestBlocks (pageAt pages) (level + 1) [blk], x ∈ allocated pages) ∧
      nodes.Forest NodeOk (pageAt pages) level (nodes.kids (pageAt pages blk)) ∧
      ∀ x ∈ nodes.forestBlocks (pageAt pages) level (nodes.kids (pageAt pages blk)), x ∈ allocated pages := by
  have hf₁ := hf.subperm (List.sublist_append_left [blk] rest).subperm
  have hin₁ : ∀ x ∈ nodes.forestBlocks (pageAt pages) (level + 1) [blk], x ∈ allocated pages := fun x hx =>
    halloc x (List.mem_append_left _ (by simpa using hx))
  refine ⟨hf₁, hin₁, hf₁.kids.2.1, fun x hx => hin₁ x ?_⟩
  simpa [blocks_succ] using Or.inr hx

/-- The level of an inner page. -/
theorem NodeOk.level_of_inner {page : DataPage} (h : NodeOk level page)
    (hinner : page.special.flags.leaf = false) : ∃ l, level = l + 1 := by
  refine Nat.exists_eq_succ_of_ne_zero fun h0 => ?_
  simp [h.leaf_iff.mpr h0] at hinner

/-- **A walk keeps the live tuples and drops the pages that became empty.** -/
theorem Vacuums.forest (h : Vacuums env callback pages cs walked pages' evs)
    (hf : nodes.Forest NodeOk (pageAt pages) level cs)
    (halloc : ∀ x ∈ nodes.forestBlocks (pageAt pages) level cs, x ∈ allocated pages) :
    VacuumForest callback pages level cs (walked.map Prod.fst) pages' := by
  induction h generalizing level with
  | nil => exact VacuumForest.refl hf rfl
  | leaf hblk hleaf hpage hrest ih =>
      have hp := (hf.holds _ List.mem_cons_self).node
      obtain rfl := hp.leaf_iff.mp hleaf
      have hhead := hpage.leaf_spec hp hblk
      obtain ⟨-, hf₁, hin₁⟩ := hhead.rest_forest hf halloc
      rw [List.map_append]
      exact hhead.cons hf halloc (ih hf₁ hin₁)
  | inner hblk hinner hkids hpage hrest ihkids ih =>
      have hp := (hf.holds _ List.mem_cons_self).node
      obtain ⟨l, rfl⟩ := hp.level_of_inner hinner
      obtain ⟨hfblk, hinblk, hfkids, hinkids⟩ := head_kids hf halloc
      have hhead := hpage.inner_spec hfblk hinblk (ihkids hfkids hinkids)
      obtain ⟨-, hf₁, hin₁⟩ := hhead.rest_forest hf halloc
      rw [List.map_append]
      exact hhead.cons hf halloc (ih hf₁ hin₁)

section Head
variable {pages₁ : List Page} {blk : BlockNumber} {rest walked : List BlockNumber}
  {kept : List (IndexTuple × RTreeTemporalBox)}

/-- The tree reported for the first page is left alone by the rest of the walk. -/
theorem VacuumForest.reported_frame
    (hhead : VacuumForest callback pages level [blk] ((reported blk kept).map Prod.fst) pages₁)
    (hf : nodes.Forest NodeOk (pageAt pages) level (blk :: rest))
    (halloc : ∀ x ∈ nodes.forestBlocks (pageAt pages) level (blk :: rest), x ∈ allocated pages)
    (hrest : VacuumForest callback pages₁ level rest walked pages') (hne : kept ≠ []) :
    ∀ x ∈ nodes.blocks (pageAt pages₁) level blk, pageAt pages' x = pageAt pages₁ x := by
  intro x hx
  refine hhead.walked_frame hf halloc hrest x ?_
  rw [reported, if_neg hne]
  simpa using hx

/-- The tuples below the other pages are those from before the walk. -/
theorem VacuumForest.rest_leaves {G : IndexTuple → Prop}
    (hhead : VacuumForest callback pages level [blk] ((reported blk kept).map Prod.fst) pages₁)
    (hf : nodes.Forest NodeOk (pageAt pages) level (blk :: rest))
    (halloc : ∀ x ∈ nodes.forestBlocks (pageAt pages) level (blk :: rest), x ∈ allocated pages)
    (hG : ∀ t ∈ nodes.forestLeaves (pageAt pages) level (blk :: rest), G t) :
    ∀ t ∈ nodes.forestLeaves (pageAt pages₁) level rest, G t := by
  intro t ht
  rw [forestLeaves_congr (hhead.rest_forest hf halloc).1] at ht
  exact hG t (List.mem_append_right _ ht)

end Head

/-- **What holds of the trees a walk builds.** `T st l b box` ties the tree of level `l` at `b` to the box
    reported for it; it may look at the tree only. It holds of every tree a walk leaves if it holds of leaves
    rebuilt from tuples that meet `G`, and is passed on to pages rebuilt over such trees. -/
theorem Vacuums.trees {G : IndexTuple → Prop}
    {T : (BlockNumber → DataPage) → Nat → BlockNumber → RTreeTemporalBox → Prop}
    (hcongr : ∀ {st st' l b box}, (∀ x ∈ nodes.blocks st l b, st' x = st x) → T st l b box → T st' l b box)
    (hTleaf : ∀ {st b kept}, kept ≠ [] → (st b).items = kept.map Prod.fst →
      (∀ p ∈ kept, rtreeIndexTupleBox p.1 = some p.2 ∧ G p.1) → T st 0 b (aggregateBox kept))
    (hTinner : ∀ {st l b kids}, kids ≠ [] → (st b).items = (downlinksTo kids).map Prod.fst →
      (∀ w ∈ kids, T st l w.1 w.2) → T st (l + 1) b (aggregateBox (downlinksTo kids)))
    (h : Vacuums env callback pages cs walked pages' evs)
    (hf : nodes.Forest NodeOk (pageAt pages) level cs)
    (halloc : ∀ x ∈ nodes.forestBlocks (pageAt pages) level cs, x ∈ allocated pages)
    (hG : ∀ t ∈ nodes.forestLeaves (pageAt pages) level cs, G t) :
    ∀ w ∈ walked, T (pageAt pages') level w.1 w.2 := by
  induction h generalizing level with
  | nil => exact fun w hw => absurd hw (by simp)
  | @leaf pages pages' blk rest page' walked evs hblk hleaf hpage hrest ih =>
      have hp := (hf.holds _ List.mem_cons_self).node
      obtain rfl := hp.leaf_iff.mp hleaf
      have hhead := hpage.leaf_spec hp hblk
      obtain ⟨-, hf₁, hin₁⟩ := hhead.rest_forest hf halloc
      intro w hw
      rcases List.mem_append.mp hw with hw | hw
      · obtain ⟨hne, rfl⟩ := mem_reported hw
        have hself : pageAt (pages.set blk (.data page')) blk = page' := pageAt_set_self hblk
        refine hcongr (hhead.reported_frame hf halloc (hrest.forest hf₁ hin₁) hne) (hTleaf hne ?_ ?_)
        · rw [hself, hpage.page.1]
        · intro p hp
          obtain ⟨hmem, hbox⟩ := mem_leafKept hp
          exact ⟨hbox, hG _ (List.mem_append_left _ hmem)⟩
      · exact ih hf₁ hin₁ (hhead.rest_leaves hf halloc hG) w hw
  | @inner pages pages₁ pages' blk rest page' kids walked evs evs' hblk hinner hkids hpage hrest ihkids ih =>
      have hp := (hf.holds _ List.mem_cons_self).node
      obtain ⟨l, rfl⟩ := hp.level_of_inner hinner
      obtain ⟨hfblk, hinblk, hfkids, hinkids⟩ := head_kids hf halloc
      have hhead := hpage.inner_spec hfblk hinblk (hkids.forest hfkids hinkids)
      obtain ⟨-, hf₁, hin₁⟩ := hhead.rest_forest hf halloc
      intro w hw
      rcases List.mem_append.mp hw with hw | hw
      · obtain ⟨hne, rfl⟩ := mem_reported hw
        have hwalk := hkids.forest hfkids hinkids
        have hself : pageAt (pages₁.set blk (.data page')) blk = page' :=
          pageAt_set_self (hkids.length_eq.symm ▸ hblk)
        have hkids_ne : kids ≠ [] := by
          rintro rfl
          exact hne rfl
        refine hcongr (hhead.reported_frame hf halloc (hrest.forest hf₁ hin₁) hne) (hTinner hkids_ne ?_ ?_)
        · rw [hself, hpage.page.1]
        · -- the page itself is none of the blocks below it
          intro c hc
          refine hcongr (fun x hx => pageAt_set_ne ?_)
            (ihkids hfkids hinkids (fun t ht => hG t (List.mem_append_left _ ht)) c hc)
          rintro rfl
          exact hwalk.update.top_notMem hfblk hblk (blocks_subset_forest (List.mem_map_of_mem hc) hx)
      · exact ih hf₁ hin₁ (hhead.rest_leaves hf halloc hG) w hw

end Walk

end TemporalRTree
