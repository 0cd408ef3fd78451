import TemporalRTree.Correctness.InsertRun
import TemporalRTree.Model.Vacuum

/-!
# `Correctness.VacuumTree` — what `rtree_vacuum_page` does to the tree

A completed walk rewrites the tree in place, keeps the tuples the callback does not report dead in their
order, and drops every page that became empty from its parent; the page it was started at stays, possibly
empty. The walk reaches the leaves with any fuel above the level, and it fails only when a page could not be
rebuilt, which needs a failing `PageAddItem`.
-/

namespace TemporalRTree
open EStateM Layout

/-- The tuples bulk deletion keeps. -/
def isAlive (callback : IndexBulkDeleteCallback) (t : IndexTuple) : Bool := !isDead callback t.tTid

/-! ## Rebuilding a page -/

/-- When every copy was added, the page holds the copies. -/
theorem addTupleCopies_items {page : DataPage} {itups : List IndexTuple}
    (h : (addTupleCopies page itups).2 = true) :
    (addTupleCopies page itups).1.items = page.items ++ itups ∧
      (addTupleCopies page itups).1.special = page.special := by
  induction itups generalizing page with
  | nil => simp [addTupleCopies]
  | cons t rest ih =>
      cases hadd : pageAddItem page t invalidOffsetNumber with
      | none => simp [addTupleCopies, hadd] at h
      | some page' =>
          obtain ⟨hitems, hspecial⟩ := pageAddItem_items hadd
          simp only [addTupleCopies, hadd] at h ⊢
          obtain ⟨hi, hs⟩ := ih h
          exact ⟨by simp [hi, hitems], hs.trans hspecial⟩

/-- What a rebuilt page reports to its parent. -/
def rebuildResult (kept : VacuumItems) : Option RTreeTemporalBox × IndexBulkDeleteResult :=
  if kept.tuples = [] then
    (none, { kept.stats with
      pagesDeleted := kept.stats.pagesDeleted + 1
      pagesNewlyDeleted := kept.stats.pagesNewlyDeleted + 1 })
  else (some (kept.boxes.foldl aggregateStep emptyBox), kept.stats)

theorem rebuildResult_isSome {kept : VacuumItems} :
    (rebuildResult kept).1.isSome = true ↔ kept.tuples ≠ [] := by
  unfold rebuildResult
  split <;> simp_all

section Rebuild
variable {env : Env} {blk : BlockNumber} {page : DataPage} {kept : VacuumItems} {s : Rel}

theorem rebuildPage_run_of_ok (hblk : blk < s.pages.length)
    (h : (addTupleCopies (emptiedPage page) kept.tuples).2 = true) :
    rebuildPage env blk page kept s = .ok (rebuildResult kept)
      { pages := s.pages.set blk (.data (addTupleCopies (emptiedPage page) kept.tuples).1)
        trace := s.trace ++ ([Event.addItem true] ++
          changeTrace env blk (addTupleCopies (emptiedPage page) kept.tuples).1 ++ [Event.unlock blk]) } := by
  simp only [rebuildPage, bind_apply, putPage_run, emit_run, h, Bool.not_true, Bool.false_eq_true, if_false,
    markBufferDirty_run, rtreeWalVacuum, genericXLog_run, unlockBuffer_run, List.map_cons, List.map_nil,
    getD_set_self hblk, changeTrace, List.append_assoc, List.cons_append, List.nil_append, rebuildResult]
  split <;> rfl

theorem rebuildPage_run_of_fail (h : (addTupleCopies (emptiedPage page) kept.tuples).2 = false) :
    rebuildPage env blk page kept s = .error .failedToRebuild
      { pages := s.pages.set blk (.data (addTupleCopies (emptiedPage page) kept.tuples).1)
        trace := s.trace ++ [Event.addItem false] } := by
  simp only [rebuildPage, bind_apply, putPage_run, emit_run, h, Bool.not_false, if_true, throw_apply]

end Rebuild

/-- The leaf loop keeps the live tuples that have a key. -/
theorem vacuumLeafItems_tuples (callback : IndexBulkDeleteCallback) (items : List IndexTuple)
    (acc : VacuumItems) (hkeys : ∀ t ∈ items, t.key.isSome = true) :
    (items.foldl (vacuumLeafItem callback) acc).tuples = acc.tuples ++ items.filter (isAlive callback) := by
  induction items generalizing acc with
  | nil => simp
  | cons t rest ih =>
      rw [List.foldl_cons, ih _ fun u hu => hkeys u (List.mem_cons_of_mem _ hu)]
      obtain ⟨cube, hcube⟩ := Option.isSome_iff_exists.mp (hkeys t List.mem_cons_self)
      cases hd : isDead callback t.tTid with
      | true => simp [vacuumLeafItem, hd, isAlive]
      | false => simp [vacuumLeafItem, hd, isAlive, rtreeIndexTupleBox, hcube, VacuumItems.keep]

/-! ## The walk -/

/-- A walk over the trees of level `level` at `cs` left the trees `ts`, with the live tuples in order. -/
structure VacuumForest (callback : IndexBulkDeleteCallback) (pages : List Page) (level : Nat)
    (cs ts : List BlockNumber) (pages' : List Page) : Prop where
  length_eq : pages'.length = pages.length
  update : nodes.Update NodeOk (allocated pages) (allocated pages) (pageAt pages) (pageAt pages') level
    cs ts
  leaves : nodes.forestLeaves (pageAt pages') level ts =
    (nodes.forestLeaves (pageAt pages) level cs).filter (isAlive callback)
  meta_eq : 0 ∉ nodes.forestBlocks (pageAt pages) level cs → metaAt pages' = metaAt pages

/-- The walk over one tree, which keeps its top page even if it drops it from the parent. -/
structure VacuumSpec (callback : IndexBulkDeleteCallback) (pages : List Page) (blk : BlockNumber)
    (level : Nat) (ts : List BlockNumber) (pages' : List Page) : Prop
    extends VacuumForest callback pages level [blk] ts pages' where
  special : (pageAt pages' blk).special = (pageAt pages blk).special
  emptied : ts = [] → (pageAt pages' blk).items = []

/-- A run that completes as described or fails to rebuild a page. -/
def VacuumRun {α : Type} (s : Rel) (Q : α → List Page → Prop) : Result RTreeError Rel α → Prop
  | .ok a s' => Q a s'.pages ∧ ∃ evs, s'.trace = s.trace ++ evs
  | .error e s' => e = .failedToRebuild ∧ ∃ evs, s'.trace = s.trace ++ evs ∧ ¬ AddsOk evs

theorem VacuumRun.mono {α : Type} {s : Rel} {Q R : α → List Page → Prop} {r : Result RTreeError Rel α}
    (h : VacuumRun s Q r) (himp : ∀ a pages, Q a pages → R a pages) : VacuumRun s R r := by
  cases r with
  | ok a s' => exact ⟨himp a _ h.1, h.2⟩
  | error e s' => exact h

theorem VacuumRun.bind {α β : Type} {s : Rel} {Q : α → List Page → Prop} {R : β → List Page → Prop}
    {x : IndexM α} {f : α → IndexM β} (h : VacuumRun s Q (x s))
    (hf : ∀ a s', Q a s'.pages → VacuumRun s' R (f a s')) : VacuumRun s R ((x >>= f) s) := by
  cases hx : x s with
  | error e s' =>
      rw [hx] at h
      rw [bind_of_error hx]
      exact h
  | ok a s' =>
      rw [hx] at h
      rw [bind_of_ok hx]
      obtain ⟨hQ, evs, htrace⟩ := h
      have hrun := hf a s' hQ
      cases hy : f a s' with
      | ok b s'' =>
          rw [hy] at hrun
          obtain ⟨hR, evs', htrace'⟩ := hrun
          exact ⟨hR, evs ++ evs', by rw [htrace', htrace, List.append_assoc]⟩
      | error e s'' =>
          rw [hy] at hrun
          obtain ⟨he, evs', htrace', hbad⟩ := hrun
          exact ⟨he, evs ++ evs', by rw [htrace', htrace, List.append_assoc], fun hok =>
            hbad (addsOk_append.mp hok).2⟩

section Children
variable {callback : IndexBulkDeleteCallback} {level : Nat}

theorem VacuumForest.refl {pages : List Page} {cs : List BlockNumber}
    (hf : nodes.Forest NodeOk (pageAt pages) level cs) (hcs : cs = []) :
    VacuumForest callback pages level cs [] pages where
  length_eq := rfl
  update := hcs ▸ Update.refl (hcs ▸ hf)
  leaves := by simp [hcs]
  meta_eq _ := rfl

section Sequence
variable {pages pages₁ pages₂ : List Page} {c : BlockNumber} {rest ts ts' : List BlockNumber}
  (hf : nodes.Forest NodeOk (pageAt pages) level (c :: rest))
  (halloc : ∀ x ∈ nodes.forestBlocks (pageAt pages) level (c :: rest), x ∈ allocated pages)
  (h₁ : VacuumForest callback pages level [c] ts pages₁)
include hf halloc h₁

/-- The trees that are still to be walked are as they were. -/
theorem VacuumForest.rest_forest :
    (∀ x ∈ nodes.forestBlocks (pageAt pages) level rest, pageAt pages₁ x = pageAt pages x) ∧
      nodes.Forest NodeOk (pageAt pages₁) level rest ∧
      ∀ x ∈ nodes.forestBlocks (pageAt pages₁) level rest, x ∈ allocated pages₁ := by
  have hin : ∀ x ∈ nodes.forestBlocks (pageAt pages) level rest, x ∈ allocated pages := fun x hx =>
    halloc x (List.mem_append_right _ hx)
  have hframe := h₁.update.frame_rest (show nodes.Forest NodeOk _ _ ([c] ++ rest) from hf) hin
  refine ⟨hframe, (hf.subperm (List.sublist_cons_self _ _).subperm).congr hframe, fun x hx => ?_⟩
  rw [forestBlocks_congr hframe] at hx
  rw [mem_allocated, h₁.length_eq]
  exact hin x hx

omit hf in
/-- The blocks of a walked tree are old ones. -/
theorem VacuumForest.walked_allocated :
    ∀ x ∈ nodes.forestBlocks (pageAt pages₁) level ts, x ∈ allocated pages := by
  intro x hx
  rcases h₁.update.mem x hx with hx | hx
  · exact halloc x (List.mem_append_left _ (by simpa using hx))
  · exact hx.1

theorem VacuumForest.append_forest : nodes.Forest NodeOk (pageAt pages₁) level (ts ++ rest) :=
  (h₁.update.append (show nodes.Forest NodeOk _ _ ([c] ++ rest) from hf) fun x hx =>
    halloc x (List.mem_append_right _ hx)).forest

variable (h₂ : VacuumForest callback pages₁ level rest ts' pages₂)
include h₂

/-- A walked tree stays as it is while the others are walked. -/
theorem VacuumForest.walked_frame :
    ∀ x ∈ nodes.forestBlocks (pageAt pages₁) level ts, pageAt pages₂ x = pageAt pages₁ x := by
  refine h₂.update.frame_rest
    ((h₁.append_forest hf halloc).subperm List.perm_append_comm.subperm) fun x hx => ?_
  rw [mem_allocated, h₁.length_eq]
  exact h₁.walked_allocated halloc x hx

/-- Walking one tree and then the others is walking all of them. -/
theorem VacuumForest.cons : VacuumForest callback pages level (c :: rest) (ts ++ ts') pages₂ := by
  obtain ⟨hrest, -, -⟩ := h₁.rest_forest hf halloc
  have hin : ∀ x ∈ nodes.forestBlocks (pageAt pages) level rest, x ∈ allocated pages := fun x hx =>
    halloc x (List.mem_append_right _ hx)
  have hu₁ := h₁.update.append (show nodes.Forest NodeOk _ _ ([c] ++ rest) from hf) hin
  have hu₂ := h₂.update
  rw [show allocated pages₁ = allocated pages by simp only [allocated, h₁.length_eq]] at hu₂
  have hu := hu₁.trans (hu₂.append_left hu₁.forest (h₁.walked_allocated halloc))
  refine ⟨h₂.length_eq.trans h₁.length_eq, hu, ?_, ?_⟩
  · rw [forestLeaves_append, forestLeaves_congr (h₁.walked_frame hf halloc h₂), h₁.leaves, h₂.leaves,
      forestLeaves_congr hrest]
    simp
  · intro h0
    rw [forestBlocks_cons, List.mem_append, not_or] at h0
    rw [h₂.meta_eq (by rw [forestBlocks_congr hrest]; exact h0.2), h₁.meta_eq (by simpa using h0.1)]

end Sequence

/-- The loop over the downlinks, given what the recursive call does. -/
theorem vacuumChildren_spec
    {vacuumChild : BlockNumber → IndexBulkDeleteResult →
      IndexM (Option RTreeTemporalBox × IndexBulkDeleteResult)}
    (hvac : ∀ c stats (s : Rel), nodes.Forest NodeOk (pageAt s.pages) level [c] →
      (∀ x ∈ nodes.forestBlocks (pageAt s.pages) level [c], x ∈ allocated s.pages) →
      VacuumRun s (fun res pages' => VacuumSpec callback s.pages c level (if res.1.isSome then [c] else [])
        pages') (vacuumChild c stats s))
    (items : List IndexTuple) (acc : VacuumItems) (s : Rel)
    (hf : nodes.Forest NodeOk (pageAt s.pages) level (items.map fun t => t.tTid.blkno))
    (halloc : ∀ x ∈ nodes.forestBlocks (pageAt s.pages) level (items.map fun t => t.tTid.blkno),
      x ∈ allocated s.pages) :
    VacuumRun s (fun acc' pages' => ∃ new : List IndexTuple, acc'.tuples = acc.tuples ++ new ∧
      (∀ t ∈ new, t.key.isSome = true) ∧
      VacuumForest callback s.pages level (items.map fun t => t.tTid.blkno)
        (new.map fun t => t.tTid.blkno) pages') (vacuumChildren vacuumChild items acc s) := by
  induction items generalizing acc s with
  | nil => exact ⟨⟨[], by simp, by simp, VacuumForest.refl hf rfl⟩, [], by simp⟩
  | cons itup rest ih =>
      rw [vacuumChildren]
      refine (hvac itup.tTid.blkno acc.stats s
        (hf.subperm (List.sublist_append_left [_] _).subperm)
        (fun x hx => halloc x (List.mem_append_left _ (by simpa using hx)))).bind ?_
      intro res s₁ hspec
      obtain ⟨-, hf₁, hin₁⟩ := hspec.rest_forest hf halloc
      obtain ⟨box, stats⟩ := res
      cases box with
      | none =>
          refine (ih { acc with stats := stats } s₁ hf₁ hin₁).mono ?_
          rintro acc' pages' ⟨new, htuples, hkeys, hforest⟩
          exact ⟨new, htuples, hkeys, hspec.toVacuumForest.cons hf halloc hforest⟩
      | some childBox =>
          refine (ih (VacuumItems.keep { acc with stats := stats }
            (rtreeFormTuple childBox (childTid itup.tTid.blkno)) childBox) s₁ hf₁ hin₁).mono ?_
          rintro acc' pages' ⟨new, htuples, hkeys, hforest⟩
          refine ⟨rtreeFormTuple childBox (childTid itup.tTid.blkno) :: new, ?_, ?_,
            hspec.toVacuumForest.cons hf halloc hforest⟩
          · simp [htuples, VacuumItems.keep]
          · rintro t (_ | ⟨_, ht⟩)
            · exact rtreeFormTuple_key _ _
            · exact hkeys t ht

end Children

section Page
variable {env : Env} {callback : IndexBulkDeleteCallback} {level : Nat} {blk : BlockNumber}

/-- Rebuilding a page from tuples with keys keeps it fit, and it fails only with a failed `PageAddItem`. -/
theorem rebuildPage_spec {page : DataPage} (hp : NodeOk level page) (kept : VacuumItems) (s : Rel)
    (hblk : blk < s.pages.length) (hkeys : ∀ t ∈ kept.tuples, t.key.isSome = true) :
    VacuumRun s (fun res pages' => ∃ page', pages' = s.pages.set blk (.data page') ∧
        page'.items = kept.tuples ∧ page'.special = page.special ∧
        (res.1.isSome = true ↔ kept.tuples ≠ []) ∧ (kept.tuples ≠ [] → NodeOk level page'))
      (rebuildPage env blk page kept s) := by
  cases h : (addTupleCopies (emptiedPage page) kept.tuples).2 with
  | false =>
      rw [rebuildPage_run_of_fail h]
      exact ⟨rfl, _, rfl, by simp⟩
  | true =>
      obtain ⟨hitems, hspecial⟩ := addTupleCopies_items h
      have hitems' : (addTupleCopies (emptiedPage page) kept.tuples).1.items = kept.tuples := by
        rw [hitems]
        rfl
      rw [rebuildPage_run_of_ok hblk h]
      refine ⟨⟨_, rfl, hitems', hspecial, rebuildResult_isSome, fun hne => ?_⟩, _, rfl⟩
      exact hp.of_items hspecial (by rw [hitems']; exact hkeys) (by rw [hitems']; exact hne)

theorem VacuumRun.of_trace {α : Type} {s : Rel} {evs : List Event} {Q : α → List Page → Prop}
    {r : Result RTreeError Rel α} (h : VacuumRun { s with trace := s.trace ++ evs } Q r) :
    VacuumRun s Q r := by
  cases r with
  | ok a s' =>
      obtain ⟨hQ, evs', htrace⟩ := h
      exact ⟨hQ, evs ++ evs', by rw [htrace, List.append_assoc]⟩
  | error e s' =>
      obtain ⟨he, evs', htrace, hbad⟩ := h
      exact ⟨he, evs ++ evs', by rw [htrace, List.append_assoc], fun hok => hbad (addsOk_append.mp hok).2⟩

section Rebuilt
variable {pages pages₁ : List Page} {page' : DataPage} {kept : Bool}
  (hsome : kept = true ↔ page'.items ≠ [])
include hsome

/-- A leaf rebuilt from its live tuples. -/
theorem vacuumSpec_leaf (hblk : blk < pages.length)
    (hitems : page'.items = (pageAt pages blk).items.filter (isAlive callback))
    (hspecial : page'.special = (pageAt pages blk).special)
    (hok : page'.items ≠ [] → NodeOk 0 page') :
    VacuumSpec callback pages blk 0 (if kept then [blk] else []) (pages.set blk (.data page')) := by
  have hself : pageAt (pages.set blk (.data page')) blk = page' := pageAt_set_self hblk
  have hts : ∀ t ∈ (if kept then [blk] else []), t = blk := by
    intro t ht
    split at ht <;> simp_all
  refine ⟨⟨List.length_set, Update.leafTops hblk subset_rfl ?_ (fun t ht => Or.inl (hts t ht)) ?_
    fun x _ hx => pageAt_set_ne hx, ?_, ?_⟩, ?_, ?_⟩
  · split <;> simp
  · intro t ht
    obtain rfl := hts t ht
    rw [hself]
    refine hok (hsome.mp ?_)
    by_contra hk
    simp [hk] at ht
  · rw [forestLeaves_cons, forestLeaves_nil, List.append_nil, leaves_zero,
      show nodes.vals (pageAt pages blk) = (pageAt pages blk).items from rfl, ← hitems]
    cases kept with
    | true => simp [hself, nodes]
    | false =>
        have : page'.items = [] := by simpa using hsome
        simp [this]
  · intro h0
    exact metaAt_set_ne fun he => h0 (by simp [he])
  · rw [hself, hspecial]
  · intro hnil
    rw [hself]
    by_contra hne
    simp [hsome.mpr hne] at hnil

/-- An inner page rebuilt over the walked children. -/
theorem vacuumSpec_inner (hf : nodes.Forest NodeOk (pageAt pages) (level + 1) [blk])
    (halloc : ∀ x ∈ nodes.forestBlocks (pageAt pages) (level + 1) [blk], x ∈ allocated pages)
    (hkids : VacuumForest callback pages level (nodes.kids (pageAt pages blk)) (nodes.kids page') pages₁)
    (hspecial : page'.special = (pageAt pages blk).special)
    (hok : page'.items ≠ [] → NodeOk (level + 1) page') :
    VacuumSpec callback pages blk (level + 1) (if kept then [blk] else [])
      (pages₁.set blk (.data page')) := by
  have hblk : blk < pages.length := halloc blk (by simp [self_mem_blocks])
  have hself : pageAt (pages₁.set blk (.data page')) blk = page' :=
    pageAt_set_self (hkids.length_eq.symm ▸ hblk)
  have hts : ∀ t ∈ (if kept then [blk] else []), t = blk := by
    intro t ht
    split at ht <;> simp_all
  -- the links of the rebuilt page are those of the walked children, also when none is left
  have hlinks : ((if kept then [blk] else []).flatMap fun t =>
      nodes.kids (pageAt (pages₁.set blk (.data page')) t)) = nodes.kids page' := by
    cases kept with
    | true => simp [hself]
    | false =>
        have : page'.items = [] := by simpa using hsome
        simp [nodes, this]
  have hk := (List.Perm.of_eq hlinks).subperm
  have hnew : ∀ t ∈ (if kept then [blk] else []), t = blk ∨ (t ∈ allocated pages ∧ t ∉ allocated pages) :=
    fun t ht => Or.inl (hts t ht)
  have hst : ∀ x, x ∉ (if kept then [blk] else []) → x ≠ blk →
      pageAt (pages₁.set blk (.data page')) x = pageAt pages₁ x := fun x _ hx => pageAt_set_ne hx
  refine ⟨⟨by rw [List.length_set, hkids.length_eq],
    hkids.update.upTops hf halloc subset_rfl hnew hst ?_ ?_ hk, ?_, ?_⟩, ?_, ?_⟩
  · split <;> simp
  · intro t ht
    obtain rfl := hts t ht
    rw [hself]
    refine hok (hsome.mp ?_)
    by_contra hkept
    simp [hkept] at ht
  · rw [forestLeaves_ofTops hk (hkids.update.tops_frame hf halloc hnew hst), hlinks, hkids.leaves,
      forestLeaves_cons, forestLeaves_nil, List.append_nil, leaves_succ]
  · intro h0
    simp only [forestBlocks_cons, forestBlocks_nil, List.append_nil, blocks_succ, List.mem_cons,
      not_or] at h0
    rw [metaAt_set_ne (Ne.symm h0.1), hkids.meta_eq h0.2]
  · rw [hself, hspecial]
  · intro hnil
    rw [hself]
    by_contra hne
    simp [hsome.mpr hne] at hnil

end Rebuilt

/-- **`rtree_vacuum_page` with enough fuel walks the whole tree.** -/
theorem rtreeVacuumPage_spec : ∀ {level fuel : Nat} {blk : BlockNumber} {stats : IndexBulkDeleteResult}
    {s : Rel}, level < fuel → nodes.Forest NodeOk (pageAt s.pages) level [blk] →
    (∀ x ∈ nodes.forestBlocks (pageAt s.pages) level [blk], x ∈ allocated s.pages) →
    VacuumRun s (fun res pages' => VacuumSpec callback s.pages blk level
      (if res.1.isSome then [blk] else []) pages') (rtreeVacuumPage env callback fuel blk stats s) := by
  intro level
  induction level with
  | zero =>
      intro fuel blk stats s hfuel hf halloc
      obtain ⟨fuel, rfl⟩ : ∃ n, fuel = n + 1 := ⟨fuel - 1, by omega⟩
      have hblk : blk < s.pages.length := halloc blk (by simp)
      have hp : NodeOk 0 (pageAt s.pages blk) := hf.holds blk (by simp)
      rw [rtreeVacuumPage, bind_of_ok (readBuffer_run_of_lt hblk)]
      simp only [bind_apply, lockBuffer_run, bufferGetPage_run, hp.leaf_iff.mpr rfl, if_true]
      have htuples := vacuumLeafItems_tuples callback (pageAt s.pages blk).items
        { tuples := [], boxes := [], stats := stats } hp.keys
      rw [List.nil_append] at htuples
      refine VacuumRun.of_trace (VacuumRun.mono (rebuildPage_spec hp _
        ⟨s.pages, s.trace ++ [Event.lock blk .exclusive]⟩ hblk ?_) ?_)
      · rw [htuples]
        exact fun t ht => hp.keys t (List.mem_of_mem_filter ht)
      · rintro res pages' ⟨page', rfl, hitems, hspecial, hsome, hok⟩
        rw [← hitems] at hsome hok
        exact vacuumSpec_leaf hsome hblk (hitems.trans htuples) hspecial hok
  | succ level ih =>
      intro fuel blk stats s hfuel hf halloc
      obtain ⟨fuel, rfl⟩ : ∃ n, fuel = n + 1 := ⟨fuel - 1, by omega⟩
      have hblk : blk < s.pages.length := halloc blk (by simp [self_mem_blocks])
      obtain ⟨hp, hkf, -⟩ := hf.kids
      have hinner : (pageAt s.pages blk).special.flags.leaf = false := by
        simpa using mt hp.leaf_iff.mp (Nat.succ_ne_zero level)
      rw [rtreeVacuumPage, bind_of_ok (readBuffer_run_of_lt hblk), bind_of_ok (lockBuffer_run _ _ _),
        bind_of_ok (bufferGetPage_run _ _), if_neg (by simp [hinner])]
      have hin : ∀ x ∈ nodes.forestBlocks (pageAt s.pages) level (nodes.kids (pageAt s.pages blk)),
          x ∈ allocated s.pages := by
        intro x hx
        refine halloc x ?_
        simp only [forestBlocks_cons, forestBlocks_nil, List.append_nil, blocks_succ]
        exact List.mem_cons_of_mem _ hx
      refine VacuumRun.of_trace (VacuumRun.bind (vacuumChildren_spec
        (fun c stats s hf halloc => ih (by omega) hf halloc) (pageAt s.pages blk).items _
        ⟨s.pages, s.trace ++ [Event.lock blk .exclusive]⟩ hkf hin) ?_)
      rintro kept s₁ ⟨new, htuples, hkeys, hforest⟩
      rw [List.nil_append] at htuples
      have hlen : s₁.pages.length = s.pages.length := hforest.length_eq
      refine VacuumRun.mono (rebuildPage_spec hp kept s₁ (by rw [hlen]; exact hblk)
        (by rw [htuples]; exact hkeys)) ?_
      rintro res pages' ⟨page', rfl, hitems, hspecial, hsome, hok⟩
      rw [← hitems] at hsome hok
      refine vacuumSpec_inner hsome hf halloc ?_ hspecial hok
      rw [show nodes.kids page' = new.map fun t => t.tTid.blkno by simp [nodes, hitems, htuples]]
      exact hforest

end Page

end TemporalRTree
