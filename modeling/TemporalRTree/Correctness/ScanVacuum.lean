import TemporalRTree.Lib.Pruning
import TemporalRTree.Model.VacuumWalk
import TemporalRTree.Correctness.VacuumRoot
import TemporalRTree.Correctness.ConcurrentScan
import TemporalRTree.Correctness.ConcurrentVacuum

/-!
# `Correctness.ScanVacuum` — a scan beside a bulk deletion

The walk of a bulk deletion rewrites one page at a time, and each rewriting prunes the tree in the sense of
`Lib.Pruning`: a leaf loses its dead tuples, an inner page the downlinks to children that the walk has left empty
(`WalkOk` says what the active calls know about those). A scan in between outlives it as long as the inner pages it
stands on lose no downlink that it has passed, and as long as the root does not swallow its only child: a frame
remembers a block, a level and an offset, and both make these mean another page than before (`purgeGuard`).
-/

namespace TemporalRTree
open EStateM Layout Transition

/-! ## The steps make up the walk -/

section Steps
variable {env : Env} {callback : IndexBulkDeleteCallback}

section Equations
variable {blkno : BlockNumber} {stats : IndexBulkDeleteResult} {frames below : List VacuumFrame} {s : Rel}
  {top : VacuumFrame}

theorem vacuumAdvance_enter {itup : IndexTuple} {rest : List IndexTuple} (h : top.todo = itup :: rest) :
    vacuumAdvance env callback top below =
      vacuumEnter env callback itup.tTid.blkno top.kept.stats (top :: below) := by
  rw [vacuumAdvance, h]

theorem vacuumAdvance_leave (h : top.todo = []) :
    vacuumAdvance env callback top below =
      (rebuildPage env top.blkno top.page top.kept >>= fun res => pure (.deliver below res)) := by
  rw [vacuumAdvance, h]

variable (hblk : blkno < s.pages.length)
include hblk

theorem vacuumEnter_leaf (hleaf : (pageAt s.pages blkno).special.flags.leaf = true) :
    vacuumEnter env callback blkno stats frames s =
      (rebuildPage env blkno (pageAt s.pages blkno) ((pageAt s.pages blkno).items.foldl (vacuumLeafItem callback)
        { tuples := [], boxes := [], stats := stats }) >>= fun res => pure (.deliver frames res))
        { s with trace := s.trace ++ [Event.lock blkno .exclusive] } := by
  rw [vacuumEnter, bind_of_ok (readBuffer_run_of_lt hblk), bind_of_ok (lockBuffer_run _ _ _),
    bind_of_ok (bufferGetPage_run _ _)]
  dsimp only
  rw [if_pos hleaf]

theorem vacuumEnter_inner (hleaf : (pageAt s.pages blkno).special.flags.leaf = false) :
    vacuumEnter env callback blkno stats frames s =
      .ok (.walking
        { blkno := blkno, page := pageAt s.pages blkno, todo := (pageAt s.pages blkno).items
          kept := { tuples := [], boxes := [], stats := stats } } frames)
        { s with trace := s.trace ++ [Event.lock blkno .exclusive] } := by
  rw [vacuumEnter, bind_of_ok (readBuffer_run_of_lt hblk), bind_of_ok (lockBuffer_run _ _ _),
    bind_of_ok (bufferGetPage_run _ _)]
  dsimp only
  rw [if_neg (by simp [hleaf]), pure_apply]

end Equations

/-- A step of a walk. -/
def WalkStep (env : Env) (callback : IndexBulkDeleteCallback) (a b : WalkState × Rel) : Prop :=
  ∃ top below, a.1 = .walking top below ∧ vacuumAdvance env callback top below a.2 = .ok b.1 b.2

/-- The loop over the downlinks, given that the recursive calls are runs of steps. -/
theorem vacuumChildren_steps {fuel : Nat} {blkno : BlockNumber} {page : DataPage} {below : List VacuumFrame}
    (hrec : ∀ {blkno stats frames res} {s s' : Rel}, rtreeVacuumPage env callback fuel blkno stats s = .ok res s' →
      ∃ state s₁, vacuumEnter env callback blkno stats frames s = .ok state s₁ ∧
        Relation.ReflTransGen (WalkStep env callback) (state, s₁) (.deliver frames res, s'))
    {items : List IndexTuple} {acc acc' : VacuumItems} {s s' : Rel}
    (h : vacuumChildren (rtreeVacuumPage env callback fuel) items acc s = .ok acc' s') :
    Relation.ReflTransGen (WalkStep env callback)
      (.walking { blkno := blkno, page := page, todo := items, kept := acc } below, s)
      (.walking { blkno := blkno, page := page, todo := [], kept := acc' } below, s') := by
  induction items generalizing acc s with
  | nil =>
      cases h
      exact .refl
  | cons itup rest ih =>
      rw [vacuumChildren] at h
      obtain ⟨res, s₁, hchild, h⟩ := bind_eq_ok.mp h
      let top : VacuumFrame := { blkno := blkno, page := page, todo := itup :: rest, kept := acc }
      obtain ⟨state, s₂, henter, hsteps⟩ : ∃ state s₂, vacuumEnter env callback itup.tTid.blkno acc.stats
          (top :: below) s = .ok state s₂ ∧ Relation.ReflTransGen (WalkStep env callback) (state, s₂)
            (.deliver (top :: below) res, s₁) := hrec hchild
      refine .trans (.head ⟨top, below, rfl, ?_⟩ hsteps) ?_
      · rw [vacuumAdvance_enter rfl]
        exact henter
      obtain ⟨box, stats⟩ := res
      cases box with
      | none => exact ih h
      | some childBox => exact ih h

/-- **A call of `rtree_vacuum_page` is a run of steps.** -/
theorem rtreeVacuumPage_steps {fuel : Nat} {blkno : BlockNumber} {stats : IndexBulkDeleteResult}
    {frames : List VacuumFrame} {s s' : Rel} {res : Option RTreeTemporalBox × IndexBulkDeleteResult}
    (h : rtreeVacuumPage env callback fuel blkno stats s = .ok res s') :
    ∃ state s₁, vacuumEnter env callback blkno stats frames s = .ok state s₁ ∧
      Relation.ReflTransGen (WalkStep env callback) (state, s₁) (.deliver frames res, s') := by
  induction fuel generalizing blkno stats frames s s' res with
  | zero => exact absurd h (by simp [rtreeVacuumPage])
  | succ fuel ih =>
      rw [rtreeVacuumPage] at h
      by_cases hblk : blkno < s.pages.length
      · rw [bind_of_ok (readBuffer_run_of_lt hblk), bind_of_ok (lockBuffer_run _ _ _),
          bind_of_ok (bufferGetPage_run _ _)] at h
        dsimp only at h
        cases hleaf : (pageAt s.pages blkno).special.flags.leaf with
        | true =>
            rw [if_pos hleaf] at h
            rw [vacuumEnter_leaf hblk hleaf, bind_of_ok h]
            exact ⟨_, _, rfl, .refl⟩
        | false =>
            rw [if_neg (by simp [hleaf])] at h
            obtain ⟨kept, s₁, hkids, h⟩ := bind_eq_ok.mp h
            refine ⟨_, _, vacuumEnter_inner hblk hleaf, .tail (vacuumChildren_steps ih hkids) ⟨_, _, rfl, ?_⟩⟩
            rw [vacuumAdvance_leave rfl]
            exact bind_of_ok h
      · rw [bind_of_error (readBuffer_run_of_not_lt hblk)] at h
        exact absurd h (by simp)

end Steps

/-! ## What the active calls know -/

/-- The blocks that tuples name. -/
abbrev downlinkBlocks (items : List IndexTuple) : List BlockNumber := items.map fun t => t.tTid.blkno

/-- A call on an inner page of level `l + 1`: the page is as it was read, and of the children done, those not kept
    are empty. -/
structure FrameOk (pages : List Page) (l : Nat) (f : VacuumFrame) : Prop where
  page_eq : pageAt pages f.blkno = f.page
  holds : nodes.Holds NodeFits (pageAt pages) (l + 1) f.blkno
  range : ∀ x ∈ nodes.blocks (pageAt pages) (l + 1) f.blkno, 0 < x ∧ x < pages.length
  drops : ∃ done, f.page.items = done ++ f.todo ∧
    nodes.Drops (pageAt pages) l (downlinkBlocks done) (downlinkBlocks f.kept.tuples)
  keys : ∀ t ∈ f.kept.tuples, t.key.isSome = true

/-- The calls that wait for the one on block `c`, of level `l`. -/
inductive Awaits (pages : List Page) : Nat → BlockNumber → List VacuumFrame → Prop where
  | nil {l : Nat} {c : BlockNumber} : Awaits pages l c []
  | cons {l : Nat} {c : BlockNumber} {f : VacuumFrame} {below : List VacuumFrame} (hf : FrameOk pages l f)
      (hnext : f.nextBlock = some c) (h : Awaits pages (l + 1) f.blkno below) : Awaits pages l c (f :: below)

/-- The active calls of a walk. -/
def WalkOk (pages : List Page) : WalkState → Prop
  | .walking top below => ∃ l, FrameOk pages l top ∧ Awaits pages (l + 1) top.blkno below ∧
      ((top :: below).map VacuumFrame.blkno).Nodup
  | .done _ => True

/-- The page at `b`, of level `m`, was rewritten by a walk. -/
structure PrunesPage (callback : IndexBulkDeleteCallback) (pages pages' : List Page) (m : Nat) (b : BlockNumber) :
    Prop where
  length_eq : pages'.length = pages.length
  meta_eq : metaAt pages' = metaAt pages
  prunes : nodes.Prunes NodeFits (isAlive callback) (pageAt pages) (pageAt pages') m b

section Frames
variable {callback : IndexBulkDeleteCallback} {pages pages' : List Page} {l m : Nat} {b c : BlockNumber}
  {f : VacuumFrame} {below : List VacuumFrame}

theorem FrameOk.prune (hf : FrameOk pages l f) (h : PrunesPage callback pages pages' m b) (hne : f.blkno ≠ b) :
    FrameOk pages' l f := by
  have hp := h.prunes
  obtain ⟨done, hitems, hdrops⟩ := hf.drops
  have hkids : ∀ c ∈ downlinkBlocks done, nodes.Holds NodeFits (pageAt pages) l c := by
    intro c hc
    refine hf.holds.2 c ?_
    show c ∈ downlinkBlocks _
    rw [hf.page_eq, hitems, downlinkBlocks, List.map_append]
    exact List.mem_append_left _ hc
  refine ⟨by rw [hp.frame _ hne, hf.page_eq], hp.holds hf.holds, fun x hx => ?_,
    ⟨done, hitems, hp.drops hdrops hkids⟩, hf.keys⟩
  rw [h.length_eq]
  exact hf.range x ((hp.blocks hf.holds).subset hx)

theorem Awaits.prune (hw : Awaits pages l c below) (h : PrunesPage callback pages pages' m b)
    (hb : b ∉ below.map VacuumFrame.blkno) : Awaits pages' l c below := by
  induction hw with
  | nil => exact .nil
  | cons hf hnext _ ih =>
      rw [List.map_cons, List.mem_cons, not_or] at hb
      exact .cons (hf.prune h (Ne.symm hb.1)) hnext (ih hb.2)

theorem FrameOk.receive {res : Option RTreeTemporalBox × IndexBulkDeleteResult} (hf : FrameOk pages l f)
    (hnext : f.nextBlock = some c) (hres : res.1 = none → nodes.leaves (pageAt pages) l c = []) :
    FrameOk pages l (f.receive res) ∧ (f.receive res).blkno = f.blkno := by
  obtain ⟨blkno, page, todo, kept⟩ := f
  obtain ⟨done, hitems, hdrops⟩ := hf.drops
  obtain ⟨box, stats⟩ := res
  cases todo with
  | nil => simp [VacuumFrame.nextBlock] at hnext
  | cons itup rest =>
      obtain rfl : itup.tTid.blkno = c := by simpa [VacuumFrame.nextBlock] using hnext
      have hitems' : page.items = (done ++ [itup]) ++ rest := by simpa using hitems
      cases box with
      | none =>
          refine ⟨⟨hf.page_eq, hf.holds, hf.range, ⟨done ++ [itup], hitems', ?_⟩, hf.keys⟩, rfl⟩
          have hdrop := hdrops.append (.drop (hres rfl) .nil)
          simpa [downlinkBlocks, VacuumFrame.receive] using hdrop
      | some childBox =>
          refine ⟨⟨hf.page_eq, hf.holds, hf.range, ⟨done ++ [itup], hitems', ?_⟩, fun t ht => ?_⟩, rfl⟩
          · have hkeep := hdrops.append (.keep (c := itup.tTid.blkno) .nil)
            simpa [downlinkBlocks, VacuumFrame.receive, VacuumItems.keep, rtreeFormTuple, childTid] using hkeep
          · rcases List.mem_append.mp ht with ht | ht
            · exact hf.keys t ht
            · rw [List.mem_singleton.mp ht]
              rfl

/-- A call returns to those that wait for it. -/
theorem Awaits.deliver {res : Option RTreeTemporalBox × IndexBulkDeleteResult} (hw : Awaits pages l c below)
    (hnd : (below.map VacuumFrame.blkno).Nodup) (hres : res.1 = none → nodes.leaves (pageAt pages) l c = []) :
    WalkOk pages (.deliver below res) := by
  cases hw with
  | nil => trivial
  | cons hf hnext hrest =>
      obtain ⟨hf', hblkno⟩ := hf.receive hnext hres
      exact ⟨_, hf', by rw [hblkno]; exact hrest, by rw [List.map_cons, hblkno]; exact hnd⟩

end Frames

/-! ## Each step prunes one page at most -/

/-- What a step of a walk does to the pages; `top` is the innermost call before it. -/
inductive StepWrites (callback : IndexBulkDeleteCallback) (pages : List Page) (top : Option VacuumFrame) :
    List Page → Prop where
  | stay : StepWrites callback pages top pages
  | leaf {pages' : List Page} {b : BlockNumber} (h : PrunesPage callback pages pages' 0 b) :
      StepWrites callback pages top pages'
  | inner {pages' : List Page} {f : VacuumFrame} {l : Nat} (htop : top = some f) (htodo : f.todo = [])
      (h : PrunesPage callback pages pages' (l + 1) f.blkno)
      (hkids : nodes.kids (pageAt pages' f.blkno) = downlinkBlocks f.kept.tuples) :
      StepWrites callback pages top pages'

section StepSpec
variable {env : Env} {callback : IndexBulkDeleteCallback} {s s' : Rel} {l m : Nat} {b c : BlockNumber}
  {top : VacuumFrame} {below frames : List VacuumFrame} {state : WalkState} {stats : IndexBulkDeleteResult}

/-- A page rewritten with its live tuples, or with the downlinks to children that are not empty, is pruned. -/
theorem prunesPage_set {pages : List Page} {page' : DataPage} (hb : 0 < b ∧ b < pages.length)
    (hfits : NodeFits m (pageAt pages b)) (hspecial : page'.special = (pageAt pages b).special) (hkeys : Keyed page')
    (hleaf : m = 0 → page'.items = (pageAt pages b).items.filter (isAlive callback))
    (hinner : ∀ l, m = l + 1 → nodes.Drops (pageAt pages) l (nodes.kids (pageAt pages b)) (nodes.kids page')) :
    PrunesPage callback pages (pages.set b (.data page')) m b := by
  have hself : pageAt (pages.set b (.data page')) b = page' := pageAt_set_self hb.2
  refine ⟨List.length_set .., metaAt_set_ne (Nat.ne_of_gt hb.1), fun x hx => pageAt_set_ne hx,
    fun l hl => hl.level_eq.symm.trans hfits.level_eq, ?_, fun hm => ?_, fun l hm => ?_⟩
  · rw [hself]
    exact ⟨by rw [hspecial]; exact hfits.level_eq, by rw [hspecial]; exact hfits.leaf_iff, hkeys⟩
  · rw [hself]
    exact hleaf hm
  · rw [hself]
    exact hinner l hm

/-- Rebuilding a page from its live tuples, or from the downlinks to children that are not empty, prunes it. -/
theorem rebuildPage_prunes {page : DataPage} {kept : VacuumItems}
    {res : Option RTreeTemporalBox × IndexBulkDeleteResult} (h : rebuildPage env b page kept s = .ok res s')
    (hpage : pageAt s.pages b = page) (hb : 0 < b ∧ b < s.pages.length) (hfits : NodeFits m page)
    (hkeys : ∀ t ∈ kept.tuples, t.key.isSome = true)
    (hleaf : m = 0 → kept.tuples = page.items.filter (isAlive callback))
    (hinner : ∀ l, m = l + 1 →
      nodes.Drops (pageAt s.pages) l (downlinkBlocks page.items) (downlinkBlocks kept.tuples)) :
    PrunesPage callback s.pages s'.pages m b ∧ (pageAt s'.pages b).items = kept.tuples ∧
      (res.1 = none → nodes.leaves (pageAt s'.pages) m b = []) := by
  subst hpage
  cases hcopies : (addTupleCopies (emptiedPage (pageAt s.pages b)) kept.tuples).2 with
  | false =>
      rw [rebuildPage_run_of_fail hcopies] at h
      exact absurd h (by simp)
  | true =>
      rw [rebuildPage_run_of_ok hb.2 hcopies] at h
      injection h with hres hs'
      subst hs'
      obtain ⟨hitems, hspecial⟩ := addTupleCopies_items hcopies
      rw [show (emptiedPage (pageAt s.pages b)).items = [] from rfl, List.nil_append] at hitems
      generalize (addTupleCopies (emptiedPage (pageAt s.pages b)) kept.tuples).1 = page' at hitems hspecial ⊢
      have hself : pageAt (s.pages.set b (.data page')) b = page' := pageAt_set_self hb.2
      refine ⟨prunesPage_set hb hfits hspecial (fun t ht => hkeys t (hitems ▸ ht)) (fun hm => hitems.trans (hleaf hm))
        (fun l hm => ?_), ?_, fun hnone => ?_⟩
      · have hdrops := hinner l hm
        rw [← hitems] at hdrops
        exact hdrops
      · rw [hself, hitems]
      · have hnil : page'.items = [] := by
          by_contra hne
          rw [hitems] at hne
          have hsome := rebuildResult_isSome.mpr hne
          rw [hres, hnone] at hsome
          exact absurd hsome (by simp)
        cases m with
        | zero =>
            rw [leaves_zero, hself]
            exact hnil
        | succ l =>
            rw [leaves_succ, hself, show nodes.kids page' = [] by simp [nodes, hnil]]
            rfl

/-- A call begins on block `c`, of level `l`. -/
theorem vacuumEnter_spec {caller : Option VacuumFrame} (h : vacuumEnter env callback c stats frames s = .ok state s')
    (hholds : nodes.Holds NodeFits (pageAt s.pages) l c)
    (hrange : ∀ x ∈ nodes.blocks (pageAt s.pages) l c, 0 < x ∧ x < s.pages.length)
    (hw : Awaits s.pages l c frames) (hnd : (c :: frames.map VacuumFrame.blkno).Nodup) :
    WalkOk s'.pages state ∧ StepWrites callback s.pages caller s'.pages := by
  have hc := hrange c self_mem_blocks
  have hfits : NodeFits l (pageAt s.pages c) := hholds.node
  obtain ⟨hnotin, hnd'⟩ := List.nodup_cons.mp hnd
  cases hleaf : (pageAt s.pages c).special.flags.leaf with
  | true =>
      rw [vacuumEnter_leaf hc.2 hleaf] at h
      obtain ⟨res, s₁, hrebuild, h⟩ := bind_eq_ok.mp h
      injection h with h1 h2
      subst h1; subst h2
      obtain rfl : l = 0 := hfits.leaf_iff.mp hleaf
      have htuples := vacuumLeafItems_tuples callback (pageAt s.pages c).items
        { tuples := [], boxes := [], stats := stats } hfits.keys
      rw [List.nil_append] at htuples
      obtain ⟨hprune, -, hnone⟩ := rebuildPage_prunes hrebuild rfl hc hfits
        (fun t ht => hfits.keys t (List.mem_of_mem_filter (htuples ▸ ht))) (fun _ => htuples)
        (fun _ h => absurd h (by simp))
      exact ⟨(hw.prune hprune hnotin).deliver hnd' hnone, .leaf hprune⟩
  | false =>
      rw [vacuumEnter_inner hc.2 hleaf] at h
      injection h with h1 h2
      subst h1; subst h2
      refine ⟨?_, .stay⟩
      cases l with
      | zero => exact absurd (hfits.leaf_iff.mpr rfl) (by simp [hleaf])
      | succ l => exact ⟨l, ⟨rfl, hholds, hrange, ⟨[], rfl, .nil⟩, fun t ht => absurd ht (by simp)⟩, hw, hnd⟩

/-- The next step of a walk. -/
theorem vacuumAdvance_spec (h : vacuumAdvance env callback top below s = .ok state s')
    (hok : WalkOk s.pages (.walking top below))
    (hfree : ∀ c, top.nextBlock = some c → c ∉ (top :: below).map VacuumFrame.blkno) :
    WalkOk s'.pages state ∧ StepWrites callback s.pages (some top) s'.pages := by
  obtain ⟨l, hf, hw, hnd⟩ := hok
  obtain ⟨done, hitems, hdrops⟩ := hf.drops
  cases htodo : top.todo with
  | cons itup rest =>
      rw [vacuumAdvance_enter htodo] at h
      have hnext : top.nextBlock = some itup.tTid.blkno := by rw [VacuumFrame.nextBlock, htodo]; rfl
      have hkid : itup.tTid.blkno ∈ nodes.kids (pageAt s.pages top.blkno) := by
        rw [hf.page_eq]
        show _ ∈ downlinkBlocks top.page.items
        rw [hitems, htodo]
        simp
      refine vacuumEnter_spec h (hf.holds.2 _ hkid) (fun x hx => hf.range x ?_) (.cons hf hnext hw)
        (List.nodup_cons.mpr ⟨hfree _ hnext, hnd⟩)
      exact List.mem_cons_of_mem _ (blocks_subset_forest hkid hx)
  | nil =>
      rw [vacuumAdvance_leave htodo] at h
      obtain ⟨res, s₁, hrebuild, h⟩ := bind_eq_ok.mp h
      injection h with h1 h2
      subst h1; subst h2
      obtain ⟨hnotin, hnd'⟩ := List.nodup_cons.mp hnd
      rw [htodo, List.append_nil] at hitems
      obtain ⟨hprune, hkept, hnone⟩ : PrunesPage callback _ _ (l + 1) _ ∧ _ :=
        rebuildPage_prunes hrebuild hf.page_eq (hf.range _ self_mem_blocks) (hf.page_eq ▸ hf.holds.node) hf.keys
          (fun h => absurd h (by simp)) (fun l' hl => by
            obtain rfl : l = l' := Nat.succ.inj hl
            rw [hitems]
            exact hdrops)
      refine ⟨(hw.prune hprune hnotin).deliver hnd' hnone, .inner rfl htodo hprune ?_⟩
      show downlinkBlocks _ = _
      rw [hkept]

end StepSpec

/-! ## A scan under a walk -/

/-- A frame at a leaf has all of it ahead. -/
def FreshLeaf (f : RTreeScanFrameData) : Prop := f.level = 0 → f.nextOffset = firstOffsetNumber

/-- Where a scan stands between its visits. -/
inductive Stands (pages : List Page) (so : RTreeScanOpaqueData) : Prop where
  /-- In a walk of the tree. -/
  | walk (hw : Walking pages so.frames) (hoff : ∀ f ∈ so.stack, 1 ≤ f.nextOffset)
      (hfresh : ∀ f ∈ so.stack, FreshLeaf f)
  /-- On a root that was emptied under it, and may have become a leaf. -/
  | drained {f : RTreeScanFrameData} (hs : so.stack = [f]) (hroot : f.blkno = (metaAt pages).root)
      (hoff : 1 ≤ f.nextOffset) (hitems : (pageAt pages f.blkno).items = [])

section Standing
variable {callback : IndexBulkDeleteCallback} {pages pages' : List Page} {so : RTreeScanOpaqueData} {m : Nat}
  {b : BlockNumber}

/-- There is nothing at and below an empty page. -/
theorem restLeaves_of_items_nil {f : RTreeScanFrameData} (h : (pageAt pages f.blkno).items = []) :
    nodes.restLeaves (pageAt pages) f.toFrame = [] := by
  obtain ⟨blkno, level, nextOffset⟩ := f
  cases level with
  | zero => simp_all [restLeaves, RTreeScanFrameData.toFrame, nodes]
  | succ l => simp_all [restLeaves, RTreeScanFrameData.toFrame, nodes]

theorem Stands.stackOk (h : Stands pages so) (hfits : Fits pages) : StackOk pages so.stack := by
  cases h with
  | walk hw hoff hfresh => exact hw.stackOk hfits hoff
  | @drained f hs hroot hoff hitems =>
      have hblk := hfits.root_range.2
      rw [← hroot] at hblk
      rw [hs]
      intro g hg
      obtain rfl := List.mem_singleton.mp hg
      obtain ⟨blkno, level, nextOffset⟩ := g
      have hkids : nodes.kids (pageAt pages blkno) = [] := by simpa [nodes] using hitems
      have hkeyed : Keyed (pageAt pages blkno) := by simp_all [Keyed]
      cases level with
      | zero => exact ⟨hkeyed, by simpa using hblk, hoff⟩
      | succ l => exact ⟨⟨hkeyed, by simp [hkids]⟩, by simpa [blocks_succ, hkids] using hblk, hoff⟩

/-- The page of a frame is of the frame's level: **a scan never takes a leaf tuple for a downlink**, nor the other
    way round. -/
theorem Stands.node (h : Stands pages so) (hfits : Fits pages) {f : RTreeScanFrameData} (hf : f ∈ so.stack)
    (hne : (pageAt pages f.blkno).items ≠ []) : NodeFits f.level (pageAt pages f.blkno) := by
  cases h with
  | walk hw hoff hfresh =>
      rcases hw with hnil | hw
      · rw [List.map_eq_nil_iff] at hnil
        exact absurd hf (hnil ▸ List.not_mem_nil)
      · exact ((hw.frame_below _ (List.mem_map_of_mem hf)).holds hfits.holds).node
  | drained hs hroot hoff hitems =>
      rw [hs] at hf
      exact absurd (List.mem_singleton.mp hf ▸ hitems) hne

/-! ### Visits -/

/-- A turn leaves frames at leaves only with all of them ahead, the one at the top apart. -/
theorem ScanTurn.fresh {scan scan' : IndexScanDesc} {turn : Turn} (h : ScanTurn pages scan turn scan')
    (hfresh : ∀ f ∈ scan.so.stack.tail, FreshLeaf f) :
    (∀ f ∈ scan'.so.stack.tail, FreshLeaf f) ∧ (turn = .again → ∀ f ∈ scan'.so.stack, FreshLeaf f) := by
  have hpop : ∀ {frame : RTreeScanFrameData} {below : List RTreeScanFrameData},
      scan.so.stack = frame :: below → ∀ f ∈ below, FreshLeaf f := fun hs f hf => hfresh f (by rwa [hs])
  cases h with
  | finished => exact ⟨hfresh, fun h => absurd h (by simp)⟩
  | hit hs => exact ⟨hpop hs, fun h => absurd h (by simp)⟩
  | leafEnd hs => exact ⟨fun f hf => hpop hs f (List.mem_of_mem_tail hf), fun _ => hpop hs⟩
  | innerEnd hs => exact ⟨fun f hf => hpop hs f (List.mem_of_mem_tail hf), fun _ => hpop hs⟩
  | @descend frame below l t hs hlevel hitem =>
      have hbelow : ∀ f ∈ ({ frame with nextOffset := frame.nextOffset + 1 } :: below), FreshLeaf f := by
        intro f hf
        rcases List.mem_cons.mp hf with rfl | hf
        · exact fun hzero => absurd (hlevel.symm.trans hzero) (Nat.succ_ne_zero l)
        · exact hpop hs f hf
      refine ⟨hbelow, fun _ f hf => ?_⟩
      rcases List.mem_cons.mp hf with rfl | hf
      · exact fun _ => rfl
      · exact hbelow f hf

theorem rtreeScanVisit_fresh {fuel : Nat} {scan : IndexScanDesc} {s s' : Rel}
    {res : (List ItemPointerData × Bool) × IndexScanDesc} (hok : StackOk s.pages scan.so.stack)
    (hfresh : ∀ f ∈ scan.so.stack.tail, FreshLeaf f) (h : rtreeScanVisit fuel scan s = .ok res s') :
    ∀ f ∈ res.2.so.stack, FreshLeaf f := by
  induction fuel generalizing scan s s' res with
  | zero => exact absurd h (by simp [rtreeScanVisit])
  | succ fuel ih =>
      obtain ⟨turn, scan₁, evs, hrun, hturn⟩ := rtreeScanTurn_cases hok
      obtain ⟨htail, hagain⟩ := hturn.fresh hfresh
      rw [rtreeScanVisit, bind_of_ok hrun] at h
      cases turn with
      | again =>
          injection h with h1 h2
          subst h1
          exact hagain rfl
      | finished =>
          injection h with h1 h2
          subst h1
          cases hturn with
          | finished hs => simp [hs]
      | returned =>
          obtain ⟨rest, s₂, hrest, h⟩ := bind_eq_ok.mp h
          injection h with h1 h2
          subst h1
          have hvisit := ih (s := { s with trace := s.trace ++ evs }) (hturn.stackOk hok) htail hrest
          exact hvisit

/-- A visit of an emptied root leaves it. -/
theorem rtreeScanVisit_drained {fuel : Nat} {scan : IndexScanDesc} {s s' : Rel} {f : RTreeScanFrameData}
    {res : (List ItemPointerData × Bool) × IndexScanDesc} (hok : StackOk s.pages scan.so.stack)
    (hs : scan.so.stack = [f]) (hitems : (pageAt s.pages f.blkno).items = [])
    (h : rtreeScanVisit fuel scan s = .ok res s') :
    s'.pages = s.pages ∧ VisitSpec s.pages scan res.1.1 res.1.2 res.2 ∧ res.2.so.stack = [] := by
  cases fuel with
  | zero => exact absurd h (by simp [rtreeScanVisit])
  | succ fuel =>
      obtain ⟨turn, scan₁, evs, hrun, hturn⟩ := rtreeScanTurn_cases hok
      have htakes := hturn.hits hok
      have hleft : turn = .again ∧ scan₁.so.stack = [] := by
        cases hturn with
        | finished hs' => simp [hs] at hs'
        | hit hs' _ hitem =>
            obtain ⟨rfl, rfl⟩ := List.cons.inj (hs.symm.trans hs')
            simp [hitems] at hitem
        | descend hs' _ hitem =>
            obtain ⟨rfl, rfl⟩ := List.cons.inj (hs.symm.trans hs')
            simp [hitems] at hitem
        | leafEnd hs' => exact ⟨rfl, (List.cons.inj (hs.symm.trans hs')).2.symm⟩
        | innerEnd hs' => exact ⟨rfl, (List.cons.inj (hs.symm.trans hs')).2.symm⟩
      obtain ⟨rfl, hnil⟩ := hleft
      rw [rtreeScanVisit, bind_of_ok hrun] at h
      injection h with h1 h2
      subst h1; subst h2
      have hwalk : Walking s.pages scan₁.so.frames := Or.inl (by rw [RTreeScanOpaqueData.frames, hnil]; rfl)
      exact ⟨rfl, ⟨hturn.stackOk hok, hwalk, hturn.sameQuery, ⟨[], rfl, htakes.symm⟩,
        fun h => absurd h (by simp)⟩, hnil⟩

/-- A visit by a scan that stands somewhere. -/
theorem Stands.visit {fuel : Nat} {scan : IndexScanDesc} {s s' : Rel}
    {res : (List ItemPointerData × Bool) × IndexScanDesc} (h : Stands s.pages scan.so) (hfits : Fits s.pages)
    (hrun : rtreeScanVisit fuel scan s = .ok res s') :
    s'.pages = s.pages ∧ VisitSpec s.pages scan res.1.1 res.1.2 res.2 ∧ Stands s.pages res.2.so := by
  have hok := h.stackOk hfits
  cases h with
  | walk hw hoff hfresh =>
      obtain ⟨hpages, hspec⟩ := rtreeScanVisit_spec hok hw hrun
      exact ⟨hpages, hspec, .walk hspec.walking (fun f hf => (hspec.stackOk f hf).2.2)
        (rtreeScanVisit_fresh hok (fun f hf => hfresh f (List.mem_of_mem_tail hf)) hrun)⟩
  | drained hs hroot hoff hitems =>
      obtain ⟨hpages, hspec, hnil⟩ := rtreeScanVisit_drained hok hs hitems hrun
      exact ⟨hpages, hspec, .walk hspec.walking (by simp [hnil]) (by simp [hnil])⟩

/-! ### Steps of the walk -/

theorem PrunesPage.fits (h : PrunesPage callback pages pages' m b) (hfits : Fits pages) : Fits pages' where
  magic := by rw [h.meta_eq]; exact hfits.magic
  nblocks_le := by rw [h.length_eq]; exact hfits.nblocks_le
  tree := by rw [h.meta_eq]; exact h.prunes.forest hfits.tree
  range x hx := by
    rw [h.meta_eq] at hx
    rw [h.length_eq]
    exact hfits.range x ((h.prunes.blocks hfits.holds).subset hx)

/-- An empty page stays empty. -/
theorem PrunesPage.items_nil (h : PrunesPage callback pages pages' m b) {x : BlockNumber}
    (hx : (pageAt pages x).items = []) : (pageAt pages' x).items = [] := by
  by_cases he : x = b
  · subst he
    cases m with
    | zero =>
        have hvals := h.prunes.leaf rfl
        simpa [nodes, hx] using hvals
    | succ l =>
        have hsub := (h.prunes.inner l rfl).sublist
        simpa [nodes, hx] using hsub
  · rw [h.prunes.frame x he]
    exact hx

/-- **A scan outlives the rewriting of a page that loses no downlink the scan has passed.** -/
theorem Stands.prune (h : Stands pages so) (hfits : Fits pages) (hp : PrunesPage callback pages pages' m b)
    (hpassed : ∀ f ∈ so.stack, f.blkno = b → f.level ≠ 0 →
      (nodes.kids (pageAt pages' b)).take (f.nextOffset - 1) =
        (nodes.kids (pageAt pages b)).take (f.nextOffset - 1)) :
    Stands pages' so ∧ Thins (isAlive callback) (nodes.stackLeaves (pageAt pages) so.frames)
      (nodes.stackLeaves (pageAt pages') so.frames) := by
  cases h with
  | walk hw hoff hfresh =>
      rcases hw with hnil | hw
      · exact ⟨.walk (Or.inl hnil) hoff hfresh, by rw [hnil]; exact .refl _⟩
      · obtain ⟨hw', hthins⟩ := hp.prunes.walk hw hfits.holds (fun g hg hlevel => by
            obtain ⟨f, hf, rfl⟩ := List.mem_map.mp hg
            show f.nextOffset - 1 = 0
            rw [hfresh f hf hlevel]
            rfl) (fun g hg hb hlevel => by
            obtain ⟨f, hf, rfl⟩ := List.mem_map.mp hg
            exact hpassed f hf hb hlevel)
        refine ⟨.walk (Or.inr ?_) hoff hfresh, hthins⟩
        rw [hp.meta_eq]
        exact hw'
  | @drained f hs hroot hoff hitems =>
      refine ⟨.drained hs (by rw [hp.meta_eq]; exact hroot) hoff (hp.items_nil hitems), ?_⟩
      rw [RTreeScanOpaqueData.frames, hs, List.map_singleton, stackLeaves_cons, stackLeaves_cons,
        restLeaves_of_items_nil hitems, restLeaves_of_items_nil (hp.items_nil hitems)]
      exact .refl _

/-- A walk at a page without downlinks has not left it. -/
theorem walk_eq_singleton {l : Nat} {x : BlockNumber} {stack : List (Frame BlockNumber)}
    (hw : nodes.Walk (pageAt pages) l x stack) (hitems : (pageAt pages x).items = []) :
    ∃ pos, stack = [⟨x, l, pos⟩] := by
  cases hw with
  | leaf => exact ⟨_, rfl⟩
  | inner => exact ⟨_, rfl⟩
  | deeper hc => simp [nodes, hitems] at hc

/-- On an empty root a scan stands with one frame, or is at its end. -/
theorem Stands.at_empty_root (h : Stands pages so) (hitems : (pageAt pages (metaAt pages).root).items = []) :
    so.stack = [] ∨ ∃ f, so.stack = [f] ∧ f.blkno = (metaAt pages).root ∧ 1 ≤ f.nextOffset := by
  cases h with
  | walk hw hoff hfresh =>
      rcases hw with hnil | hw
      · exact Or.inl (List.map_eq_nil_iff.mp hnil)
      · obtain ⟨pos, hframes⟩ := walk_eq_singleton hw hitems
        obtain ⟨f, hs, hf⟩ := List.map_eq_singleton_iff.mp hframes
        exact Or.inr ⟨f, hs, congrArg Frame.block hf, hoff f (by simp [hs])⟩
  | drained hs hroot hoff hitems' => exact Or.inr ⟨_, hs, hroot, hoff⟩

/-- A scan outlives the root's becoming an empty leaf. -/
theorem Stands.emptied (h : Stands pages so) (hfits : Fits pages)
    (hitems : (pageAt pages (metaAt pages).root).items = []) :
    Stands (emptyRootPages pages (metaAt pages).root) so ∧
      Thins (isAlive callback) (nodes.stackLeaves (pageAt pages) so.frames)
        (nodes.stackLeaves (pageAt (emptyRootPages pages (metaAt pages).root)) so.frames) := by
  obtain ⟨hpos, hlt⟩ := hfits.root_range
  have hmeta : (metaAt (emptyRootPages pages (metaAt pages).root)).root = (metaAt pages).root := by
    rw [emptyRootPages, metaPages, metaAt_set_zero (by simpa using Nat.zero_lt_of_lt hlt)]
  have hself : (pageAt (emptyRootPages pages (metaAt pages).root) (metaAt pages).root).items = [] := by
    rw [emptyRootPages, metaPages, pageAt_set_ne (Nat.ne_of_gt hpos), pageAt_set_self hlt]
    rfl
  rcases h.at_empty_root hitems with hnil | ⟨f, hs, hroot, hoff⟩
  · refine ⟨.walk (Or.inl (by simp [RTreeScanOpaqueData.frames, hnil])) (by simp [hnil]) (by simp [hnil]), ?_⟩
    rw [RTreeScanOpaqueData.frames, hnil]
    exact .refl _
  · rw [← hroot] at hitems hself
    refine ⟨.drained hs (by rw [hmeta]; exact hroot) hoff (by rw [← hroot]; exact hself), ?_⟩
    rw [RTreeScanOpaqueData.frames, hs, List.map_singleton, stackLeaves_cons, stackLeaves_cons,
      restLeaves_of_items_nil hitems, restLeaves_of_items_nil (by rw [← hroot]; exact hself)]
    exact .refl _

end Standing

/-! ## Accounting

The matches at the start of the scan, `C`, are those returned, those ahead and at most the dead ones. -/

/-- The tuples that bulk deletion removes. -/
def deadTuples (callback : IndexBulkDeleteCallback) (C : Multiset IndexTuple) : Multiset IndexTuple :=
  C.filter fun t => ¬ isAlive callback t = true

section Accounting
variable {callback : IndexBulkDeleteCallback} {key : ScanKey} {returned : List ItemPointerData}
  {ahead ahead' : List IndexTuple} {C : Multiset IndexTuple}

/-- The matches are the live ones and the dead ones. -/
theorem matches_eq_add (callback : IndexBulkDeleteCallback) (key : ScanKey) (C : Multiset IndexTuple) :
    C.filter (key.satisfied · = true) =
      (C.filter (key.satisfied · = true)).filter (isAlive callback · = true) +
        (deadTuples callback C).filter (key.satisfied · = true) := by
  rw [deadTuples, Multiset.filter_comm, ← Multiset.filter_add, Multiset.filter_add_not]

/-- What is not dead has been returned or is ahead. -/
theorem Accounted.alive_le (h : Accounted key returned ahead C (deadTuples callback C)) :
    ∃ R : Multiset IndexTuple, (returned : Multiset ItemPointerData) = R.map IndexTuple.tTid ∧
      R + ahead ≤ C.filter (key.satisfied · = true) ∧
      (C.filter (key.satisfied · = true)).filter (isAlive callback · = true) ≤ R + ahead := by
  obtain ⟨R, hret, hle, hge⟩ := h
  rw [matches_eq_add callback key C] at hge
  exact ⟨R, hret, hle, (add_le_add_iff_right _).mp hge⟩

/-- Dead tuples go missing from what is ahead. -/
theorem Accounted.thin (h : Accounted key returned ahead C (deadTuples callback C))
    (ht : Thins (isAlive callback) ahead ahead') :
    Accounted key returned ahead' C (deadTuples callback C) := by
  obtain ⟨R, hret, hle, hge⟩ := h.alive_le
  obtain ⟨hsub, hlive⟩ := ht
  refine ⟨R, hret, (add_le_add le_rfl (Multiset.coe_le.mpr hsub.subperm)).trans hle, ?_⟩
  have hahead : (ahead : Multiset IndexTuple).filter (isAlive callback · = true) ≤ ahead' := by
    have heq : (ahead : Multiset IndexTuple).filter (isAlive callback · = true) =
        (ahead' : Multiset IndexTuple).filter (isAlive callback · = true) := by
      simp only [Multiset.filter_coe, Bool.decide_eq_true, hlive]
    rw [heq]
    exact Multiset.filter_le _ _
  have hkept : (C.filter (key.satisfied · = true)).filter (isAlive callback · = true) ≤ R + ahead' :=
    calc (C.filter (key.satisfied · = true)).filter (isAlive callback · = true)
        = ((C.filter (key.satisfied · = true)).filter (isAlive callback · = true)).filter
            (isAlive callback · = true) := by rw [Multiset.filter_filter]; simp
      _ ≤ (R + ahead).filter (isAlive callback · = true) := Multiset.filter_le_filter _ hge
      _ = R.filter (isAlive callback · = true) + (ahead : Multiset IndexTuple).filter
            (isAlive callback · = true) := Multiset.filter_add _ _ _
      _ ≤ R + ahead' := add_le_add (Multiset.filter_le _ _) hahead
  rw [matches_eq_add callback key C]
  exact add_le_add hkept le_rfl

end Accounting

/-! ## Runs -/

/-- A page that loses a downlink must not lose one that the scan has passed on it; and the root must not be
    overwritten by its only child while the scan has a page to go back to. -/
def purgeGuard (w : PurgeWorld) : PurgeAction → Bool
  | .walk =>
      match w.phase with
      | .walking _ _ top _ =>
          !top.todo.isEmpty || w.reader.scan.so.stack.all fun f =>
            decide (f.blkno = top.blkno → (downlinkBlocks top.kept.tuples).take (f.nextOffset - 1) =
              (downlinkBlocks top.page.items).take (f.nextOffset - 1))
      | .outside _ => true
  | .shrink =>
      match w.phase with
      | .outside (.walked root _ _) =>
          w.reader.scan.so.stack.isEmpty || (pageAt w.reader.rel.pages root).items.length != 1
      | _ => true
  | _ => true

/-- The reader, whatever the other session has removed. -/
inductive ReaderInv (callback : IndexBulkDeleteCallback) (key : ScanKey) (w : ScanWorld) : Prop where
  /-- Before the first call. -/
  | waiting (hfirst : w.scan.so.firstCall = true) (hkeys : w.scan.keyData = [key])
      (hfresh : w.scan.so.haveQuery = false) (hstack : w.scan.so.stack = []) (hended : w.ended = false)
      (hret : w.returned = [])
  /-- The argument is NULL. -/
  | refused (hnull : key.argument = none) (hstack : w.scan.so.stack = []) (hended : w.ended = true)
      (hret : w.returned = [])
  /-- After the meta page was read. -/
  | started {cube : NDBOX} (harg : key.argument = some cube) (hfirst : w.scan.so.firstCall = false)
      (hbox : w.scan.so.queryBox = rtreeCubeToBox cube) (hstrategy : w.scan.so.strategy = key.strategy)
      (hstands : Stands w.rel.pages w.scan.so)
      (hacc : Accounted key w.returned (remainingHits w.rel.pages w.scan.so) (contents w.startPages)
        (deadTuples callback (contents w.startPages)))
      (hended : w.ended = true → w.scan.so.stack = [])

/-- What the phases of the bulk deletion know. -/
def PhaseOk (pages : List Page) : PurgePhase → Prop
  | .outside (.located root _ _) => root = (metaAt pages).root
  | .outside _ => True
  | .walking _ _ top below => WalkOk pages (.walking top below)

/-- The invariant of the two sessions. -/
structure PurgeInv (callback : IndexBulkDeleteCallback) (key : ScanKey) (w : PurgeWorld) : Prop where
  fits : Fits w.reader.rel.pages
  phase : PhaseOk w.reader.rel.pages w.phase
  reader : ReaderInv callback key w.reader

section Steps
variable {env : Env} {callback : IndexBulkDeleteCallback} {key : ScanKey} {w w' : PurgeWorld} {r : ScanWorld}

theorem ReaderInv.start {r' : ScanWorld} (h : ReaderInv callback key r) (hfits : Fits r.rel.pages)
    (hkey : key.Supported) (hs : stepScan env r .start = some r') :
    r'.rel.pages = r.rel.pages ∧ ReaderInv callback key r' := by
  cases h with
  | waiting hfirst hkeys hfresh hstack hended hret =>
      cases stepScan_start_cases hkey hfits hkeys hfresh hs with
      | refused hnull => exact ⟨rfl, .refused hnull hstack rfl hret⟩
      | started harg =>
          refine ⟨rfl, .started harg rfl rfl rfl (.walk (Or.inr Walk.start) ?_ ?_) ?_ fun h => absurd h (by simp)⟩
          · intro f hf
            rw [List.mem_singleton.mp hf]
            exact Nat.le_refl _
          · intro f hf
            rw [List.mem_singleton.mp hf]
            exact fun _ => rfl
          · rw [hret]
            exact startedScan_accounted r.rel r.scan harg _
  | refused hnull hstack hended hret => simp [stepScan, hended] at hs
  | started harg hfirst => simp [stepScan, hfirst] at hs

theorem ReaderInv.visit {r' : ScanWorld} {fuel : Nat} (h : ReaderInv callback key r) (hfits : Fits r.rel.pages)
    (hs : stepScan env r (.visit fuel) = some r') :
    r'.rel.pages = r.rel.pages ∧ ReaderInv callback key r' := by
  obtain ⟨hfirst', hended', res, rel, hrun, rfl⟩ := stepScan_visit_eq_some hs
  cases h with
  | waiting hfirst => simp [hfirst] at hfirst'
  | refused hnull hstack hended hret => simp [hended] at hended'
  | started harg hfirst hbox hstrategy hstands hacc hended =>
      obtain ⟨hpages, hspec, hstands'⟩ := hstands.visit hfits hrun
      obtain ⟨hits, htids, hhits⟩ := hspec.hits
      refine ⟨hpages, .started harg (hspec.sameQuery.firstCall.trans hfirst)
        (hspec.sameQuery.queryBox.trans hbox) (hspec.sameQuery.strategy.trans hstrategy) ?_ ?_ hspec.stack_nil⟩
      · rw [hpages]
        exact hstands'
      · rw [hhits] at hacc
        rw [hpages, htids]
        exact hacc.visit

/-- The other session writes, and the scan outlives it. -/
theorem ReaderInv.write {rel : Rel} (h : ReaderInv callback key r)
    (hstands : Stands r.rel.pages r.scan.so → Stands rel.pages r.scan.so ∧
      Thins (isAlive callback) (nodes.stackLeaves (pageAt r.rel.pages) r.scan.so.frames)
        (nodes.stackLeaves (pageAt rel.pages) r.scan.so.frames)) :
    ReaderInv callback key { r with rel := rel } := by
  cases h with
  | waiting hfirst hkeys hfresh hstack hended hret => exact .waiting hfirst hkeys hfresh hstack hended hret
  | refused hnull hstack hended hret => exact .refused hnull hstack hended hret
  | started harg hfirst hbox hstrategy hs hacc hended =>
      obtain ⟨hs', hthins⟩ := hstands hs
      exact .started harg hfirst hbox hstrategy hs' (hacc.thin (hthins.restrict _)) hended

/-- The frames of a scan that has ended, or stands somewhere. -/
theorem ReaderInv.stands (h : ReaderInv callback key r) : Stands r.rel.pages r.scan.so := by
  cases h with
  | waiting _ _ _ hstack =>
      exact .walk (Or.inl (by simp [RTreeScanOpaqueData.frames, hstack])) (by simp [hstack]) (by simp [hstack])
  | refused _ hstack =>
      exact .walk (Or.inl (by simp [RTreeScanOpaqueData.frames, hstack])) (by simp [hstack]) (by simp [hstack])
  | started _ _ _ _ hs => exact hs

/-- The scan outlives a step of the walk. -/
theorem StepWrites.stands {pages pages' : List Page} {top : Option VacuumFrame} {so : RTreeScanOpaqueData}
    (hs : StepWrites callback pages top pages') (hfits : Fits pages) (h : Stands pages so)
    (hpassed : ∀ f, top = some f → f.todo = [] → ∀ g ∈ so.stack, g.blkno = f.blkno →
      (downlinkBlocks f.kept.tuples).take (g.nextOffset - 1) =
        (nodes.kids (pageAt pages f.blkno)).take (g.nextOffset - 1)) :
    Fits pages' ∧ Stands pages' so ∧ Thins (isAlive callback) (nodes.stackLeaves (pageAt pages) so.frames)
      (nodes.stackLeaves (pageAt pages') so.frames) := by
  cases hs with
  | stay => exact ⟨hfits, h, .refl _⟩
  | leaf hp =>
      refine ⟨hp.fits hfits, h.prune hfits hp fun f hf hb hlevel => ?_⟩
      by_cases hnil : (pageAt pages f.blkno).items = []
      · have hnil' := hp.items_nil hnil
        rw [hb] at hnil hnil'
        simp [nodes, hnil, hnil']
      · -- a leaf page, so no frame stands on it as on an inner page
        have hfit := h.node hfits hf hnil
        rw [hb] at hfit
        exact absurd (hp.prunes.level _ hfit) hlevel
  | inner htop htodo hp hkids =>
      refine ⟨hp.fits hfits, h.prune hfits hp fun f hf hb _ => ?_⟩
      rw [hkids]
      exact hpassed _ htop htodo f hf hb

/-- The scan outlives the shrinking of the root, unless it has a page left and the root swallows its only child. -/
theorem RootShrinks.stands {pages pages' : List Page} {root : BlockNumber} {level : Nat}
    {so : RTreeScanOpaqueData} (hs : RootShrinks pages root level pages') (hfits : Fits pages)
    (h : Stands pages so) (hguard : so.stack = [] ∨ (pageAt pages root).items.length ≠ 1) :
    Stands pages' so ∧ Thins (isAlive callback) (nodes.stackLeaves (pageAt pages) so.frames)
      (nodes.stackLeaves (pageAt pages') so.frames) := by
  cases hs with
  | stay => exact ⟨h, .refl _⟩
  | emptied hroot hinner hitems =>
      subst hroot
      exact h.emptied hfits hitems
  | collapsed hroot hinner hitems hchild =>
      have hnil : so.stack = [] := hguard.resolve_right (by simp [hitems])
      refine ⟨.walk (Or.inl (by simp [RTreeScanOpaqueData.frames, hnil])) (by simp [hnil]) (by simp [hnil]), ?_⟩
      rw [RTreeScanOpaqueData.frames, hnil]
      exact .refl _

/-- A step of the walk keeps the invariant. -/
theorem PurgeInv.writes {rel : Rel} {top : Option VacuumFrame} {phase : PurgePhase} (h : PurgeInv callback key w)
    (hphase : PhaseOk rel.pages phase) (hs : StepWrites callback w.reader.rel.pages top rel.pages)
    (hpassed : ∀ f, top = some f → f.todo = [] → ∀ g ∈ w.reader.scan.so.stack, g.blkno = f.blkno →
      (downlinkBlocks f.kept.tuples).take (g.nextOffset - 1) =
        (nodes.kids (pageAt w.reader.rel.pages f.blkno)).take (g.nextOffset - 1)) :
    PurgeInv callback key (w.write rel phase) where
  fits := (hs.stands h.fits h.reader.stands hpassed).1
  phase := hphase
  reader := h.reader.write fun hstands => (hs.stands h.fits hstands hpassed).2

theorem PhaseOk.ofWalk {pages : List Page} {root : BlockNumber} {level : Nat} {state : WalkState}
    (h : WalkOk pages state) : PhaseOk pages (.ofWalk root level state) := by
  cases state with
  | walking top below => exact h
  | done res => trivial

theorem PurgeInv.walk (h : PurgeInv callback key w) (hg : purgeGuard w .walk = true)
    (hs : stepPurge env callback w .walk = some w') : PurgeInv callback key w' := by
  obtain ⟨reader, phase⟩ := w
  cases phase with
  | outside phase =>
      cases phase with
      | located root level stats =>
          simp only [stepPurge] at hs
          cases hrun : vacuumEnter env callback root stats [] reader.rel with
          | error e rel => simp [hrun] at hs
          | ok state rel =>
              simp only [hrun] at hs
              obtain rfl := Option.some.inj hs
              obtain rfl : root = (metaAt reader.rel.pages).root := h.phase
              obtain ⟨hwalk, hwrites⟩ : _ ∧ StepWrites callback _ none _ :=
                vacuumEnter_spec hrun h.fits.holds h.fits.range .nil (by simp)
              exact h.writes (.ofWalk hwalk) hwrites fun f hf => absurd hf (by simp)
      | idle => simp [stepPurge] at hs
      | walked => simp [stepPurge] at hs
      | returned => simp [stepPurge] at hs
  | walking root level top below =>
      simp only [stepPurge] at hs
      split at hs
      · exact absurd hs (by simp)
      · next hfree =>
        cases hrun : vacuumAdvance env callback top below reader.rel with
        | error e rel => simp [hrun] at hs
        | ok state rel =>
            simp only [hrun] at hs
            obtain rfl := Option.some.inj hs
            have hok : WalkOk reader.rel.pages (.walking top below) := h.phase
            obtain ⟨hwalk, hwrites⟩ := vacuumAdvance_spec hrun hok fun c hc hmem =>
              hfree (by simpa [hc, PurgePhase.locked] using hmem)
            refine h.writes (.ofWalk hwalk) hwrites fun f hf htodo g hgs hblk => ?_
            obtain rfl := Option.some.inj hf
            obtain ⟨l, hframe, -⟩ := hok
            simp only [purgeGuard, htodo, List.isEmpty_nil, Bool.not_true, Bool.false_or, List.all_eq_true,
              decide_eq_true_eq] at hg
            rw [show nodes.kids (pageAt reader.rel.pages top.blkno) = downlinkBlocks top.page.items by
              rw [hframe.page_eq]; rfl]
            exact hg g hgs hblk

theorem PurgeInv.shrink (h : PurgeInv callback key w) (hg : purgeGuard w .shrink = true)
    (hs : stepPurge env callback w .shrink = some w') : PurgeInv callback key w' := by
  obtain ⟨reader, phase⟩ := w
  cases phase with
  | walking root level top below => simp [stepPurge] at hs
  | outside phase =>
      cases phase with
      | walked root level stats =>
          simp only [stepPurge, stepVacuum] at hs
          cases hrun : rtreeVacuumShrinkRoot env root level reader.rel with
          | error e rel => simp [hrun] at hs
          | ok b rel =>
              simp only [hrun, Option.map_some] at hs
              obtain rfl := Option.some.inj hs
              have hshrinks := rtreeVacuumShrinkRoot_eq_ok (Nat.ne_of_gt h.fits.root_range.1) hrun
              refine ⟨hshrinks.fits h.fits, trivial, h.reader.write fun hstands => hshrinks.stands h.fits hstands ?_⟩
              simpa [purgeGuard] using hg
      | idle => simp [stepPurge, stepVacuum] at hs
      | located => simp [stepPurge, stepVacuum] at hs
      | returned => simp [stepPurge, stepVacuum] at hs

theorem PurgeInv.bulkdelete {stats : Option IndexBulkDeleteResult} (h : PurgeInv callback key w)
    (hs : stepPurge env callback w (.bulkdelete stats) = some w') : PurgeInv callback key w' := by
  obtain ⟨reader, phase⟩ := w
  cases phase with
  | walking root level top below => simp [stepPurge] at hs
  | outside phase =>
      obtain ⟨v, hv, rfl⟩ := Option.map_eq_some_iff.mp hs
      obtain ⟨hpages, hphase⟩ := stepVacuum_start_eq_some hv
      refine ⟨?_, ?_, h.reader.write fun hstands => ?_⟩
      · show Fits v.rel.pages
        rw [hpages]
        exact h.fits
      · show PhaseOk v.rel.pages (.outside v.phase)
        rw [hpages]
        cases hv' : v.phase with
        | located root level st => exact hphase root level st hv'
        | idle => trivial
        | walked => trivial
        | returned => trivial
      · rw [hpages]
        exact ⟨hstands, .refl _⟩

/-- **A guarded step of either session keeps the invariant.** -/
theorem PurgeInv.step {act : PurgeAction} (h : PurgeInv callback key w) (hkey : key.Supported)
    (hg : purgeGuard w act = true) (hs : stepPurge env callback w act = some w') : PurgeInv callback key w' := by
  have hreader : ∀ {r : ScanWorld}, r.rel.pages = w.reader.rel.pages → ReaderInv callback key r →
      PurgeInv callback key { w with reader := r } := fun hpages hr =>
    ⟨by rw [hpages]; exact h.fits, by rw [hpages]; exact h.phase, hr⟩
  cases act with
  | start =>
      obtain ⟨r, hr, rfl⟩ := Option.map_eq_some_iff.mp hs
      obtain ⟨hpages, hinv⟩ := h.reader.start h.fits hkey hr
      exact hreader hpages hinv
  | visit fuel =>
      simp only [stepPurge] at hs
      split at hs
      · exact absurd hs (by simp)
      · obtain ⟨r, hr, rfl⟩ := Option.map_eq_some_iff.mp hs
        obtain ⟨hpages, hinv⟩ := h.reader.visit h.fits hr
        exact hreader hpages hinv
  | bulkdelete stats => exact h.bulkdelete hs
  | walk => exact h.walk hg hs
  | shrink => exact h.shrink hg hs

/-- What has been returned matched at the start; at the end nothing live that matched then is missing. -/
theorem ReaderInv.bounds (h : ReaderInv callback key r) :
    (r.returned : Multiset ItemPointerData) ≤
        ((contents r.startPages).filter (key.satisfied · = true)).map IndexTuple.tTid ∧
      (r.ended = true → (((contents r.startPages).filter (key.satisfied · = true)).filter
        (isAlive callback · = true)).map IndexTuple.tTid ≤ r.returned) := by
  cases h with
  | waiting hfirst hkeys hfresh hstack hended hret => simp [hret, hended]
  | refused hnull hstack hended hret => simp [hret, ScanKey.satisfied, hnull]
  | started harg hfirst hbox hstrategy hstands hacc hended =>
      obtain ⟨R, hret, hle, hge⟩ := hacc.alive_le
      rw [hret]
      refine ⟨Multiset.map_le_map ((Multiset.le_add_right _ _).trans hle), fun he => Multiset.map_le_map ?_⟩
      have hnone : remainingHits r.rel.pages r.scan.so = [] := by simp [remainingHits, hended he]
      rw [hnone, Multiset.coe_nil, add_zero] at hge
      exact hge

/-- Until it has ended, the scan waits for a page that the walk has locked, or can make its next step. -/
theorem PurgeInv.progress (h : PurgeInv callback key w) (hended : w.reader.ended = false) :
    (∃ b, w.reader.nextBlock = some b ∧ b ∈ w.phase.locked) ∨
      ∃ act w', (act = .start ∨ ∃ fuel, act = .visit fuel) ∧ stepPurge env callback w act = some w' := by
  by_cases hlocked : w.reader.nextBlock.any (w.phase.locked.contains ·) = true
  · obtain ⟨b, hb, hmem⟩ := (Option.any_eq_true _ _).mp hlocked
    exact Or.inl ⟨b, hb, List.contains_iff_mem.mp hmem⟩
  · right
    have hstands := h.reader.stands
    cases h.reader with
    | waiting hfirst hkeys hfresh =>
        obtain ⟨r, hr⟩ : ∃ r, stepScan env w.reader .start = some r :=
          exists_stepScan_start h.fits hfirst hfresh hended
        exact ⟨.start, _, Or.inl rfl, by rw [stepPurge, hr]; rfl⟩
    | refused hnull hstack hended' => simp [hended'] at hended
    | started harg hfirst =>
        obtain ⟨fuel, r, hr⟩ : ∃ fuel r, stepScan env w.reader (.visit fuel) = some r :=
          exists_stepScan_visit (hstands.stackOk h.fits) hfirst hended
        exact ⟨.visit fuel, _, Or.inr ⟨fuel, rfl⟩, by rw [stepPurge, if_neg hlocked, hr]; rfl⟩

end Steps

/-- **A scan beside a bulk deletion returns every match of its start that stays, exactly once, and reads no leaf
    tuple as a downlink**, as long as no page loses a downlink that the scan has passed and the root is not
    overwritten under it. -/
theorem guarded_scan_beside_purge (env : Env) (callback : IndexBulkDeleteCallback) {s s₀ : Rel}
    {scan scan₀ : IndexScanDesc} {key : ScanKey} {w : PurgeWorld} (hwf : WF s.pages) (hkey : key.Supported)
    (hrescan : temporalRtreeRescan scan [key] s = .ok scan₀ s₀)
    (hrun : Guarded (stepPurge env callback) (fun w act => purgeGuard w act = true)
      { reader := { rel := s₀, scan := scan₀ } } w) :
    ((w.reader.returned : Multiset ItemPointerData) ≤
        ((contents w.reader.startPages).filter (key.satisfied · = true)).map IndexTuple.tTid ∧
      (w.reader.ended = true → (((contents w.reader.startPages).filter (key.satisfied · = true)).filter
        (isAlive callback · = true)).map IndexTuple.tTid ≤ w.reader.returned)) ∧
    (((contents w.reader.startPages).map IndexTuple.tTid).Nodup → w.reader.returned.Nodup ∧
      (w.reader.ended = true → ∀ t ∈ contents w.reader.startPages, key.satisfied t = true →
        isAlive callback t = true → w.reader.returned.count t.tTid = 1)) ∧
    (∀ f ∈ w.reader.scan.so.stack, (pageAt w.reader.rel.pages f.blkno).items ≠ [] →
      ((pageAt w.reader.rel.pages f.blkno).special.flags.leaf = true ↔ f.level = 0)) ∧
    (w.reader.ended = false → (∃ b, w.reader.nextBlock = some b ∧ b ∈ w.phase.locked) ∨
      ∃ act w', (act = .start ∨ ∃ fuel, act = .visit fuel) ∧ stepPurge env callback w act = some w') := by
  have hspace : scan.keySpace ≠ 0 := fun h => by simp [temporalRtreeRescan, h] at hrescan
  obtain ⟨evs, hrescan'⟩ := temporalRtreeRescan_run (s := s) scan (List.cons_ne_nil key []) hspace
  rw [hrescan'] at hrescan
  injection hrescan with h1 h2
  subst h1; subst h2
  have hinit : PurgeInv callback key
      { reader := { rel := { s with trace := s.trace ++ evs }, scan := rescanned scan [key] } } :=
    ⟨hwf.fits, trivial, .waiting rfl rfl rfl rfl rfl rfl⟩
  have hinv := hrun.invariant (PurgeInv callback key) (fun _ _ _ h hg hs => h.step hkey hg hs) hinit
  obtain ⟨hle, hge⟩ := hinv.reader.bounds
  refine ⟨⟨hle, hge⟩, fun hnd => ?_, fun f hf hne => (hinv.reader.stands.node hinv.fits hf hne).leaf_iff,
    hinv.progress⟩
  have hnodup : w.reader.returned.Nodup := by
    have hall := Multiset.map_le_map (f := IndexTuple.tTid)
      (Multiset.filter_le (key.satisfied · = true) (contents w.reader.startPages))
    exact Multiset.coe_nodup.mp (Multiset.nodup_of_le (hle.trans hall) hnd)
  refine ⟨hnodup, fun hended t ht hsat hlive => List.count_eq_one_of_mem hnodup ?_⟩
  have hmem : t.tTid ∈ (((contents w.reader.startPages).filter (key.satisfied · = true)).filter
      (isAlive callback · = true)).map IndexTuple.tTid :=
    Multiset.mem_map_of_mem _ (Multiset.mem_filter.mpr ⟨Multiset.mem_filter.mpr ⟨ht, hsat⟩, hlive⟩)
  exact Multiset.mem_coe.mp (Multiset.mem_of_le (hge hended) hmem)

/-- The build of an index of `stair` tuples, three of them on a leaf. -/
def buildStairs (n : Nat) : List Op := [.build ((List.range n).map fun i => ⟨(stair i).tTid, (stair i).key⟩)]

/-- The heap tuples with offsets from `a` to `b` are dead. -/
def deadBetween (a b : OffsetNumber) : IndexBulkDeleteCallback := some fun tid => a ≤ tid.offnum ∧ tid.offnum ≤ b

/-- A scan for everything, about to start on an index. -/
def aboutToScan (s : Rel) : PurgeWorld :=
  { reader := { rel := s, scan := rescanned (temporalRtreeBeginscan 1) [allTimes] } }

/-- The last of three leaves loses its tuples and its downlink while the scan is at the first. -/
theorem guarded_scan_beside_purge_ahead :
    ∃ s w, runOps roomyEnv (buildStairs 9) { pages := [] } = .ok () s ∧
      Guarded (stepPurge roomyEnv (deadBetween 7 9)) (fun w act => purgeGuard w act = true) (aboutToScan s) w ∧
      w.reader.ended = true ∧ contents w.reader.startPages = contents s.pages ∧ w.reader.returned.Nodup ∧
      ∀ t ∈ contents s.pages, allTimes.satisfied t = true → isAlive (deadBetween 7 9) t = true →
        w.reader.returned.count t.tTid = 1 := by
  have hok : okWith (fun _ s => decide (s.pages.length ≠ 0) &&
      (runGuarded (stepPurge roomyEnv (deadBetween 7 9)) (fun w act => purgeGuard w act = true) (aboutToScan s)
        [.start, .visit 9, .bulkdelete none, .walk, .walk, .walk, .walk, .walk, .visit 9, .visit 9, .visit 9,
          .visit 9, .shrink, .visit 9]).any
        fun w => decide (w.reader.ended = true ∧ contents w.reader.startPages = contents s.pages ∧
          ((contents w.reader.startPages).map IndexTuple.tTid).Nodup))
      (runOps roomyEnv (buildStairs 9) { pages := [] }) = true := by decide +kernel
  obtain ⟨u, s, hops, hs⟩ := exists_of_okWith hok
  obtain ⟨hlen, hs⟩ := Bool.and_eq_true_iff.mp hs
  obtain ⟨w, hw, hcheck⟩ := (Option.any_eq_true _ _).mp hs
  obtain ⟨hended, hstart, hnd⟩ := of_decide_eq_true hcheck
  have hguarded := guarded_of_runGuarded hw
  have hwf : WF s.pages := (runOps_valid (Or.inl rfl) hops).resolve_left fun hnil =>
    of_decide_eq_true hlen (by rw [hnil]; rfl)
  obtain ⟨-, honce, -⟩ := guarded_scan_beside_purge roomyEnv (deadBetween 7 9) hwf (by decide)
    (show temporalRtreeRescan (temporalRtreeBeginscan 1) [allTimes] s = _ from rfl) hguarded
  obtain ⟨hnodup, hcount⟩ := honce hnd
  refine ⟨s, w, hops, hguarded, hended, hstart, hnodup, fun t ht hsat hlive => ?_⟩
  exact hcount hended t (by rwa [hstart]) hsat hlive

/-- The first of three leaves loses its tuples and its downlink after the scan has followed it: the scan goes on
    at the second position, and misses the leaf that has moved to the first. -/
theorem scan_misses_past_dropped_downlink :
    ∃ s w, runOps roomyEnv (buildStairs 9) { pages := [] } = .ok () s ∧
      run (stepPurge roomyEnv (deadBetween 1 3)) (aboutToScan s)
        [.start, .visit 9, .bulkdelete none, .walk, .walk, .walk, .walk, .walk, .shrink, .visit 9, .visit 9,
          .visit 9, .visit 9, .visit 9] = some w ∧
      w.reader.ended = true ∧ stair 4 ∈ contents w.reader.startPages ∧ allTimes.satisfied (stair 4) = true ∧
      isAlive (deadBetween 1 3) (stair 4) = true ∧ (stair 4).tTid ∉ w.reader.returned := by
  have hok : okWith (fun _ s => (run (stepPurge roomyEnv (deadBetween 1 3)) (aboutToScan s)
        [.start, .visit 9, .bulkdelete none, .walk, .walk, .walk, .walk, .walk, .shrink, .visit 9, .visit 9,
          .visit 9, .visit 9, .visit 9]).any
        fun w => decide (w.reader.ended = true ∧ stair 4 ∈ contents w.reader.startPages ∧
          allTimes.satisfied (stair 4) = true ∧ isAlive (deadBetween 1 3) (stair 4) = true ∧
          (stair 4).tTid ∉ w.reader.returned))
      (runOps roomyEnv (buildStairs 9) { pages := [] }) = true := by decide +kernel
  obtain ⟨u, s, hops, hs⟩ := exists_of_okWith hok
  obtain ⟨w, hw, hcheck⟩ := (Option.any_eq_true _ _).mp hs
  exact ⟨s, w, hops, hw, of_decide_eq_true hcheck⟩

/-- The second of two leaves loses its tuples, and the root swallows the first while the scan is below it: the
    scan comes back to a leaf that it takes for an inner page, and follows a heap tuple's block number. -/
theorem scan_reads_leaf_tuple_as_downlink :
    ∃ s w, runOps roomyEnv (buildStairs 6) { pages := [] } = .ok () s ∧
      run (stepPurge roomyEnv (deadBetween 4 6)) (aboutToScan s)
        [.start, .visit 9, .bulkdelete none, .walk, .walk, .walk, .walk, .shrink, .visit 9, .visit 9] = some w ∧
      w.reader.nextBlock = some (stair 1).tTid.blkno ∧
      ∃ f ∈ w.reader.scan.so.stack, f.level = 1 ∧
        (pageAt w.reader.rel.pages f.blkno).special.flags.leaf = true := by
  have hok : okWith (fun _ s => (run (stepPurge roomyEnv (deadBetween 4 6)) (aboutToScan s)
        [.start, .visit 9, .bulkdelete none, .walk, .walk, .walk, .walk, .shrink, .visit 9, .visit 9]).any
        fun w => decide (w.reader.nextBlock = some (stair 1).tTid.blkno ∧
          ∃ f ∈ w.reader.scan.so.stack, f.level = 1 ∧
            (pageAt w.reader.rel.pages f.blkno).special.flags.leaf = true))
      (runOps roomyEnv (buildStairs 6) { pages := [] }) = true := by decide +kernel
  obtain ⟨u, s, hops, hs⟩ := exists_of_okWith hok
  obtain ⟨w, hw, hcheck⟩ := (Option.any_eq_true _ _).mp hs
  exact ⟨s, w, hops, hw, of_decide_eq_true hcheck⟩

end TemporalRTree
