import TemporalRTree.Lib.Transition
import TemporalRTree.Lib.WriteBack
import TemporalRTree.Model.BufferPool
import TemporalRTree.Correctness.Effects
import TemporalRTree.Correctness.VacuumCases

/-!
# `Correctness.Eviction` — which page changes the buffer manager may lose

Every page that a segment of an operation changes is marked dirty in it (`nextSegment_marks`), with one
exception: `rtree_vacuum_shrink_root` resets an inner root without downlinks, and the meta page with it, without a
mark. In a run that never takes that branch the buffers stay coherent with the disk, evictions change nothing, and
the pages are those of the same operations without a buffer manager.
-/

namespace TemporalRTree
open EStateM Transition WriteBack

/-! ## Marks -/

/-- Every block that reads differently afterwards has been marked dirty. -/
def Marks (pages : List Page) (evs : List Event) (pages' : List Page) : Prop :=
  ∀ x, pages'.getD x .zero ≠ pages.getD x .zero → Event.dirty x ∈ evs

section Marks
variable {env : Env} {pages pages₁ pages' : List Page} {evs evs' : List Event} {blk : BlockNumber} {q : Page}

theorem Marks.refl : Marks pages evs pages := fun _ h => absurd rfl h

theorem Marks.trans (h : Marks pages evs pages₁) (h' : Marks pages₁ evs' pages') :
    Marks pages (evs ++ evs') pages' := by
  intro x hx
  by_cases hsame : pages'.getD x .zero = pages₁.getD x .zero
  · exact List.mem_append_left _ (h x (hsame ▸ hx))
  · exact List.mem_append_right _ (h' x hsame)

theorem marks_effectRel : EffectRel Marks where
  refl _ := Marks.refl
  trans h h' := h.trans h'
  lock _ _ _ := Marks.refl
  unlock _ _ := Marks.refl

theorem Marks.set (h : Marks pages evs pages') (hdirty : Event.dirty blk ∈ evs) :
    Marks pages evs (pages'.set blk q) := by
  intro x hx
  by_cases he : x = blk
  · exact he ▸ hdirty
  · rw [getD_set_ne he] at hx
    exact h x hx

theorem Marks.append (h : Marks pages evs pages') (hdirty : Event.dirty pages'.length ∈ evs) :
    Marks pages evs (pages' ++ [q]) := by
  intro x hx
  by_cases he : x = pages'.length
  · exact he ▸ hdirty
  · rw [getD_append he] at hx
    exact h x hx

/-! ## Descents and walks -/

theorem marks_changeTrace (env : Env) {page : DataPage} :
    Marks pages (changeTrace env blk page) (pages.set blk (.data page)) :=
  Marks.refl.set (by simp [changeTrace])

theorem marks_splitTrace {itup : IndexTuple} {box : RTreeTemporalBox} {level : Nat} {flags : PageFlags}
    (h : Marks pages (splitTrace env pages₁ blk itup box level flags) pages₁) :
    Marks pages (splitTrace env pages₁ blk itup box level flags)
      (splitPages pages₁ blk itup box level flags) :=
  (h.set (by simp [splitTrace])).append (by simp [splitTrace])

/-- **A completed descent has marked every page it changed.** -/
theorem Inserts.marks {itup : IndexTuple} {box : RTreeTemporalBox} {level : Nat} {res : RTreeInsertResult}
    (h : Inserts env itup box pages blk level res pages' evs) : Marks pages evs pages' := by
  induction h with
  | leafAdd => exact (Marks.refl.trans (marks_changeTrace env)).trans Marks.refl
  | leafSplit => exact (Marks.refl.trans (marks_splitTrace Marks.refl)).trans Marks.refl
  | innerKeep _ _ _ _ ih =>
      exact (((Marks.refl.trans ih).trans Marks.refl).trans (marks_changeTrace env)).trans Marks.refl
  | innerAdd _ _ _ _ _ _ ih =>
      exact (((Marks.refl.trans ih).trans Marks.refl).trans (marks_changeTrace env)).trans Marks.refl
  | innerSplit _ _ _ _ _ _ ih =>
      -- the refreshed downlink is not marked by itself: the split marks the page
      refine (((Marks.refl.trans ih).trans Marks.refl).trans (marks_splitTrace ?_)).trans Marks.refl
      exact Marks.refl.set (by simp [splitTrace])

/-- **A completed walk has marked every page it rewrote.** -/
theorem Vacuums.marks {callback : IndexBulkDeleteCallback} {cs : List BlockNumber}
    {walked : List (BlockNumber × RTreeTemporalBox)}
    (h : Vacuums env callback pages cs walked pages' evs) : Marks pages evs pages' := by
  have hrebuild : ∀ {pages blk page'}, Marks pages (rebuildTrace env blk page') (pages.set blk (.data page')) :=
    (Marks.refl.trans (marks_changeTrace env)).trans Marks.refl
  induction h with
  | nil => exact Marks.refl
  | leaf _ _ _ _ ih => exact (Marks.refl.trans hrebuild).trans ih
  | inner _ _ _ _ _ ihkids ih => exact ((Marks.refl.trans ihkids).trans hrebuild).trans ih

end Marks

/-! ## Segments -/

section Segments
variable {env : Env} {s : Rel}

theorem rtreeMetaAndRootInit_marks : Effects Marks s (rtreeMetaAndRootInit env s) := by
  by_cases hext : canExtend env s.pages.length ∧ canExtend env (s.pages.length + 1)
  · rw [rtreeMetaAndRootInit_run hext.1 hext.2]
    have hpages : s.pages ++ initPages s.pages.length =
        s.pages ++ [.metapage (rtreeInitMetapage (s.pages.length + 1) 0)] ++
          [.data (rtreeInitDatapage { leaf := true, root := true } 0)] := by simp [initPages]
    refine ⟨_, rfl, ?_⟩
    dsimp only
    rw [hpages]
    refine Marks.append (Marks.append Marks.refl ?_) ?_ <;> simp
  · obtain ⟨s₁, evs, hrun, -⟩ := rtreeMetaAndRootInit_eq_error hext
    rw [hrun]
    trivial

theorem ensureInitialised_marks : Effects Marks s (ensureInitialised env s) := by
  rw [ensureInitialised, bind_of_ok (get_apply s)]
  split
  · exact rtreeMetaAndRootInit_marks
  · exact Effects.pure marks_effectRel _

theorem rtreeInsertPage_marks {blk : BlockNumber} {level : Nat} {itup : IndexTuple} {box : RTreeTemporalBox} :
    Effects Marks s (rtreeInsertPage env blk level itup box s) := by
  cases hrun : rtreeInsertPage env blk level itup box s with
  | error e s' => trivial
  | ok res s' =>
      obtain ⟨evs, hins, htrace⟩ := rtreeInsertPage_inserts hrun
      exact ⟨evs, htrace, hins.marks⟩

theorem rtreeRootPromote_marks {leftblk : BlockNumber} {leftBox : RTreeTemporalBox} {right : SplitRight}
    {level : Nat} : Effects Marks s (rtreeRootPromote env leftblk leftBox right level s) := by
  by_cases hblk : leftblk < s.pages.length
  · by_cases hext : canExtend env s.pages.length
    · rw [rtreeRootPromote_run_of_can hblk hext]
      refine ⟨_, rfl, ?_⟩
      exact (Marks.refl.set (by simp [promoteTrace])).append (by simp [promoteTrace])
    · rw [rtreeRootPromote_run_of_cannot hblk hext]
      trivial
  · rw [rtreeRootPromote, bind_of_error (readBuffer_run_of_not_lt hblk)]
    trivial

theorem writeMetaRoot_marks {root : BlockNumber} {level : Nat} : Effects Marks s (writeMetaRoot root level s) := by
  by_cases hlen : 0 < s.pages.length
  · rw [writeMetaRoot_run hlen]
    exact ⟨_, rfl, Marks.refl.set (by simp)⟩
  · rw [writeMetaRoot, bind_of_error (readBuffer_run_of_not_lt hlen)]
    trivial

theorem rtreeVacuumPage_marks {callback : IndexBulkDeleteCallback} {fuel : Nat} {blk : BlockNumber}
    {stats : IndexBulkDeleteResult} : Effects Marks s (rtreeVacuumPage env callback fuel blk stats s) := by
  cases hrun : rtreeVacuumPage env callback fuel blk stats s with
  | error e s' => trivial
  | ok res s' =>
      obtain ⟨evs, hvac, htrace⟩ := rtreeVacuumPage_vacuums hrun
      exact ⟨evs, htrace, hvac.marks⟩

theorem rtreeVacuumShrinkRoot_marks {root : BlockNumber} {level : Nat}
    (hkeep : (pageAt s.pages root).special.flags.leaf = true ∨ level = 0 ∨ (pageAt s.pages root).items ≠ []) :
    Effects Marks s (rtreeVacuumShrinkRoot env root level s) :=
  rtreeVacuumShrinkRoot_effects marks_effectRel (fun _ _ _ => (Marks.refl.set (by simp)).set (by simp)) hkeep

/-- Whether `rtree_vacuum_shrink_root` would find an inner root without downlinks. -/
def findsEmptyRoot (pages : List Page) (root : BlockNumber) (level : Nat) : Bool :=
  !(pageAt pages root).special.flags.leaf && level != 0 && (pageAt pages root).items.isEmpty

/-- Whether the running call is about to reset an emptied inner root. -/
def resetsRoot (w : PoolWorld) : Bool :=
  match w.phase with
  | .walked root level => findsEmptyRoot w.rel.pages root level
  | _ => false

/-- The steps other than that reset. -/
def poolGuard (w : PoolWorld) : PoolAction → Bool
  | .next => !resetsRoot w
  | _ => true

/-- **A segment marks every page it changes**, unless it resets an emptied inner root. -/
theorem nextSegment_marks {w : PoolWorld} (h : resetsRoot w = false) :
    Effects Marks w.rel (nextSegment env w.phase w.rel) := by
  have hpure : ∀ {s : Rel} (p : CallPhase), Effects Marks s ((pure p : IndexM CallPhase) s) := fun p =>
    Effects.pure marks_effectRel p
  cases hphase : w.phase with
  | idle => exact hpure _
  | rows todo =>
      cases todo with
      | nil => exact hpure _
      | cons row todo =>
          refine Effects.bind marks_effectRel ensureInitialised_marks fun _ s₁ _ => ?_
          cases rtreeIndexTupleBox { tTid := row.tid, key := row.key } with
          | none => exact hpure _
          | some box => exact hpure _
  | reading itup box todo =>
      exact Effects.bind marks_effectRel (readMetaRoot_effects marks_effectRel) fun _ _ _ => hpure _
  | located itup box root level todo =>
      refine Effects.bind marks_effectRel rtreeInsertPage_marks fun res s₁ _ => ?_
      cases res.split with
      | none => exact hpure _
      | some right => exact hpure _
  | split root level leftBox right todo =>
      exact Effects.bind marks_effectRel rtreeRootPromote_marks fun _ _ _ => hpure _
  | promoted root level todo =>
      exact Effects.bind marks_effectRel writeMetaRoot_marks fun _ _ _ => hpure _
  | walking callback nblocks root level stats =>
      exact Effects.bind marks_effectRel rtreeVacuumPage_marks fun _ _ _ => hpure _
  | walked root level =>
      simp only [resetsRoot, hphase, findsEmptyRoot, Bool.and_eq_false_iff, Bool.not_eq_false', bne_eq_false_iff_eq,
        List.isEmpty_eq_false_iff, or_assoc] at h
      exact Effects.bind marks_effectRel (rtreeVacuumShrinkRoot_marks h) fun _ _ _ => hpure _

theorem startBulkdelete_marks {stats : Option IndexBulkDeleteResult} {callback : IndexBulkDeleteCallback} :
    Effects Marks s (startBulkdelete stats callback s) := by
  rw [startBulkdelete, bind_of_ok (get_apply s)]
  split
  · exact Effects.pure marks_effectRel _
  · refine Effects.bind marks_effectRel (readMeta_effects marks_effectRel) fun m s₁ _ => ?_
    split
    · exact Effects.pure marks_effectRel _
    · split <;> exact Effects.pure marks_effectRel _

theorem startCall_marks {op : Op} : Effects Marks s (startCall env op s) := by
  cases op with
  | build rows =>
      exact Effects.bind marks_effectRel rtreeMetaAndRootInit_marks fun _ _ _ => Effects.pure marks_effectRel _
  | insert row => exact Effects.pure marks_effectRel _
  | bulkdelete stats callback => exact startBulkdelete_marks
  | vacuumcleanup info stats =>
      rw [startCall]
      split
      · exact Effects.pure marks_effectRel _
      · exact startBulkdelete_marks

end Segments

/-! ## Segments make up the operations -/

section Finish
variable (env : Env)

theorem CallPhase.isIdle_iff {p : CallPhase} : p.isIdle = true ↔ p = .idle := by
  cases p <;> simp [CallPhase.isIdle]

theorem finish_eq_next {p : CallPhase} (hp : p.isIdle = false) :
    finish env p = nextSegment env p >>= finish env := by
  cases p with
  | idle => exact absurd hp (by simp [CallPhase.isIdle])
  | rows todo =>
      cases todo with
      | nil => simp [finish, nextSegment, finishRows]
      | cons row todo =>
          simp only [finish, nextSegment, finishRows, temporalRtreeInsert, bind_assoc]
          congr 1
          funext _
          cases rtreeIndexTupleBox { tTid := row.tid, key := row.key } <;> simp [finish]
  | reading itup box todo =>
      simp only [finish, nextSegment, insertTuple, bind_assoc, pure_bind]
      congr 1
      funext root
      congr 1
      funext result
      cases result.split <;> simp
  | located itup box root level todo =>
      simp only [finish, nextSegment, bind_assoc]
      congr 1
      funext result
      cases result.split <;> simp [finish]
  | split root level leftBox right todo => simp [finish, nextSegment]
  | promoted root level todo => simp [finish, nextSegment]
  | walking callback nblocks root level stats => simp [finish, nextSegment]
  | walked root level => simp [finish, nextSegment]

theorem finishRows_eq (rows : List HeapRow) (n : Nat) :
    (rtreeBuildCallback env rows n >>= fun _ => pure ()) = finishRows env rows := by
  induction rows generalizing n with
  | nil => simp [rtreeBuildCallback, finishRows]
  | cons row rows ih => simp only [rtreeBuildCallback, finishRows, bind_assoc, ih]

theorem startBulkdelete_finish (stats : Option IndexBulkDeleteResult) (callback : IndexBulkDeleteCallback) :
    (temporalRtreeBulkdelete env stats callback >>= fun _ => pure ()) =
      startBulkdelete stats callback >>= finish env := by
  simp only [temporalRtreeBulkdelete, startBulkdelete, bind_assoc]
  congr 1
  funext s
  by_cases hlen : s.pages.length < 2
  · simp [hlen, finish]
  · simp only [hlen, if_false, bind_assoc]
    congr 1
    funext m
    by_cases hmagic : m.magic ≠ trtreeMetaMagic
    · simp [hmagic, finish]
    · by_cases hroot : m.root = invalidBlockNumber
      · simp [hmagic, hroot, finish]
      · simp [hmagic, hroot, finish]

/-- **A call is its first segment and the rest.** -/
theorem runOp_eq_start (w : PoolWorld) (op : Op) :
    runOp env op w.rel = (startCall env op >>= finish env) (w.prepare op).rel := by
  cases op with
  | build rows =>
      rw [runOp, bind_of_ok (modify_apply _ _)]
      simp only [temporalRtreeBuild, startCall, bind_assoc, pure_bind]
      simp only [finish, ← finishRows_eq env rows 0]
      rfl
  | insert row =>
      simp [runOp, startCall, finish, finishRows, PoolWorld.prepare]
  | bulkdelete stats callback =>
      rw [runOp, startBulkdelete_finish]
      rfl
  | vacuumcleanup info stats =>
      rw [runOp, startCall, temporalRtreeVacuumcleanup]
      by_cases ha : info.analyzeOnly = true
      · simp [ha, finish, PoolWorld.prepare]
      · cases stats with
        | some st => simp [ha, finish, PoolWorld.prepare]
        | none =>
            simp only [ha, Bool.false_or, Option.isSome_none, Bool.false_eq_true, if_false, bind_assoc, pure_bind]
            rw [← startBulkdelete_finish]
            rfl

theorem runOps_concat (ops : List Op) (op : Op) :
    runOps env (ops ++ [op]) = runOps env ops >>= fun _ => runOp env op := by
  induction ops with
  | nil => simp [runOps]
  | cons op' ops ih => simp only [List.cons_append, runOps, ih, bind_assoc]

end Finish

/-! ## Whole runs -/

/-- The copies in shared buffers. -/
def PoolWorld.memory (w : PoolWorld) (blkno : BlockNumber) : Page := w.rel.pages.getD blkno .zero

/-- The buffers are coherent, and what is left of the calls begun so far ends as if there were no disk. -/
structure PoolInv (env : Env) (w : PoolWorld) : Prop where
  coherent : Coherent w.memory w.disk w.dirty
  rest : runOps env w.calls { pages := [] } = finish env w.phase w.rel

section Steps
variable {env : Env} {w w' : PoolWorld}

theorem mem_dirtied {evs : List Event} {b : BlockNumber} (h : Event.dirty b ∈ evs) : b ∈ dirtied evs :=
  List.mem_filterMap.mpr ⟨_, h, rfl⟩

/-- A run that marks what it changes. -/
theorem Effects.coherent {phase : CallPhase} {rel : Rel} {r : Result RTreeError Rel CallPhase}
    (h : Effects Marks w.rel r) (hr : r = .ok phase rel) (hc : Coherent w.memory w.disk w.dirty) :
    Coherent (w.after phase rel).memory (w.after phase rel).disk (w.after phase rel).dirty := by
  obtain ⟨evs, htrace, hmarks⟩ := h.of_ok hr
  refine hc.change fun x hx => ?_
  rw [htrace, List.drop_left]
  exact mem_dirtied (hmarks x hx)

/-- Dropping a clean page. -/
theorem set_clean_page {pages : List Page} {disk : BlockNumber → Page} {dirty : List BlockNumber} {b : BlockNumber}
    (hc : Coherent (fun b => pages.getD b .zero) disk dirty) (hb : b ∉ dirty) : pages.set b (disk b) = pages := by
  rw [← hc.clean hb]
  refine List.ext_getElem? fun i => ?_
  rw [List.getElem?_set]
  split
  · next he =>
    split
    · next hlt => rw [← he, List.getD_eq_getElem?_getD, List.getElem?_eq_getElem hlt, Option.getD_some]
    · next hge => rw [← he, List.getElem?_eq_none (Nat.le_of_not_lt hge)]
  · rfl

theorem prepare_coherent {op : Op} (hc : Coherent w.memory w.disk w.dirty) :
    Coherent (w.prepare op).memory (w.prepare op).disk (w.prepare op).dirty := by
  cases op with
  | build rows => exact Coherent.refl
  | insert row => exact hc
  | bulkdelete stats callback => exact hc
  | vacuumcleanup info stats => exact hc

/-- **Every step but the unmarked reset keeps the invariant.** -/
theorem PoolInv.step {act : PoolAction} (h : PoolInv env w) (hguard : poolGuard w act = true)
    (hstep : stepPool env w act = some w') : PoolInv env w' := by
  obtain ⟨hc, hrest⟩ := h
  cases act with
  | call op =>
      rw [stepPool] at hstep
      split at hstep
      · next hidle =>
        rw [CallPhase.isIdle_iff.mp hidle] at hrest
        cases hrun : startCall env op (w.prepare op).rel with
        | error e rel => simp [hrun] at hstep
        | ok phase rel =>
            simp only [hrun, Option.some.injEq] at hstep
            subst hstep
            refine ⟨startCall_marks.coherent hrun (prepare_coherent hc), ?_⟩
            rw [runOps_concat, bind_of_ok hrest, runOp_eq_start env w op, bind_of_ok hrun]
            rfl
      · exact absurd hstep (by simp)
  | next =>
      rw [stepPool] at hstep
      split at hstep
      · exact absurd hstep (by simp)
      · next hidle =>
        cases hrun : nextSegment env w.phase w.rel with
        | error e rel => simp [hrun] at hstep
        | ok phase rel =>
            simp only [hrun, Option.some.injEq] at hstep
            subst hstep
            have hreset : resetsRoot w = false := by simpa [poolGuard] using hguard
            refine ⟨(nextSegment_marks hreset).coherent hrun hc, ?_⟩
            rw [finish_eq_next env (by simpa using hidle), bind_of_ok hrun] at hrest
            exact hrest
  | writeBack b =>
      rw [stepPool] at hstep
      split at hstep
      · obtain rfl := Option.some.inj hstep
        exact ⟨hc.writeBack, hrest⟩
      · exact absurd hstep (by simp)
  | drop b =>
      rw [stepPool] at hstep
      split at hstep
      · exact absurd hstep (by simp)
      · next hb =>
        obtain rfl := Option.some.inj hstep
        rw [set_clean_page hc hb]
        exact ⟨hc, hrest⟩

end Steps

/-- **No page change is lost by eviction, as long as no bulk deletion resets an emptied inner root**: whatever
    pages the buffer manager writes back or drops while no lock is held, every page whose copies differ is marked
    dirty, and between two calls the pages are those of the calls without a buffer manager. -/
theorem guarded_pool_coherent (env : Env) {w : PoolWorld}
    (hrun : Guarded (stepPool env) (fun w act => poolGuard w act = true) { rel := { pages := [] } } w) :
    (∀ b, w.rel.pages.getD b .zero ≠ w.disk b → b ∈ w.dirty) ∧
      (w.phase = .idle → runOps env w.calls { pages := [] } = .ok () w.rel) := by
  have hinv : PoolInv env w := by
    refine hrun.invariant (PoolInv env) (fun w act w' h hguard hstep => h.step hguard hstep) ?_
    exact ⟨Coherent.refl, rfl⟩
  refine ⟨hinv.coherent, fun hidle => ?_⟩
  rw [hinv.rest, hidle]
  rfl

/-- A row is inserted while the pages are written back and dropped. -/
theorem guarded_pool_coherent_insert :
    ∃ w, Guarded (stepPool roomyEnv) (fun w act => poolGuard w act = true) { rel := { pages := [] } } w ∧
      contents w.rel.pages = {stair 0} ∧ (w.disk 1).asData.items = [] ∧ 1 ∈ w.dirty ∧
      runOps roomyEnv w.calls { pages := [] } = .ok () w.rel := by
  have hrun : (runGuarded (stepPool roomyEnv) (fun w act => poolGuard w act = true) { rel := { pages := [] } }
      [.call (.build []), .writeBack 0, .writeBack 1, .next, .drop 1,
        .call (.insert { tid := (stair 0).tTid, key := (stair 0).key }), .next, .drop 0, .next, .drop 1, .next,
        .next]).any
      (fun w => decide (contents w.rel.pages = {stair 0} ∧ (w.disk 1).asData.items = [] ∧
        (pageAt w.rel.pages 1).items = [stair 0] ∧ w.phase.isIdle = true)) = true := by decide +kernel
  obtain ⟨w, hw, hcheck⟩ := (Option.any_eq_true _ _).mp hrun
  obtain ⟨hcont, hdisk, hpage, hidle⟩ := of_decide_eq_true hcheck
  have hguarded := guarded_of_runGuarded hw
  obtain ⟨hdirty, hops⟩ := guarded_pool_coherent roomyEnv hguarded
  refine ⟨w, hguarded, hcont, hdisk, hdirty 1 fun hsame => ?_, hops (CallPhase.isIdle_iff.mp hidle)⟩
  rw [pageAt, hsame, hdisk] at hpage
  exact absurd hpage (by simp)

/-- The actions of a session that builds an index of two levels, and deletes all of its tuples. -/
def emptyingCalls : List PoolAction :=
  [.call (.build ((List.range 6).map fun i => ⟨(stair i).tTid, (stair i).key⟩))] ++ List.replicate 21 .next ++
    [.call (.bulkdelete none (some fun _ => true)), .next]

/-- The pages are written back between the walk and the shrinking of the root. The call then returns with a
    root that is an empty leaf in shared buffers and an empty inner page on disk, and not marked dirty; so is the
    meta page. -/
theorem emptied_root_not_marked :
    ∃ w, run (stepPool roomyEnv) { rel := { pages := [] } }
        (emptyingCalls ++ [.writeBack 0, .writeBack 1, .writeBack 2, .writeBack 3, .next]) = some w ∧
      w.phase.isIdle = true ∧ w.dirty = [] ∧
      (pageAt w.rel.pages 3).special.level = 0 ∧ (w.disk 3).asData.special.level = 1 ∧
      (metaAt w.rel.pages).rootLevel = 0 ∧ (w.disk 0).asMeta.rootLevel = 1 := by
  have hrun : (run (stepPool roomyEnv) { rel := { pages := [] } }
      (emptyingCalls ++ [.writeBack 0, .writeBack 1, .writeBack 2, .writeBack 3, .next])).any
      (fun w => decide (w.phase.isIdle = true ∧ w.dirty = [] ∧
        (pageAt w.rel.pages 3).special.level = 0 ∧ (w.disk 3).asData.special.level = 1 ∧
        (metaAt w.rel.pages).rootLevel = 0 ∧ (w.disk 0).asMeta.rootLevel = 1)) = true := by decide +kernel
  obtain ⟨w, hw, hcheck⟩ := (Option.any_eq_true _ _).mp hrun
  exact ⟨w, hw, of_decide_eq_true hcheck⟩

end TemporalRTree
