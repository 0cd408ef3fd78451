import TemporalRTree.Correctness.ConcurrentInsert
import TemporalRTree.Correctness.Contents

/-!
# `Correctness.ConcurrentVacuum` — a bulk deletion beside inserts of other sessions

The walk starts from the root block that the meta page named when it was read. As long as the meta page still
names it, the walk meets every dead tuple, and inserts before and after it can only bring in new ones. Once
the root has been split, the block read is the left half of the old root, and what is dead under the right
half stays; `rtree_vacuum_shrink_root`, which looks at the meta page again, does nothing then.
-/

namespace TemporalRTree
open EStateM Layout Transition

/-! ## Steps against the call -/

/-- The steps taken one after the other are the call. -/
theorem run_steps_eq_bulkdelete (env : Env) (callback : IndexBulkDeleteCallback)
    (stats : Option IndexBulkDeleteResult) {s s' : Rel} {res : IndexBulkDeleteResult}
    (hwf : WF s.pages) (h : temporalRtreeBulkdelete env stats callback s = .ok res s') :
    run (stepVacuum env callback) { rel := s } [.start stats, .walk, .shrink] =
      some { rel := s', phase := .returned res } := by
  have hlen : 0 < s.pages.length := Nat.lt_of_lt_of_le Nat.two_pos hwf.two_le_length
  have htwo : ¬ s.pages.length < 2 := Nat.not_lt.mpr hwf.two_le_length
  obtain ⟨r, s₁, b, hwalk, -, hshrink, rfl⟩ := temporalRtreeBulkdelete_parts hwf h
  simp only [Transition.run, stepVacuum, if_neg htwo, readMeta_run hlen, if_neg (not_not_intro hwf.magic),
    if_neg hwf.root_ne_invalid, Option.bind_some, hwalk, hshrink]

/-- The read of the meta page changes no page, and finds the root that the meta page names. -/
theorem stepVacuum_start_eq_some {env : Env} {callback : IndexBulkDeleteCallback} {w w' : VacuumWorld}
    {stats : Option IndexBulkDeleteResult} (h : stepVacuum env callback w (.start stats) = some w') :
    w'.rel.pages = w.rel.pages ∧
      ∀ root level st, w'.phase = .located root level st → root = (metaAt w.rel.pages).root := by
  simp only [stepVacuum] at h
  split at h
  · split at h
    · obtain rfl := Option.some.inj h
      exact ⟨rfl, by simp⟩
    · next hlen =>
      rw [readMeta_run (by omega)] at h
      obtain rfl := Option.some.inj h
      refine ⟨rfl, fun root level st heq => ?_⟩
      dsimp only at heq
      split at heq
      · exact absurd heq (by simp)
      · split at heq
        · exact absurd heq (by simp)
        · injection heq with hroot
          exact hroot.symm
  · exact absurd h (by simp)

/-! ## Inserts and the root -/

section Root
variable {env : Env} {itup : IndexTuple} {box : RTreeTemporalBox} {pages pages' : List Page}
  {evs : List Event}

/-- An insert leaves the meta page alone or makes a new block the root. -/
theorem InsertsTuple.root_cases (h : InsertsTuple env itup box pages pages' evs) (hwf : WF pages) :
    metaAt pages' = metaAt pages ∨ pages.length ≤ (metaAt pages').root := by
  cases h with
  | keep hlen hmagic hins => exact Or.inl (hins.metaAt_eq hwf.zero_notMem)
  | @promote pages₁ leftBox right evs hlen hmagic hins hext =>
      refine Or.inr ?_
      rw [metaPages, metaAt_set_zero (by rw [length_promotedPages]; exact Nat.succ_pos _)]
      exact hins.length_le

/-- An inner root without downlinks takes no insert. -/
theorem Emptied.not_insertsTuple (h : Emptied pages) (hl : (metaAt pages).rootLevel ≠ 0) :
    ¬ InsertsTuple env itup box pages pages' evs := by
  have hleaf : ¬ ((metaAt pages).rootLevel = 0 ∨
      (pageAt pages (metaAt pages).root).special.flags.leaf = true) := by
    rw [h.leaf_iff, or_self]
    exact hl
  have hins : ∀ {res evs pages'}, ¬ Inserts env itup box pages (metaAt pages).root
      (metaAt pages).rootLevel res pages' evs := by
    intro res evs pages' hins
    have hitem : ∀ {pos t}, ¬ ChoosesChild (pageAt pages (metaAt pages).root) box pos t := fun hc => by
      simpa [h.items] using hc.item
    generalize hlevel : (metaAt pages).rootLevel = level at hins hleaf
    cases hins with
    | leafAdd hblk hl => exact hleaf hl
    | leafSplit hblk hl => exact hleaf hl
    | innerKeep hblk hchild => exact hitem hchild
    | innerAdd hblk hchild => exact hitem hchild
    | innerSplit hblk hchild => exact hitem hchild
  intro h
  cases h with
  | keep hlen hmagic h => exact hins h
  | promote hlen hmagic h => exact hins h

end Root

/-! ## Runs -/

/-- The dead among some tuples. -/
def deadOf (callback : IndexBulkDeleteCallback) (M : Multiset IndexTuple) : Multiset IndexTuple :=
  M.filter (isDead callback ·.tTid = true)

/-- The walk may begin only while the meta page names the root block that was read. -/
def vacuumGuard (w : VacuumWorld) : VacuumAction → Bool
  | .walk =>
      match w.phase with
      | .located root _ _ => decide ((metaAt w.rel.pages).root = root)
      | _ => true
  | _ => true

/-- What is known of the root block and level that were read: if the block is still the root, the level is
    still its level. -/
structure Remembers (pages : List Page) (root : BlockNumber) (level : Nat) : Prop where
  level_eq : (metaAt pages).root = root → (metaAt pages).rootLevel = level
  root_lt : root < pages.length

/-- Where a bulk deletion stands between the steps. -/
inductive VacuumInv (callback : IndexBulkDeleteCallback) (w : VacuumWorld) : Prop where
  | idle (hphase : w.phase = .idle) (hwf : WF w.rel.pages)
  | located {root : BlockNumber} {level : Nat} {stats : IndexBulkDeleteResult}
      (hphase : w.phase = .located root level stats) (hwf : WF w.rel.pages)
      (hroot : Remembers w.rel.pages root level)
  | walked {root : BlockNumber} {level : Nat} {stats : IndexBulkDeleteResult}
      (hphase : w.phase = .walked root level stats)
      (hv : WF w.rel.pages ∨ (Emptied w.rel.pages ∧ (metaAt w.rel.pages).root = root))
      (hroot : Remembers w.rel.pages root level)
      (hdead : deadOf callback (contents w.rel.pages) ≤ deadOf callback w.inserted)
  | returned {stats : IndexBulkDeleteResult} (hphase : w.phase = .returned stats) (hwf : WF w.rel.pages)
      (hdead : deadOf callback (contents w.rel.pages) ≤ deadOf callback w.inserted)

section Steps
variable {env : Env} {callback : IndexBulkDeleteCallback} {w w' : VacuumWorld}

variable (callback) in
/-- What an insert does, in the terms of the invariant. -/
theorem InsertsTuple.vacuum {itup : IndexTuple} {box : RTreeTemporalBox} {pages pages' : List Page}
    {evs : List Event} (h : InsertsTuple env itup box pages pages' evs) (hkey : itup.key.isSome = true)
    (hwf : WF pages) :
    WF pages' ∧ (∀ {root level}, Remembers pages root level → Remembers pages' root level) ∧
      ∀ {M}, deadOf callback (contents pages) ≤ deadOf callback M →
        deadOf callback (contents pages') ≤ deadOf callback (itup ::ₘ M) := by
  obtain ⟨hwf', hle, -⟩ := h.wf hkey hwf
  refine ⟨hwf', fun hroot => ⟨fun he => ?_, Nat.lt_of_lt_of_le hroot.root_lt h.length_le⟩, fun hdead => ?_⟩
  · rcases h.root_cases hwf with hmeta | hnew
    · rw [hmeta] at he ⊢
      exact hroot.level_eq he
    · exact absurd (he ▸ hnew) (Nat.not_le.mpr hroot.root_lt)
  · refine (Multiset.filter_le_filter _ hle).trans ?_
    rw [deadOf, ← Multiset.singleton_add, ← Multiset.singleton_add, Multiset.filter_add, Multiset.filter_add]
    exact add_le_add le_rfl hdead

theorem VacuumInv.insert (h : VacuumInv callback w) {key : Option NDBOX} {htCtid : ItemPointerData}
    (hs : stepVacuum env callback w (.insert key htCtid) = some w') : VacuumInv callback w' := by
  obtain ⟨res, hrun, rfl⟩ := Option.map_eq_some_iff.mp hs
  have hlen : 2 ≤ w.rel.pages.length := by
    cases h with
    | idle hphase hwf => exact hwf.two_le_length
    | located hphase hwf => exact hwf.two_le_length
    | walked hphase hv =>
        exact hv.elim WF.two_le_length fun he => Nat.lt_of_le_of_lt he.1.root_pos he.1.root_lt
    | returned hphase hwf => exact hwf.two_le_length
  rcases wholeInsert_cases hlen hrun with rfl | ⟨box, evs, hsome, -, htrace, hins, hinserted⟩
  · exact h
  cases h with
  | idle hphase hwf => exact .idle hphase (hins.vacuum callback hsome hwf).1
  | located hphase hwf hroot =>
      obtain ⟨hwf', hroot', -⟩ := hins.vacuum callback hsome hwf
      exact .located hphase hwf' (hroot' hroot)
  | walked hphase hv hroot hdead =>
      have hwf : WF w.rel.pages := by
        rcases hv with hwf | ⟨he, -⟩
        · exact hwf
        · by_cases hl : (metaAt w.rel.pages).rootLevel = 0
          · exact he.wf hl
          · exact absurd hins (he.not_insertsTuple hl)
      obtain ⟨hwf', hroot', hdead'⟩ := hins.vacuum callback hsome hwf
      exact .walked hphase (Or.inl hwf') (hroot' hroot) (hinserted ▸ hdead' hdead)
  | returned hphase hwf hdead =>
      obtain ⟨hwf', -, hdead'⟩ := hins.vacuum callback hsome hwf
      exact .returned hphase hwf' (hinserted ▸ hdead' hdead)

theorem VacuumInv.start (h : VacuumInv callback w) {stats : Option IndexBulkDeleteResult}
    (hs : stepVacuum env callback w (.start stats) = some w') : VacuumInv callback w' := by
  cases h with
  | idle hphase hwf =>
      have hlen : 0 < w.rel.pages.length := Nat.lt_of_lt_of_le Nat.two_pos hwf.two_le_length
      simp only [stepVacuum, hphase, if_neg (Nat.not_lt.mpr hwf.two_le_length), readMeta_run hlen,
        if_neg (not_not_intro hwf.magic), if_neg hwf.root_ne_invalid] at hs
      obtain rfl := Option.some.inj hs
      exact .located rfl hwf ⟨fun _ => rfl, hwf.root_range.2⟩
  | located hphase => simp [stepVacuum, hphase] at hs
  | walked hphase => simp [stepVacuum, hphase] at hs
  | returned hphase => simp [stepVacuum, hphase] at hs

theorem VacuumInv.walk (h : VacuumInv callback w) (hg : vacuumGuard w .walk = true)
    (hs : stepVacuum env callback w .walk = some w') : VacuumInv callback w' := by
  cases h with
  | idle hphase => simp [stepVacuum, hphase] at hs
  | @located root level stats hphase hwf hroot =>
      simp only [vacuumGuard, hphase, decide_eq_true_eq] at hg
      simp only [stepVacuum, hphase] at hs
      have hvac : VacuumRun w.rel _ (rtreeVacuumPage env callback w.rel.pages.length
        (metaAt w.rel.pages).root stats w.rel) := rtreeVacuumPage_spec hwf.rootLevel_lt hwf.tree hwf.halloc
      rw [hg] at hvac
      cases hrun : rtreeVacuumPage env callback w.rel.pages.length root stats w.rel with
      | error e s' => simp [hrun] at hs
      | ok res s' =>
          rw [hrun] at hvac
          simp only [hrun] at hs
          obtain rfl := Option.some.inj hs
          obtain ⟨hv, hcont, hmeta⟩ := VacuumSpec.root hwf (hg.symm ▸ hvac.1)
          refine .walked rfl (hv.imp_right fun he => ⟨he, hmeta ▸ hg⟩) ⟨?_, ?_⟩ ?_
          · rw [hmeta]
            exact hroot.level_eq
          · show root < s'.pages.length
            rw [hvac.1.length_eq]
            exact hroot.root_lt
          · -- nothing dead is left by the walk
            have hnone : deadOf callback (contents s'.pages) = 0 := by
              rw [hcont, deadOf, Multiset.filter_filter]
              exact Multiset.filter_eq_nil.mpr fun t _ ht => by simp [isAlive, ht.1] at ht
            rw [hnone]
            exact Multiset.zero_le _
  | walked hphase => simp [stepVacuum, hphase] at hs
  | returned hphase => simp [stepVacuum, hphase] at hs

theorem VacuumInv.shrink (h : VacuumInv callback w) (hs : stepVacuum env callback w .shrink = some w') :
    VacuumInv callback w' := by
  cases h with
  | idle hphase => simp [stepVacuum, hphase] at hs
  | located hphase => simp [stepVacuum, hphase] at hs
  | @walked root level stats hphase hv hroot hdead =>
      simp only [stepVacuum, hphase] at hs
      by_cases hmoved : (metaAt w.rel.pages).root = root
      · obtain ⟨b, s', evs, hrun, hwf', hcont, -⟩ := rtreeVacuumShrinkRoot_spec env (hv.imp_right And.left)
        rw [hmoved, hroot.level_eq hmoved] at hrun
        simp only [hrun] at hs
        obtain rfl := Option.some.inj hs
        exact .returned rfl hwf' (hcont.symm ▸ hdead)
      · obtain ⟨evs, hrun⟩ : ∃ evs, rtreeVacuumShrinkRoot env root level w.rel =
            .ok false { w.rel with trace := w.rel.trace ++ evs } :=
          rtreeVacuumShrinkRoot_run_moved (Nat.zero_lt_of_lt hroot.root_lt) hmoved
        simp only [hrun] at hs
        obtain rfl := Option.some.inj hs
        exact .returned rfl (hv.resolve_right fun he => hmoved he.2) hdead
  | returned hphase => simp [stepVacuum, hphase] at hs

theorem VacuumInv.step {act : VacuumAction} (h : VacuumInv callback w) (hg : vacuumGuard w act = true)
    (hs : stepVacuum env callback w act = some w') : VacuumInv callback w' := by
  cases act with
  | start stats => exact h.start hs
  | walk => exact h.walk hg hs
  | shrink => exact h.shrink hs
  | insert key htCtid => exact h.insert hs

end Steps

/-- **A bulk deletion whose walk begins at the root the meta page names leaves no dead tuple behind but such
    as were inserted since it began.** -/
theorem guarded_vacuum_removes_dead (env : Env) (callback : IndexBulkDeleteCallback) {s : Rel}
    {w : VacuumWorld} (hwf : WF s.pages)
    (hrun : Guarded (stepVacuum env callback) (fun w act => vacuumGuard w act = true) { rel := s } w)
    (hret : w.phase.isReturned = true) :
    deadOf callback (contents w.rel.pages) ≤ deadOf callback w.inserted := by
  have hinv := hrun.invariant (VacuumInv callback) (fun _ _ _ h hg hs => h.step hg hs) (.idle rfl hwf)
  cases hinv with
  | idle hphase => simp [hphase, VacuumPhase.isReturned] at hret
  | located hphase => simp [hphase, VacuumPhase.isReturned] at hret
  | walked hphase => simp [hphase, VacuumPhase.isReturned] at hret
  | returned hphase hwf' hdead => exact hdead

/-- The heap tuple of `stair i` is dead, and no other. -/
def onlyStair (i : Nat) : IndexBulkDeleteCallback := some fun tid => tid == (stair i).tTid

/-- A row is inserted before the walk, and fits. -/
theorem guarded_vacuum_removes_dead_beside_insert :
    ∃ w, Guarded (stepVacuum roomyEnv (onlyStair 1)) (fun w act => vacuumGuard w act = true)
        { rel := stairs 3 } w ∧ w.phase.isReturned = true ∧ stair 1 ∈ contents (stairs 3).pages ∧
      stair 1 ∉ contents w.rel.pages := by
  have hrun : (runGuarded (stepVacuum roomyEnv (onlyStair 1)) (fun w act => vacuumGuard w act = true)
      { rel := stairs 3 } [.start none, .insert (stair 5).key (stair 5).tTid, .walk, .shrink]).any
      (fun w => decide (w.phase.isReturned = true ∧ deadOf (onlyStair 1) w.inserted = 0)) = true := by
    decide +kernel
  obtain ⟨w, hw, hcheck⟩ := (Option.any_eq_true _ _).mp hrun
  obtain ⟨hret, hnone⟩ := of_decide_eq_true hcheck
  have hguarded := guarded_of_runGuarded hw
  refine ⟨w, hguarded, hret, by decide +kernel, fun hmem => ?_⟩
  have hle := guarded_vacuum_removes_dead roomyEnv (onlyStair 1) (stairs_wf 3) hguarded hret
  have hdead : stair 1 ∈ deadOf (onlyStair 1) (contents w.rel.pages) :=
    Multiset.mem_filter.mpr ⟨hmem, by decide⟩
  rw [hnone] at hle
  exact Multiset.notMem_zero _ (Multiset.mem_of_le hle hdead)

/-- The root is split between the read of the meta page and the walk: the dead tuple moves to the right half
    and is still indexed when the call returns. -/
theorem vacuum_keeps_dead_of_split_root :
    ∃ w, run (stepVacuum roomyEnv (onlyStair 4)) { rel := stairs 5 }
        [.start none, .insert (stair 5).key (stair 5).tTid, .walk, .shrink] = some w ∧
      w.phase.isReturned = true ∧ stair 4 ∈ contents (stairs 5).pages ∧ w.inserted = {stair 5} ∧
      stair 4 ∈ contents w.rel.pages ∧ isDead (onlyStair 4) (stair 4).tTid = true := by
  have hrun : (run (stepVacuum roomyEnv (onlyStair 4)) { rel := stairs 5 }
      [.start none, .insert (stair 5).key (stair 5).tTid, .walk, .shrink]).any
      (fun w => decide (w.phase.isReturned = true ∧ stair 4 ∈ contents (stairs 5).pages ∧
        w.inserted = {stair 5} ∧ stair 4 ∈ contents w.rel.pages ∧
        isDead (onlyStair 4) (stair 4).tTid = true)) = true := by decide +kernel
  obtain ⟨w, hw, hcheck⟩ := (Option.any_eq_true _ _).mp hrun
  exact ⟨w, hw, of_decide_eq_true hcheck⟩

end TemporalRTree
