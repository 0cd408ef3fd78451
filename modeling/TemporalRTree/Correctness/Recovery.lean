import TemporalRTree.Lib.Transition
import TemporalRTree.Model.Server
import TemporalRTree.Correctness.Effects

/-!
# `Correctness.Recovery` — what survives a crash

After a crash the index is the pages of the last checkpoint with the images redone that were logged since.
Descents and vacuum walks log every page they change, on every path; so does the collapse of a root with a
single child. Three writes are not logged: the initialisation of the meta page and the first leaf, the
promotion of a new root with its entry in the meta page, and the reset of an emptied inner root to a leaf.
A run of operations that makes none of the three is restored block by block, whatever the pages were at the
checkpoint.
-/

namespace TemporalRTree
open EStateM RedoLog Transition

/-! ## Recovery -/

@[simp] theorem walLog_nil : walLog [] = [] := rfl

@[simp] theorem walLog_append (evs evs' : List Event) : walLog (evs ++ evs') = walLog evs ++ walLog evs' :=
  List.filterMap_append

@[simp] theorem walLog_cons_lock (b : BlockNumber) (m : LockMode) (evs : List Event) :
    walLog (.lock b m :: evs) = walLog evs := rfl

@[simp] theorem walLog_cons_unlock (b : BlockNumber) (evs : List Event) :
    walLog (.unlock b :: evs) = walLog evs := rfl

@[simp] theorem walLog_cons_dirty (b : BlockNumber) (evs : List Event) :
    walLog (.dirty b :: evs) = walLog evs := rfl

@[simp] theorem walLog_cons_addItem (ok : Bool) (evs : List Event) :
    walLog (.addItem ok :: evs) = walLog evs := rfl

@[simp] theorem walLog_cons_split (l r : BlockNumber) (evs : List Event) :
    walLog (.split l r :: evs) = walLog evs := rfl

@[simp] theorem walLog_map_addItem (results : List Bool) : walLog (results.map .addItem) = [] := by
  induction results with
  | nil => rfl
  | cons _ _ ih => exact ih

theorem walLog_walRecord {env : Env} (hwal : env.needsWal = true) (images : List (BlockNumber × Page)) :
    walLog (walRecord env images) = [images] := by
  simp [walRecord, hwal, walLog]

/-- Pages that read the same have the same meta data and the same contents. -/
theorem contents_eq_of_same {pages pages' : List Page} (h : Same .zero pages pages') :
    metaAt pages = metaAt pages' ∧ contents pages = contents pages' := by
  have hmeta : metaAt pages = metaAt pages' := by rw [metaAt, metaAt, h 0]
  have hpage : pageAt pages = pageAt pages' := funext fun b => by rw [pageAt, pageAt, h b]
  exact ⟨hmeta, by rw [contents, contents, hmeta, hpage]⟩

/-! ## Descents log what they change -/

section Insert
variable {env : Env} {itup : IndexTuple} {box : RTreeTemporalBox} {pages pages' : List Page}
  {blk : BlockNumber} {level : Nat} {res : RTreeInsertResult} {evs : List Event}

/-- A record of one page. -/
theorem replay_page (hblk : blk < pages.length) (q : Page) :
    replay .zero pages [[(blk, q)]] = pages.set blk q :=
  restore_of_lt hblk

/-- A record of a page and a new one. -/
theorem replay_split (hblk : blk < pages.length) (left right : Page) :
    replay .zero pages [[(blk, left), (pages.length, right)]] = pages.set blk left ++ [right] := by
  have hleft : restore .zero pages (blk, left) = pages.set blk left := restore_of_lt hblk
  have hright : restore .zero (pages.set blk left) ((pages.set blk left).length, right) =
      pages.set blk left ++ [right] := restore_next right
  rw [List.length_set] at hright
  rw [← hright, ← hleft]
  rfl

theorem walLog_changeTrace (hwal : env.needsWal = true) (page : DataPage) :
    walLog (changeTrace env blk page) = [[(blk, .data page)]] := by
  rw [changeTrace, walLog_append, walLog_walRecord hwal]
  rfl

theorem walLog_splitTrace (hwal : env.needsWal = true) {flags : PageFlags} :
    walLog (splitTrace env pages blk itup box level flags) =
      [[(blk, .data (splitLeft (pageAt pages blk) itup box level flags pages.length).1),
        (pages.length, .data (splitRight (pageAt pages blk) itup box level flags).1)]] := by
  simp [splitTrace, walLog_walRecord hwal]

/-- **Redoing the records of a completed descent gives the pages it left.** -/
theorem Inserts.restores (hwal : env.needsWal = true)
    (h : Inserts env itup box pages blk level res pages' evs) : replay .zero pages (walLog evs) = pages' := by
  induction h with
  | leafAdd hblk => simpa [walLog_changeTrace hwal] using replay_page hblk _
  | leafSplit hblk => simpa [walLog_splitTrace hwal, splitPages] using replay_split hblk _ _
  | innerKeep hblk hchild hrec hrep ih =>
      simpa [walLog_changeTrace hwal, replay_append, ih] using replay_page (Nat.lt_of_lt_of_le hblk hrec.length_le) _
  | innerAdd hblk hchild hrec hrep hroom hadd ih =>
      simpa [walLog_changeTrace hwal, replay_append, ih] using replay_page (Nat.lt_of_lt_of_le hblk hrec.length_le) _
  | innerSplit hblk hchild hrec hrep hfull hext ih =>
      -- the refreshed downlink is not logged by itself: the left half replaces the page
      simpa [walLog_splitTrace hwal, splitPages, replay_append, ih] using
        replay_split (Nat.lt_of_lt_of_le hblk hrec.length_le) _ _

/-- A completed descent has logged every page it changed. -/
theorem Inserts.logged (hwal : env.needsWal = true)
    (h : Inserts env itup box pages blk level res pages' evs) : Logged .zero pages (walLog evs) pages' := by
  intro b
  rw [h.restores hwal]

end Insert

/-! ## Computations that log what they change -/

/-- A run that, if it completes, has logged every page it changed. -/
def LogsRun {α : Type} (s : Rel) : Result RTreeError Rel α → Prop
  | .ok _ s' => ∃ evs, s'.trace = s.trace ++ evs ∧ Logged .zero s.pages (walLog evs) s'.pages
  | .error _ _ => True

/-- Redoing the records of a trace. -/
theorem logged_effectRel : EffectRel fun pages evs pages' => Logged .zero pages (walLog evs) pages' where
  refl _ := Logged.refl
  trans h h' := by
    rw [walLog_append]
    exact h.trans h'
  lock _ _ _ := Logged.refl
  unlock _ _ := Logged.refl

section Runs
variable {α β : Type} {env : Env} {s : Rel}

theorem logsRun_iff {r : Result RTreeError Rel α} :
    LogsRun s r ↔ Effects (fun pages evs pages' => Logged .zero pages (walLog evs) pages') s r := by
  cases r with
  | ok a s' => exact Iff.rfl
  | error e s' => exact Iff.rfl

theorem LogsRun.pure (a : α) : LogsRun s (.ok a s : Result RTreeError Rel α) :=
  logsRun_iff.mpr (Effects.pure logged_effectRel a)

theorem LogsRun.bind {x : IndexM α} {f : α → IndexM β} (h : LogsRun s (x s))
    (hf : ∀ a s', x s = .ok a s' → LogsRun s' (f a s')) : LogsRun s ((x >>= f) s) :=
  logsRun_iff.mpr (Effects.bind logged_effectRel (logsRun_iff.mp h)
    fun a s' hx => logsRun_iff.mp (hf a s' hx))

variable (hwal : env.needsWal = true)
include hwal

theorem rebuildPage_logs (blk : BlockNumber) (page : DataPage) (kept : VacuumItems) :
    LogsRun s (rebuildPage env blk page kept s) := by
  cases h : (addTupleCopies (emptiedPage page) kept.tuples).2 with
  | false =>
      rw [rebuildPage_run_of_fail h]
      trivial
  | true =>
      let pages' := s.pages.set blk (.data (addTupleCopies (emptiedPage page) kept.tuples).1)
      have hrun : rebuildPage env blk page kept s = .ok (rebuildResult kept)
          { pages := pages'
            trace := s.trace ++ ([Event.addItem true, Event.dirty blk] ++
              walRecord env [(blk, pages'.getD blk .zero)] ++ [Event.unlock blk]) } := by
        simp only [rebuildPage, bind_apply, putPage_run, emit_run, h, Bool.not_true, Bool.false_eq_true,
          if_false, markBufferDirty_run, rtreeWalVacuum, genericXLog_run, unlockBuffer_run, List.map_cons,
          List.map_nil, List.append_assoc, List.cons_append, List.nil_append, rebuildResult, pages']
        split <;> rfl
      rw [hrun]
      refine ⟨_, rfl, ?_⟩
      simp only [walLog_append, walLog_walRecord hwal, walLog_cons_addItem, walLog_cons_dirty,
        walLog_cons_unlock, walLog_nil, List.nil_append, List.append_nil]
      refine Logged.record (by simp) fun x hx => getD_set_ne fun he => hx (by simp [he])

/-- **A completed walk has logged every page it rewrote.** -/
theorem rtreeVacuumPage_logs (callback : IndexBulkDeleteCallback) (fuel : Nat) (blk : BlockNumber)
    (stats : IndexBulkDeleteResult) : LogsRun s (rtreeVacuumPage env callback fuel blk stats s) :=
  logsRun_iff.mpr (rtreeVacuumPage_effects logged_effectRel
    (fun blk page kept _ => logsRun_iff.mp (rebuildPage_logs hwal blk page kept)) callback fuel blk stats)

/-- The root is shrunk with a log record, unless it is an inner page without downlinks. -/
theorem rtreeVacuumShrinkRoot_logs {rootblk : BlockNumber} {level : Nat}
    (hkeep : (pageAt s.pages rootblk).special.flags.leaf = true ∨ level = 0 ∨
      (pageAt s.pages rootblk).items ≠ []) : LogsRun s (rtreeVacuumShrinkRoot env rootblk level s) := by
  refine logsRun_iff.mpr (rtreeVacuumShrinkRoot_effects logged_effectRel (fun pages p q => ?_) hkeep)
  simp only [walLog_append, walLog_walRecord hwal, walLog_cons_dirty, walLog_nil, List.nil_append]
  -- the record holds both blocks that were written
  refine Logged.record (by simp) fun x hx => ?_
  simp only [List.map_cons, List.map_nil, List.mem_cons, List.not_mem_nil, or_false, not_or] at hx
  rw [getD_set_ne hx.2, getD_set_ne hx.1]

end Runs

/-! ## Operations -/

/-- Whether a descent from the root splits it. -/
def splitsRoot (env : Env) (row : HeapRow) (s : Rel) : Bool :=
  let itup : IndexTuple := { tTid := row.tid, key := row.key }
  match rtreeIndexTupleBox itup with
  | none => false
  | some box =>
      match (readMetaRoot >>= fun root => rtreeInsertPage env root.1 root.2 itup box) s with
      | .ok res _ => res.split.isSome
      | .error _ _ => false

/-- Whether the walk of a bulk deletion leaves an inner root without downlinks. -/
def emptiesRoot (env : Env) (stats : Option IndexBulkDeleteResult) (callback : IndexBulkDeleteCallback)
    (s : Rel) : Bool :=
  match readMeta s with
  | .ok m s₁ =>
      match rtreeVacuumPage env callback s.pages.length m.root (bulkdeleteStats s.pages.length stats) s₁ with
      | .ok _ s₂ =>
          !(pageAt s₂.pages m.root).special.flags.leaf && m.rootLevel != 0 &&
            (pageAt s₂.pages m.root).items.isEmpty
      | .error _ _ => false
  | .error _ _ => false

/-- Whether an operation takes one of the branches that write without logging: the initialisation, the
    promotion of a root, the reset of an emptied inner root. The pages may be any here; those of a
    valid index tell before the operation that it does not (`writesUnlogged_eq_false`). -/
def writesUnlogged (env : Env) (s : Rel) : Op → Bool
  | .build _ => true
  | .insert row => decide (s.pages.length < 2) || splitsRoot env row s
  | .bulkdelete stats callback => emptiesRoot env stats callback s
  | .vacuumcleanup info stats => !info.analyzeOnly && stats.isNone && emptiesRoot env (some {}) none s

section Ops
variable {env : Env} {s : Rel}

/-- An insert that neither initialises the index nor splits the root is a descent. -/
theorem temporalRtreeInsert_effects {R : List Page → List Event → List Page → Prop} (hR : EffectRel R)
    (hins : ∀ {itup : IndexTuple} {box : RTreeTemporalBox} {pages pages' : List Page} {blk : BlockNumber}
      {level : Nat} {res : RTreeInsertResult} {evs : List Event},
      Inserts env itup box pages blk level res pages' evs → R pages evs pages')
    {row : HeapRow} (h : writesUnlogged env s (.insert row) = false) :
    Effects R s (temporalRtreeInsert env row.key row.tid s) := by
  simp only [writesUnlogged, Bool.or_eq_false_iff, decide_eq_false_iff_not] at h
  obtain ⟨hlen, hsplit⟩ := h
  have hinit : ensureInitialised env s = .ok () s := by
    rw [ensureInitialised, bind_of_ok (get_apply s), if_neg hlen, pure_apply]
  rw [temporalRtreeInsert, bind_of_ok hinit]
  simp only [splitsRoot] at hsplit
  cases hbox : rtreeIndexTupleBox { tTid := row.tid, key := row.key } with
  | none => exact Effects.pure hR _
  | some box =>
      simp only [hbox] at hsplit
      have hdescent : ∀ (root : BlockNumber × Nat) (s₁ : Rel),
          Effects R s₁ (rtreeInsertPage env root.1 root.2 { tTid := row.tid, key := row.key } box s₁) := by
        intro root s₁
        cases hrun : rtreeInsertPage env root.1 root.2 { tTid := row.tid, key := row.key } box s₁ with
        | error e s' => trivial
        | ok res s' =>
            obtain ⟨evs, hdown, htrace⟩ := rtreeInsertPage_inserts hrun
            exact ⟨evs, htrace, hins hdown⟩
      refine Effects.bind hR ?_ fun _ _ _ => Effects.pure hR _
      refine Effects.bind hR (readMetaRoot_effects hR) fun root s₁ h₁ =>
        Effects.bind hR (hdescent root s₁) fun res s₂ h₂ => ?_
      rw [bind_of_ok h₁, h₂] at hsplit
      obtain ⟨leftBox, split⟩ := res
      cases split with
      | none => exact Effects.pure hR _
      | some right => exact absurd hsplit (by simp)

/-- A bulk deletion that does not reset an emptied root is a walk and the shrinking of a root with downlinks. -/
theorem temporalRtreeBulkdelete_effects {R : List Page → List Event → List Page → Prop} (hR : EffectRel R)
    (hwalk : ∀ {s : Rel} (callback : IndexBulkDeleteCallback) (fuel : Nat) (blk : BlockNumber)
      (stats : IndexBulkDeleteResult), Effects R s (rtreeVacuumPage env callback fuel blk stats s))
    (hshrink : ∀ {s : Rel} {rootblk : BlockNumber} {level : Nat},
      (pageAt s.pages rootblk).special.flags.leaf = true ∨ level = 0 ∨ (pageAt s.pages rootblk).items ≠ [] →
      Effects R s (rtreeVacuumShrinkRoot env rootblk level s))
    {stats : Option IndexBulkDeleteResult} {callback : IndexBulkDeleteCallback}
    (h : emptiesRoot env stats callback s = false) :
    Effects R s (temporalRtreeBulkdelete env stats callback s) := by
  rw [temporalRtreeBulkdelete, bind_of_ok (get_apply s)]
  split
  · exact Effects.pure hR _
  · refine Effects.bind hR (readMeta_effects hR) fun m s₁ h₁ => ?_
    split
    · exact Effects.pure hR _
    · split
      · exact Effects.pure hR _
      · refine Effects.bind hR (hwalk _ _ _ _) fun res s₂ h₂ =>
          Effects.bind hR (hshrink ?_) fun _ _ _ => Effects.pure hR _
        simp only [emptiesRoot, h₁, h₂, Bool.and_eq_false_iff, Bool.not_eq_false', bne_eq_false_iff_eq,
          List.isEmpty_eq_false_iff, or_assoc] at h
        exact h

/-- A cleanup is a bulk deletion of nothing, or does nothing. -/
theorem temporalRtreeVacuumcleanup_effects {R : List Page → List Event → List Page → Prop} (hR : EffectRel R)
    {info : IndexVacuumInfo} {stats : Option IndexBulkDeleteResult}
    (hdelete : info.analyzeOnly = false → stats = none →
      Effects R s (temporalRtreeBulkdelete env (some {}) none s)) :
    Effects R s (temporalRtreeVacuumcleanup env info stats s) := by
  rw [temporalRtreeVacuumcleanup]
  split
  · exact Effects.pure hR _
  next ha =>
    cases stats with
    | some st => exact Effects.pure hR _
    | none => exact Effects.bind hR (hdelete (Bool.eq_false_iff.mpr ha) rfl) fun _ _ _ => Effects.pure hR _

variable (hwal : env.needsWal = true)
include hwal

theorem temporalRtreeInsert_logs {row : HeapRow}
    (h : writesUnlogged env s (.insert row) = false) :
    LogsRun s (temporalRtreeInsert env row.key row.tid s) :=
  logsRun_iff.mpr (temporalRtreeInsert_effects logged_effectRel (fun hins => hins.logged hwal) h)

theorem temporalRtreeBulkdelete_logs {stats : Option IndexBulkDeleteResult}
    {callback : IndexBulkDeleteCallback} (h : emptiesRoot env stats callback s = false) :
    LogsRun s (temporalRtreeBulkdelete env stats callback s) :=
  logsRun_iff.mpr (temporalRtreeBulkdelete_effects logged_effectRel
    (fun callback fuel blk stats => logsRun_iff.mp (rtreeVacuumPage_logs hwal callback fuel blk stats))
    (fun hkeep => logsRun_iff.mp (rtreeVacuumShrinkRoot_logs hwal hkeep)) h)

theorem temporalRtreeVacuumcleanup_logs {info : IndexVacuumInfo} {stats : Option IndexBulkDeleteResult}
    (h : writesUnlogged env s (.vacuumcleanup info stats) = false) :
    LogsRun s (temporalRtreeVacuumcleanup env info stats s) := by
  refine logsRun_iff.mpr (temporalRtreeVacuumcleanup_effects logged_effectRel fun ha hstats => ?_)
  simp only [writesUnlogged, ha, hstats, Bool.not_false, Option.isNone_none, Bool.true_and] at h
  exact logsRun_iff.mp (temporalRtreeBulkdelete_logs hwal h)

/-- **An operation that takes none of the unlogged branches has logged every page it changed.** -/
theorem runOp_logs {op : Op} (h : writesUnlogged env s op = false) : LogsRun s (runOp env op s) := by
  cases op with
  | build rows => exact absurd h (by simp [writesUnlogged])
  | insert row => exact LogsRun.bind (temporalRtreeInsert_logs hwal h) fun _ _ _ => LogsRun.pure _
  | bulkdelete stats callback =>
      exact LogsRun.bind (temporalRtreeBulkdelete_logs hwal h) fun _ _ _ => LogsRun.pure _
  | vacuumcleanup info stats =>
      exact LogsRun.bind (temporalRtreeVacuumcleanup_logs hwal h) fun _ _ _ => LogsRun.pure _

end Ops

/-- One complete operation. -/
def stepOp (env : Env) (s : Rel) (op : Op) : Option Rel :=
  match runOp env op s with
  | .ok _ s' => some s'
  | .error _ _ => none

/-- **Completed operations survive a crash, as long as none of them initialises the index, splits the root or
    empties an inner root**, whatever the pages were at the checkpoint. -/
theorem recover_guarded_ops (env : Env) (hwal : env.needsWal = true) (checkpoint : List Page) {s : Rel}
    (hrun : Guarded (stepOp env) (fun s op => writesUnlogged env s op = false) { pages := checkpoint } s) :
    metaAt (recover checkpoint s.trace) = metaAt s.pages ∧
      contents (recover checkpoint s.trace) = contents s.pages := by
  have hlog : Logged .zero checkpoint (walLog s.trace) s.pages := by
    refine hrun.invariant (fun s => Logged .zero checkpoint (walLog s.trace) s.pages) ?_ Logged.refl
    intro s op s' h hguard hstep
    have hlogs := runOp_logs hwal hguard
    simp only [stepOp] at hstep
    cases hr : runOp env op s with
    | error e s₁ => simp [hr] at hstep
    | ok u s₁ =>
        rw [hr] at hstep hlogs
        obtain rfl := Option.some.inj hstep
        obtain ⟨evs, htrace, hl⟩ := hlogs
        rw [htrace, walLog_append]
        exact h.trans hl
  exact contents_eq_of_same hlog

/-- A crash after an insert and a bulk deletion on a checkpointed leaf. -/
theorem recover_guarded_ops_insert_delete :
    ∃ s, Guarded (stepOp roomyEnv) (fun s op => writesUnlogged roomyEnv s op = false)
        { pages := leafIndex ([1, 2].map wideTuple) } s ∧
      contents s.pages = Multiset.map wideTuple {1, 3} ∧
      contents (recover (leafIndex ([1, 2].map wideTuple)) s.trace) = contents s.pages := by
  have hrun : (runGuarded (stepOp roomyEnv) (fun s op => writesUnlogged roomyEnv s op = false)
      { pages := leafIndex ([1, 2].map wideTuple) }
      [.insert ⟨⟨0, 3⟩, wideKey⟩, .bulkdelete none (some fun tid => tid.offnum == 2)]).any
      (fun s => decide (contents s.pages = Multiset.map wideTuple {1, 3})) = true := by decide +kernel
  obtain ⟨s, hs, hcont⟩ := (Option.any_eq_true _ _).mp hrun
  have hguarded := guarded_of_runGuarded hs
  exact ⟨s, hguarded, of_decide_eq_true hcont, (recover_guarded_ops roomyEnv rfl _ hguarded).2⟩

/-- A crash after a build that the last checkpoint does not cover: the row's page is restored, but the meta
    page is not, and the tuple is not reachable. -/
theorem build_not_recovered :
    ∃ s, run (stepOp roomyEnv) { pages := [] } [.build [⟨⟨0, 1⟩, wideKey⟩]] = some s ∧
      contents s.pages = {wideTuple 1} ∧ (metaAt (recover [] s.trace)).magic ≠ trtreeMetaMagic ∧
      contents (recover [] s.trace) = 0 := by
  have hrun : (run (stepOp roomyEnv) { pages := [] } [.build [⟨⟨0, 1⟩, wideKey⟩]]).any
      (fun s => decide (contents s.pages = {wideTuple 1} ∧
        (metaAt (recover [] s.trace)).magic ≠ trtreeMetaMagic ∧ contents (recover [] s.trace) = 0)) =
      true := by decide +kernel
  obtain ⟨s, hs, hcheck⟩ := (Option.any_eq_true _ _).mp hrun
  exact ⟨s, hs, of_decide_eq_true hcheck⟩

end TemporalRTree
