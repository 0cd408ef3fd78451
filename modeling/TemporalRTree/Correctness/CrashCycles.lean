import TemporalRTree.Correctness.Recovery
import TemporalRTree.Correctness.Eviction
import TemporalRTree.Correctness.PageLife
import TemporalRTree.Correctness.InsertForesight

/-!
# `Correctness.CrashCycles` — an index that lives through crashes

A server runs operations on the index, writes pages back, takes checkpoints, crashes and recovers, over and over. An
operation that takes none of the unlogged branches leaves a log that restores its pages exactly, in number too
(`runOp_restores`); the blocks that later operations allocate are then the same as without the crash. What the unlogged
branches change is on disk after the next checkpoint if it was marked dirty (`runOp_marks`), which only the reset of an
emptied inner root misses. So as long as no bulk deletion makes that reset, and no crash comes between an unlogged write
and the next checkpoint, everything but the operations can be struck from the history (`crashes_are_invisible`).
-/

namespace TemporalRTree
open EStateM RedoLog Transition WriteBack

/-! ## Logs that restore the pages exactly -/

/-- A record of two pages as they are after both were written. -/
theorem replay_pair {pages : List Page} {b c : BlockNumber} (hb : b < pages.length) (hc : c < pages.length)
    (hne : b ≠ c) (p q : Page) :
    replay .zero pages [[(b, ((pages.set b p).set c q).getD b .zero), (c, ((pages.set b p).set c q).getD c .zero)]] =
      (pages.set b p).set c q := by
  have hc' : c < (pages.set b p).length := by rwa [List.length_set]
  rw [getD_set_ne hne, getD_set_self hb, getD_set_self hc']
  have hfirst : restore .zero pages (b, p) = pages.set b p := restore_of_lt hb
  have hsecond : restore .zero (pages.set b p) (c, q) = (pages.set b p).set c q := restore_of_lt hc'
  rw [← hsecond, ← hfirst]
  rfl

section Vacuum
variable {env : Env} {callback : IndexBulkDeleteCallback} {pages pages' : List Page} {cs : List BlockNumber}
  {walked : List (BlockNumber × RTreeTemporalBox)} {evs : List Event} (hwal : env.needsWal = true)
include hwal

/-- A walk logs a page after the pages below it and before those to its right. -/
theorem walLog_rebuild (blk : BlockNumber) (page : DataPage) (evs evs' : List Event) :
    walLog ([Event.lock blk .exclusive] ++ evs ++ rebuildTrace env blk page ++ evs') =
      walLog evs ++ [[(blk, .data page)]] ++ walLog evs' := by
  simp [rebuildTrace, walLog_changeTrace hwal]

/-- Redoing the records of a walk gives the pages it left. -/
theorem Vacuums.restores (h : Vacuums env callback pages cs walked pages' evs) :
    replay .zero pages (walLog evs) = pages' := by
  induction h with
  | nil => rfl
  | @leaf pages pages' blk rest page' walked evs hblk hleaf hpage hrest ih =>
      have hlog := walLog_rebuild hwal blk page' [] evs
      rw [List.append_nil, walLog_nil, List.nil_append] at hlog
      rw [hlog, replay_append, replay_page hblk, ih]
  | inner hblk hinner hkids hpage hrest ihkids ih =>
      rw [walLog_rebuild hwal, replay_append, replay_append, ihkids,
        replay_page (Nat.lt_of_lt_of_eq hblk hkids.length_eq.symm), ih]

theorem walLog_collapseTrace (pages : List Page) (rootblk childblk : BlockNumber) :
    walLog (collapseTrace env pages rootblk childblk) =
      [[(rootblk, (collapsedPages pages rootblk childblk).getD rootblk .zero),
        (0, (collapsedPages pages rootblk childblk).getD 0 .zero)]] := by
  simp [collapseTrace, walLog_walRecord hwal]

/-- The root shrinks with a record of both pages that change, unless it was an inner page without downlinks. -/
theorem ShrinksRoot.restores (h : ShrinksRoot env pages pages' evs) (hv : WF pages ∨ Emptied pages)
    (hkeep : (metaAt pages).rootLevel = 0 ∨ (pageAt pages (metaAt pages).root).items ≠ []) :
    replay .zero pages (walLog evs) = pages' := by
  have hroot : 0 < (metaAt pages).root ∧ (metaAt pages).root < pages.length :=
    hv.elim (·.root_range) fun hv => ⟨hv.root_pos, hv.root_lt⟩
  cases h with
  | stay => rfl
  | emptied hl hitems =>
      rcases hkeep with h0 | hne
      · exact absurd (h0.symm.trans hl) (Nat.zero_ne_add_one _)
      · exact absurd hitems hne
  | @collapsed l childitup hl hitems =>
      rw [walLog_collapseTrace hwal]
      exact replay_pair hroot.2 (Nat.zero_lt_of_lt hroot.2) (Nat.pos_iff_ne_zero.mp hroot.1) _ _

end Vacuum

/-! ## Operations -/

/-- The pages the records of a trace give. -/
theorem restores_effectRel : EffectRel fun pages evs pages' => replay .zero pages (walLog evs) = pages' where
  refl _ := rfl
  trans h h' := by rw [walLog_append, replay_append, h, h']
  lock _ _ _ := rfl
  unlock _ _ := rfl

section Ops
variable {env : Env} {s s' : Rel}

/-- After a walk, `emptiesRoot` is about the root it left. -/
theorem emptiesRoot_walk {stats : Option IndexBulkDeleteResult} {callback : IndexBulkDeleteCallback}
    {r : Option RTreeTemporalBox × IndexBulkDeleteResult} {s₁ : Rel} (hwf : WF s.pages)
    (hwalk : rtreeVacuumPage env callback s.pages.length (metaAt s.pages).root
      (bulkdeleteStats s.pages.length stats)
      { s with trace := s.trace ++ [Event.lock 0 .share, Event.unlock 0] } = .ok r s₁) :
    emptiesRoot env stats callback s = (!(pageAt s₁.pages (metaAt s.pages).root).special.flags.leaf &&
      (metaAt s.pages).rootLevel != 0 && (pageAt s₁.pages (metaAt s.pages).root).items.isEmpty) := by
  rw [emptiesRoot, readMeta_run (Nat.lt_of_lt_of_le Nat.two_pos hwf.two_le_length)]
  dsimp only
  rw [hwalk]

variable (hwal : env.needsWal = true)
include hwal

theorem temporalRtreeBulkdelete_restores {stats : Option IndexBulkDeleteResult} {callback : IndexBulkDeleteCallback}
    {res : IndexBulkDeleteResult} (hwf : WF s.pages) (h : emptiesRoot env stats callback s = false)
    (hrun : temporalRtreeBulkdelete env stats callback s = .ok res s') :
    ∃ evs, s'.trace = s.trace ++ evs ∧ replay .zero s.pages (walLog evs) = s'.pages := by
  obtain ⟨r, s₁, b, hwalk, hspec, hshrink, -⟩ := temporalRtreeBulkdelete_parts hwf hrun
  obtain ⟨evs, hvac, htrace⟩ := rtreeVacuumPage_vacuums hwalk
  obtain ⟨hv, -, hmeta⟩ := hspec.root hwf
  have hleaf : (pageAt s₁.pages (metaAt s₁.pages).root).special.flags.leaf = true ↔ (metaAt s₁.pages).rootLevel = 0 :=
    hv.elim (fun hv => (hv.tree.holds _ (List.mem_singleton.mpr rfl)).node.leaf_iff) Emptied.leaf_iff
  have hkeep : (metaAt s₁.pages).rootLevel = 0 ∨ (pageAt s₁.pages (metaAt s₁.pages).root).items ≠ [] := by
    rw [emptiesRoot_walk hwf hwalk, ← hmeta] at h
    refine or_iff_not_imp_left.mpr fun h0 hnil => ?_
    have hinner : (pageAt s₁.pages (metaAt s₁.pages).root).special.flags.leaf = false :=
      Bool.eq_false_iff.mpr (mt hleaf.mp h0)
    simp [hinner, h0, hnil] at h
  obtain ⟨b', pages', evs', hrun', hshrinks⟩ := rtreeVacuumShrinkRoot_shrinks env hv
  rw [hmeta, hshrink] at hrun'
  cases hrun'
  refine ⟨[Event.lock 0 .share, Event.unlock 0] ++ evs ++ ([Event.lock 0 .exclusive,
    Event.lock (metaAt s.pages).root .exclusive] ++ evs' ++ [Event.unlock (metaAt s.pages).root, Event.unlock 0]),
    by simp [htrace], ?_⟩
  have hlog : walLog ([Event.lock 0 .share, Event.unlock 0] ++ evs ++ ([Event.lock 0 .exclusive,
      Event.lock (metaAt s.pages).root .exclusive] ++ evs' ++
      [Event.unlock (metaAt s.pages).root, Event.unlock 0])) = walLog evs ++ walLog evs' := by simp
  rw [hlog, replay_append, hvac.restores hwal]
  exact hshrinks.restores hwal hv hkeep

/-- **The log of a completed operation that takes none of the unlogged branches restores its pages exactly.** -/
theorem runOp_restores {op : Op} {u : Unit} (hv : Valid s.pages) (h : writesUnlogged env s op = false)
    (hrun : runOp env op s = .ok u s') :
    ∃ evs, s'.trace = s.trace ++ evs ∧ replay .zero s.pages (walLog evs) = s'.pages := by
  have hdelete : ∀ {stats callback res}, emptiesRoot env stats callback s = false →
      temporalRtreeBulkdelete env stats callback s = .ok res s' →
      ∃ evs, s'.trace = s.trace ++ evs ∧ replay .zero s.pages (walLog evs) = s'.pages := by
    intro stats callback res hkeep hdel
    rcases hv with hnil | hwf
    · rw [temporalRtreeBulkdelete, bind_of_ok (get_apply s), if_pos (by simp [hnil])] at hdel
      cases hdel
      exact ⟨[], by simp, rfl⟩
    · exact temporalRtreeBulkdelete_restores hwal hwf hkeep hdel
  cases op with
  | build rows => exact absurd h (by simp [writesUnlogged])
  | insert row =>
      obtain ⟨b, s₁, hins, hrun⟩ := bind_eq_ok.mp hrun
      cases hrun
      exact (temporalRtreeInsert_effects restores_effectRel (fun hdown => hdown.restores hwal) h).of_ok hins
  | bulkdelete stats callback =>
      obtain ⟨res, s₁, hdel, hrun⟩ := bind_eq_ok.mp hrun
      cases hrun
      exact hdelete h hdel
  | vacuumcleanup info stats =>
      obtain ⟨res, s₁, hclean, hrun⟩ := bind_eq_ok.mp hrun
      cases hrun
      rw [temporalRtreeVacuumcleanup] at hclean
      split at hclean
      · cases hclean
        exact ⟨[], by simp, rfl⟩
      next hfull =>
        cases stats with
        | some st =>
            cases hclean
            exact ⟨[], by simp, rfl⟩
        | none =>
            obtain ⟨st, s₂, hdel, hclean⟩ := bind_eq_ok.mp hclean
            cases hclean
            simp only [writesUnlogged, hfull, Bool.not_false, Option.isNone_none, Bool.true_and] at h
            exact hdelete h hdel

end Ops

/-! ## Operations mark what they change -/

section Marks
variable {env : Env} {s : Rel}

theorem temporalRtreeInsert_marks {row : HeapRow} : Effects Marks s (temporalRtreeInsert env row.key row.tid s) := by
  refine Effects.bind marks_effectRel ensureInitialised_marks fun _ s₁ _ => ?_
  cases rtreeIndexTupleBox { tTid := row.tid, key := row.key } with
  | none => exact Effects.pure marks_effectRel _
  | some box =>
      refine Effects.bind marks_effectRel ?_ fun _ _ _ => Effects.pure marks_effectRel _
      refine Effects.bind marks_effectRel (readMetaRoot_effects marks_effectRel) fun root s₂ _ => ?_
      refine Effects.bind marks_effectRel rtreeInsertPage_marks fun res s₃ _ => ?_
      cases res.split with
      | none => exact Effects.pure marks_effectRel _
      | some right => exact Effects.bind marks_effectRel rtreeRootPromote_marks fun _ _ _ => writeMetaRoot_marks

theorem rtreeBuildCallback_marks (rows : List HeapRow) (n : Nat) :
    Effects Marks s (rtreeBuildCallback env rows n s) := by
  induction rows generalizing n s with
  | nil => exact Effects.pure marks_effectRel _
  | cons row rows ih => exact Effects.bind marks_effectRel temporalRtreeInsert_marks fun _ _ _ => ih _

theorem temporalRtreeBulkdelete_marks {stats : Option IndexBulkDeleteResult} {callback : IndexBulkDeleteCallback}
    (h : emptiesRoot env stats callback s = false) :
    Effects Marks s (temporalRtreeBulkdelete env stats callback s) :=
  temporalRtreeBulkdelete_effects marks_effectRel (fun _ _ _ _ => rtreeVacuumPage_marks) rtreeVacuumShrinkRoot_marks h

/-- Whether a bulk deletion leaves nothing of an index of more than one level. -/
def deletesAll (pages : List Page) (callback : IndexBulkDeleteCallback) : Bool :=
  decide ((metaAt pages).rootLevel ≠ 0 ∧ ∀ t ∈ contents pages, isAlive callback t = false)

/-- **The walk of a bulk deletion leaves an inner root without downlinks only if it deletes every tuple.** -/
theorem emptiesRoot_eq_false {stats : Option IndexBulkDeleteResult} {callback : IndexBulkDeleteCallback}
    (hwf : WF s.pages) (h : deletesAll s.pages callback = false) : emptiesRoot env stats callback s = false := by
  let s₀ : Rel := { s with trace := s.trace ++ [Event.lock 0 .share, Event.unlock 0] }
  have hspec : VacuumRun s₀ _ (rtreeVacuumPage env callback s.pages.length (metaAt s.pages).root
      (bulkdeleteStats s.pages.length stats) s₀) := rtreeVacuumPage_spec hwf.rootLevel_lt hwf.tree hwf.halloc
  cases hwalk : rtreeVacuumPage env callback s.pages.length (metaAt s.pages).root
      (bulkdeleteStats s.pages.length stats) s₀ with
  | error e s₁ =>
      rw [emptiesRoot, readMeta_run (Nat.lt_of_lt_of_le Nat.two_pos hwf.two_le_length)]
      dsimp only
      rw [hwalk]
  | ok r s₁ =>
      rw [hwalk] at hspec
      obtain ⟨hv, hcontents, hmeta⟩ := hspec.1.root hwf
      rw [emptiesRoot_walk hwf hwalk]
      simp only [Bool.and_eq_false_iff, Bool.not_eq_false', bne_eq_false_iff_eq, List.isEmpty_eq_false_iff]
      refine or_iff_not_imp_left.mpr fun hinner => ?_
      have hlevel : (metaAt s.pages).rootLevel ≠ 0 := fun h0 => hinner (Or.inr h0)
      rcases hv with hwf₁ | hemptied
      · have hnode := (hwf₁.tree.holds _ (List.mem_singleton.mpr rfl)).node
        rw [hmeta] at hnode
        exact hnode.inner_ne hlevel
      · -- no tuple is left, so none was alive
        rw [hemptied.contents_eq] at hcontents
        have hdead : ∀ t ∈ contents s.pages, isAlive callback t = false := fun t ht =>
          Bool.eq_false_iff.mpr (Multiset.filter_eq_nil.mp hcontents.symm t ht)
        exact absurd ⟨hlevel, hdead⟩ (of_decide_eq_false h)

/-- Whether an operation deletes every tuple below an inner root. -/
def Op.deletesAll (pages : List Page) : Op → Bool
  | .bulkdelete _ callback => TemporalRTree.deletesAll pages callback
  | .vacuumcleanup _ _ => TemporalRTree.deletesAll pages none
  | _ => false

theorem Valid.emptiesRoot_eq_false {stats : Option IndexBulkDeleteResult} {callback : IndexBulkDeleteCallback}
    (hv : Valid s.pages) (h : deletesAll s.pages callback = false) : emptiesRoot env stats callback s = false := by
  rcases hv with hnil | hwf
  · have hlen : ¬ 0 < s.pages.length := by simp [hnil]
    have hread : readMeta s = .error .couldNotReadBlock s := by
      rw [readMeta, bind_of_error (readBuffer_run_of_not_lt hlen)]
    rw [emptiesRoot, hread]
  · exact TemporalRTree.emptiesRoot_eq_false hwf h

/-- Whether an insert will split the root. -/
def rootSplits (env : Env) (pages : List Page) (row : HeapRow) : Bool :=
  match row.key with
  | none => false
  | some cube => splitsPage env pages { tTid := row.tid, key := row.key } (rtreeCubeToBox cube)
      (metaAt pages).rootLevel (metaAt pages).root

theorem splitsRoot_eq_false {row : HeapRow} (hwf : WF s.pages) (h : rootSplits env s.pages row = false) :
    splitsRoot env row s = false := by
  obtain ⟨tid, key⟩ := row
  cases key with
  | none => rfl
  | some cube =>
      rw [splitsRoot]
      dsimp only [rtreeIndexTupleBox, Option.map_some]
      rw [bind_of_ok (readMetaRoot_run (Nat.lt_of_lt_of_le Nat.two_pos hwf.two_le_length) hwf.magic)]
      dsimp only
      split
      · next res s₁ hrun =>
        obtain ⟨evs, hins, -⟩ := rtreeInsertPage_inserts hrun
        exact (hins.splitsPage_eq rfl hwf.tree hwf.halloc).symm.trans h
      · rfl

/-- Whether an operation that does not delete everything takes an unlogged branch. -/
def Op.unlogged (env : Env) (pages : List Page) : Op → Bool
  | .build _ => true
  | .insert row => decide (pages.length < 2) || rootSplits env pages row
  | _ => false

/-- **The pages of a valid index tell before an operation that it takes none of the unlogged branches.** -/
theorem writesUnlogged_eq_false {op : Op} (hv : Valid s.pages) (hkeep : op.deletesAll s.pages = false)
    (h : op.unlogged env s.pages = false) : writesUnlogged env s op = false := by
  cases op with
  | build rows => exact absurd h (by simp [Op.unlogged])
  | insert row =>
      obtain ⟨hlen, hroot⟩ := Bool.or_eq_false_iff.mp h
      have hwf : WF s.pages := hv.resolve_left fun hnil => by simp [hnil] at hlen
      exact Bool.or_eq_false_iff.mpr ⟨hlen, splitsRoot_eq_false hwf hroot⟩
  | bulkdelete stats callback => exact hv.emptiesRoot_eq_false hkeep
  | vacuumcleanup info stats =>
      rw [writesUnlogged, hv.emptiesRoot_eq_false hkeep, Bool.and_false]

/-- **An operation marks every page it changes**, unless it deletes every tuple below an inner root. -/
theorem runOp_marks {op : Op} (hv : Valid s.pages) (h : op.deletesAll s.pages = false)
    (hbuild : ∀ rows, op = .build rows → s.pages = []) : Effects Marks s (runOp env op s) := by
  have hunit : ∀ {α : Type} {x : IndexM α}, Effects Marks s (x s) →
      Effects Marks s ((x >>= fun _ => pure ()) s) := fun hx =>
    Effects.bind marks_effectRel hx fun _ _ _ => Effects.pure marks_effectRel _
  cases op with
  | build rows =>
      have hsame : ({ s with pages := [] } : Rel) = s := by rw [← hbuild rows rfl]
      rw [runOp, bind_of_ok (modify_apply _ _), hsame]
      refine hunit (Effects.bind marks_effectRel rtreeMetaAndRootInit_marks fun _ s₁ _ => ?_)
      exact Effects.bind marks_effectRel (rtreeBuildCallback_marks _ _) fun _ _ _ => Effects.pure marks_effectRel _
  | insert row => exact hunit temporalRtreeInsert_marks
  | bulkdelete stats callback => exact hunit (temporalRtreeBulkdelete_marks (hv.emptiesRoot_eq_false h))
  | vacuumcleanup info stats =>
      exact hunit (temporalRtreeVacuumcleanup_effects marks_effectRel fun _ _ =>
        temporalRtreeBulkdelete_marks (hv.emptiesRoot_eq_false h))

end Marks

/-! ## A server's life -/

/-- A server, and whether an operation since the last checkpoint took one of the unlogged branches. -/
structure WatchedServer where
  server : Server
  unlogged : Bool := false

/-- What an incident does to the flag. -/
def WatchedServer.unloggedAfter (env : Env) (w : WatchedServer) : Incident → Bool
  | .op op => w.unlogged || op.unlogged env w.server.rel.pages
  | .checkpoint => false
  | .crash => false
  | _ => w.unlogged

def stepWatched (env : Env) (w : WatchedServer) (i : Incident) : Option WatchedServer :=
  (stepServer env w.server i).map fun v => { server := v, unlogged := w.unloggedAfter env i }

/-- No operation empties an inner root, and no crash comes while an unlogged write is not covered by a checkpoint. -/
def covered (w : WatchedServer) : Incident → Bool
  | .op op => !op.deletesAll w.server.rel.pages
  | .crash => !w.unlogged
  | _ => true

/-- The operations of a history. -/
def operations (history : List Incident) : List Op :=
  history.filterMap fun
    | .op op => some op
    | _ => none

/-- The pages in shared buffers. -/
def Server.memory (v : Server) (blkno : BlockNumber) : Page := v.rel.pages.getD blkno .zero

/-- What changed is marked, and the pages can be recovered unless an unlogged write is not covered. -/
structure Recoverable (w : WatchedServer) : Prop where
  valid : Valid w.server.rel.pages
  coherent : Coherent w.server.memory w.server.disk w.server.dirty
  beyond : ∀ b, w.server.rel.pages.length ≤ b → w.server.disk b = .zero
  recover_eq : w.unlogged = false → recover w.server.file w.server.since = w.server.rel.pages

section File
variable {v : Server}

theorem Server.getD_file (hbeyond : ∀ b, v.rel.pages.length ≤ b → v.disk b = .zero) (b : BlockNumber) :
    v.file.getD b .zero = v.disk b := by
  rw [Server.file, List.getD_eq_getElem?_getD, List.getElem?_map]
  rcases Nat.lt_or_ge b v.rel.pages.length with hb | hb
  · rw [List.getElem?_range hb]
    rfl
  · rw [List.getElem?_eq_none (by simpa using hb), hbeyond b hb]
    rfl

theorem Server.length_file : v.file.length = v.rel.pages.length := by simp [Server.file]

/-- The file with one block written. -/
theorem Server.file_update (v : Server) (b : BlockNumber) (page : Page) :
    (List.range v.rel.pages.length).map (Function.update v.disk b page) = v.file.set b page := by
  refine List.ext_getElem (by simp [Server.file]) fun i hi hi' => ?_
  simp [Server.file, Function.update_apply, List.getElem_set, eq_comm]

/-- The file of a server whose disk holds its pages. -/
theorem Server.file_eq (h : ∀ b, v.disk b = v.memory b) : v.file = v.rel.pages := by
  have hread : Same .zero v.file v.rel.pages := fun b =>
    (Server.getD_file (fun b hb => (h b).trans (List.getD_eq_default _ _ hb)) b).trans (h b)
  exact hread.eq_of_length Server.length_file

end File

section Server
variable {env : Env} {w w' : WatchedServer}

/-- A server that has written its pages. -/
theorem recoverable_of_written {v : Server} {unlogged : Bool} (hv : Valid v.rel.pages)
    (hdisk : ∀ b, v.disk b = v.memory b) (hsince : v.since = []) : Recoverable ⟨v, unlogged⟩ where
  valid := hv
  coherent := by
    rw [show v.disk = v.memory from funext hdisk]
    exact Coherent.refl
  beyond b hb := (hdisk b).trans (List.getD_eq_default _ _ hb)
  recover_eq _ := by
    rw [hsince, Server.file_eq hdisk]
    rfl

/-- The server an operation starts from. -/
theorem Recoverable.prepare (h : Recoverable w) (op : Op) : Recoverable ⟨w.server.prepare op, w.unlogged⟩ := by
  cases op with
  | build rows => exact recoverable_of_written (Or.inl rfl) (fun _ => rfl) rfl
  | insert row => exact h
  | bulkdelete stats callback => exact h
  | vacuumcleanup info stats => exact h

/-- The log of an operation added to what was reported before. -/
theorem recover_after {v : Server} {rel : Rel} {evs : List Event}
    (hbeyond : ∀ b, v.rel.pages.length ≤ b → v.disk b = .zero) (hrecover : recover v.file v.since = v.rel.pages)
    (hle : v.rel.pages.length ≤ rel.pages.length) (hbeyond' : ∀ b, rel.pages.length ≤ b → v.disk b = .zero)
    (htrace : rel.trace = v.rel.trace ++ evs) (hrestores : replay .zero v.rel.pages (walLog evs) = rel.pages) :
    recover (v.after rel).file (v.after rel).since = (v.after rel).rel.pages := by
  have hsince : (v.after rel).since = v.since ++ evs := by rw [Server.after, htrace, List.drop_left]
  have hold : replay .zero v.file (walLog (v.since ++ evs)) = rel.pages := by
    rw [walLog_append, replay_append, show replay .zero v.file (walLog v.since) = v.rel.pages from hrecover, hrestores]
  have hsame : Same .zero v.file (v.after rel).file := fun b =>
    (Server.getD_file hbeyond b).trans (Server.getD_file (v := v.after rel) hbeyond' b).symm
  rw [recover, hsince]
  refine (hsame.replay_eq ?_ ?_).trans hold
  · rw [Server.length_file, Server.length_file]
    exact hle
  · rw [Server.length_file, hold]
    exact Nat.le_refl _

/-- An operation does not shorten the relation it starts from. -/
theorem Valid.runOp_length_le {s s' : Rel} {op : Op} (hv : Valid s.pages)
    (hbuild : ∀ rows, op = .build rows → s.pages = []) (hrun : runOp env op s = .ok () s') :
    s.pages.length ≤ s'.pages.length := by
  rcases hv with hnil | hwf
  · rw [hnil]
    exact Nat.zero_le _
  · refine ((retires_opRel env).runOp (fun rows hop => ?_) hwf hrun).2.length_le
    exact absurd (hbuild rows hop ▸ hwf.two_le_length) (by simp)

/-- A completed operation on the relation it starts from. -/
theorem Recoverable.after {v : Server} {unlogged : Bool} {op : Op} {s' : Rel} (hwal : env.needsWal = true)
    (h : Recoverable ⟨v, unlogged⟩) (hcov : op.deletesAll v.rel.pages = false)
    (hbuild : ∀ rows, op = .build rows → v.rel.pages = []) (hrun : runOp env op v.rel = .ok () s') :
    Recoverable ⟨v.after s', unlogged || op.unlogged env v.rel.pages⟩ := by
  have hlen := h.valid.runOp_length_le hbuild hrun
  have hbeyond : ∀ b, s'.pages.length ≤ b → v.disk b = .zero := fun b hb => h.beyond b (hlen.trans hb)
  refine ⟨?_, ?_, hbeyond, fun hlogged => ?_⟩
  · have hrefines : Refines v.rel Valid op.apply (runOp env op v.rel) := runOp_refines op h.valid
    rw [hrun] at hrefines
    exact hrefines.1
  · obtain ⟨evs, htrace, hmarks⟩ := (runOp_marks h.valid hcov hbuild).of_ok hrun
    refine h.coherent.change fun x hx => ?_
    rw [htrace, List.drop_left]
    exact mem_dirtied (hmarks x hx)
  · obtain ⟨hbefore, hop⟩ := Bool.or_eq_false_iff.mp hlogged
    obtain ⟨evs, htrace, hrestores⟩ := runOp_restores hwal h.valid (writesUnlogged_eq_false h.valid hcov hop) hrun
    exact recover_after h.beyond (h.recover_eq hbefore) hlen hbeyond htrace hrestores

theorem Recoverable.op {op : Op} (hwal : env.needsWal = true) (h : Recoverable w)
    (hcov : op.deletesAll w.server.rel.pages = false) (hstep : stepWatched env w (.op op) = some w') :
    Recoverable w' ∧ stepOp env w.server.rel op = some w'.server.rel := by
  simp only [stepWatched, stepServer] at hstep
  cases hrun : runOp env op (w.server.prepare op).rel with
  | error e s' => simp [hrun] at hstep
  | ok u s' =>
      simp only [hrun, Option.map_some, Option.some.injEq] at hstep
      subst hstep
      have hop : ∀ {s : Rel}, runOp env op s = .ok u s' → stepOp env s op = some s' := fun hs => by rw [stepOp, hs]
      cases op with
      | build rows =>
          -- the new file is empty, and the build empties the relation once more
          exact ⟨(h.prepare _).after hwal rfl (fun _ _ => rfl) hrun, hop hrun⟩
      | insert row => exact ⟨h.after hwal hcov (by simp) hrun, hop hrun⟩
      | bulkdelete stats callback => exact ⟨h.after hwal hcov (by simp) hrun, hop hrun⟩
      | vacuumcleanup info stats => exact ⟨h.after hwal hcov (by simp) hrun, hop hrun⟩

theorem Recoverable.writeBack {b : BlockNumber} (h : Recoverable w)
    (hstep : stepWatched env w (.writeBack b) = some w') : Recoverable w' ∧ w'.server.rel = w.server.rel := by
  simp only [stepWatched, stepServer] at hstep
  split at hstep
  · obtain rfl := Option.some.inj hstep
    refine ⟨⟨h.valid, h.coherent.writeBack, fun x hx => ?_, fun hlogged => ?_⟩, rfl⟩
    · show Function.update w.server.disk b _ x = .zero
      rw [Function.update_apply]
      split
      · next he => exact List.getD_eq_default _ _ (he ▸ hx)
      · exact h.beyond x hx
    · have hrec := h.recover_eq hlogged
      show replay .zero ((List.range w.server.rel.pages.length).map (Function.update w.server.disk b
        (w.server.rel.pages.getD b .zero))) (walLog w.server.since) = w.server.rel.pages
      rw [Server.file_update]
      conv_lhs => rw [← hrec]
      exact (replay_set_self b).trans hrec
  · exact absurd hstep (by simp)

theorem Recoverable.drop {b : BlockNumber} (h : Recoverable w)
    (hstep : stepWatched env w (.drop b) = some w') : Recoverable w' ∧ w'.server.rel = w.server.rel := by
  simp only [stepWatched, stepServer] at hstep
  split at hstep
  · exact absurd hstep (by simp)
  · next hb =>
    have hsame : w.server.rel.pages.set b (w.server.disk b) = w.server.rel.pages := set_clean_page h.coherent hb
    obtain rfl := Option.some.inj hstep
    simp only [hsame]
    exact ⟨h, trivial⟩

theorem Recoverable.checkpoint (h : Recoverable w) (hstep : stepWatched env w .checkpoint = some w') :
    Recoverable w' ∧ w'.server.rel = w.server.rel := by
  cases hstep
  refine ⟨recoverable_of_written h.valid (fun b => ?_) rfl, rfl⟩
  show (if b ∈ w.server.dirty then _ else _) = _
  split
  · rfl
  · next hb => exact (h.coherent.clean hb).symm

theorem Recoverable.crash (h : Recoverable w) (hcov : w.unlogged = false)
    (hstep : stepWatched env w .crash = some w') : Recoverable w' ∧ w'.server.rel = w.server.rel := by
  cases hstep
  have hsame : w.server.recovered.rel = w.server.rel := by
    show { w.server.rel with pages := recover w.server.file w.server.since } = w.server.rel
    rw [h.recover_eq hcov]
  refine ⟨recoverable_of_written ?_ (fun _ => rfl) rfl, hsame⟩
  rw [hsame]
  exact h.valid

/-- A history with everything but the operations struck. -/
theorem Recoverable.run {history : List Incident} (hwal : env.needsWal = true) (h : Recoverable w)
    (hrun : runGuarded (stepWatched env) (fun w i => covered w i = true) w history = some w') :
    Transition.run (stepOp env) w.server.rel (operations history) = some w'.server.rel := by
  induction history generalizing w with
  | nil =>
      cases hrun
      rfl
  | cons i history ih =>
      rw [runGuarded] at hrun
      split at hrun
      next hcov =>
        obtain ⟨w₁, hstep, hrest⟩ := Option.bind_eq_some_iff.mp hrun
        have hkept : Recoverable w₁ ∧ w₁.server.rel = w.server.rel →
            Transition.run (stepOp env) w.server.rel (operations history) = some w'.server.rel := by
          rintro ⟨h₁, hsame⟩
          rw [← hsame]
          exact ih h₁ hrest
        cases i with
        | op op =>
            obtain ⟨h₁, hop⟩ := h.op hwal (by simpa [covered] using hcov) hstep
            exact Option.bind_eq_some_iff.mpr ⟨w₁.server.rel, hop, ih h₁ hrest⟩
        | writeBack b => exact hkept (h.writeBack hstep)
        | drop b => exact hkept (h.drop hstep)
        | checkpoint => exact hkept (h.checkpoint hstep)
        | crash => exact hkept (h.crash (by simpa [covered] using hcov) hstep)
      next => exact absurd hrun (by simp)

end Server

/-- **Crashes are invisible.** Take a history of operations, write-backs, evictions, checkpoints and crashes on an index
    whose pages are on disk. If no bulk deletion removes every tuple below an inner root, and no crash comes between an
    unlogged write and the next checkpoint, it leaves the index that its operations alone would have left, page by
    page. -/
theorem crashes_are_invisible {env : Env} {s : Rel} {w : WatchedServer} {history : List Incident}
    (hwal : env.needsWal = true) (hv : Valid s.pages)
    (hrun : runGuarded (stepWatched env) (fun w i => covered w i = true)
      { server := { rel := s, disk := fun b => s.pages.getD b .zero } } history = some w) :
    run (stepOp env) s (operations history) = some w.server.rel := by
  have hstart : Recoverable { server := { rel := s, disk := fun b => s.pages.getD b .zero } } :=
    recoverable_of_written hv (fun _ => rfl) rfl
  exact hstart.run hwal hrun

/-- A build that splits its root and that a checkpoint covers, an insert, a crash, a bulk deletion after which one of
    the pages it changed is written back, and two crashes. -/
def crashHistory : List Incident :=
  [.op (.build (stairRows 6)), .checkpoint, .op (.insert ⟨(stair 6).tTid, (stair 6).key⟩), .crash,
    .op (.bulkdelete none (some fun tid => tid.offnum == 2)), .writeBack 1, .drop 1, .crash, .crash]

theorem crashes_are_invisible_covered_build :
    ∃ w, runGuarded (stepWatched roomyEnv) (fun w i => covered w i = true)
        { server := { rel := { pages := [] }, disk := fun b => [].getD b .zero } } crashHistory = some w ∧
      run (stepOp roomyEnv) { pages := [] } (operations crashHistory) = some w.server.rel := by
  have hrun : (runGuarded (stepWatched roomyEnv) (fun w i => covered w i = true)
      { server := { rel := { pages := [] }, disk := fun b => [].getD b .zero } } crashHistory).isSome = true := by
    decide +kernel
  obtain ⟨w, hw⟩ := Option.isSome_iff_exists.mp hrun
  exact ⟨w, hw, crashes_are_invisible rfl (Or.inl rfl) hw⟩

-- A bulk deletion of all tuples resets the root without marking the meta page: the next checkpoint does not write it,
-- and after a crash the meta page has the old level for a root that is a leaf.
example : (run (stepServer roomyEnv) { rel := { pages := [] } } [.op (.build (stairRows 6)), .checkpoint,
      .op (.bulkdelete none (some fun _ => true)), .checkpoint, .crash]).any
    (fun v => decide ((metaAt v.rel.pages).rootLevel = 1 ∧
      (pageAt v.rel.pages (metaAt v.rel.pages).root).special.flags.leaf = true)) = true := by
  decide +kernel

end TemporalRTree
