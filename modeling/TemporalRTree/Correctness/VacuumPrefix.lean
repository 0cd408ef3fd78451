import TemporalRTree.Correctness.CrashCycles
import TemporalRTree.Correctness.ScanVacuum

/-!
# `Correctness.VacuumPrefix` — a crash in the middle of a vacuum

`rtree_vacuum_page` logs each page it rewrites with a record of its own, the children before the page that links to
them. Redoing one record prunes one page in the sense of `Lib.Pruning`: the dead tuples of a leaf are gone, or downlinks
to pages that by then are empty (`Vacuums.pruneLog`). So whatever part of the records reaches the disk, the index that
is recovered has every live tuple, none that was not there before, and can be scanned (`vacuum_crash_keeps_live`). In
contrast to an insert, no two records have to be redone together.
-/

namespace TemporalRTree
open EStateM Layout RedoLog

/-! ## Logs of pruned pages -/

/-- The tree of level `level` at `blk` fits, and is made of data blocks. -/
structure FitsAt (pages : List Page) (level : Nat) (blk : BlockNumber) : Prop where
  holds : nodes.Holds NodeFits (pageAt pages) level blk
  range : ∀ x ∈ nodes.blocks (pageAt pages) level blk, 0 < x ∧ x < pages.length

theorem FitsAt.kids {pages : List Page} {l : Nat} {blk : BlockNumber} (h : FitsAt pages (l + 1) blk) :
    ∀ c ∈ nodes.kids (pageAt pages blk), FitsAt pages l c := fun c hc =>
  ⟨h.holds.2 c hc, fun x hx => h.range x (List.mem_cons_of_mem _ (blocks_subset_forest hc hx))⟩

/-- Every record of the log prunes one page of level `level` at most. -/
inductive PruneLog (callback : IndexBulkDeleteCallback) (level : Nat) :
    List Page → List (List (BlockNumber × Page)) → List Page → Prop where
  | nil {pages : List Page} : PruneLog callback level pages [] pages
  | cons {pages pages' : List Page} {log : List (List (BlockNumber × Page))} {blk : BlockNumber} {page : DataPage}
      {m : Nat} (hblk : blk < pages.length) (hm : m ≤ level)
      (hpage : PrunesPage callback pages (pages.set blk (.data page)) m blk)
      (hrest : PruneLog callback level (pages.set blk (.data page)) log pages') :
      PruneLog callback level pages ([(blk, .data page)] :: log) pages'

section PruneLog
variable {callback : IndexBulkDeleteCallback} {level l : Nat} {pages pages₁ pages' : List Page}
  {log log' : List (List (BlockNumber × Page))} {x : BlockNumber}

theorem PruneLog.append (h : PruneLog callback level pages log pages₁)
    (h' : PruneLog callback level pages₁ log' pages') : PruneLog callback level pages (log ++ log') pages' := by
  induction h with
  | nil => exact h'
  | cons hblk hm hpage _ ih => exact .cons hblk hm hpage (ih h')

theorem PruneLog.mono {level' : Nat} (h : PruneLog callback level pages log pages') (hle : level ≤ level') :
    PruneLog callback level' pages log pages' := by
  induction h with
  | nil => exact .nil
  | cons hblk hm hpage _ ih => exact .cons hblk (hm.trans hle) hpage ih

/-- What is left of a tree is a tree, with the live tuples in their order. -/
theorem PruneLog.tree (h : PruneLog callback level pages log pages') (hx : nodes.Holds NodeFits (pageAt pages) l x) :
    nodes.Holds NodeFits (pageAt pages') l x ∧
      (nodes.blocks (pageAt pages') l x).Sublist (nodes.blocks (pageAt pages) l x) ∧
      Thins (isAlive callback) (nodes.leaves (pageAt pages) l x) (nodes.leaves (pageAt pages') l x) := by
  induction h with
  | nil => exact ⟨hx, List.Sublist.refl _, .refl _⟩
  | cons hblk hm hpage _ ih =>
      obtain ⟨hholds, hblocks, hthins⟩ := ih (hpage.prunes.holds hx)
      exact ⟨hholds, hblocks.trans (hpage.prunes.blocks hx), (hpage.prunes.leaves hx).trans hthins⟩

theorem PruneLog.length_eq (h : PruneLog callback level pages log pages') : pages'.length = pages.length := by
  induction h with
  | nil => rfl
  | cons hblk hm hpage _ ih => rw [ih, hpage.length_eq]

/-- Trees that are still to be walked stay fit for it. -/
theorem PruneLog.trees {cs : List BlockNumber} (h : PruneLog callback level pages log pages')
    (hcs : ∀ c ∈ cs, FitsAt pages l c) : ∀ c ∈ cs, FitsAt pages' l c := by
  intro c hc
  obtain ⟨hholds, hblocks, -⟩ := h.tree (hcs c hc).holds
  refine ⟨hholds, fun x hx => ?_⟩
  rw [h.length_eq]
  exact (hcs c hc).range x (hblocks.subset hx)

/-- Pages of higher levels stay as they are. -/
theorem PruneLog.page_eq (h : PruneLog callback level pages log pages') (hlt : level < l)
    (hx : NodeFits l (pageAt pages x)) : pageAt pages' x = pageAt pages x := by
  induction h with
  | nil => rfl
  | @cons pages pages' log blk page m hblk hm hpage _ ih =>
      have hne : x ≠ blk := by
        rintro rfl
        have hlevel := hpage.prunes.level l hx
        omega
      have hsame := hpage.prunes.frame x hne
      rw [ih (by rw [hsame]; exact hx), hsame]

/-- **After any number of the records the index fits, and has lost dead tuples only.** -/
theorem PruneLog.take (h : PruneLog callback level pages log pages') (hfits : Fits pages) (i : Nat) :
    Fits (replay .zero pages (log.take i)) ∧
      Thins (isAlive callback) (nodes.leaves (pageAt pages) (metaAt pages).rootLevel (metaAt pages).root)
        (nodes.leaves (pageAt (replay .zero pages (log.take i)))
          (metaAt (replay .zero pages (log.take i))).rootLevel (metaAt (replay .zero pages (log.take i))).root) := by
  induction h generalizing i with
  | nil =>
      rw [List.take_nil]
      exact ⟨hfits, .refl _⟩
  | @cons pages pages' log blk page m hblk hm hpage _ ih =>
      cases i with
      | zero => exact ⟨hfits, .refl _⟩
      | succ i =>
          have hredo : replay .zero pages (([(blk, .data page)] :: log).take (i + 1)) =
              replay .zero (pages.set blk (.data page)) (log.take i) := by
            rw [List.take_succ_cons, ← List.singleton_append, replay_append, replay_page hblk]
          obtain ⟨hfits', hthins⟩ := ih (hpage.fits hfits) i
          rw [hredo]
          refine ⟨hfits', Thins.trans ?_ hthins⟩
          rw [hpage.meta_eq]
          exact hpage.prunes.leaves hfits.holds

end PruneLog

/-! ## A walk logs pruned pages -/

section Walk
variable {env : Env} {callback : IndexBulkDeleteCallback} {pages pages' : List Page} {cs : List BlockNumber}
  {walked : List (BlockNumber × RTreeTemporalBox)} {evs : List Event} {level : Nat}

theorem Rebuilds.keyed {page page' : DataPage} {kept : List (IndexTuple × RTreeTemporalBox)}
    (h : Rebuilds page kept page') (hkeys : ∀ p ∈ kept, p.1.key.isSome = true) : Keyed page' := by
  intro t ht
  rw [h.page.1] at ht
  obtain ⟨p, hp, rfl⟩ := List.mem_map.mp ht
  exact hkeys p hp

/-- Nothing is below a page without tuples. -/
theorem leaves_of_items_nil {blk : BlockNumber} (h : (pageAt pages blk).items = []) :
    nodes.leaves (pageAt pages) level blk = [] := by
  cases level with
  | zero => exact h
  | succ l => rw [leaves_succ, show nodes.kids (pageAt pages blk) = [] by simp [nodes, h], forestLeaves_nil]

/-- The first of some pages was rebuilt and the others walked: those not reported are without tuples below them. -/
theorem drops_reported {kept : List (IndexTuple × RTreeTemporalBox)} {page page' : DataPage} {blk : BlockNumber}
    {rest : List BlockNumber} {log : List (List (BlockNumber × Page))}
    (h : Rebuilds page kept page') (hblk : blk < pages.length)
    (hlog : PruneLog callback level (pages.set blk (.data page')) log pages')
    (hholds : nodes.Holds NodeFits (pageAt (pages.set blk (.data page'))) level blk)
    (hrest : nodes.Drops (pageAt pages') level rest (walked.map Prod.fst)) :
    nodes.Drops (pageAt pages') level (blk :: rest) ((reported blk kept ++ walked).map Prod.fst) := by
  rw [List.map_append, reported_fst]
  cases kept with
  | cons p kept => exact .keep hrest
  | nil =>
      refine .drop ?_ hrest
      have hitems : (pageAt (pages.set blk (.data page')) blk).items = [] := by
        rw [pageAt_set_self hblk, h.page.1]
        rfl
      have hsub := (hlog.tree hholds).2.2.1
      rw [leaves_of_items_nil hitems] at hsub
      exact List.eq_nil_of_sublist_nil hsub

/-- **Each record of a walk prunes one page, and the pages it does not report are without tuples in the end.** -/
theorem Vacuums.pruneLog (hwal : env.needsWal = true) (h : Vacuums env callback pages cs walked pages' evs)
    (hcs : ∀ c ∈ cs, FitsAt pages level c) :
    PruneLog callback level pages (walLog evs) pages' ∧
      nodes.Drops (pageAt pages') level cs (walked.map Prod.fst) := by
  induction h generalizing level with
  | nil => exact ⟨.nil, .nil⟩
  | @leaf pages pages' blk rest page' walked evs hblk hleaf hpage hrest ih =>
      have htree := hcs blk List.mem_cons_self
      have hfits : NodeFits level (pageAt pages blk) := htree.holds.node
      obtain rfl : level = 0 := hfits.leaf_iff.mp hleaf
      have hprunes : PrunesPage callback pages (pages.set blk (.data page')) 0 blk := by
        refine prunesPage_set (htree.range blk self_mem_blocks) hfits hpage.page.2 (hpage.keyed fun p hp => ?_)
          (fun _ => ?_) fun l hl => absurd hl (Nat.zero_ne_add_one l)
        · exact hfits.keys _ (mem_leafKept hp).1
        · rw [hpage.page.1, leafKept_fst hfits.keys]
      have hfirst : PruneLog callback 0 pages [[(blk, .data page')]] (pages.set blk (.data page')) :=
        .cons hblk (Nat.le_refl 0) hprunes .nil
      obtain ⟨hlog, hdrops⟩ := ih fun c hc => hfirst.trees hcs c (List.mem_cons_of_mem _ hc)
      have hrecords := walLog_rebuild hwal blk page' [] evs
      rw [List.append_nil, walLog_nil, List.nil_append] at hrecords
      rw [hrecords]
      exact ⟨hfirst.append hlog, drops_reported hpage hblk hlog (hfirst.trees hcs blk List.mem_cons_self).holds hdrops⟩
  | @inner pages pages₁ pages' blk rest page' kids walked evs evs' hblk hinner hkids hpage hrest ihkids ih =>
      have htree := hcs blk List.mem_cons_self
      have hfits : NodeFits level (pageAt pages blk) := htree.holds.node
      obtain ⟨l, rfl⟩ : ∃ l, level = l + 1 :=
        Nat.exists_eq_succ_of_ne_zero fun h0 => by simp [hfits.leaf_iff.mpr h0] at hinner
      obtain ⟨hbelow, hdropsKids⟩ := ihkids htree.kids
      -- the children's levels are lower, so the page itself is as it was
      have hsame : pageAt pages₁ blk = pageAt pages blk := hbelow.page_eq (Nat.lt_succ_self l) hfits
      have hblk₁ : blk < pages₁.length := Nat.lt_of_lt_of_eq hblk hbelow.length_eq.symm
      have hlinks : nodes.kids page' = kids.map Prod.fst := by
        simp [nodes, hpage.page.1, downlinksTo, rtreeFormTuple, childTid]
      have hprunes : PrunesPage callback pages₁ (pages₁.set blk (.data page')) (l + 1) blk := by
        refine prunesPage_set ⟨(htree.range blk self_mem_blocks).1, hblk₁⟩ (hsame ▸ hfits) (hsame ▸ hpage.page.2)
          (hpage.keyed fun p hp => ?_) (fun h0 => absurd h0 (Nat.succ_ne_zero l)) fun l' hl' => ?_
        · obtain ⟨w, -, rfl⟩ := List.mem_map.mp hp
          exact rtreeFormTuple_key _ _
        · obtain rfl := Nat.succ.inj hl'
          rw [hsame, hlinks]
          exact hdropsKids
      have hfirst : PruneLog callback (l + 1) pages (walLog evs ++ [[(blk, .data page')]])
          (pages₁.set blk (.data page')) :=
        (hbelow.mono (Nat.le_succ l)).append (.cons hblk₁ (Nat.le_refl _) hprunes .nil)
      obtain ⟨hlog, hdrops⟩ := ih fun c hc => hfirst.trees hcs c (List.mem_cons_of_mem _ hc)
      rw [walLog_rebuild hwal]
      exact ⟨hfirst.append hlog, drops_reported hpage hblk₁ hlog (hfirst.trees hcs blk List.mem_cons_self).holds hdrops⟩

end Walk

/-! ## A crash during a bulk deletion -/

/-- The pages after crash recovery when only the first `i` records have reached the disk. -/
def recoverFirst (checkpoint : List Page) (trace : List Event) (i : Nat) : List Page :=
  replay .zero checkpoint ((walLog trace).take i)

/-- An index that a vacuum has got some way with: it can be scanned, no live tuple is missing, and none is new. -/
structure PartlyVacuumed (callback : IndexBulkDeleteCallback) (pages pages' : List Page) : Prop where
  fits : Fits pages'
  live_le : (contents pages).filter (fun t => isAlive callback t = true) ≤ contents pages'
  le_old : contents pages' ≤ contents pages

section Crash
variable {env : Env} {callback : IndexBulkDeleteCallback} {pages pages₁ pages' : List Page} {s s' : Rel}

theorem contents_le_of_thins {xs xs' : List IndexTuple} (h : Thins (isAlive callback) xs xs') :
    (xs : Multiset IndexTuple).filter (fun t => isAlive callback t = true) ≤ xs' ∧ (xs' : Multiset IndexTuple) ≤ xs := by
  refine ⟨?_, Multiset.coe_le.mpr h.1.subperm⟩
  rw [Multiset.filter_coe]
  simp only [Bool.decide_eq_true]
  rw [← h.2]
  exact Multiset.coe_le.mpr List.filter_sublist.subperm

theorem PruneLog.partlyVacuumed {level : Nat} {log : List (List (BlockNumber × Page))}
    (h : PruneLog callback level pages log pages') (hfits : Fits pages) (i : Nat) :
    PartlyVacuumed callback pages (replay .zero pages (log.take i)) := by
  obtain ⟨hfits', hthins⟩ := h.take hfits i
  obtain ⟨hlive, hold⟩ := contents_le_of_thins hthins
  exact ⟨hfits', hlive, hold⟩

/-- The records of a bulk deletion: those of its walk, and one more if an only child moved up. -/
theorem partlyVacuumed_bulkdelete {walked : List (BlockNumber × RTreeTemporalBox)} {evs evs' : List Event}
    (hwal : env.needsWal = true) (hwf : WF pages)
    (hvac : Vacuums env callback pages [(metaAt pages).root] walked pages₁ evs) (hv : WF pages₁ ∨ Emptied pages₁)
    (hshrinks : ShrinksRoot env pages₁ pages' evs') (i : Nat) :
    PartlyVacuumed callback pages (replay .zero pages ((walLog evs ++ walLog evs').take i)) := by
  obtain ⟨hlog, -⟩ := hvac.pruneLog hwal fun c hc => by
    rw [List.mem_singleton.mp hc]
    exact ⟨hwf.fits.holds, hwf.range⟩
  have hwalk := hlog.partlyVacuumed hwf.fits
  cases hshrinks with
  | stay => simpa using hwalk i
  | emptied => simpa using hwalk i
  | @collapsed l childitup hl hitems =>
      have hmoved : ShrinksRoot env pages₁ _ _ := .collapsed hl hitems
      obtain ⟨hwf', hcont⟩ := hmoved.wf hv
      have hrecord : walLog (collapseTrace env pages₁ (metaAt pages₁).root childitup.tTid.blkno) = [_] :=
        walLog_collapseTrace hwal pages₁ _ _
      have hfull := hmoved.restores hwal hv (Or.inr (by simp [hitems]))
      rw [hrecord] at hfull ⊢
      refine (forall_take_concat (R := fun log => PartlyVacuumed callback pages (replay .zero pages log)) _).mpr
        ⟨hwalk, ?_⟩ i
      -- after the last record the index is the one the bulk deletion left
      have hend := hwalk (walLog evs).length
      rw [List.take_length, hvac.restores hwal] at hend
      rw [replay_append, hvac.restores hwal, hfull]
      exact ⟨hwf'.fits, hcont ▸ hend.live_le, hcont ▸ hend.le_old⟩

/-- The tuples a scan returns, as a part of the contents. -/
theorem coe_scanHits (pages : List Page) (keys : List ScanKey) :
    (scanHits pages keys : Multiset IndexTuple) = (contents pages).filter fun t =>
      ((rtreeParseQuery keys).elim false fun query => tupleMatches query.1 query.2 t) = true := by
  rw [scanHits]
  cases rtreeParseQuery keys with
  | none => simp
  | some query =>
      rw [contents, Multiset.filter_coe]
      exact congrArg _ (List.filter_congr fun t _ => Bool.eq_iff_iff.mpr decide_eq_true_iff.symm)

theorem PartlyVacuumed.hits (h : PartlyVacuumed callback pages pages') (keys : List ScanKey) :
    (scanHits pages keys : Multiset IndexTuple).filter (fun t => isAlive callback t = true) ≤ scanHits pages' keys ∧
      (scanHits pages' keys : Multiset IndexTuple) ≤ scanHits pages keys := by
  rw [coe_scanHits, coe_scanHits]
  refine ⟨?_, Multiset.filter_le_filter _ h.le_old⟩
  rw [Multiset.filter_comm]
  exact Multiset.filter_le_filter _ h.live_le

/-- **A crash at any moment of a vacuum loses no live entry.** However many of its records have reached the disk, every
    scan of the recovered index ends, and returns every live tuple it returned before the vacuum and nothing it did not
    return then; tuples the vacuum has removed may be back. That the index takes inserts again is not part of this. -/
theorem vacuum_crash_keeps_live {stats : Option IndexBulkDeleteResult} {res : IndexBulkDeleteResult}
    (hwal : env.needsWal = true) (hwf : WF s.pages)
    (hrun : temporalRtreeBulkdelete env stats callback s = .ok res s') :
    ∃ evs, s'.trace = s.trace ++ evs ∧ ∀ i, PartlyVacuumed callback s.pages (recoverFirst s.pages evs i) ∧
      ∀ (scan : IndexScanDesc) (keys : List ScanKey), keys ≠ [] → scan.keySpace ≠ 0 →
        ∃ (hits : Multiset IndexTuple) (tids : List ItemPointerData) (bound : Nat), tids = hits.map IndexTuple.tTid ∧
          (scanHits s.pages keys : Multiset IndexTuple).filter (fun t => isAlive callback t = true) ≤ hits ∧
          hits ≤ scanHits s.pages keys ∧
          ∀ fuel n, bound ≤ fuel → bound ≤ n → ∃ evs',
            scanAll fuel n scan keys { pages := recoverFirst s.pages evs i } =
              .ok tids { pages := recoverFirst s.pages evs i, trace := evs' } := by
  obtain ⟨walked, pages₁, evs, evs', hvac, hv, -, hshrinks, htrace⟩ := temporalRtreeBulkdelete_eq_ok hwf hrun
  refine ⟨_, htrace, fun i => ?_⟩
  have hlog : walLog ([Event.lock 0 .share, Event.unlock 0] ++ evs ++ ([Event.lock 0 .exclusive,
      Event.lock (metaAt s.pages).root .exclusive] ++ evs' ++
      [Event.unlock (metaAt s.pages).root, Event.unlock 0])) = walLog evs ++ walLog evs' := by simp
  have hpart := partlyVacuumed_bulkdelete hwal hwf hvac hv hshrinks i
  rw [recoverFirst, hlog]
  refine ⟨hpart, fun scan keys hne hspace => ?_⟩
  let s₁ : Rel := { pages := replay .zero s.pages ((walLog evs ++ walLog evs').take i) }
  obtain ⟨bound, hbound⟩ := scanAll_run_of_fits (s := s₁) scan hpart.fits hne hspace
  obtain ⟨hlive, hold⟩ := hpart.hits keys
  refine ⟨_, _, bound, (Multiset.map_coe _ _).symm, hlive, hold, fun fuel n hfuel hn => ?_⟩
  obtain ⟨evs'', hscan⟩ := hbound fuel n hfuel hn
  exact ⟨_, hscan⟩

/-- A crash after the first record of a vacuum that empties the first of two leaves. -/
theorem vacuum_crash_keeps_live_first_record :
    ∃ s s' res evs, runOps roomyEnv [.build (stairRows 6)] { pages := [] } = .ok () s ∧
      temporalRtreeBulkdelete roomyEnv none (some fun tid => tid.offnum ≤ 3) s = .ok res s' ∧
      s'.trace = s.trace ++ evs ∧
      PartlyVacuumed (some fun tid => tid.offnum ≤ 3) s.pages (recoverFirst s.pages evs 1) := by
  have hok : okWith (fun _ s => decide (s.pages.length = 4) && okWith (fun _ _ => true)
      (temporalRtreeBulkdelete roomyEnv none (some fun tid => tid.offnum ≤ 3) s))
      (runOps roomyEnv [.build (stairRows 6)] { pages := [] }) = true := by decide +kernel
  obtain ⟨u, s, hbuild, hs⟩ := exists_of_okWith hok
  obtain ⟨hlen, hdel⟩ := Bool.and_eq_true_iff.mp hs
  obtain ⟨res, s', hrun, -⟩ := exists_of_okWith hdel
  have hwf : WF s.pages := (runOps_valid (Or.inl rfl) hbuild).resolve_left fun hnil => by simp [hnil] at hlen
  obtain ⟨evs, htrace, hcrash⟩ := vacuum_crash_keeps_live rfl hwf hrun
  exact ⟨s, s', res, evs, hbuild, hrun, htrace, (hcrash 1).1⟩

end Crash

end TemporalRTree
