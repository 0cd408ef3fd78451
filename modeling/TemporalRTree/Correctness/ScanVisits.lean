import TemporalRTree.Correctness.PageLife
import TemporalRTree.Correctness.Scan

/-!
# `Correctness.ScanVisits` — the pages a scan has to lock

The scan follows every downlink, whatever its box, and gives up its page before it goes down. So the pages it locks are
the visits of a traversal in the sense of `Lib.Cursor`: each leaf once, and each inner page once for itself and once
more after each child. A turn takes the page it locks off the visits that are left (`ScanTurn.visits`), and so a scan
that runs to its end locks the same pages in the same order for every query (`scanAll_locks`).
-/

namespace TemporalRTree
open EStateM Layout

/-! ## The visits that are left -/

/-- The page the next turn locks: that of the top frame, unless the scan stands on it. -/
def turnLocks (so : RTreeScanOpaqueData) : List BlockNumber :=
  match so.stack with
  | [] => []
  | frame :: _ => if so.curBuf = some frame.blkno then [] else [frame.blkno]

/-- The pages a scan still has to lock: that of its top frame unless it stands on it, what is ahead there, and the same
    for each frame below, to whose page it has to come back. -/
def remainingVisits (pages : List Page) (so : RTreeScanOpaqueData) : List BlockNumber :=
  turnLocks so ++
    match so.stack with
    | [] => []
    | frame :: below =>
        nodes.restVisits (pageAt pages) frame.toFrame ++
          below.flatMap fun f => f.blkno :: nodes.restVisits (pageAt pages) f.toFrame

section Visits
variable {pages : List Page} {so : RTreeScanOpaqueData}

theorem remainingVisits_nil (h : so.stack = []) : remainingVisits pages so = [] := by
  simp [remainingVisits, turnLocks, h]

theorem remainingVisits_cons {frame : RTreeScanFrameData} {below : List RTreeScanFrameData}
    (h : so.stack = frame :: below) :
    remainingVisits pages so = turnLocks so ++ (nodes.restVisits (pageAt pages) frame.toFrame ++
      below.flatMap fun f => f.blkno :: nodes.restVisits (pageAt pages) f.toFrame) := by
  rw [remainingVisits, h]

/-- A scan that stands on no page has to lock that of its top frame. -/
theorem remainingVisits_of_none (h : so.curBuf = none) :
    remainingVisits pages so = so.stack.flatMap fun f => f.blkno :: nodes.restVisits (pageAt pages) f.toFrame := by
  cases hs : so.stack with
  | nil => exact remainingVisits_nil hs
  | cons frame below => simp [remainingVisits_cons hs, turnLocks, hs, h]

end Visits

/-! ## A turn -/

section Turn
variable {s : Rel} {scan scan' : IndexScanDesc} {turn : Turn}

/-- What the visits lose in a turn is the page it locks. -/
theorem ScanTurn.visits {pages : List Page} (h : ScanTurn pages scan turn scan') (hok : StackOk pages scan.so.stack) :
    remainingVisits pages scan.so = turnLocks scan.so ++ remainingVisits pages scan'.so := by
  cases h with
  | finished hs => simp [remainingVisits_nil hs, turnLocks, hs]
  | @hit frame below i t hs hlevel hitem hfilter =>
      -- the scan stays on the leaf, whose other tuples are no pages
      rw [remainingVisits_cons hs, remainingVisits_cons rfl]
      simp [turnLocks, RTreeScanFrameData.toFrame, restVisits, hlevel]
  | @leafEnd frame below hs hlevel hfilter =>
      rw [remainingVisits_cons hs, remainingVisits_of_none rfl]
      simp [RTreeScanFrameData.toFrame, restVisits, hlevel]
  | @descend frame below l t hs hlevel hitem =>
      obtain ⟨-, -, hoff⟩ := hok frame (by simp [hs])
      obtain ⟨blkno, level, nextOffset⟩ := frame
      dsimp only at hlevel hoff hitem
      subst hlevel
      have hnext : nextOffset + 1 - 1 = nextOffset - 1 + 1 := (Nat.sub_add_cancel hoff).symm
      rw [remainingVisits_cons hs, remainingVisits_of_none rfl]
      simp only [RTreeScanFrameData.toFrame, List.flatMap_cons, restVisits_kid (kids_getElem? hitem), visits_eq, hnext,
        firstOffsetNumber, Nat.sub_self, List.cons_append, List.append_assoc]
  | @innerEnd frame below l hs hlevel hend =>
      obtain ⟨blkno, level, nextOffset⟩ := frame
      dsimp only at hlevel hend
      subst hlevel
      have hnil : nodes.restVisits (pageAt pages) ⟨blkno, l + 1, nextOffset - 1⟩ = [] :=
        restVisits_exhausted (by simpa [nodes] using hend)
      rw [remainingVisits_cons hs, remainingVisits_of_none rfl]
      simp only [RTreeScanFrameData.toFrame, hnil, List.nil_append]

/-- A turn locks no other page. -/
theorem lockedBlocks_rtreeScanTurn {evs : List Event} (hok : StackOk s.pages scan.so.stack)
    (hrun : rtreeScanTurn scan s = .ok (turn, scan') { s with trace := s.trace ++ evs }) :
    lockedBlocks evs = turnLocks scan.so := by
  -- the run is the one of `rtreeScanTurn_locks`, so its events are those
  have hsame : ∀ {evs' : List Event} {res : Turn × IndexScanDesc},
      rtreeScanTurn scan s = .ok res { s with trace := s.trace ++ evs' } → evs = evs' := by
    intro evs' res h
    rw [hrun] at h
    simpa using congrArg Rel.trace (Result.ok.inj h).2
  cases hs : scan.so.stack with
  | nil =>
      have hfinished : rtreeScanTurn scan s = .ok (.finished, scan) { s with trace := s.trace ++ [] } := by
        simp [rtreeScanTurn, hs]
      rw [hsame hfinished, turnLocks, hs]
      rfl
  | cons frame below =>
      obtain ⟨-, hin, -⟩ := hok frame (by simp [hs])
      obtain ⟨evs₀, hstand, hlocks₀⟩ := standOnFrame_locks (s := s) scan.so (hin frame.blkno self_mem_blocks)
      obtain ⟨evs₁, hrun₁, hlocks₁⟩ := rtreeScanTurn_locks hs hstand
      rw [hsame hrun₁, hlocks₁, hlocks₀, turnLocks, hs]

end Turn

/-! ## Calls -/

/-- What a call does to the pages that are left: those it locks are taken off, and none is left at the end. -/
structure CallVisits (pages : List Page) (scan : IndexScanDesc) (found : Bool) (scan' : IndexScanDesc)
    (evs : List Event) : Prop where
  stackOk : StackOk pages scan'.so.stack
  sameQuery : SameQuery scan scan'
  visits : remainingVisits pages scan.so = lockedBlocks evs ++ remainingVisits pages scan'.so
  ended : found = false → remainingVisits pages scan'.so = []

section Calls
variable {s s' : Rel} {scan scan' : IndexScanDesc} {fuel : Nat}

theorem rtreeScanNext_visits {found : Bool} (hok : StackOk s.pages scan.so.stack)
    (hrun : rtreeScanNext fuel scan s = .ok (found, scan') s') :
    ∃ evs, s' = { s with trace := s.trace ++ evs } ∧ CallVisits s.pages scan found scan' evs := by
  induction fuel generalizing scan s with
  | zero => cases hrun
  | succ fuel ih =>
      obtain ⟨turn, scan₁, evs, hturn, hcase⟩ := rtreeScanTurn_cases hok
      have hvisits := hcase.visits hok
      rw [← lockedBlocks_rtreeScanTurn hok hturn] at hvisits
      rw [rtreeScanNext, bind_of_ok hturn] at hrun
      cases turn with
      | finished =>
          cases hrun
          refine ⟨evs, rfl, hcase.stackOk hok, hcase.sameQuery, hvisits, fun _ => ?_⟩
          cases hcase with
          | finished hs => exact remainingVisits_nil hs
      | returned =>
          cases hrun
          exact ⟨evs, rfl, hcase.stackOk hok, hcase.sameQuery, hvisits, fun h => absurd h (by simp)⟩
      | again =>
          obtain ⟨evs', rfl, hcall⟩ := ih (s := { s with trace := s.trace ++ evs }) (hcase.stackOk hok) hrun
          refine ⟨evs ++ evs', by rw [List.append_assoc], hcall.stackOk, hcase.sameQuery.trans hcall.sameQuery, ?_,
            hcall.ended⟩
          rw [hvisits, hcall.visits, lockedBlocks_append, List.append_assoc]

/-- A started scan that runs to its end locks the pages it has left. -/
theorem gettupleAll_visits {n : Nat} {tids : List ItemPointerData} (hstarted : scan.so.firstCall = false)
    (hok : StackOk s.pages scan.so.stack) (hrun : gettupleAll fuel n scan s = .ok tids s') :
    ∃ evs, s' = { s with trace := s.trace ++ evs } ∧ lockedBlocks evs = remainingVisits s.pages scan.so := by
  induction n generalizing scan s tids with
  | zero => cases hrun
  | succ n ih =>
      obtain ⟨⟨found, scan₁⟩, s₁, hget, hrest⟩ := bind_eq_ok.mp hrun
      rw [temporalRtreeGettuple_next hstarted] at hget
      obtain ⟨evs, rfl, hcall⟩ := rtreeScanNext_visits hok hget
      cases found with
      | false =>
          cases hrest
          exact ⟨evs, rfl, by rw [hcall.visits, hcall.ended rfl, List.append_nil]⟩
      | true =>
          obtain ⟨rest, s₂, hall, hret⟩ := bind_eq_ok.mp hrest
          cases hret
          obtain ⟨evs', rfl, hlocks⟩ := ih (s := { s with trace := s.trace ++ evs })
            (hcall.sameQuery.firstCall.trans hstarted) hcall.stackOk hall
          refine ⟨evs ++ evs', by rw [List.append_assoc], ?_⟩
          rw [lockedBlocks_append, hlocks, hcall.visits]

end Calls

/-! ## A scan from its start -/

section Start
variable {s : Rel} {scan : IndexScanDesc} {keys : List ScanKey} {query : RTreeTemporalBox × StrategyNumber}

/-- All visits of the tree are ahead of a scan that starts at the root. -/
theorem startedScan_visits {pages : List Page} : remainingVisits pages (startedScan pages scan query).so =
    nodes.visits (pageAt pages) (metaAt pages).rootLevel (metaAt pages).root := by
  rw [remainingVisits_of_none rfl, visits_eq]
  simp [startedScan, RTreeScanFrameData.toFrame, firstOffsetNumber]

/-- A scan with a usable key that runs to its end locks the metapage and then makes the visits of the tree. -/
theorem lockedBlocks_scanAll {fuel n : Nat} {tids : List ItemPointerData} {evs : List Event} (hwf : WF s.pages)
    (hne : keys ≠ []) (hspace : scan.keySpace ≠ 0) (hquery : rtreeParseQuery keys = some query)
    (hrun : scanAll fuel n scan keys s = .ok tids { s with trace := s.trace ++ evs }) :
    lockedBlocks evs = 0 :: nodes.visits (pageAt s.pages) (metaAt s.pages).rootLevel (metaAt s.pages).root := by
  cases n with
  | zero =>
      obtain ⟨_, _, -, hnone⟩ := bind_eq_ok.mp hrun
      cases hnone
  | succ n =>
      obtain ⟨evs₁, hmeta, hstart⟩ := scanAll_started scan hwf.fits hne hspace hquery
      rw [hstart] at hrun
      obtain ⟨evs₂, hs', hlocks⟩ := gettupleAll_visits (s := { s with trace := s.trace ++ evs₁ }) rfl
        (startedScan_stackOk (rescanned scan keys) hwf.fits) hrun
      have hevs : evs = evs₁ ++ evs₂ := by simpa using congrArg Rel.trace hs'
      rw [hevs, lockedBlocks_append, hmeta, hlocks, startedScan_visits, List.singleton_append]

/-- **A scan locks every page of the tree, whatever it looks for.** With a usable key it locks the metapage and then
    makes the visits of a traversal of the whole tree: two page locks for each page of the tree in all. -/
theorem scan_visits_every_page (hwf : WF s.pages) (hquery : rtreeParseQuery keys = some query)
    (hspace : scan.keySpace ≠ 0) :
    ∃ bound, ∀ fuel n, bound ≤ fuel → bound ≤ n →
      ∃ evs, scanAll fuel n scan keys s =
          .ok ((scanHits s.pages keys).map IndexTuple.tTid) { s with trace := s.trace ++ evs } ∧
        lockedBlocks evs =
          0 :: nodes.visits (pageAt s.pages) (metaAt s.pages).rootLevel (metaAt s.pages).root ∧
        (lockedBlocks evs).length =
          2 * (nodes.blocks (pageAt s.pages) (metaAt s.pages).rootLevel (metaAt s.pages).root).length ∧
        ∀ b, Linked s.pages b → b ∈ lockedBlocks evs := by
  have hne : keys ≠ [] := by
    rintro rfl
    cases hquery
  obtain ⟨bound, hbound⟩ := scanAll_run scan hwf hne hspace
  refine ⟨bound, fun fuel n hfuel hn => ?_⟩
  obtain ⟨evs, hrun⟩ := hbound fuel n hfuel hn
  have hlocks := lockedBlocks_scanAll hwf hne hspace hquery hrun
  refine ⟨evs, hrun, hlocks, ?_, fun b hb => ?_⟩
  · rw [hlocks, List.length_cons, length_visits]
  · rw [hlocks]
    exact List.mem_cons_of_mem _ (blocks_subset_visits ((linked_iff hwf).mp hb))

/-- A key for a period before 0. -/
def longAgo : ScanKey := ⟨trtreeStrategyOverlap, some (rowCube 0 (-10) (.fin (-5)))⟩

/-- An index with a root and two leaves and no row as old: the scan returns nothing and locks six pages. -/
theorem scan_visits_every_page_no_match :
    ∃ s fuel n evs, runOps roomyEnv ((stairRows 6).map Op.insert) { pages := [] } = .ok () s ∧
      scanAll fuel n (temporalRtreeBeginscan 1) [longAgo] s = .ok [] { s with trace := s.trace ++ evs } ∧
      (lockedBlocks evs).length = 6 := by
  have hok : okWith (fun _ s => decide (s.pages.length = 4 ∧
      (nodes.blocks (pageAt s.pages) (metaAt s.pages).rootLevel (metaAt s.pages).root).length = 3 ∧
      scanHits s.pages [longAgo] = []))
      (runOps roomyEnv ((stairRows 6).map Op.insert) { pages := [] }) = true := by decide +kernel
  obtain ⟨u, s, hrun, hs⟩ := exists_of_okWith hok
  obtain ⟨hlen, hthree, hnone⟩ := of_decide_eq_true hs
  have hwf : WF s.pages := (runOps_valid (Or.inl rfl) hrun).resolve_left fun hnil => by simp [hnil] at hlen
  have hquery : rtreeParseQuery [longAgo] = some (rtreeCubeToBox (rowCube 0 (-10) (.fin (-5))), trtreeStrategyOverlap) :=
    rfl
  have hspace : (temporalRtreeBeginscan 1).keySpace ≠ 0 := Nat.one_ne_zero
  obtain ⟨bound, hscan⟩ := scan_visits_every_page hwf hquery hspace
  obtain ⟨evs, hall, -, htwice, -⟩ := hscan bound bound (Nat.le_refl _) (Nat.le_refl _)
  exact ⟨s, bound, bound, evs, hrun, by rw [hall, hnone]; rfl, by rw [htwice, hthree]⟩

end Start

end TemporalRTree
