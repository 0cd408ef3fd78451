import TemporalRTree.Lib.Cursor
import TemporalRTree.Model.Search
import TemporalRTree.Correctness.InsertRun

/-!
# `Correctness.Scan` — what a scan returns

A scan is a traversal with a stack of frames in the sense of `Lib.Cursor`: each turn of its loop is one move
(`ScanTurn`), and with enough fuel a call returns the next leaf tuple that matches the query, or false when
there is none left. So a scan by itself returns exactly the matching tuples of the tree, in order.
-/

namespace TemporalRTree
open EStateM Layout

/-- Whether a tuple satisfies a query. -/
def tupleMatches (queryBox : RTreeTemporalBox) (strategy : StrategyNumber) (t : IndexTuple) : Bool :=
  match rtreeIndexTupleBox t with
  | none => false
  | some box => rtreeBoxMatchesStrategy box queryBox strategy

/-! ## The loop over a page -/

section Offsets
variable (q : RTreeTemporalBox) (strategy : StrategyNumber)

/-- In a leaf the loop stops at the first match. -/
theorem scanOffsets_leaf (items : List IndexTuple) (offset : OffsetNumber) :
    (items.filter (tupleMatches q strategy) = [] ∧ scanOffsets 0 q strategy items offset = .exhausted) ∨
      ∃ i t, items[i]? = some t ∧ scanOffsets 0 q strategy items offset = .returns (offset + i) t ∧
        items.filter (tupleMatches q strategy) =
          t :: (items.drop (i + 1)).filter (tupleMatches q strategy) := by
  induction items generalizing offset with
  | nil => exact Or.inl ⟨rfl, rfl⟩
  | cons u rest ih =>
      by_cases hu : tupleMatches q strategy u = true
      · refine Or.inr ⟨0, u, rfl, ?_, by simp [hu]⟩
        simp only [tupleMatches] at hu
        cases hbox : rtreeIndexTupleBox u with
        | none => simp [hbox] at hu
        | some box =>
            have hyes : rtreeBoxMatchesStrategy box q strategy = true := by simpa [hbox] using hu
            simp [scanOffsets, hbox, hyes]
      · have hskip : scanOffsets 0 q strategy (u :: rest) offset =
            scanOffsets 0 q strategy rest (offset + 1) := by
          simp only [tupleMatches] at hu
          cases hbox : rtreeIndexTupleBox u with
          | none => simp [scanOffsets, hbox]
          | some box =>
              have hno : rtreeBoxMatchesStrategy box q strategy = false := by simpa [hbox] using hu
              simp [scanOffsets, hbox, hno]
        rw [hskip, List.filter_cons_of_neg hu]
        rcases ih (offset + 1) with h | ⟨i, t, hi, hret, hfil⟩
        · exact Or.inl h
        · exact Or.inr ⟨i + 1, t, hi, by rw [hret, Nat.add_assoc, Nat.add_comm 1 i], hfil⟩

/-- On an inner page the loop stops at the first downlink. -/
theorem scanOffsets_inner {level : Nat} {t : IndexTuple} {rest : List IndexTuple} (offset : OffsetNumber)
    (hlevel : level ≠ 0) (hkey : t.key.isSome = true) :
    scanOffsets level q strategy (t :: rest) offset = .descends offset t.tTid.blkno := by
  obtain ⟨cube, hcube⟩ := Option.isSome_iff_exists.mp hkey
  simp [scanOffsets, rtreeIndexTupleBox, hcube, hlevel]

end Offsets

/-! ## One turn -/

/-- A frame of the scan as a frame of a traversal. -/
def RTreeScanFrameData.toFrame (f : RTreeScanFrameData) : Frame BlockNumber :=
  { block := f.blkno, level := f.level, pos := f.nextOffset - 1 }

/-- A stack of trees of the relation without NULL keys, with valid offsets. -/
def StackOk (pages : List Page) (stack : List RTreeScanFrameData) : Prop :=
  ∀ f ∈ stack, nodes.Holds (fun _ => Keyed) (pageAt pages) f.level f.blkno ∧
    (∀ x ∈ nodes.blocks (pageAt pages) f.level f.blkno, x < pages.length) ∧ 1 ≤ f.nextOffset

/-- A turn of the loop of `rtree_scan_next` over trees of the relation. -/
inductive ScanTurn (pages : List Page) (scan : IndexScanDesc) : Turn → IndexScanDesc → Prop where
  | finished (hs : scan.so.stack = []) : ScanTurn pages scan .finished scan
  | hit {frame : RTreeScanFrameData} {below : List RTreeScanFrameData} {i : Nat} {t : IndexTuple}
      (hs : scan.so.stack = frame :: below) (hlevel : frame.level = 0)
      (hitem : ((pageAt pages frame.blkno).items.drop (frame.nextOffset - 1))[i]? = some t)
      (hfilter : ((pageAt pages frame.blkno).items.drop (frame.nextOffset - 1)).filter
          (tupleMatches scan.so.queryBox scan.so.strategy) =
        t :: (((pageAt pages frame.blkno).items.drop (frame.nextOffset - 1)).drop (i + 1)).filter
          (tupleMatches scan.so.queryBox scan.so.strategy)) :
      ScanTurn pages scan .returned
        { scan with
          so := { scan.so with
            curBuf := some frame.blkno
            stack := { frame with nextOffset := frame.nextOffset + i + 1 } :: below }
          xsHeaptid := t.tTid
          xsRecheck := false }
  | leafEnd {frame : RTreeScanFrameData} {below : List RTreeScanFrameData}
      (hs : scan.so.stack = frame :: below) (hlevel : frame.level = 0)
      (hfilter : ((pageAt pages frame.blkno).items.drop (frame.nextOffset - 1)).filter
        (tupleMatches scan.so.queryBox scan.so.strategy) = []) :
      ScanTurn pages scan .again { scan with so := { scan.so with curBuf := none, stack := below } }
  | descend {frame : RTreeScanFrameData} {below : List RTreeScanFrameData} {l : Nat} {t : IndexTuple}
      (hs : scan.so.stack = frame :: below) (hlevel : frame.level = l + 1)
      (hitem : (pageAt pages frame.blkno).items[frame.nextOffset - 1]? = some t) :
      ScanTurn pages scan .again
        { scan with so := { scan.so with
            curBuf := none
            stack := { blkno := t.tTid.blkno, level := l, nextOffset := firstOffsetNumber } ::
              { frame with nextOffset := frame.nextOffset + 1 } :: below } }
  | innerEnd {frame : RTreeScanFrameData} {below : List RTreeScanFrameData} {l : Nat}
      (hs : scan.so.stack = frame :: below) (hlevel : frame.level = l + 1)
      (hend : (pageAt pages frame.blkno).items.length ≤ frame.nextOffset - 1) :
      ScanTurn pages scan .again { scan with so := { scan.so with curBuf := none, stack := below } }

/-- The blocks locked in a trace, in order. -/
def lockedBlocks (evs : List Event) : List BlockNumber :=
  evs.filterMap fun
    | .lock blkno _ => some blkno
    | _ => none

@[simp] theorem lockedBlocks_append (evs evs' : List Event) :
    lockedBlocks (evs ++ evs') = lockedBlocks evs ++ lockedBlocks evs' := List.filterMap_append

section Turn
variable {s : Rel}

@[simp] theorem manager_readBuffer (b : BlockNumber) : (BufferManager.readBuffer b : IndexM Unit) = readBuffer b := rfl

@[simp] theorem manager_lockForRead (b : BlockNumber) :
    (BufferManager.lockForRead b : IndexM Unit) = lockBuffer b .share := rfl

@[simp] theorem manager_unlock (b : BlockNumber) : (BufferManager.unlock b : IndexM Unit) = unlockBuffer b := rfl

@[simp] theorem manager_releaseBuffer (b : BlockNumber) :
    (BufferManager.releaseBuffer b : IndexM Unit) = pure () := rfl

@[simp] theorem manager_getPage (b : BlockNumber) : (BufferManager.getPage b : IndexM DataPage) = bufferGetPage b := rfl

theorem rtreeReadMeta_eq : (rtreeReadMeta : IndexM RTreeMetaPageData) = readMeta := rfl

theorem rtreeReleaseCurrentPage_locks (so : RTreeScanOpaqueData) :
    ∃ evs, rtreeReleaseCurrentPage so s = .ok { so with curBuf := none } { s with trace := s.trace ++ evs } ∧
      lockedBlocks evs = [] := by
  obtain ⟨curBuf, firstCall, queryBox, strategy, haveQuery, stack⟩ := so
  cases curBuf with
  | none => exact ⟨[], by simp [rtreeReleaseCurrentPage], rfl⟩
  | some b => exact ⟨[Event.unlock b], by simp [rtreeReleaseCurrentPage, bind_apply], rfl⟩

theorem rtreeReleaseCurrentPage_run (so : RTreeScanOpaqueData) :
    ∃ evs, rtreeReleaseCurrentPage so s = .ok { so with curBuf := none } { s with trace := s.trace ++ evs } := by
  obtain ⟨evs, hrel, -⟩ := rtreeReleaseCurrentPage_locks (s := s) so
  exact ⟨evs, hrel⟩

theorem standOnFrame_locks (so : RTreeScanOpaqueData) {blkno : BlockNumber} (h : blkno < s.pages.length) :
    ∃ evs, standOnFrame so blkno s = .ok { so with curBuf := some blkno } { s with trace := s.trace ++ evs } ∧
      lockedBlocks evs = if so.curBuf = some blkno then [] else [blkno] := by
  by_cases hcur : so.curBuf = some blkno
  · refine ⟨[], ?_, by rw [if_pos hcur]; rfl⟩
    obtain ⟨curBuf, firstCall, queryBox, strategy, haveQuery, stack⟩ := so
    simp only at hcur
    simp [standOnFrame, hcur]
  · obtain ⟨evs, hrel, hnone⟩ := rtreeReleaseCurrentPage_locks (s := s) so
    refine ⟨evs ++ [Event.lock blkno .share], ?_, ?_⟩
    · rw [standOnFrame, if_neg hcur, bind_of_ok hrel, manager_readBuffer, bind_of_ok (readBuffer_run_of_lt h),
        manager_lockForRead, bind_of_ok (lockBuffer_run _ _ _), pure_apply, List.append_assoc]
    · rw [lockedBlocks_append, hnone, if_neg hcur]
      rfl

theorem standOnFrame_run (so : RTreeScanOpaqueData) {blkno : BlockNumber} (h : blkno < s.pages.length) :
    ∃ evs, standOnFrame so blkno s =
      .ok { so with curBuf := some blkno } { s with trace := s.trace ++ evs } := by
  obtain ⟨evs, hstand, -⟩ := standOnFrame_locks so h
  exact ⟨evs, hstand⟩

/-- The outcome of a turn on the page of `frame`, by where the loop over its offsets ended. -/
def turnOutcome (scan : IndexScanDesc) (frame : RTreeScanFrameData) (below : List RTreeScanFrameData) :
    OffsetHit → Turn × IndexScanDesc
  | .returns offset itup => (.returned,
      { scan with
        so := { scan.so with
          curBuf := some frame.blkno
          stack := { frame with nextOffset := offset + 1 } :: below }
        xsHeaptid := itup.tTid
        xsRecheck := false })
  | .descends offset childblk => (.again,
      { scan with so := { scan.so with
          curBuf := none
          stack := { blkno := childblk, level := frame.level - 1, nextOffset := firstOffsetNumber } ::
            { frame with nextOffset := offset + 1 } :: below } })
  | .exhausted => (.again, { scan with so := { scan.so with curBuf := none, stack := below } })

/-- A turn that stands on the page of its frame locks no other page. -/
theorem rtreeScanTurn_locks {scan : IndexScanDesc} {frame : RTreeScanFrameData}
    {below : List RTreeScanFrameData} {evs : List Event} (hs : scan.so.stack = frame :: below)
    (hstand : standOnFrame scan.so frame.blkno s =
      .ok { scan.so with curBuf := some frame.blkno } { s with trace := s.trace ++ evs }) :
    ∃ evs', rtreeScanTurn scan s =
        .ok (turnOutcome scan frame below (scanOffsets frame.level scan.so.queryBox scan.so.strategy
          ((pageAt s.pages frame.blkno).items.drop (frame.nextOffset - 1)) frame.nextOffset))
          { s with trace := s.trace ++ evs' } ∧
      lockedBlocks evs' = lockedBlocks evs := by
  simp only [rtreeScanTurn, hs]
  rw [bind_of_ok hstand, manager_getPage, bind_of_ok (bufferGetPage_run _ _)]
  dsimp only
  cases scanOffsets frame.level scan.so.queryBox scan.so.strategy
    ((pageAt s.pages frame.blkno).items.drop (frame.nextOffset - 1)) frame.nextOffset with
  | returns offset itup => exact ⟨evs, rfl, rfl⟩
  | descends offset childblk =>
      obtain ⟨evs', hrel, hnone⟩ := rtreeReleaseCurrentPage_locks (s := { s with trace := s.trace ++ evs })
        { scan.so with
          curBuf := some frame.blkno
          stack := { frame with nextOffset := offset + 1 } :: below }
      refine ⟨evs ++ evs', ?_, by rw [lockedBlocks_append, hnone, List.append_nil]⟩
      dsimp only
      rw [bind_of_ok hrel, pure_apply, List.append_assoc]
      rfl
  | exhausted =>
      obtain ⟨evs', hrel, hnone⟩ := rtreeReleaseCurrentPage_locks (s := { s with trace := s.trace ++ evs })
        { scan.so with curBuf := some frame.blkno }
      refine ⟨evs ++ evs', ?_, by rw [lockedBlocks_append, hnone, List.append_nil]⟩
      dsimp only
      rw [bind_of_ok hrel, pure_apply, List.append_assoc]
      rfl

theorem rtreeScanTurn_run {scan : IndexScanDesc} {frame : RTreeScanFrameData}
    {below : List RTreeScanFrameData} {evs : List Event} (hs : scan.so.stack = frame :: below)
    (hstand : standOnFrame scan.so frame.blkno s =
      .ok { scan.so with curBuf := some frame.blkno } { s with trace := s.trace ++ evs }) :
    ∃ evs', rtreeScanTurn scan s =
      .ok (turnOutcome scan frame below (scanOffsets frame.level scan.so.queryBox scan.so.strategy
        ((pageAt s.pages frame.blkno).items.drop (frame.nextOffset - 1)) frame.nextOffset))
        { s with trace := s.trace ++ evs' } := by
  obtain ⟨evs', hrun, -⟩ := rtreeScanTurn_locks hs hstand
  exact ⟨evs', hrun⟩

/-- **Every turn over trees of the relation is one of these.** -/
theorem rtreeScanTurn_cases {scan : IndexScanDesc} (hok : StackOk s.pages scan.so.stack) :
    ∃ turn scan' evs, rtreeScanTurn scan s = .ok (turn, scan') { s with trace := s.trace ++ evs } ∧
      ScanTurn s.pages scan turn scan' := by
  cases hs : scan.so.stack with
  | nil => exact ⟨.finished, scan, [], by simp [rtreeScanTurn, hs], .finished hs⟩
  | cons frame below =>
      obtain ⟨hholds, hin, hoff⟩ := hok frame (by simp [hs])
      obtain ⟨evs₀, hstand⟩ := standOnFrame_run (s := s) scan.so (hin frame.blkno self_mem_blocks)
      obtain ⟨evs, hrun⟩ := rtreeScanTurn_run hs hstand
      refine ⟨_, _, evs, hrun, ?_⟩
      obtain ⟨blkno, level, nextOffset⟩ := frame
      dsimp only at hholds hin hoff
      cases level with
      | zero =>
          rcases scanOffsets_leaf scan.so.queryBox scan.so.strategy
            ((pageAt s.pages blkno).items.drop (nextOffset - 1)) nextOffset with
            ⟨hnone, hex⟩ | ⟨i, t, hi, hret, hfil⟩
          · rw [hex]
            exact .leafEnd hs rfl hnone
          · rw [hret]
            exact .hit hs rfl hi hfil
      | succ l =>
          cases hitems : (pageAt s.pages blkno).items.drop (nextOffset - 1) with
          | nil => exact .innerEnd hs rfl (List.drop_eq_nil_iff.mp hitems)
          | cons t rest =>
              have hitem : (pageAt s.pages blkno).items[nextOffset - 1]? = some t := by
                rw [← List.head?_drop, hitems]
                rfl
              have hkey := hholds.node t (List.mem_of_getElem? hitem)
              rw [scanOffsets_inner _ _ nextOffset (Nat.succ_ne_zero l) hkey]
              exact .descend hs rfl hitem

end Turn

/-! ## What a turn does to the traversal -/

/-- The matching tuples a scan has not returned yet. -/
def remainingHits (pages : List Page) (so : RTreeScanOpaqueData) : List IndexTuple :=
  (nodes.stackLeaves (pageAt pages) (so.stack.map RTreeScanFrameData.toFrame)).filter
    (tupleMatches so.queryBox so.strategy)

/-- A bound on the turns a scan has left. -/
def remainingTurns (pages : List Page) (so : RTreeScanOpaqueData) : Nat :=
  nodes.stackWork (pageAt pages) (so.stack.map RTreeScanFrameData.toFrame)

section TurnSpec
variable {pages : List Page} {scan scan' : IndexScanDesc} {turn : Turn}

theorem StackOk.tail {frame : RTreeScanFrameData} {below : List RTreeScanFrameData}
    (h : StackOk pages (frame :: below)) : StackOk pages below :=
  fun f hf => h f (List.mem_cons_of_mem _ hf)

theorem kids_getElem? {page : DataPage} {i : Nat} {t : IndexTuple} (h : page.items[i]? = some t) :
    (nodes.kids page)[i]? = some t.tTid.blkno := by
  simp [nodes, h]

theorem ScanTurn.stackOk (h : ScanTurn pages scan turn scan') (hok : StackOk pages scan.so.stack) :
    StackOk pages scan'.so.stack := by
  cases h with
  | finished => exact hok
  | @hit frame below i t hs hlevel hitem hfilter =>
      rw [hs] at hok
      intro f hf
      rcases List.mem_cons.mp hf with rfl | hf
      · obtain ⟨h1, h2, -⟩ := hok frame List.mem_cons_self
        exact ⟨h1, h2, Nat.succ_le_of_lt (Nat.succ_pos _)⟩
      · exact hok.tail f hf
  | leafEnd hs => exact (hs ▸ hok).tail
  | @descend frame below l t hs hlevel hitem =>
      rw [hs] at hok
      obtain ⟨h1, h2, -⟩ := hok frame List.mem_cons_self
      rw [hlevel] at h1 h2
      have hkid := List.mem_of_getElem? (kids_getElem? hitem)
      intro f hf
      rcases List.mem_cons.mp hf with rfl | hf
      · exact ⟨h1.2 _ hkid, fun x hx => h2 x (List.mem_cons_of_mem _ (blocks_subset_forest hkid hx)),
          Nat.le_refl _⟩
      · rcases List.mem_cons.mp hf with rfl | hf
        · rw [← hlevel] at h1 h2
          exact ⟨h1, h2, Nat.succ_le_of_lt (Nat.succ_pos _)⟩
        · exact hok.tail f hf
  | innerEnd hs => exact (hs ▸ hok).tail

/-- The leaf part of `remainingHits`. -/
theorem remainingHits_leaf (pages : List Page) (so : RTreeScanOpaqueData) {frame : RTreeScanFrameData}
    {below : List RTreeScanFrameData} (hs : so.stack = frame :: below) (hlevel : frame.level = 0) :
    remainingHits pages so =
      ((pageAt pages frame.blkno).items.drop (frame.nextOffset - 1)).filter
          (tupleMatches so.queryBox so.strategy) ++
        remainingHits pages { so with stack := below } := by
  simp only [remainingHits, hs, List.map_cons, stackLeaves_cons, List.filter_append]
  congr 2
  simp [RTreeScanFrameData.toFrame, restLeaves, hlevel, nodes]

/-- Following a downlink changes nothing about what is ahead, and takes a move. -/
theorem stack_descend {frame : RTreeScanFrameData} {l : Nat} {t : IndexTuple}
    (stack : List (Frame BlockNumber)) (hlevel : frame.level = l + 1) (hoff : 1 ≤ frame.nextOffset)
    (hitem : (pageAt pages frame.blkno).items[frame.nextOffset - 1]? = some t) :
    let child : RTreeScanFrameData := { blkno := t.tTid.blkno, level := l, nextOffset := firstOffsetNumber }
    let frame' : RTreeScanFrameData := { frame with nextOffset := frame.nextOffset + 1 }
    nodes.stackLeaves (pageAt pages) (child.toFrame :: frame'.toFrame :: stack) =
        nodes.stackLeaves (pageAt pages) (frame.toFrame :: stack) ∧
      nodes.stackWork (pageAt pages) (child.toFrame :: frame'.toFrame :: stack) <
        nodes.stackWork (pageAt pages) (frame.toFrame :: stack) := by
  obtain ⟨blkno, level, nextOffset⟩ := frame
  subst hlevel
  have hkid := kids_getElem? hitem
  have hnext : nextOffset + 1 - 1 = nextOffset - 1 + 1 := (Nat.sub_add_cancel hoff).symm
  simp only [RTreeScanFrameData.toFrame, firstOffsetNumber, stackLeaves_cons, stackWork_cons,
    restLeaves_kid hkid, frameWork_kid hkid, hnext, Nat.sub_self, restLeaves_start, frameWork_start,
    List.append_assoc, true_and]
  omega

/-- What a turn takes off the traversal. -/
def TurnTakes (pages : List Page) (scan : IndexScanDesc) : Turn → IndexScanDesc → Prop
  | .finished, scan' => scan' = scan ∧ remainingHits pages scan.so = []
  | .again, scan' => remainingHits pages scan'.so = remainingHits pages scan.so
  | .returned, scan' => ∃ t, remainingHits pages scan.so = t :: remainingHits pages scan'.so ∧
      scan'.xsHeaptid = t.tTid ∧ scan'.xsRecheck = false

/-- The offset after item `i` past `n`, as a position. -/
theorem offset_skip {n i : Nat} (h : 1 ≤ n) : n + i + 1 - 1 = n - 1 + (i + 1) := by omega

/-- **A turn takes at most the next match off the traversal.** -/
theorem ScanTurn.hits (h : ScanTurn pages scan turn scan') (hok : StackOk pages scan.so.stack) :
    TurnTakes pages scan turn scan' := by
  cases h with
  | finished hs => exact ⟨rfl, by simp [remainingHits, hs]⟩
  | @hit frame below i t hs hlevel hitem hfilter =>
      obtain ⟨-, -, hoff⟩ := hok frame (by simp [hs])
      refine ⟨t, ?_, rfl, rfl⟩
      have hnew := remainingHits_leaf pages { scan.so with
        stack := { frame with nextOffset := frame.nextOffset + i + 1 } :: below } rfl hlevel
      rw [List.drop_drop, ← offset_skip hoff] at hfilter
      rw [remainingHits_leaf _ _ hs hlevel, hfilter, List.cons_append]
      exact congrArg (t :: ·) hnew.symm
  | leafEnd hs hlevel hfilter =>
      show remainingHits pages _ = _
      rw [remainingHits_leaf _ _ hs hlevel, hfilter]
      rfl
  | @descend frame below l t hs hlevel hitem =>
      have hstack := (stack_descend (below.map RTreeScanFrameData.toFrame) hlevel
        (hok _ (by simp [hs])).2.2 hitem).1
      show remainingHits pages _ = _
      simp only [remainingHits, hs, List.map_cons]
      rw [← hstack]
  | @innerEnd frame below l hs hlevel hend =>
      obtain ⟨blkno, level, nextOffset⟩ := frame
      obtain rfl : level = l + 1 := hlevel
      have hnil : nodes.restLeaves (pageAt pages) ⟨blkno, l + 1, nextOffset - 1⟩ = [] :=
        restLeaves_exhausted_inner (by simpa [nodes] using hend)
      show remainingHits pages _ = _
      simp [remainingHits, hs, RTreeScanFrameData.toFrame, hnil]

/-- Every turn makes progress. -/
theorem ScanTurn.progress (h : ScanTurn pages scan turn scan') (hok : StackOk pages scan.so.stack)
    (hne : turn ≠ .finished) : remainingTurns pages scan'.so < remainingTurns pages scan.so := by
  have hpop : ∀ {frame below}, scan.so.stack = frame :: below →
      remainingTurns pages { scan.so with curBuf := none, stack := below } <
        remainingTurns pages scan.so := by
    intro frame below hs
    have : 0 < nodes.frameWork (pageAt pages) frame.toFrame := frameWork_pos _
    simp only [remainingTurns, hs, List.map_cons, stackWork_cons]
    omega
  cases h with
  | finished => exact absurd rfl hne
  | @hit frame below i t hs hlevel hitem hfilter =>
      obtain ⟨-, -, hoff⟩ := hok frame (by simp [hs])
      obtain ⟨blkno, level, nextOffset⟩ := frame
      dsimp only at hlevel hoff hitem
      subst hlevel
      rw [List.getElem?_drop] at hitem
      have hlt : nextOffset - 1 < (nodes.vals (pageAt pages blkno)).length :=
        Nat.lt_of_le_of_lt (Nat.le_add_right _ i) (List.getElem?_eq_some_iff.mp hitem).1
      have hwork := frameWork_leaf (Nat.lt_add_of_pos_right (Nat.succ_pos i)) hlt
      simp only [remainingTurns, hs, List.map_cons, stackWork_cons, RTreeScanFrameData.toFrame,
        offset_skip hoff]
      exact Nat.add_lt_add_right hwork _
  | leafEnd hs => exact hpop hs
  | @descend frame below l t hs hlevel hitem =>
      have hstack := (stack_descend (below.map RTreeScanFrameData.toFrame) hlevel
        (hok _ (by simp [hs])).2.2 hitem).2
      simp only [remainingTurns, hs, List.map_cons]
      exact hstack
  | innerEnd hs => exact hpop hs

/-- The query and the keys stay as they are. -/
structure SameQuery (scan scan' : IndexScanDesc) : Prop where
  queryBox : scan'.so.queryBox = scan.so.queryBox
  strategy : scan'.so.strategy = scan.so.strategy
  firstCall : scan'.so.firstCall = scan.so.firstCall

theorem SameQuery.trans {scan₁ : IndexScanDesc} (h : SameQuery scan scan₁) (h' : SameQuery scan₁ scan') :
    SameQuery scan scan' :=
  ⟨h'.queryBox.trans h.queryBox, h'.strategy.trans h.strategy, h'.firstCall.trans h.firstCall⟩

theorem ScanTurn.sameQuery (h : ScanTurn pages scan turn scan') : SameQuery scan scan' := by
  cases h <;> exact ⟨rfl, rfl, rfl⟩

end TurnSpec

/-! ## Calls -/

/-- What a call of `rtree_scan_next` does: it returns the next match, or there is none. -/
structure CallSpec (pages : List Page) (scan : IndexScanDesc) (found : Bool) (scan' : IndexScanDesc) :
    Prop where
  stackOk : StackOk pages scan'.so.stack
  sameQuery : SameQuery scan scan'
  turns_le : remainingTurns pages scan'.so ≤ remainingTurns pages scan.so
  hits : if found then ∃ t, remainingHits pages scan.so = t :: remainingHits pages scan'.so ∧
      scan'.xsHeaptid = t.tTid ∧ scan'.xsRecheck = false
    else remainingHits pages scan.so = []

section Calls
variable {s : Rel}

/-- **With enough fuel a call returns.** -/
theorem rtreeScanNext_spec {fuel : Nat} {scan : IndexScanDesc} (hok : StackOk s.pages scan.so.stack)
    (hfuel : remainingTurns s.pages scan.so < fuel) :
    ∃ found scan' evs, rtreeScanNext fuel scan s = .ok (found, scan') { s with trace := s.trace ++ evs } ∧
      CallSpec s.pages scan found scan' := by
  induction fuel generalizing scan s with
  | zero => exact absurd hfuel (Nat.not_lt_zero _)
  | succ fuel ih =>
      obtain ⟨turn, scan₁, evs, hrun, hturn⟩ := rtreeScanTurn_cases hok
      have htakes := hturn.hits hok
      have hok₁ := hturn.stackOk hok
      rw [rtreeScanNext, bind_of_ok hrun]
      cases turn with
      | finished =>
          obtain ⟨rfl, hnone⟩ := htakes
          exact ⟨false, scan₁, evs, rfl, hok₁, hturn.sameQuery, Nat.le_refl _, hnone⟩
      | returned =>
          have hprog := hturn.progress hok (by simp)
          exact ⟨true, scan₁, evs, rfl, hok₁, hturn.sameQuery, hprog.le, htakes⟩
      | again =>
          have hprog := hturn.progress hok (by simp)
          obtain ⟨found, scan₂, evs', hrun', hcall⟩ :=
            ih (s := { s with trace := s.trace ++ evs }) hok₁ (by
              show remainingTurns s.pages scan₁.so < fuel
              omega)
          refine ⟨found, scan₂, evs ++ evs', ?_, hcall.stackOk, hturn.sameQuery.trans hcall.sameQuery,
            hcall.turns_le.trans hprog.le, ?_⟩
          · simp only [hrun', List.append_assoc]
          · rw [show remainingHits s.pages scan.so = remainingHits s.pages scan₁.so from htakes.symm]
            exact hcall.hits

end Calls

/-- `temporal_rtree_gettuple` until it returns false, at most `n` times. -/
def gettupleAll (fuel : Nat) : Nat → IndexScanDesc → IndexM (List ItemPointerData)
  | 0, _ => throw .outOfFuel
  | n + 1, scan => do
      let res ← temporalRtreeGettuple fuel scan true
      if res.1 then
        let rest ← gettupleAll fuel n res.2
        return res.2.xsHeaptid :: rest
      else return []

/-- A scan from its start: the keys are given, and tuples are fetched until there are no more. -/
def scanAll (fuel n : Nat) (scan : IndexScanDesc) (keys : List ScanKey) : IndexM (List ItemPointerData) := do
  let scan ← temporalRtreeRescan scan keys
  gettupleAll fuel n scan

section Drain
variable {s : Rel} {fuel : Nat}

/-- The first call starts the scan. -/
theorem temporalRtreeGettuple_first {scan scan' : IndexScanDesc} {s' : Rel} {started : Bool}
    (h : scan.so.firstCall = true) (hinit : rtreeInitializeScan scan s = .ok (started, scan') s') :
    temporalRtreeGettuple fuel scan true s =
      bif started then rtreeScanNext fuel scan' s' else .ok (false, scan') s' := by
  simp only [temporalRtreeGettuple, h, Bool.not_true, Bool.false_eq_true, if_false, if_true]
  rw [bind_of_ok hinit]
  cases started <;> rfl

theorem temporalRtreeGettuple_next {scan : IndexScanDesc} (h : scan.so.firstCall = false) :
    temporalRtreeGettuple fuel scan true s = rtreeScanNext fuel scan s := by
  simp [temporalRtreeGettuple, h]

/-- A started scan returns the matches it has left, in order. -/
theorem gettupleAll_run {n : Nat} (scan : IndexScanDesc) (hstarted : scan.so.firstCall = false)
    (hok : StackOk s.pages scan.so.stack) (hfuel : remainingTurns s.pages scan.so < fuel)
    (hn : (remainingHits s.pages scan.so).length < n) :
    ∃ evs, gettupleAll fuel n scan s =
      .ok ((remainingHits s.pages scan.so).map IndexTuple.tTid) { s with trace := s.trace ++ evs } := by
  induction n generalizing scan s with
  | zero => exact absurd hn (Nat.not_lt_zero _)
  | succ n ih =>
      obtain ⟨found, scan₁, evs, hrun, hcall⟩ := rtreeScanNext_spec hok hfuel
      have hget : temporalRtreeGettuple fuel scan true s =
          .ok (found, scan₁) { s with trace := s.trace ++ evs } := by
        rw [temporalRtreeGettuple_next hstarted, hrun]
      rw [gettupleAll, bind_of_ok hget]
      cases found with
      | false =>
          have hnone : remainingHits s.pages scan.so = [] := hcall.hits
          exact ⟨evs, by simp [hnone]⟩
      | true =>
          obtain ⟨t, ht, htid, -⟩ := hcall.hits
          rw [ht, List.length_cons] at hn
          obtain ⟨evs', hrest⟩ := ih (s := { s with trace := s.trace ++ evs }) scan₁
            (hcall.sameQuery.firstCall.trans hstarted) hcall.stackOk
            (Nat.lt_of_le_of_lt hcall.turns_le hfuel) (Nat.lt_of_succ_lt_succ hn)
          refine ⟨evs ++ evs', ?_⟩
          rw [if_pos rfl, bind_of_ok hrest, pure_apply, ht, List.map_cons, htid, List.append_assoc]

end Drain

/-! ## A scan from its start -/

/-- The scan after `temporal_rtree_rescan` with some keys. -/
def rescanned (scan : IndexScanDesc) (keys : List ScanKey) : IndexScanDesc :=
  { scan with
    keyData := keys
    so := { scan.so with curBuf := none, stack := [], firstCall := true, haveQuery := false } }

/-- The scan that starts at the root, with the query it looks for. -/
def startedScan (pages : List Page) (scan : IndexScanDesc) (query : RTreeTemporalBox × StrategyNumber) :
    IndexScanDesc :=
  { scan with so :=
    { curBuf := none
      firstCall := false
      queryBox := query.1
      strategy := query.2
      haveQuery := true
      stack := [{ blkno := (metaAt pages).root, level := (metaAt pages).rootLevel,
                  nextOffset := firstOffsetNumber }] } }

section Start
variable {s : Rel} (scan : IndexScanDesc) {query : RTreeTemporalBox × StrategyNumber}

/-- `rtree_ensure_query` changes nothing but the query. -/
theorem rtreeEnsureQuery_eq_some {scan scan' : IndexScanDesc} (h : rtreeEnsureQuery scan = some scan') :
    ∃ queryBox strategy, scan' = { scan with so :=
      { scan.so with queryBox := queryBox, strategy := strategy, haveQuery := true } } := by
  unfold rtreeEnsureQuery at h
  split at h
  next hquery =>
    cases h
    refine ⟨scan.so.queryBox, scan.so.strategy, ?_⟩
    rw [← hquery]
  next =>
    split at h
    · exact absurd h (by simp)
    next query _ =>
      cases h
      exact ⟨query.1, query.2, rfl⟩

theorem temporalRtreeRescan_locks {keys : List ScanKey} (hne : keys ≠ []) (hspace : scan.keySpace ≠ 0) :
    ∃ evs, temporalRtreeRescan scan keys s =
        .ok (rescanned scan keys) { s with trace := s.trace ++ evs } ∧
      lockedBlocks evs = [] := by
  obtain ⟨evs, hrel, hnone⟩ := rtreeReleaseCurrentPage_locks (s := s) scan.so
  refine ⟨evs, ?_, hnone⟩
  rw [temporalRtreeRescan, if_neg (fun h => hspace h.2), bind_of_ok hrel, if_neg hne, pure_apply]
  rfl

theorem temporalRtreeRescan_run {keys : List ScanKey} (hne : keys ≠ []) (hspace : scan.keySpace ≠ 0) :
    ∃ evs, temporalRtreeRescan scan keys s =
      .ok (rescanned scan keys) { s with trace := s.trace ++ evs } := by
  obtain ⟨evs, hrescan, -⟩ := temporalRtreeRescan_locks scan hne hspace
  exact ⟨evs, hrescan⟩

theorem rtreeInitializeScan_locks (hfits : Fits s.pages) (hfresh : scan.so.haveQuery = false)
    (hquery : rtreeParseQuery scan.keyData = some query) :
    ∃ evs, rtreeInitializeScan scan s =
        .ok (true, startedScan s.pages scan query) { s with trace := s.trace ++ evs } ∧
      lockedBlocks evs = [0] := by
  have hlen : 0 < s.pages.length := Nat.zero_lt_of_lt hfits.root_range.2
  have hensure : rtreeEnsureQuery scan =
      some { scan with so :=
        { scan.so with queryBox := query.1, strategy := query.2, haveQuery := true } } := by
    simp [rtreeEnsureQuery, hfresh, hquery]
  obtain ⟨evs, hrel, hnone⟩ := rtreeReleaseCurrentPage_locks
    (s := { s with trace := s.trace ++ [Event.lock 0 .share, Event.unlock 0] })
    { scan.so with queryBox := query.1, strategy := query.2, haveQuery := true, stack := [] }
  refine ⟨[Event.lock 0 .share, Event.unlock 0] ++ evs, ?_, by rw [lockedBlocks_append, hnone]; rfl⟩
  rw [rtreeInitializeScan, hensure]
  show (rtreeReadMeta >>= _) s = _
  rw [rtreeReadMeta_eq, bind_of_ok (readMeta_run hlen), if_neg (not_not_intro hfits.magic), bind_of_ok hrel,
    if_neg hfits.root_ne_invalid, pure_apply, ← List.append_assoc]
  rfl

theorem rtreeInitializeScan_run (hfits : Fits s.pages) (hfresh : scan.so.haveQuery = false)
    (hquery : rtreeParseQuery scan.keyData = some query) :
    ∃ evs, rtreeInitializeScan scan s =
      .ok (true, startedScan s.pages scan query) { s with trace := s.trace ++ evs } := by
  obtain ⟨evs, hinit, -⟩ := rtreeInitializeScan_locks scan hfits hfresh hquery
  exact ⟨evs, hinit⟩

/-- Without a usable key the first call returns false at once. -/
theorem rtreeInitializeScan_run_of_none (hfresh : scan.so.haveQuery = false)
    (hquery : rtreeParseQuery scan.keyData = none) : rtreeInitializeScan scan s = .ok (false, scan) s := by
  have hensure : rtreeEnsureQuery scan = none := by simp [rtreeEnsureQuery, hfresh, hquery]
  rw [rtreeInitializeScan, hensure]
  rfl

theorem startedScan_stackOk (hfits : Fits s.pages) :
    StackOk s.pages (startedScan s.pages scan query).so.stack := by
  intro f hf
  rw [List.mem_singleton.mp hf]
  exact ⟨hfits.keyed, fun x hx => (hfits.range x hx).2, Nat.le_refl _⟩

theorem startedScan_hits :
    remainingHits s.pages (startedScan s.pages scan query).so =
      (nodes.leaves (pageAt s.pages) (metaAt s.pages).rootLevel (metaAt s.pages).root).filter
        (tupleMatches query.1 query.2) := by
  show List.filter _ (nodes.restLeaves (pageAt s.pages) ⟨_, _, 0⟩ ++ []) = _
  rw [List.append_nil, restLeaves_start]
  rfl

/-- The tuples a scan for `keys` returns: those that match the first usable key. -/
def scanHits (pages : List Page) (keys : List ScanKey) : List IndexTuple :=
  match rtreeParseQuery keys with
  | none => []
  | some query =>
      (nodes.leaves (pageAt pages) (metaAt pages).rootLevel (metaAt pages).root).filter
        (tupleMatches query.1 query.2)

/-- With a usable key a scan reads the metapage and goes on from the root. -/
theorem scanAll_started (hfits : Fits s.pages) {keys : List ScanKey} (hne : keys ≠ []) (hspace : scan.keySpace ≠ 0)
    (hquery : rtreeParseQuery keys = some query) :
    ∃ evs, lockedBlocks evs = [0] ∧ ∀ fuel n, scanAll fuel (n + 1) scan keys s =
      gettupleAll fuel (n + 1) (startedScan s.pages (rescanned scan keys) query)
        { s with trace := s.trace ++ evs } := by
  obtain ⟨evs₀, hrescan, hlocks₀⟩ := temporalRtreeRescan_locks (s := s) scan hne hspace
  obtain ⟨evs₁, hinit, hlocks₁⟩ := rtreeInitializeScan_locks (s := { s with trace := s.trace ++ evs₀ })
    (rescanned scan keys) hfits rfl hquery
  refine ⟨evs₀ ++ evs₁, by rw [lockedBlocks_append, hlocks₀, hlocks₁, List.nil_append], fun fuel n => ?_⟩
  rw [scanAll, bind_of_ok hrescan, gettupleAll, gettupleAll, bind_apply, bind_apply,
    temporalRtreeGettuple_first rfl hinit, temporalRtreeGettuple_next rfl, cond_true, ← List.append_assoc]

/-- **A scan ends, and returns the tuples that match its first usable key**, also where inner pages are empty. -/
theorem scanAll_run_of_fits (hfits : Fits s.pages) {keys : List ScanKey} (hne : keys ≠ [])
    (hspace : scan.keySpace ≠ 0) :
    ∃ bound, ∀ fuel n, bound ≤ fuel → bound ≤ n →
      ∃ evs, scanAll fuel n scan keys s =
        .ok ((scanHits s.pages keys).map IndexTuple.tTid) { s with trace := s.trace ++ evs } := by
  cases hquery : rtreeParseQuery keys with
  | none =>
      -- no key is usable: every call returns false
      obtain ⟨evs₀, hrescan⟩ := temporalRtreeRescan_run (s := s) scan hne hspace
      let scan₀ := rescanned scan keys
      let s₀ : Rel := { s with trace := s.trace ++ evs₀ }
      refine ⟨1, fun fuel n _ hn => ⟨evs₀, ?_⟩⟩
      obtain ⟨n, rfl⟩ := Nat.exists_eq_succ_of_ne_zero (Nat.ne_of_gt hn)
      have hinit : rtreeInitializeScan scan₀ s₀ = .ok (false, scan₀) s₀ :=
        rtreeInitializeScan_run_of_none scan₀ rfl hquery
      have hget : temporalRtreeGettuple fuel scan₀ true s₀ = .ok (false, scan₀) s₀ := by
        rw [temporalRtreeGettuple_first rfl hinit, cond_false]
      rw [scanAll, bind_of_ok hrescan, gettupleAll, bind_of_ok hget, scanHits, hquery]
      rfl
  | some query =>
      obtain ⟨evs₁, -, hstart⟩ := scanAll_started scan hfits hne hspace hquery
      let scan₁ := startedScan s.pages (rescanned scan keys) query
      refine ⟨remainingTurns s.pages scan₁.so + (remainingHits s.pages scan₁.so).length + 1,
        fun fuel n hfuel hn => ?_⟩
      obtain ⟨n, rfl⟩ := Nat.exists_eq_succ_of_ne_zero (Nat.ne_of_gt (Nat.lt_of_lt_of_le (Nat.succ_pos _) hn))
      obtain ⟨evs₂, hrun⟩ := gettupleAll_run (s := { s with trace := s.trace ++ evs₁ }) scan₁ rfl
        (startedScan_stackOk (rescanned scan keys) hfits)
        (show remainingTurns s.pages scan₁.so < fuel by omega)
        (show (remainingHits s.pages scan₁.so).length < n + 1 by omega)
      refine ⟨evs₁ ++ evs₂, ?_⟩
      rw [hstart, hrun, scanHits, hquery]
      simp only [List.append_assoc]
      rw [startedScan_hits]

theorem scanAll_run (hwf : WF s.pages) {keys : List ScanKey} (hne : keys ≠ [])
    (hspace : scan.keySpace ≠ 0) :
    ∃ bound, ∀ fuel n, bound ≤ fuel → bound ≤ n →
      ∃ evs, scanAll fuel n scan keys s =
        .ok ((scanHits s.pages keys).map IndexTuple.tTid) { s with trace := s.trace ++ evs } :=
  scanAll_run_of_fits scan hwf.fits hne hspace

end Start

end TemporalRTree
