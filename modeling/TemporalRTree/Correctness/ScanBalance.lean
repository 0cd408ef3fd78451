import TemporalRTree.Model.ScanBuffers
import TemporalRTree.Correctness.Scan

/-!
# `Correctness.ScanBalance` — a scan holds one page or none

A scan takes a page in one place, the start of a turn, where it first gives back the one it stands on, and gives
it back in one function. So at every return it holds the page in `cur_buf`, pinned and locked once, and nothing
else (`ScanHolds`). The two places where a scan could still stand on a page it no longer knows of are excluded by
the rest of the invariant: a scan that has not started and one whose stack is empty stand on no page.

Without the pins, the calls of the buffer manager are those on a `Rel` (`forget_simulates`), and then the callbacks are
too (`ManagerSimulates`). On the `Rel` of a well-formed index they return; so every call of a session returns, but for
`temporal_rtree_rescan` with keys on a scan without room for any, which raises an error before it touches a buffer.
-/

namespace TemporalRTree
open EStateM

/-! ## One buffer manager for another -/

/-- Seen through `f`, the calls of one buffer manager are those of another. -/
structure ManagerSimulates {σ τ : Type} [BufferManager σ] [BufferManager τ] (f : σ → τ) : Prop where
  readBuffer : ∀ b, Simulates f (BufferManager.readBuffer b) (BufferManager.readBuffer b)
  lockForRead : ∀ b, Simulates f (BufferManager.lockForRead b) (BufferManager.lockForRead b)
  unlock : ∀ b, Simulates f (BufferManager.unlock b) (BufferManager.unlock b)
  releaseBuffer : ∀ b, Simulates f (BufferManager.releaseBuffer b) (BufferManager.releaseBuffer b)
  getPage : ∀ b, Simulates f (BufferManager.getPage b) (BufferManager.getPage b)
  getMeta : Simulates f BufferManager.getMeta BufferManager.getMeta

namespace ManagerSimulates
variable {σ τ : Type} [BufferManager σ] [BufferManager τ] {f : σ → τ} (h : ManagerSimulates f)
include h

theorem readMeta : Simulates f rtreeReadMeta rtreeReadMeta :=
  (h.readBuffer 0).bind fun _ => (h.lockForRead 0).bind fun _ => h.getMeta.bind fun m => (h.unlock 0).bind fun _ =>
    (h.releaseBuffer 0).bind fun _ => .pure m

theorem releaseCurrentPage (so : RTreeScanOpaqueData) :
    Simulates f (rtreeReleaseCurrentPage so) (rtreeReleaseCurrentPage so) := by
  unfold rtreeReleaseCurrentPage
  cases so.curBuf with
  | none => exact .pure so
  | some b => exact (h.unlock b).bind fun _ => (h.releaseBuffer b).bind fun _ => .pure _

theorem standOnFrame (so : RTreeScanOpaqueData) (blkno : BlockNumber) :
    Simulates f (TemporalRTree.standOnFrame so blkno) (TemporalRTree.standOnFrame so blkno) := by
  unfold TemporalRTree.standOnFrame
  split
  · exact .pure so
  · exact (h.releaseCurrentPage so).bind fun _ => (h.readBuffer blkno).bind fun _ =>
      (h.lockForRead blkno).bind fun _ => .pure _

theorem scanTurn (scan : IndexScanDesc) : Simulates f (rtreeScanTurn scan) (rtreeScanTurn scan) := by
  unfold rtreeScanTurn
  cases scan.so.stack with
  | nil => exact .pure _
  | cons frame below =>
      refine (h.standOnFrame scan.so frame.blkno).bind fun so => (h.getPage frame.blkno).bind fun page => ?_
      cases scanOffsets frame.level so.queryBox so.strategy (page.items.drop (frame.nextOffset - 1))
        frame.nextOffset with
      | returns offset itup => exact .pure _
      | descends offset childblk => exact (h.releaseCurrentPage _).bind fun _ => .pure _
      | exhausted => exact (h.releaseCurrentPage so).bind fun _ => .pure _

theorem scanNext (fuel : Nat) (scan : IndexScanDesc) :
    Simulates f (rtreeScanNext fuel scan) (rtreeScanNext fuel scan) := by
  induction fuel generalizing scan with
  | zero => exact .throw _
  | succ fuel ih =>
      refine (h.scanTurn scan).bind fun res => ?_
      obtain ⟨turn, scan₁⟩ := res
      cases turn with
      | returned => exact .pure _
      | finished => exact .pure _
      | again => exact ih scan₁

theorem initializeScan (scan : IndexScanDesc) :
    Simulates f (rtreeInitializeScan scan) (rtreeInitializeScan scan) := by
  unfold rtreeInitializeScan
  cases rtreeEnsureQuery scan with
  | none => exact .pure _
  | some scan₁ =>
      refine h.readMeta.bind fun m => ?_
      split
      · exact .pure _
      · refine (h.releaseCurrentPage _).bind fun so => ?_
        split
        · exact .pure _
        · exact .pure _

/-- **A call of `temporal_rtree_gettuple` is the same call for both.** -/
theorem gettuple (fuel : Nat) (scan : IndexScanDesc) (forward : Bool) :
    Simulates f (temporalRtreeGettuple fuel scan forward) (temporalRtreeGettuple fuel scan forward) := by
  unfold temporalRtreeGettuple
  split
  · exact .pure _
  · split
    · refine (h.initializeScan scan).bind fun init => ?_
      split
      · exact .pure _
      · exact h.scanNext fuel init.2
    · exact h.scanNext fuel scan

end ManagerSimulates

end TemporalRTree

namespace TemporalRTree.Pinned
open EStateM Ledger

/-! ## Without the pins -/

/-- What the trace of `Model.Buffer` has of a call. -/
def lockEvent : Access BlockNumber → Option Event
  | .lock blkno => some (.lock blkno .share)
  | .unlock blkno => some (.unlock blkno)
  | .pin _ => none
  | .unpin _ => none

/-- The state without the pins. -/
def Buffers.forget (s : Buffers) : Rel := { pages := s.pages, trace := s.calls.filterMap lockEvent }

theorem forget_record (s : Buffers) (call : Access BlockNumber) :
    ({ s with calls := s.calls ++ [call] } : Buffers).forget =
      { s.forget with trace := s.forget.trace ++ (lockEvent call).toList } := by
  cases call <;> simp [Buffers.forget, lockEvent]

section Calls
variable {s : Buffers} {blkno : BlockNumber}

theorem readBuffer_pins (h : blkno < s.pages.length) :
    BufferManager.readBuffer blkno s = .ok () { s with calls := s.calls ++ [.pin blkno] } := by
  simp [BufferManager.readBuffer, record, bind_apply, h]

theorem readBuffer_missing (h : ¬ blkno < s.pages.length) :
    BufferManager.readBuffer blkno s = .error .couldNotReadBlock s := by
  simp [BufferManager.readBuffer, bind_apply, h]

theorem lockForRead_run :
    BufferManager.lockForRead blkno s = .ok () { s with calls := s.calls ++ [.lock blkno] } := rfl

theorem unlock_run : BufferManager.unlock blkno s = .ok () { s with calls := s.calls ++ [.unlock blkno] } := rfl

theorem releaseBuffer_run :
    BufferManager.releaseBuffer blkno s = .ok () { s with calls := s.calls ++ [.unpin blkno] } := rfl

theorem getPage_run : BufferManager.getPage blkno s = .ok (pageAt s.pages blkno) s := rfl

theorem getMeta_run : BufferManager.getMeta s = .ok (metaAt s.pages) s := rfl

/-- A pin leaves no event. -/
theorem readBuffer_simulates (blkno : BlockNumber) :
    Simulates Buffers.forget (BufferManager.readBuffer blkno) (BufferManager.readBuffer blkno) := by
  intro s
  by_cases hlt : blkno < s.pages.length
  · have hread : TemporalRTree.readBuffer blkno s.forget = .ok () s.forget := readBuffer_run_of_lt hlt
    rw [manager_readBuffer, hread, readBuffer_pins hlt, Result.seen, forget_record]
    simp [lockEvent]
  · have hread : TemporalRTree.readBuffer blkno s.forget = .error .couldNotReadBlock s.forget :=
      readBuffer_run_of_not_lt hlt
    rw [manager_readBuffer, hread, readBuffer_missing hlt, Result.seen]

end Calls

/-- **Without the pins, the recorded calls are those on a `Rel`.** -/
theorem forget_simulates : ManagerSimulates Buffers.forget where
  readBuffer := readBuffer_simulates
  lockForRead b s := congrArg (Result.ok ()) (forget_record s (.lock b))
  unlock b s := congrArg (Result.ok ()) (forget_record s (.unlock b))
  releaseBuffer b s := by
    rw [releaseBuffer_run, Result.seen, forget_record]
    simp [lockEvent]
  getPage _ _ := rfl
  getMeta _ := rfl

/-! ## What a scan holds -/

/-- A page is held, pinned and locked once, or none. -/
def Holds (s : Buffers) (curBuf : Option BlockNumber) : Prop := replay s.calls = some (Held.only curBuf)

/-- **What a scan holds between calls**: the page in `cur_buf`, which is none before the scan starts and at its
    end. -/
structure ScanHolds (s : Buffers) (scan : IndexScanDesc) : Prop where
  holds : Holds s scan.so.curBuf
  idle : scan.so.firstCall = true ∨ scan.so.stack = [] → scan.so.curBuf = none

section Balance
variable {s : Buffers} {scan : IndexScanDesc}

/-- A scan that holds nothing. -/
theorem ScanHolds.of_none (h : Holds s none) (hcur : scan.so.curBuf = none) : ScanHolds s scan :=
  ⟨by rwa [hcur], fun _ => hcur⟩

theorem releaseCurrentPage_holds (so : RTreeScanOpaqueData) (h : Holds s so.curBuf) :
    ∃ s', rtreeReleaseCurrentPage so s = .ok { so with curBuf := none } s' ∧ s'.pages = s.pages ∧
      Holds s' none := by
  obtain ⟨curBuf, firstCall, queryBox, strategy, haveQuery, stack⟩ := so
  cases curBuf with
  | none => exact ⟨s, rfl, rfl, h⟩
  | some b =>
      refine ⟨{ s with calls := s.calls ++ [.unlock b] ++ [.unpin b] }, rfl, rfl, ?_⟩
      unfold Holds
      rw [List.append_assoc]
      exact replay_leave h

/-- Reading and locking a page with nothing held; the block may not exist. -/
theorem readLock_holds {α : Type} (blkno : BlockNumber) (a : α) (h : Holds s none) :
    Ends (fun a' s' => s'.pages = s.pages ∧ a' = a ∧ Holds s' (some blkno)) (fun _ => True)
      ((BufferManager.readBuffer blkno >>= fun _ => BufferManager.lockForRead blkno >>= fun _ => pure a) s) := by
  by_cases hlt : blkno < s.pages.length
  · have hrun : (BufferManager.readBuffer blkno >>= fun _ => BufferManager.lockForRead blkno >>= fun _ => pure a) s =
        .ok a { s with calls := s.calls ++ [.pin blkno, .lock blkno] } := by
      rw [bind_of_ok (readBuffer_pins hlt), bind_of_ok lockForRead_run, pure_apply, List.append_assoc]
      rfl
    rw [hrun]
    exact ⟨rfl, rfl, replay_enter h⟩
  · rw [bind_of_error (readBuffer_missing hlt)]
    exact True.intro

theorem standOnFrame_holds (so : RTreeScanOpaqueData) (blkno : BlockNumber) (h : Holds s so.curBuf) :
    Ends (fun so' s' => s'.pages = s.pages ∧ so' = { so with curBuf := some blkno } ∧ Holds s' (some blkno))
      (fun _ => True) (standOnFrame so blkno s) := by
  unfold standOnFrame
  split
  next hcur =>
    rw [hcur] at h
    exact ⟨rfl, by rw [← hcur], h⟩
  next =>
    obtain ⟨s₁, hrel, hpages, hnone⟩ := releaseCurrentPage_holds so h
    rw [bind_of_ok hrel, ← hpages]
    exact readLock_holds blkno _ hnone

/-- The meta page is given back at once. -/
theorem readMeta_holds (h : Holds s none) :
    Ends (fun _ s' => s'.pages = s.pages ∧ Holds s' none) (fun _ => True) (rtreeReadMeta s) := by
  by_cases hlt : 0 < s.pages.length
  · have hrun : rtreeReadMeta s = .ok (metaAt s.pages)
        { s with calls := s.calls ++ [.pin 0, .lock 0] ++ [.unlock 0, .unpin 0] } := by
      rw [rtreeReadMeta, bind_of_ok (readBuffer_pins hlt), bind_of_ok lockForRead_run, bind_of_ok getMeta_run,
        bind_of_ok unlock_run, bind_of_ok releaseBuffer_run, pure_apply]
      simp only [List.append_assoc, List.cons_append, List.nil_append]
    rw [hrun]
    exact ⟨rfl, replay_leave (replay_enter h)⟩
  · rw [rtreeReadMeta, bind_of_error (readBuffer_missing hlt)]
    exact True.intro

/-- **A turn keeps the balance.** -/
theorem scanTurn_holds (hstarted : scan.so.firstCall = false) (h : ScanHolds s scan) :
    Ends (fun res s' => res.2.so.firstCall = false ∧ ScanHolds s' res.2 ∧
        (res.1 = .finished → res.2.so.curBuf = none)) (fun _ => True) (rtreeScanTurn scan s) := by
  unfold rtreeScanTurn
  cases hs : scan.so.stack with
  | nil => exact ⟨hstarted, h, fun _ => h.idle (Or.inr hs)⟩
  | cons frame below =>
      refine (standOnFrame_holds scan.so frame.blkno h.holds).bind fun so s₁ hso => ?_
      obtain ⟨-, rfl, hholds⟩ := hso
      rw [bind_of_ok getPage_run]
      generalize scanOffsets frame.level _ _ _ frame.nextOffset = hit
      cases hit with
      | returns offset itup =>
          -- the scan stays on the page, which is on its stack
          refine ⟨hstarted, ⟨hholds, ?_⟩, fun hturn => nomatch hturn⟩
          rintro (hfirst | hnil)
          · exact absurd (hfirst.symm.trans hstarted) (by decide)
          · exact absurd hnil (List.cons_ne_nil _ _)
      | descends offset childblk =>
          obtain ⟨s₂, hrel, -, hnone⟩ := releaseCurrentPage_holds
            { scan.so with
              curBuf := some frame.blkno
              stack := { frame with nextOffset := offset + 1 } :: below } hholds
          dsimp only
          rw [bind_of_ok hrel]
          exact ⟨hstarted, .of_none hnone rfl, fun _ => rfl⟩
      | exhausted =>
          obtain ⟨s₂, hrel, -, hnone⟩ := releaseCurrentPage_holds
            { scan.so with curBuf := some frame.blkno } hholds
          dsimp only
          rw [bind_of_ok hrel]
          exact ⟨hstarted, .of_none hnone rfl, fun _ => rfl⟩

/-- A call of `rtree_scan_next` keeps the balance, and holds nothing when it returns false. -/
theorem scanNext_holds {fuel : Nat} (hstarted : scan.so.firstCall = false) (h : ScanHolds s scan) :
    Ends (fun res s' => ScanHolds s' res.2 ∧ (res.1 = false → res.2.so.curBuf = none)) (fun _ => True)
      (rtreeScanNext fuel scan s) := by
  induction fuel generalizing scan s with
  | zero => exact True.intro
  | succ fuel ih =>
      refine (scanTurn_holds hstarted h).bind fun res s₁ hres => ?_
      obtain ⟨turn, scan₁⟩ := res
      obtain ⟨hstarted₁, hholds, hend⟩ := hres
      cases turn with
      | returned => exact ⟨hholds, fun hfound => nomatch hfound⟩
      | finished => exact ⟨hholds, fun _ => hend rfl⟩
      | again => exact ih hstarted₁ hholds

/-- The first call starts with nothing held and reads the meta page. -/
theorem initializeScan_holds (hfirst : scan.so.firstCall = true) (h : ScanHolds s scan) :
    Ends (fun res s' => ScanHolds s' res.2 ∧ res.2.so.curBuf = none ∧
        (res.1 = true → res.2.so.firstCall = false)) (fun _ => True) (rtreeInitializeScan scan s) := by
  have hcur : scan.so.curBuf = none := h.idle (Or.inl hfirst)
  unfold rtreeInitializeScan
  cases hq : rtreeEnsureQuery scan with
  | none => exact ⟨h, hcur, fun hstarted => nomatch hstarted⟩
  | some scan₁ =>
      have hcur₁ : scan₁.so.curBuf = none := by
        obtain ⟨queryBox, strategy, rfl⟩ := rtreeEnsureQuery_eq_some hq
        exact hcur
      have hnone : Holds s none := by
        rw [← hcur]
        exact h.holds
      refine (readMeta_holds hnone).bind fun m s₁ hs₁ => ?_
      split
      · exact ⟨.of_none hs₁.2 hcur₁, hcur₁, fun hstarted => nomatch hstarted⟩
      · obtain ⟨s₂, hrel, -, hnone₂⟩ := releaseCurrentPage_holds { scan₁.so with stack := [] }
          (show Holds s₁ scan₁.so.curBuf by rw [hcur₁]; exact hs₁.2)
        rw [bind_of_ok hrel]
        dsimp only
        split
        · exact ⟨.of_none hnone₂ rfl, rfl, fun hstarted => nomatch hstarted⟩
        · exact ⟨.of_none hnone₂ rfl, rfl, fun _ => rfl⟩

/-- **A call of `temporal_rtree_gettuple` keeps the balance**, and a forward call that returns false holds
    nothing. -/
theorem gettuple_holds {fuel : Nat} (forward : Bool) (h : ScanHolds s scan) :
    Ends (fun res s' => ScanHolds s' res.2 ∧ (forward = true → res.1 = false → res.2.so.curBuf = none))
      (fun _ => True) (temporalRtreeGettuple fuel scan forward s) := by
  unfold temporalRtreeGettuple
  cases forward with
  | false => exact ⟨h, fun hforward => nomatch hforward⟩
  | true =>
      cases hfirst : scan.so.firstCall with
      | false => exact Ends.imp (scanNext_holds hfirst h) fun res s' hres => ⟨hres.1, fun _ => hres.2⟩
      | true =>
          refine (initializeScan_holds hfirst h).bind fun init s₁ hinit => ?_
          obtain ⟨started, scan₁⟩ := init
          obtain ⟨hholds, hcur, hstarted⟩ := hinit
          cases started with
          | false => exact ⟨hholds, fun _ _ => hcur⟩
          | true =>
              exact Ends.imp (scanNext_holds (hstarted rfl) hholds) fun res s' hres => ⟨hres.1, fun _ => hres.2⟩

/-- A rescan gives the page back and forgets the query, unless there is no room for its keys. -/
theorem rescan_holds (keys : List ScanKey) (h : ScanHolds s scan) :
    temporalRtreeRescan scan keys s = .error .keyDataNull s ∨
      ∃ scan' s', temporalRtreeRescan scan keys s = .ok scan' s' ∧ Holds s' none ∧ scan'.so.curBuf = none ∧
        scan'.so.firstCall = true ∧ scan'.so.haveQuery = false := by
  unfold temporalRtreeRescan
  split
  · exact Or.inl rfl
  · obtain ⟨s₁, hrel, -, hnone⟩ := releaseCurrentPage_holds scan.so h.holds
    rw [bind_of_ok hrel]
    exact Or.inr ⟨_, s₁, rfl, hnone, rfl, rfl, rfl⟩

theorem endscan_holds (h : ScanHolds s scan) :
    ∃ s', temporalRtreeEndscan scan s = .ok () s' ∧ Holds s' none := by
  obtain ⟨s₁, hrel, -, hnone⟩ := releaseCurrentPage_holds scan.so h.holds
  exact ⟨s₁, bind_of_ok hrel, hnone⟩

end Balance

/-! ## Sessions -/

/-- The turns of a whole scan. -/
def fullTurns (pages : List Page) : Nat :=
  remainingTurns pages
    { stack := [{ blkno := (metaAt pages).root, level := (metaAt pages).rootLevel,
                  nextOffset := firstOffsetNumber }] }

/-- A scan that has not started has no query; one that has is somewhere in the tree. -/
def ScanReady (pages : List Page) (scan : IndexScanDesc) : Prop :=
  if scan.so.firstCall then scan.so.haveQuery = false
  else StackOk pages scan.so.stack ∧ remainingTurns pages scan.so ≤ fullTurns pages

section Ready
variable {fuel : Nat} {scan : IndexScanDesc}

theorem scanNext_ready {s : Rel} (hfuel : fullTurns s.pages < fuel) (hstarted : scan.so.firstCall = false)
    (hok : StackOk s.pages scan.so.stack) (hturns : remainingTurns s.pages scan.so ≤ fullTurns s.pages) :
    ∃ found scan' s', rtreeScanNext fuel scan s = .ok (found, scan') s' ∧
      ScanReady s.pages scan' := by
  obtain ⟨found, scan', evs, hrun, hcall⟩ := rtreeScanNext_spec hok (Nat.lt_of_le_of_lt hturns hfuel)
  refine ⟨found, scan', _, hrun, ?_⟩
  rw [ScanReady, hcall.sameQuery.firstCall, hstarted]
  exact ⟨hcall.stackOk, hcall.turns_le.trans hturns⟩

/-- On a well-formed index every call of `temporal_rtree_gettuple` returns. -/
theorem gettuple_ready {s : Rel} (hfits : Fits s.pages) (hfuel : fullTurns s.pages < fuel) (forward : Bool)
    (h : ScanReady s.pages scan) :
    ∃ found scan' s', temporalRtreeGettuple fuel scan forward s = .ok (found, scan') s' ∧
      ScanReady s.pages scan' := by
  cases forward with
  | false => exact ⟨false, scan, s, rfl, h⟩
  | true =>
      cases hfirst : scan.so.firstCall with
      | false =>
          obtain ⟨hok, hturns⟩ : StackOk s.pages scan.so.stack ∧
              remainingTurns s.pages scan.so ≤ fullTurns s.pages := by
            rwa [ScanReady, hfirst] at h
          rw [temporalRtreeGettuple_next hfirst]
          exact scanNext_ready hfuel hfirst hok hturns
      | true =>
          have hfresh : scan.so.haveQuery = false := by rwa [ScanReady, hfirst] at h
          cases hquery : rtreeParseQuery scan.keyData with
          | none =>
              refine ⟨false, scan, s, ?_, h⟩
              rw [temporalRtreeGettuple_first hfirst (rtreeInitializeScan_run_of_none scan hfresh hquery),
                cond_false]
          | some query =>
              obtain ⟨evs, hinit⟩ := rtreeInitializeScan_run scan hfits hfresh hquery
              rw [temporalRtreeGettuple_first hfirst hinit, cond_true]
              exact scanNext_ready (s := { s with trace := s.trace ++ evs }) hfuel rfl
                (startedScan_stackOk scan hfits) (Nat.le_refl _)

end Ready

/-- A scan of a session between calls. -/
structure SlotOk (pages : List Page) (slot : ScanSlot) : Prop where
  holds : replay slot.calls = some (Held.only slot.curBuf)
  scan : ∀ scan, slot.scan = some scan →
    ScanHolds { pages := pages, calls := slot.calls } scan ∧ ScanReady pages scan

/-- The calls after which a scan holds nothing: all but backward calls of `temporal_rtree_gettuple` and those
    that returned a tuple. -/
def ScanCall.settles (found : Bool) : ScanCall → Bool
  | .on _ (.gettuple forward) => forward && !found
  | _ => true

/-- What is asked of a call that has returned. -/
structure ScanReturn.Balanced (r : ScanReturn) : Prop where
  holds : replay r.slot.calls = some (Held.only r.slot.curBuf)
  settled : r.call.settles r.found = true → replay r.slot.calls = some (Held.only none)

section Session
variable {pages : List Page} {fuel : Nat}

theorem SlotOk.of_scan {scan : IndexScanDesc} {s : Buffers} (h : ScanHolds s scan)
    (hready : ScanReady pages scan) : SlotOk pages { scan := some scan, calls := s.calls } := by
  refine ⟨h.holds, fun scan' hscan => ?_⟩
  cases hscan
  exact ⟨⟨h.holds, h.idle⟩, hready⟩

/-- How a callback ends: with a scan in order, or with the error of a rescan. -/
def ServeEnds (pages : List Page) (request : Request) :
    Result RTreeError Buffers (Bool × Option IndexScanDesc) → Prop
  | .ok res s => SlotOk pages { scan := res.2, calls := s.calls } ∧
      ∀ i, (ScanReturn.mk (.on i request) res.1 { scan := res.2, calls := s.calls }).Balanced
  | .error e _ => e = .keyDataNull

/-- **Every callback, on a well-formed index.** -/
theorem serve_ends (hfits : Fits pages) (hfuel : fullTurns pages < fuel) {slot : ScanSlot}
    (h : SlotOk pages slot) (request : Request) :
    ServeEnds pages request (serve fuel slot.scan request { pages := pages, calls := slot.calls }) := by
  obtain ⟨scan, calls⟩ := slot
  cases scan with
  | none => exact ⟨h, fun i => ⟨h.holds, fun _ => h.holds⟩⟩
  | some scan =>
      obtain ⟨hholds, hready⟩ := h.scan scan rfl
      cases request with
      | rescan keys =>
          rcases rescan_holds keys hholds with hrun | ⟨scan', s', hrun, hnone, hcur, hfirst, hfresh⟩
          · rw [serve, bind_of_error hrun]
            exact rfl
          · rw [serve, bind_of_ok hrun]
            have hready' : ScanReady pages scan' := by rwa [ScanReady, hfirst]
            exact ⟨.of_scan (.of_none hnone hcur) hready',
              fun i => ⟨(ScanHolds.of_none hnone hcur).holds, fun _ => hnone⟩⟩
      | gettuple forward =>
          obtain ⟨found, scan', t, hidx, hready'⟩ := gettuple_ready
            (s := ({ pages := pages, calls := calls } : Buffers).forget) hfits hfuel forward hready
          obtain ⟨s', hrun, -⟩ := (forget_simulates.gettuple fuel scan forward).of_ok hidx
          obtain ⟨hholds', hend⟩ := (gettuple_holds forward hholds).of_ok hrun
          have hserve : serve fuel (some scan) (.gettuple forward) { pages := pages, calls := calls } =
              .ok (found, some scan') s' := bind_of_ok hrun
          rw [hserve]
          refine ⟨.of_scan hholds' hready', fun i => ⟨hholds'.holds, fun hset => ?_⟩⟩
          obtain ⟨hforward, hfound⟩ := (Bool.and_eq_true _ _).mp hset
          rw [← hend hforward (by simpa using hfound)]
          exact hholds'.holds
      | endscan =>
          obtain ⟨s', hrun, hnone⟩ := endscan_holds hholds
          have hserve : serve fuel (some scan) .endscan { pages := pages, calls := calls } =
              .ok (false, none) s' := bind_of_ok hrun
          rw [hserve]
          exact ⟨⟨hnone, fun _ hscan => nomatch hscan⟩, fun i => ⟨hnone, fun _ => hnone⟩⟩

/-- A session from scans in order. -/
theorem runSession_balanced (hfits : Fits pages) (hfuel : fullTurns pages < fuel) (calls : List ScanCall)
    (slots : List ScanSlot) (h : ∀ slot ∈ slots, SlotOk pages slot) :
    (∀ e, (runSession fuel pages calls slots).2 = some e → e = .keyDataNull) ∧
      ∀ r ∈ (runSession fuel pages calls slots).1, r.Balanced := by
  induction calls generalizing slots with
  | nil => exact ⟨fun e he => absurd he (Option.some_ne_none e).symm, fun r hr => absurd hr List.not_mem_nil⟩
  | cons call rest ih =>
      cases call with
      | beginscan nkeys =>
          let slot : ScanSlot := { scan := some (temporalRtreeBeginscan nkeys) }
          have hslot : SlotOk pages slot := .of_scan (s := { pages := pages }) (.of_none rfl rfl) rfl
          obtain ⟨herr, hrest⟩ := ih (slots ++ [slot]) (by
            intro slot' hmem
            rcases List.mem_append.mp hmem with hmem | hmem
            · exact h slot' hmem
            · rw [List.mem_singleton.mp hmem]
              exact hslot)
          refine ⟨herr, fun r hr => ?_⟩
          rcases List.mem_cons.mp hr with rfl | hr
          · exact ⟨rfl, fun _ => rfl⟩
          · exact hrest r hr
      | on i request =>
          unfold runSession
          cases hget : slots[i]? with
          | none => exact ih slots h
          | some slot =>
              have hends := serve_ends hfits hfuel (h slot (List.mem_of_getElem? hget)) request
              cases hrun : serve fuel slot.scan request { pages := pages, calls := slot.calls } with
              | error e s =>
                  rw [hrun] at hends
                  simp only [hrun]
                  exact ⟨fun e' he' => (Option.some.inj he').symm.trans hends, fun r hr => nomatch hr⟩
              | ok res s =>
                  rw [hrun] at hends
                  obtain ⟨hslot, hbalanced⟩ := hends
                  obtain ⟨herr, hrest⟩ := ih (slots.set i { scan := res.2, calls := s.calls }) (by
                    intro slot' hmem
                    rcases List.mem_or_eq_of_mem_set hmem with hmem | rfl
                    · exact h slot' hmem
                    · exact hslot)
                  simp only [hrun]
                  refine ⟨herr, fun r hr => ?_⟩
                  rcases List.mem_cons.mp hr with rfl | hr
                  · exact hbalanced i
                  · exact hrest r hr

end Session

/-- **The locks and pins of every session of scans balance.** On a well-formed index every call returns, unless a
    rescan has keys and no room for them. At every return a scan holds the page in `cur_buf`, pinned and locked
    once, or nothing; it holds nothing after a rescan, at the end of a scan and after `temporal_rtree_endscan`; and
    it has never locked a page while another was locked or unlocked one that was not. -/
theorem scan_calls_balanced {pages : List Page} (hwf : WF pages) :
    ∃ bound, ∀ fuel, bound ≤ fuel → ∀ calls : List ScanCall,
      (∀ e, (runSession fuel pages calls []).2 = some e → e = .keyDataNull) ∧
        ∀ r ∈ (runSession fuel pages calls []).1,
          replay r.slot.calls = some (Held.only r.slot.curBuf) ∧
            (r.call.settles r.found = true → replay r.slot.calls = some (Held.only none)) := by
  refine ⟨fullTurns pages + 1, fun fuel hfuel calls => ?_⟩
  obtain ⟨herr, hall⟩ := runSession_balanced hwf.fits hfuel calls [] fun slot hslot => nomatch hslot
  exact ⟨herr, fun r hr => ⟨(hall r hr).holds, (hall r hr).settled⟩⟩

/-- Two scans of an index with two tuples, taken in turns; the first is given up while it stands on the leaf. -/
theorem scan_calls_balanced_two :
    let key : ScanKey := ⟨trtreeStrategyOverlap, some (rowCube 0 0 .posInf)⟩
    let calls : List ScanCall := [.beginscan 1, .beginscan 1, .on 0 (.rescan [key]), .on 0 (.gettuple true),
      .on 1 (.rescan [key]), .on 1 (.gettuple true), .on 0 (.gettuple false), .on 0 .endscan,
      .on 1 (.gettuple true), .on 1 (.gettuple true)]
    (runSession 9 (stairs 2).pages calls []).1.map (fun r => (r.found, r.slot.curBuf)) =
        [(false, none), (false, none), (false, none), (true, some 1), (false, none), (true, some 1),
          (false, some 1), (false, none), (true, some 1), (false, none)] ∧
      ∃ bound, ∀ fuel, bound ≤ fuel → ∀ calls : List ScanCall,
        (∀ e, (runSession fuel (stairs 2).pages calls []).2 = some e → e = .keyDataNull) ∧
          ∀ r ∈ (runSession fuel (stairs 2).pages calls []).1,
            replay r.slot.calls = some (Held.only r.slot.curBuf) ∧
              (r.call.settles r.found = true → replay r.slot.calls = some (Held.only none)) :=
  ⟨by decide +kernel, scan_calls_balanced (stairs_wf 2)⟩

end TemporalRTree.Pinned
