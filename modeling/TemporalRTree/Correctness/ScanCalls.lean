import TemporalRTree.Correctness.ScanKeys

/-!
# `Correctness.ScanCalls` — a scan call by call, whatever was scanned before

`temporal_rtree_rescan` leaves nothing of the previous scan but the room for keys, which no call changes
(`ScanReached.keySpace`). So the calls of `temporal_rtree_gettuple` that follow it answer one by one with the
matching tuples of the tree, in depth-first order, and with false from then on (`gettupleCalls_run`).
-/

namespace TemporalRTree
open EStateM Layout

/-! ## Scan states -/

/-- The scan states that `temporal_rtree_beginscan` with room for `nkeys` keys and any calls of
    `temporal_rtree_gettuple` and `temporal_rtree_rescan` lead to; the relation may change between calls. -/
inductive ScanReached (nkeys : Nat) : IndexScanDesc → Prop where
  | beginscan : ScanReached nkeys (temporalRtreeBeginscan nkeys)
  | gettuple {scan scan' : IndexScanDesc} {fuel : Nat} {forward found : Bool} {s s' : Rel}
      (h : ScanReached nkeys scan) (hrun : temporalRtreeGettuple fuel scan forward s = .ok (found, scan') s') :
      ScanReached nkeys scan'
  | rescan {scan scan' : IndexScanDesc} {keys : List ScanKey} {s s' : Rel} (h : ScanReached nkeys scan)
      (hrun : temporalRtreeRescan scan keys s = .ok scan' s') : ScanReached nkeys scan'

/-- A call that returns a scan with the same room for keys. -/
def KeepsSpace (scan : IndexScanDesc) (call : IndexM (Bool × IndexScanDesc)) : Prop :=
  ∀ s, Ends (fun res _ => res.2.keySpace = scan.keySpace) (fun _ => True) (call s)

section Space
variable {scan : IndexScanDesc} {fuel : Nat}

theorem rtreeScanTurn_keySpace (s : Rel) :
    Ends (fun res _ => res.2.keySpace = scan.keySpace) (fun _ => True) (rtreeScanTurn scan s) := by
  rw [rtreeScanTurn]
  cases scan.so.stack with
  | nil => exact rfl
  | cons frame below =>
      refine Ends.bind (Ends.trivial _) fun so s₁ _ => Ends.bind (Ends.trivial _) fun page s₂ _ => ?_
      generalize scanOffsets frame.level _ _ _ frame.nextOffset = hit
      cases hit with
      | returns offset itup => exact rfl
      | descends offset childblk => exact Ends.bind (Ends.trivial _) fun so₁ s₃ _ => rfl
      | exhausted => exact Ends.bind (Ends.trivial _) fun so₁ s₃ _ => rfl

theorem rtreeScanNext_keySpace : KeepsSpace scan (rtreeScanNext fuel scan) := by
  intro s
  induction fuel generalizing scan s with
  | zero => exact True.intro
  | succ fuel ih =>
      rw [rtreeScanNext]
      refine Ends.bind (rtreeScanTurn_keySpace s) fun res s₁ hres => ?_
      obtain ⟨turn, scan₁⟩ := res
      cases turn with
      | returned => exact hres
      | finished => exact hres
      | again =>
          have hnext : Ends (fun res _ => res.2.keySpace = scan₁.keySpace) (fun _ => True)
              (rtreeScanNext fuel scan₁ s₁) := ih s₁
          rw [show scan₁.keySpace = scan.keySpace from hres] at hnext
          exact hnext

theorem rtreeInitializeScan_keySpace : KeepsSpace scan (rtreeInitializeScan scan) := by
  intro s
  rw [rtreeInitializeScan]
  cases hq : rtreeEnsureQuery scan with
  | none => exact rfl
  | some scan₁ =>
      have hspace : scan₁.keySpace = scan.keySpace := by
        obtain ⟨queryBox, strategy, rfl⟩ := rtreeEnsureQuery_eq_some hq
        rfl
      refine Ends.bind (Ends.trivial _) fun m s₁ _ => ?_
      split
      · exact hspace
      · refine Ends.bind (Ends.trivial _) fun so s₂ _ => ?_
        split
        · exact hspace
        · exact hspace

theorem temporalRtreeGettuple_keySpace (forward : Bool) :
    KeepsSpace scan (temporalRtreeGettuple fuel scan forward) := by
  intro s
  unfold temporalRtreeGettuple
  split
  · exact rfl
  · split
    · refine Ends.bind (rtreeInitializeScan_keySpace s) fun init s₁ hinit => ?_
      obtain ⟨started, scan₁⟩ := init
      cases started with
      | false => exact hinit
      | true =>
          have hnext : Ends (fun res _ => res.2.keySpace = scan₁.keySpace) (fun _ => True)
              (rtreeScanNext fuel scan₁ s₁) := rtreeScanNext_keySpace s₁
          rw [show scan₁.keySpace = scan.keySpace from hinit] at hnext
          exact hnext
    · exact rtreeScanNext_keySpace s

theorem temporalRtreeRescan_keySpace {scan' : IndexScanDesc} {keys : List ScanKey} {s s' : Rel}
    (h : temporalRtreeRescan scan keys s = .ok scan' s') : scan'.keySpace = scan.keySpace := by
  unfold temporalRtreeRescan at h
  split at h
  · exact absurd h (by simp)
  · obtain ⟨so, s₁, -, h⟩ := bind_eq_ok.mp h
    cases h
    rfl

/-- No call changes the room for keys. -/
theorem ScanReached.keySpace {nkeys : Nat} (h : ScanReached nkeys scan) : scan.keySpace = nkeys := by
  induction h with
  | beginscan => rfl
  | gettuple _ hrun ih => exact ((temporalRtreeGettuple_keySpace _ _).of_ok hrun).trans ih
  | rescan _ hrun ih => exact (temporalRtreeRescan_keySpace hrun).trans ih

end Space

/-! ## Successive calls -/

/-- `n` forward calls of `temporal_rtree_gettuple`: what each returned, with `none` for false, and the scan
    they left. -/
def gettupleCalls (fuel : Nat) : Nat → IndexScanDesc → IndexM (List (Option ItemPointerData) × IndexScanDesc)
  | 0, scan => pure ([], scan)
  | n + 1, scan => do
      let res ← temporalRtreeGettuple fuel scan true
      let rest ← gettupleCalls fuel n res.2
      return ((if res.1 then some res.2.xsHeaptid else none) :: rest.1, rest.2)

/-- The answers of `n` calls that return the tuples of a list in order, and false after the last. -/
def answers (hits : List IndexTuple) (n : Nat) : List (Option ItemPointerData) :=
  (List.range n).map fun i => hits[i]?.map IndexTuple.tTid

theorem answers_succ (hits : List IndexTuple) (n : Nat) :
    answers hits (n + 1) = (hits.head?.map IndexTuple.tTid) :: answers hits.tail n := by
  unfold answers
  rw [List.range_succ_eq_map, List.map_cons, List.map_map, List.head?_eq_getElem?]
  congr 1
  refine List.map_congr_left fun i _ => ?_
  simp

section Calls
variable {s : Rel} {fuel : Nat}

/-- A call that returns false has taken every frame off the stack. -/
theorem rtreeScanNext_false {scan scan' : IndexScanDesc} {s' : Rel} (hok : StackOk s.pages scan.so.stack)
    (h : rtreeScanNext fuel scan s = .ok (false, scan') s') : scan'.so.stack = [] := by
  induction fuel generalizing scan s with
  | zero => exact absurd h (by simp [rtreeScanNext])
  | succ fuel ih =>
      obtain ⟨turn, scan₁, evs, hrun, hturn⟩ := rtreeScanTurn_cases hok
      rw [rtreeScanNext, bind_of_ok hrun] at h
      cases turn with
      | returned => exact absurd h (by simp)
      | finished =>
          cases h
          cases hturn with
          | finished hs => exact hs
      | again => exact ih (s := { s with trace := s.trace ++ evs }) (hturn.stackOk hok) h

/-- **The calls of a started scan answer with the matches it has left.** -/
theorem gettupleCalls_run (n : Nat) (scan : IndexScanDesc) (hstarted : scan.so.firstCall = false)
    (hok : StackOk s.pages scan.so.stack) (hfuel : remainingTurns s.pages scan.so < fuel) :
    ∃ scan' evs, gettupleCalls fuel n scan s =
      .ok (answers (remainingHits s.pages scan.so) n, scan') { s with trace := s.trace ++ evs } := by
  induction n generalizing scan s with
  | zero => exact ⟨scan, [], by simp [gettupleCalls, answers]⟩
  | succ n ih =>
      obtain ⟨found, scan₁, evs, hrun, hcall⟩ := rtreeScanNext_spec hok hfuel
      have hget : temporalRtreeGettuple fuel scan true s =
          .ok (found, scan₁) { s with trace := s.trace ++ evs } := by
        rw [temporalRtreeGettuple_next hstarted, hrun]
      obtain ⟨scan₂, evs', hrest⟩ := ih (s := { s with trace := s.trace ++ evs }) scan₁
        (hcall.sameQuery.firstCall.trans hstarted) hcall.stackOk
        (Nat.lt_of_le_of_lt hcall.turns_le hfuel)
      refine ⟨scan₂, evs ++ evs', ?_⟩
      rw [gettupleCalls, bind_of_ok hget, bind_of_ok hrest, pure_apply, answers_succ, List.append_assoc]
      cases found with
      | true =>
          obtain ⟨t, ht, htid, -⟩ := hcall.hits
          rw [ht, if_pos rfl, htid]
          rfl
      | false =>
          -- nothing was left, and nothing is left now
          have hnone : remainingHits s.pages scan.so = [] := hcall.hits
          have hleft : remainingHits s.pages scan₁.so = [] := by
            simp [remainingHits, rtreeScanNext_false hok hrun]
          rw [hnone]
          show Result.ok (none :: answers (remainingHits s.pages scan₁.so) n, scan₂) _ = _
          rw [hleft]
          rfl

/-- Without a usable key every call returns false. -/
theorem gettupleCalls_run_of_none (n : Nat) (scan : IndexScanDesc) (hfirst : scan.so.firstCall = true)
    (hfresh : scan.so.haveQuery = false) (hquery : rtreeParseQuery scan.keyData = none) :
    gettupleCalls fuel n scan s = .ok (answers [] n, scan) s := by
  have hget : temporalRtreeGettuple fuel scan true s = .ok (false, scan) s := by
    rw [temporalRtreeGettuple_first hfirst (rtreeInitializeScan_run_of_none scan hfresh hquery), cond_false]
  induction n with
  | zero => rfl
  | succ n ih =>
      rw [gettupleCalls, bind_of_ok hget, bind_of_ok ih, answers_succ]
      rfl

end Calls

/-- What a scan with one key returns. -/
theorem scanHits_single {key : ScanKey} (hkey : key.Supported) (pages : List Page) :
    scanHits pages [key] =
      (nodes.leaves (pageAt pages) (metaAt pages).rootLevel (metaAt pages).root).filter key.satisfied := by
  have hparse : rtreeParseQuery [key] = parseKey key := by simp [rtreeParseQuery]
  have hsat : key.satisfied = fun t => key.argument.elim false fun cube =>
      tupleMatches (rtreeCubeToBox cube) key.strategy t := by
    funext t
    unfold ScanKey.satisfied
    cases key.argument <;> rfl
  rw [scanHits, hparse, parseKey_of_supported hkey, hsat]
  cases key.argument with
  | none => simp
  | some cube => rfl

/-- **After a rescan with one key the calls return the leaf tuples that satisfy it, in depth-first order, each
    once, and false from then on, whatever was scanned before.** -/
theorem rescan_gettuple_answers {nkeys : Nat} {scan : IndexScanDesc} (hreached : ScanReached nkeys scan)
    (hspace : nkeys ≠ 0) {s : Rel} (hwf : WF s.pages) {key : ScanKey} (hkey : key.Supported) :
    ∃ bound, ∀ fuel n, bound ≤ fuel → ∃ scan' s',
      (temporalRtreeRescan scan [key] >>= fun scan => gettupleCalls fuel n scan) s =
        .ok (answers ((nodes.leaves (pageAt s.pages) (metaAt s.pages).rootLevel
          (metaAt s.pages).root).filter key.satisfied) n, scan') s' ∧ s'.pages = s.pages := by
  obtain ⟨evs₀, hrescan⟩ := temporalRtreeRescan_run (s := s) scan (List.cons_ne_nil key [])
    (hreached.keySpace ▸ hspace)
  let scan₀ := rescanned scan [key]
  let s₀ : Rel := { s with trace := s.trace ++ evs₀ }
  rw [← scanHits_single hkey]
  cases hquery : rtreeParseQuery [key] with
  | none =>
      refine ⟨0, fun fuel n _ => ⟨scan₀, s₀, ?_, rfl⟩⟩
      rw [bind_of_ok hrescan, gettupleCalls_run_of_none n scan₀ rfl rfl hquery, scanHits, hquery]
  | some query =>
      obtain ⟨evs₁, hinit⟩ := rtreeInitializeScan_run (s := s₀) scan₀ hwf.fits rfl hquery
      let scan₁ := startedScan s.pages scan₀ query
      let s₁ : Rel := { s₀ with trace := s₀.trace ++ evs₁ }
      refine ⟨remainingTurns s.pages scan₁.so + 1, fun fuel n hfuel => ?_⟩
      cases n with
      | zero => exact ⟨scan₀, s₀, bind_of_ok hrescan, rfl⟩
      | succ n =>
          have hfirst : temporalRtreeGettuple fuel scan₀ true s₀ = temporalRtreeGettuple fuel scan₁ true s₁ := by
            rw [temporalRtreeGettuple_first rfl hinit, temporalRtreeGettuple_next rfl, cond_true]
          have hall : gettupleCalls fuel (n + 1) scan₀ s₀ = gettupleCalls fuel (n + 1) scan₁ s₁ := by
            rw [gettupleCalls, gettupleCalls, bind_apply, bind_apply, hfirst]
          obtain ⟨scan₂, evs₂, hrun⟩ := gettupleCalls_run (s := s₁) (n + 1) scan₁ rfl
            (startedScan_stackOk scan₀ hwf.fits) (show remainingTurns s.pages scan₁.so < fuel by omega)
          refine ⟨scan₂, { s₁ with trace := s₁.trace ++ evs₂ }, ?_, rfl⟩
          have hhits : remainingHits s₁.pages scan₁.so = scanHits s.pages [key] := by
            rw [scanHits, hquery]
            exact startedScan_hits (s := s) scan₀
          rw [bind_of_ok hrescan, hall, hrun, hhits]

/-- A scan given up at its first tuple, then started again: two tuples match, and every call after the second
    returns false. -/
theorem rescan_gettuple_answers_restarted :
    let key : ScanKey := ⟨trtreeStrategyOverlap, some (rowCube 0 0 .posInf)⟩
    ∃ scan, ScanReached 1 scan ∧ scan.so.stack ≠ [] ∧
      ∃ bound, ∀ fuel n, bound ≤ fuel → ∃ scan' s',
        (temporalRtreeRescan scan [key] >>= fun scan => gettupleCalls fuel n scan) (stairs 2) =
          .ok (answers [stair 0, stair 1] n, scan') s' ∧ s'.pages = (stairs 2).pages := by
  intro key
  have hrun : okWith (fun res _ => res.1 && !res.2.so.stack.isEmpty)
      (temporalRtreeGettuple 9 (rescanned (temporalRtreeBeginscan 1) [key]) true (stairs 2)) = true := by
    decide +kernel
  obtain ⟨⟨found, scan⟩, s, hget, hcheck⟩ := exists_of_okWith hrun
  obtain ⟨-, hstack⟩ := (Bool.and_eq_true _ _).mp hcheck
  obtain ⟨evs, hrescan⟩ := temporalRtreeRescan_run (s := stairs 2) (temporalRtreeBeginscan 1)
    (List.cons_ne_nil key []) Nat.one_ne_zero
  have hreached : ScanReached 1 scan := (ScanReached.beginscan.rescan hrescan).gettuple hget
  refine ⟨scan, hreached, by simpa using hstack, ?_⟩
  have hleaves : (nodes.leaves (pageAt (stairs 2).pages) (metaAt (stairs 2).pages).rootLevel
      (metaAt (stairs 2).pages).root).filter key.satisfied = [stair 0, stair 1] := by decide +kernel
  rw [← hleaves]
  exact rescan_gettuple_answers hreached Nat.one_ne_zero (stairs_wf 2) (by decide)

end TemporalRTree
