import TemporalRTree.Correctness.Scan

/-!
# `Correctness.ScanEnds` — a scan ends on any pages

`Correctness.Scan` follows a scan over the trees of a relation. Here nothing is asked of the pages: downlinks
may form cycles, lead into leaves or be shared, and the level in the meta page may be any. A frame's level
falls by one with every downlink that is followed, whatever is on the page, so the work below a frame
(`Lib.Cursor`) is finite on any store, and each turn of the loop lowers the work of the whole stack:

- `StackTurn` is what a turn does to the stack, `StackTurn.progress` that it lowers `turnsLeft`;
- `rtreeScanNext_ends` runs that through the loop: a call can only run out of fuel if it had less than
  `turnsLeft`;
- `TrueCalls` counts calls of `temporal_rtree_gettuple` that return true one after the other, and each of
  them lowers `callTurns`.
-/

namespace TemporalRTree
open EStateM Layout

/-! ## The loop over a page -/

/-- Where the loop over the offsets ends: at one of the tuples it was given, in the branch that the level
    picks. -/
def OffsetHit.From (level : Nat) (items : List IndexTuple) (offset : OffsetNumber) : OffsetHit → Prop
  | .returns offset' itup => level = 0 ∧ ∃ i : Nat, items[i]? = some itup ∧ offset' = offset + i
  | .descends offset' childblk => level ≠ 0 ∧
      ∃ (i : Nat) (itup : IndexTuple), items[i]? = some itup ∧ childblk = itup.tTid.blkno ∧
        offset' = offset + i
  | .exhausted => True

theorem OffsetHit.From.cons {level : Nat} {itup : IndexTuple} {rest : List IndexTuple}
    {offset : OffsetNumber} {hit : OffsetHit} (h : hit.From level rest (offset + 1)) :
    hit.From level (itup :: rest) offset := by
  cases hit with
  | returns offset' u =>
      obtain ⟨hlevel, i, hi, rfl⟩ := h
      exact ⟨hlevel, i + 1, hi, Nat.add_right_comm offset 1 i⟩
  | descends offset' childblk =>
      obtain ⟨hlevel, i, u, hi, hchild, rfl⟩ := h
      exact ⟨hlevel, i + 1, u, hi, hchild, Nat.add_right_comm offset 1 i⟩
  | exhausted => exact True.intro

theorem scanOffsets_from (level : Nat) (q : RTreeTemporalBox) (strategy : StrategyNumber)
    (items : List IndexTuple) (offset : OffsetNumber) :
    (scanOffsets level q strategy items offset).From level items offset := by
  induction items generalizing offset with
  | nil => exact True.intro
  | cons itup rest ih =>
      unfold scanOffsets
      split
      · -- a NULL key is skipped
        exact (ih (offset + 1)).cons
      · split
        next hlevel =>
          split
          · exact ⟨hlevel, 0, rfl, rfl⟩
          · exact (ih (offset + 1)).cons
        next hlevel => exact ⟨hlevel, 0, itup, rfl, rfl, rfl⟩

/-! ## One turn -/

/-- What a turn of the loop of `rtree_scan_next` does to the stack, over any pages. -/
inductive StackTurn (pages : List Page) : List RTreeScanFrameData → Turn → List RTreeScanFrameData → Prop where
  | finished : StackTurn pages [] .finished []
  | hit {frame : RTreeScanFrameData} {below : List RTreeScanFrameData} {i : Nat} {t : IndexTuple}
      (hlevel : frame.level = 0)
      (hitem : (pageAt pages frame.blkno).items[frame.nextOffset - 1 + i]? = some t) :
      StackTurn pages (frame :: below) .returned
        ({ frame with nextOffset := frame.nextOffset + i + 1 } :: below)
  | descend {frame : RTreeScanFrameData} {below : List RTreeScanFrameData} {i l : Nat} {t : IndexTuple}
      (hlevel : frame.level = l + 1)
      (hitem : (pageAt pages frame.blkno).items[frame.nextOffset - 1 + i]? = some t) :
      StackTurn pages (frame :: below) .again
        ({ blkno := t.tTid.blkno, level := l, nextOffset := firstOffsetNumber } ::
          { frame with nextOffset := frame.nextOffset + i + 1 } :: below)
  | leave {frame : RTreeScanFrameData} {below : List RTreeScanFrameData} :
      StackTurn pages (frame :: below) .again below

/-- How a turn ends: it moves the stack, or the block it is to read does not exist. -/
def TurnEnds (scan : IndexScanDesc) (s : Rel) : Result RTreeError Rel (Turn × IndexScanDesc) → Prop
  | .ok res s' => s'.pages = s.pages ∧ res.2.so.firstCall = scan.so.firstCall ∧
      StackTurn s.pages scan.so.stack res.1 res.2.so.stack
  | .error e _ => e = .couldNotReadBlock

section Turn
variable {s : Rel}

/-- The scan stands on the page of its frame unless the block does not exist. -/
theorem standOnFrame_cases (so : RTreeScanOpaqueData) (blkno : BlockNumber) :
    (∃ evs, standOnFrame so blkno s = .ok { so with curBuf := some blkno } { s with trace := s.trace ++ evs }) ∨
      ∃ s', standOnFrame so blkno s = .error .couldNotReadBlock s' := by
  by_cases hlt : blkno < s.pages.length
  · exact Or.inl (standOnFrame_run so hlt)
  · by_cases hcur : so.curBuf = some blkno
    · -- a page the scan stands on is not read again
      refine Or.inl ⟨[], ?_⟩
      rw [standOnFrame, if_pos hcur, pure_apply, List.append_nil, ← hcur]
    · obtain ⟨evs, hrel⟩ := rtreeReleaseCurrentPage_run (s := s) so
      refine Or.inr ⟨{ s with trace := s.trace ++ evs }, ?_⟩
      rw [standOnFrame, if_neg hcur, bind_of_ok hrel, manager_readBuffer,
        bind_of_error (readBuffer_run_of_not_lt hlt)]

/-- **Every turn, over any pages, is one of these.** -/
theorem rtreeScanTurn_ends (scan : IndexScanDesc) : TurnEnds scan s (rtreeScanTurn scan s) := by
  cases hs : scan.so.stack with
  | nil =>
      simp only [rtreeScanTurn, hs]
      exact ⟨rfl, rfl, hs ▸ .finished⟩
  | cons frame below =>
      rcases standOnFrame_cases (s := s) scan.so frame.blkno with ⟨evs₀, hstand⟩ | ⟨s', hstand⟩
      · obtain ⟨evs, hrun⟩ := rtreeScanTurn_run hs hstand
        rw [hrun]
        have hfrom := scanOffsets_from frame.level scan.so.queryBox scan.so.strategy
          ((pageAt s.pages frame.blkno).items.drop (frame.nextOffset - 1)) frame.nextOffset
        cases hhit : scanOffsets frame.level scan.so.queryBox scan.so.strategy
          ((pageAt s.pages frame.blkno).items.drop (frame.nextOffset - 1)) frame.nextOffset with
        | returns offset itup =>
            rw [hhit] at hfrom
            obtain ⟨hlevel, i, hi, rfl⟩ := hfrom
            rw [List.getElem?_drop] at hi
            exact ⟨rfl, rfl, hs ▸ .hit hlevel hi⟩
        | descends offset childblk =>
            rw [hhit] at hfrom
            obtain ⟨hlevel, i, itup, hi, rfl, rfl⟩ := hfrom
            obtain ⟨l, hl⟩ := Nat.exists_eq_succ_of_ne_zero hlevel
            rw [List.getElem?_drop] at hi
            refine ⟨rfl, rfl, ?_⟩
            show StackTurn s.pages scan.so.stack .again
              ({ blkno := itup.tTid.blkno, level := frame.level - 1, nextOffset := firstOffsetNumber } :: _)
            rw [hs, show frame.level - 1 = l by omega]
            exact .descend hl hi
        | exhausted => exact ⟨rfl, rfl, hs ▸ .leave⟩
      · simp only [rtreeScanTurn, hs]
        rw [bind_of_error hstand]
        exact rfl

end Turn

/-! ## Progress -/

/-- A bound on the turns a frame has left. From offset 0, before the first tuple, the tuple that is found is
    found once more. -/
def frameTurns (pages : List Page) (f : RTreeScanFrameData) : Nat :=
  if f.nextOffset = 0 then 2 * nodes.frameWork (pageAt pages) f.toFrame
  else nodes.frameWork (pageAt pages) f.toFrame

/-- A bound on the turns a stack has left. -/
def turnsLeft (pages : List Page) (stack : List RTreeScanFrameData) : Nat :=
  (stack.map (frameTurns pages)).sum

section Progress
variable {pages : List Page} {f : RTreeScanFrameData} {i l : Nat} {t : IndexTuple}

@[simp] theorem turnsLeft_cons (stack : List RTreeScanFrameData) :
    turnsLeft pages (f :: stack) = frameTurns pages f + turnsLeft pages stack := rfl

theorem frameTurns_pos : 0 < frameTurns pages f := by
  have : 0 < nodes.frameWork (pageAt pages) f.toFrame := frameWork_pos _
  unfold frameTurns
  split <;> omega

theorem frameTurns_zero (b : BlockNumber) :
    frameTurns pages ⟨b, l, 0⟩ = 2 * nodes.frameWork (pageAt pages) ⟨b, l, 0⟩ := rfl

theorem frameTurns_succ (b : BlockNumber) (n : Nat) :
    frameTurns pages ⟨b, l, n + 1⟩ = nodes.frameWork (pageAt pages) ⟨b, l, n⟩ := rfl

/-- Passing a tuple of a leaf. -/
theorem frameTurns_hit {b : BlockNumber} {n : Nat}
    (hitem : (pageAt pages b).items[n - 1 + i]? = some t) :
    frameTurns pages ⟨b, 0, n + i + 1⟩ < frameTurns pages ⟨b, 0, n⟩ := by
  have hlt : n - 1 + i < (nodes.vals (pageAt pages b)).length := (List.getElem?_eq_some_iff.mp hitem).1
  rw [frameTurns_succ]
  cases n with
  | zero =>
      have hle : nodes.frameWork (pageAt pages) ⟨b, 0, 0 + i⟩ ≤ nodes.frameWork (pageAt pages) ⟨b, 0, 0⟩ :=
        frameWork_anti (Nat.zero_le _)
      have hpos : 0 < nodes.frameWork (pageAt pages) ⟨b, 0, 0⟩ := frameWork_pos _
      rw [frameTurns_zero]
      omega
  | succ n =>
      rw [frameTurns_succ]
      exact frameWork_leaf (by omega) (by omega)

/-- Following a downlink. -/
theorem frameTurns_descend {b : BlockNumber} {n : Nat}
    (hitem : (pageAt pages b).items[n - 1 + i]? = some t) :
    frameTurns pages ⟨t.tTid.blkno, l, firstOffsetNumber⟩ + frameTurns pages ⟨b, l + 1, n + i + 1⟩ <
      frameTurns pages ⟨b, l + 1, n⟩ := by
  have hkid := frameWork_kid (l := l) (kids_getElem? hitem)
  have hle : nodes.frameWork (pageAt pages) ⟨b, l + 1, n - 1 + i⟩ ≤
      nodes.frameWork (pageAt pages) ⟨b, l + 1, n - 1⟩ := frameWork_anti (Nat.le_add_right _ _)
  rw [firstOffsetNumber, frameTurns_succ _ 0, frameTurns_succ, frameWork_start]
  cases n with
  | zero =>
      -- the kid is found again: its tree counts twice
      rw [frameTurns_zero]
      simp only [Nat.zero_sub] at hkid hle
      omega
  | succ n =>
      rw [frameTurns_succ, Nat.add_right_comm n 1 i]
      simp only [Nat.add_sub_cancel] at hkid hle
      omega

/-- **Every turn but the last lowers the bound.** -/
theorem StackTurn.progress {stack stack' : List RTreeScanFrameData} {turn : Turn}
    (h : StackTurn pages stack turn stack') (hne : turn ≠ .finished) :
    turnsLeft pages stack' < turnsLeft pages stack := by
  cases h with
  | finished => exact absurd rfl hne
  | @hit frame below i t hlevel hitem =>
      obtain ⟨b, level, n⟩ := frame
      obtain rfl : level = 0 := hlevel
      exact Nat.add_lt_add_right (frameTurns_hit hitem) _
  | @descend frame below i l t hlevel hitem =>
      obtain ⟨b, level, n⟩ := frame
      obtain rfl : level = l + 1 := hlevel
      have hlt := frameTurns_descend (l := l) hitem
      simp only [turnsLeft_cons]
      dsimp only at hlt
      omega
  | @leave frame =>
      have hpos : 0 < frameTurns pages frame := frameTurns_pos
      rw [turnsLeft_cons]
      omega

end Progress

/-! ## Calls -/

/-- How a call of `rtree_scan_next` ends: it returns, having made progress if it returns true, or the block it
    is to read does not exist, or it had too little fuel. -/
def CallEnds (fuel : Nat) (scan : IndexScanDesc) (s : Rel) :
    Result RTreeError Rel (Bool × IndexScanDesc) → Prop
  | .ok res s' => s'.pages = s.pages ∧ res.2.so.firstCall = scan.so.firstCall ∧
      (res.1 = true → turnsLeft s.pages res.2.so.stack < turnsLeft s.pages scan.so.stack)
  | .error e _ => e = .couldNotReadBlock ∨ fuel ≤ turnsLeft s.pages scan.so.stack

/-- A call goes on after a turn. -/
theorem CallEnds.after {fuel : Nat} {scan scan₁ : IndexScanDesc} {s s₁ : Rel}
    {r : Result RTreeError Rel (Bool × IndexScanDesc)} (h : CallEnds fuel scan₁ s₁ r)
    (hpages : s₁.pages = s.pages) (hfirst : scan₁.so.firstCall = scan.so.firstCall)
    (hlt : turnsLeft s.pages scan₁.so.stack < turnsLeft s.pages scan.so.stack) :
    CallEnds (fuel + 1) scan s r := by
  cases r with
  | ok res s' =>
      obtain ⟨hp, hf, hprog⟩ := h
      rw [hpages] at hp hprog
      exact ⟨hp, hf.trans hfirst, fun ht => (hprog ht).trans hlt⟩
  | error e s' =>
      refine h.imp id fun hfuel => ?_
      rw [hpages] at hfuel
      omega

theorem rtreeScanNext_ends (fuel : Nat) (scan : IndexScanDesc) (s : Rel) :
    CallEnds fuel scan s (rtreeScanNext fuel scan s) := by
  induction fuel generalizing scan s with
  | zero => exact Or.inr (Nat.zero_le _)
  | succ fuel ih =>
      have hturn := rtreeScanTurn_ends (s := s) scan
      cases hrun : rtreeScanTurn scan s with
      | error e s₁ =>
          rw [hrun] at hturn
          rw [rtreeScanNext, bind_of_error hrun]
          exact Or.inl hturn
      | ok res s₁ =>
          rw [hrun] at hturn
          obtain ⟨turn, scan₁⟩ := res
          obtain ⟨hpages, hfirst, hstack⟩ := hturn
          rw [rtreeScanNext, bind_of_ok hrun]
          cases turn with
          | finished => exact ⟨hpages, hfirst, fun h => absurd h (by simp)⟩
          | returned => exact ⟨hpages, hfirst, fun _ => hstack.progress (by simp)⟩
          | again => exact (ih scan₁ s₁).after hpages hfirst (hstack.progress (by simp))

/-- The frame a scan starts with. -/
def rootFrame (pages : List Page) : RTreeScanFrameData :=
  { blkno := (metaAt pages).root, level := (metaAt pages).rootLevel, nextOffset := firstOffsetNumber }

/-- A bound on the turns in all calls of `temporal_rtree_gettuple` that are left. -/
def callTurns (pages : List Page) (scan : IndexScanDesc) : Nat :=
  if scan.so.firstCall then turnsLeft pages [rootFrame pages] else turnsLeft pages scan.so.stack

section Calls
variable {s s' : Rel} {scan scan' : IndexScanDesc} {fuel : Nat}

/-- A scan that starts has the root on its stack. -/
theorem rtreeInitializeScan_started (h : rtreeInitializeScan scan s = .ok (true, scan') s') :
    s'.pages = s.pages ∧ scan'.so.firstCall = false ∧ scan'.so.stack = [rootFrame s.pages] := by
  rw [rtreeInitializeScan] at h
  cases hq : rtreeEnsureQuery scan with
  | none => simp [hq] at h
  | some scan₁ =>
      simp only [hq] at h
      by_cases hlen : 0 < s.pages.length
      · obtain ⟨evs, hrel⟩ := rtreeReleaseCurrentPage_run
          (s := { s with trace := s.trace ++ [Event.lock 0 .share, Event.unlock 0] })
          { scan₁.so with stack := [] }
        rw [rtreeReadMeta_eq, bind_of_ok (readMeta_run hlen)] at h
        split at h
        · simp at h
        · rw [bind_of_ok hrel] at h
          split at h
          · simp at h
          · cases h
            exact ⟨rfl, rfl, rfl⟩
      · rw [rtreeReadMeta_eq, readMeta, bind_of_error (bind_of_error (readBuffer_run_of_not_lt hlen))] at h
        simp at h

/-- A call that returns true makes progress. -/
theorem temporalRtreeGettuple_progress {forward : Bool}
    (h : temporalRtreeGettuple fuel scan forward s = .ok (true, scan') s') :
    callTurns s.pages scan' < callTurns s.pages scan := by
  -- a call that goes on from a started scan
  have hnext : ∀ {s₁ : Rel} {scan₁ : IndexScanDesc}, s₁.pages = s.pages → scan₁.so.firstCall = false →
      rtreeScanNext fuel scan₁ s₁ = .ok (true, scan') s' →
        callTurns s.pages scan' < turnsLeft s.pages scan₁.so.stack := by
    intro s₁ scan₁ hpages hfirst hrun
    have hends := rtreeScanNext_ends fuel scan₁ s₁
    rw [hrun] at hends
    obtain ⟨-, hfirst', hprog⟩ := hends
    rw [hpages] at hprog
    rw [callTurns, hfirst', hfirst]
    exact hprog rfl
  cases forward with
  | false => simp [temporalRtreeGettuple] at h
  | true =>
      cases hfirst : scan.so.firstCall with
      | false =>
          rw [temporalRtreeGettuple_next hfirst] at h
          rw [callTurns.eq_def _ scan, hfirst]
          exact hnext rfl hfirst h
      | true =>
          rw [callTurns.eq_def _ scan, hfirst]
          cases hinit : rtreeInitializeScan scan s with
          | error e s₁ => simp [temporalRtreeGettuple, hfirst, bind_of_error hinit] at h
          | ok res s₁ =>
              obtain ⟨started, scan₁⟩ := res
              rw [temporalRtreeGettuple_first hfirst hinit] at h
              cases started with
              | false => simp at h
              | true =>
                  obtain ⟨hpages, hf, hstack⟩ := rtreeInitializeScan_started hinit
                  have hlt := hnext hpages hf h
                  rw [hstack] at hlt
                  exact hlt

end Calls

/-- The next `n` calls of `temporal_rtree_gettuple` return true, with the pages as they are. -/
inductive TrueCalls (pages : List Page) : Nat → IndexScanDesc → Prop where
  | zero {scan : IndexScanDesc} : TrueCalls pages 0 scan
  | succ {n fuel : Nat} {forward : Bool} {scan scan' : IndexScanDesc} {s s' : Rel} (hpages : s.pages = pages)
      (hcall : temporalRtreeGettuple fuel scan forward s = .ok (true, scan') s')
      (h : TrueCalls pages n scan') : TrueCalls pages (n + 1) scan

theorem TrueCalls.le_callTurns {pages : List Page} {n : Nat} {scan : IndexScanDesc}
    (h : TrueCalls pages n scan) : n ≤ callTurns pages scan := by
  induction h with
  | zero => exact Nat.zero_le _
  | succ hpages hcall _ ih =>
      subst hpages
      have hlt := temporalRtreeGettuple_progress hcall
      omega

/-- **A scan ends on any pages.** From every scan state a call of `rtree_scan_next` returns, unless a block it
    is to read does not exist, and there is a bound on the calls of `temporal_rtree_gettuple` that return
    true. -/
theorem scan_ends (s : Rel) (scan : IndexScanDesc) :
    (∃ bound, ∀ fuel, bound ≤ fuel →
      (∃ found scan' s', rtreeScanNext fuel scan s = .ok (found, scan') s') ∨
        ∃ s', rtreeScanNext fuel scan s = .error .couldNotReadBlock s') ∧
      ∃ bound, ∀ n, TrueCalls s.pages n scan → n ≤ bound := by
  refine ⟨⟨turnsLeft s.pages scan.so.stack + 1, fun fuel hfuel => ?_⟩,
    callTurns s.pages scan, fun n h => h.le_callTurns⟩
  have hends := rtreeScanNext_ends fuel scan s
  cases hrun : rtreeScanNext fuel scan s with
  | ok res s' => exact Or.inl ⟨res.1, res.2, s', rfl⟩
  | error e s' =>
      rw [hrun] at hends
      rcases hends with rfl | hle
      · exact Or.inr ⟨s', rfl⟩
      · omega

/-- A page with two downlinks, both to itself, and a meta page that gives it level 2. -/
def selfLinked : List Page :=
  let link : IndexTuple := { tTid := childTid 1, key := some (rowCube 0 0 (.fin 0)) }
  [.metapage (rtreeInitMetapage 1 2),
    .data { special := { rightlink := invalidBlockNumber, flags := { root := true }, level := 2, nsn := 0 }
            items := [link, link]
            fits := by decide }]

-- the page is the root, then twice at level 1, then four times a leaf with two matches
example : okWith (fun tids _ => tids.length == 8)
    (gettupleAll 6 9 { keySpace := 0, so := { firstCall := false, stack := [rootFrame selfLinked] } }
      { pages := selfLinked, trace := [] }) = true := by
  decide +kernel

end TemporalRTree
