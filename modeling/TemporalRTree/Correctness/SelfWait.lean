import TemporalRTree.Correctness.ConcurrentScan

/-!
# `Correctness.SelfWait` — a session that scans and inserts, and the locks it keeps from itself

`temporal_rtree_gettuple` returns with the page it stands on still share locked. What a call holds is then a
matter of the trace: between calls the session has locked exactly the page of `cur_buf` (`Holding`), and an
insert asks for exclusive locks on the blocks of its descent, on new blocks and on the meta page only
(`Inserts.locks`, `InsertFails.locks`). So the session waits for itself only when the descent passes the page
the scan stands on.
-/

namespace TemporalRTree
open EStateM Layout Transition

/-! ## The locks of an insert -/

/-- The blocks `rtree_insert_page` locks on its way from `blk` down to a leaf. -/
def descentPath (pages : List Page) (box : RTreeTemporalBox) : Nat → BlockNumber → List BlockNumber
  | 0, blk => [blk]
  | level + 1, blk =>
      let page := pageAt pages blk
      if page.special.flags.leaf then [blk]
      else blk :: descentPath pages box level (chooseSubtreeInsert page box)

/-- The action takes no share lock, and the page it locks or releases is in `S`. -/
def Event.Locks (S : BlockNumber → Prop) : Event → Prop
  | .lock _ .share => False
  | .lock blkno .exclusive => S blkno
  | .unlock blkno => S blkno
  | _ => True

/-- Exclusive locks apart from the pages held keep them held, and nothing waits. -/
theorem foldl_after_of_locks {held : List BlockNumber} {evs : List Event}
    (h : ∀ e ∈ evs, e.Locks (· ∉ held)) :
    evs.foldl LockState.after { shared := held } = { shared := held } := by
  induction evs with
  | nil => rfl
  | cons e evs ih =>
      have he := h e List.mem_cons_self
      have hstep : LockState.after { shared := held } e = { shared := held } := by
        cases e with
        | lock b mode =>
            cases mode with
            | share => exact he.elim
            | exclusive =>
                have hb : b ∉ held := he
                simp [LockState.after, hb]
        | unlock b =>
            have hb : b ∉ held := he
            simp [LockState.after, List.erase_of_not_mem hb]
        | _ => rfl
      rw [List.foldl_cons, hstep]
      exact ih fun e' h' => h e' (List.mem_cons_of_mem _ h')

section Descent
variable {env : Env} {itup : IndexTuple} {box : RTreeTemporalBox} {pages pages' : List Page}
  {blk : BlockNumber} {level : Nat} {evs : List Event}

theorem self_mem_descentPath : ∀ {level : Nat}, blk ∈ descentPath pages box level blk
  | 0 => List.mem_singleton.mpr rfl
  | level + 1 => by
      unfold descentPath
      dsimp only
      split
      · exact List.mem_singleton.mpr rfl
      · exact List.mem_cons_self

/-- The path goes on through the followed downlink. -/
theorem ChoosesChild.descentPath {pos : Nat} {childitup : IndexTuple}
    (h : ChoosesChild (pageAt pages blk) box pos childitup) :
    descentPath pages box (level + 1) blk = blk :: descentPath pages box level childitup.tTid.blkno := by
  rw [TemporalRTree.descentPath, h.blkno]
  exact if_neg (by simp [h.inner])

/-- The blocks a descent may lock: those of its path, and new ones. -/
abbrev OnPath (pages : List Page) (box : RTreeTemporalBox) (level : Nat) (blk x : BlockNumber) : Prop :=
  x ∈ descentPath pages box level blk ∨ pages.length ≤ x

theorem onPath_self : OnPath pages box level blk blk := Or.inl self_mem_descentPath

theorem onPath_new {x : BlockNumber} (h : pages.length ≤ x) : OnPath pages box level blk x := Or.inr h

theorem Event.Locks.mono {S T : BlockNumber → Prop} (hST : ∀ x, S x → T x) {e : Event} (h : e.Locks S) :
    e.Locks T := by
  cases e with
  | lock b mode =>
      cases mode with
      | share => exact h
      | exclusive => exact hST b h
  | unlock b => exact hST b h
  | _ => trivial

/-- Every action of a trace locks in `S`. -/
def LocksIn (S : BlockNumber → Prop) (evs : List Event) : Prop := ∀ e ∈ evs, e.Locks S

section LocksIn
variable {S T : BlockNumber → Prop} {evs₁ evs₂ : List Event}

@[simp] theorem locksIn_nil : LocksIn S [] := List.forall_mem_nil _

@[simp] theorem locksIn_append : LocksIn S (evs₁ ++ evs₂) ↔ LocksIn S evs₁ ∧ LocksIn S evs₂ :=
  List.forall_mem_append

@[simp] theorem locksIn_lock {b : BlockNumber} :
    LocksIn S (Event.lock b .exclusive :: evs₁) ↔ S b ∧ LocksIn S evs₁ := List.forall_mem_cons

@[simp] theorem locksIn_unlock {b : BlockNumber} : LocksIn S (Event.unlock b :: evs₁) ↔ S b ∧ LocksIn S evs₁ :=
  List.forall_mem_cons

@[simp] theorem locksIn_dirty {b : BlockNumber} : LocksIn S (Event.dirty b :: evs₁) ↔ LocksIn S evs₁ :=
  List.forall_mem_cons.trans (and_iff_right True.intro)

@[simp] theorem locksIn_split {l r : BlockNumber} : LocksIn S (Event.split l r :: evs₁) ↔ LocksIn S evs₁ :=
  List.forall_mem_cons.trans (and_iff_right True.intro)

@[simp] theorem locksIn_addItem {ok : Bool} : LocksIn S (Event.addItem ok :: evs₁) ↔ LocksIn S evs₁ :=
  List.forall_mem_cons.trans (and_iff_right True.intro)

theorem LocksIn.mono (h : LocksIn S evs₁) (hST : ∀ x, S x → T x) : LocksIn T evs₁ :=
  fun e he => (h e he).mono hST

@[simp] theorem locksIn_addItems (results : List Bool) : LocksIn S (results.map Event.addItem) := by
  intro e he
  obtain ⟨ok, -, rfl⟩ := List.mem_map.mp he
  trivial

@[simp] theorem locksIn_walRecord (images : List (BlockNumber × Page)) : LocksIn S (walRecord env images) := by
  intro e he
  unfold walRecord at he
  split at he
  · rw [List.mem_singleton.mp he]
    trivial
  · exact absurd he List.not_mem_nil

@[simp] theorem locksIn_changeTrace {page : DataPage} : LocksIn S (changeTrace env blk page) := by
  simp [changeTrace]

end LocksIn

theorem splitTrace_locks {S : BlockNumber → Prop} {newitup : IndexTuple} {flags : PageFlags}
    (hnew : S pages.length) : LocksIn S (splitTrace env pages blk newitup box level flags) := by
  simp [splitTrace, hnew]

theorem promoteTrace_locks {S : BlockNumber → Prop} {leftBox : RTreeTemporalBox} {right : SplitRight}
    (hleft : S blk) (hnew : S pages.length) : LocksIn S (promoteTrace pages blk leftBox right level) := by
  simp [promoteTrace, hleft, hnew]

/-- What the recursive call locks lies on the path of the whole. -/
theorem ChoosesChild.locks {pos : Nat} {childitup : IndexTuple}
    (h : ChoosesChild (pageAt pages blk) box pos childitup)
    (ih : LocksIn (OnPath pages box level childitup.tTid.blkno) evs) :
    LocksIn (OnPath pages box (level + 1) blk) evs := by
  refine ih.mono fun x hx => ?_
  rw [OnPath, h.descentPath]
  exact hx.imp_left (List.mem_cons_of_mem _)

/-- **A completed descent locks the blocks of its path and new ones.** -/
theorem Inserts.locks {res : RTreeInsertResult} (h : Inserts env itup box pages blk level res pages' evs) :
    LocksIn (OnPath pages box level blk) evs := by
  induction h with
  | leafAdd => simp [onPath_self]
  | leafSplit => simp [onPath_self, splitTrace_locks (onPath_new (Nat.le_refl pages.length))]
  | innerKeep hblk hchild hrec hrep ih => simp [onPath_self, hchild.locks ih]
  | innerAdd hblk hchild hrec hrep hroom hadd ih => simp [onPath_self, hchild.locks ih]
  | @innerSplit pages₁ blk level pos childitup childBox right page₂ evs hblk hchild hrec hrep hfull hext ih =>
      have hnew : OnPath pages box (level + 1) blk (pages₁.set blk (.data page₂)).length :=
        onPath_new (by simpa using hrec.length_le)
      simp [onPath_self, hchild.locks ih, splitTrace_locks hnew]

/-- **So does a failed one.** -/
theorem InsertFails.locks {err : RTreeError} (h : InsertFails env itup box pages blk level err pages' evs) :
    LocksIn (OnPath pages box level blk) evs := by
  induction h with
  | unreadable => simp
  | leafSplit => simp [onPath_self]
  | noDownlinks => simp [onPath_self]
  | child hblk hchild hrec ih => simp [onPath_self, hchild.locks ih]
  | replace hblk hchild hrec hrep => simp [onPath_self, hchild.locks hrec.locks]
  | innerSplit hblk hchild hrec hrep hfull hext => simp [onPath_self, hchild.locks hrec.locks]

end Descent

/-! ## The locks of a whole insert -/

/-- Nothing has waited. -/
def NoWait (s : Rel) : Prop := (locksOf s.trace).waitsForItself = false

/-- Between calls the session has locked the page its scan stands on. -/
structure Holding (pages : List Page) (so : RTreeScanOpaqueData) (s : Rel) : Prop where
  pages_eq : s.pages = pages
  locks : locksOf s.trace = { shared := so.curBuf.toList }

theorem locksOf_append (trace evs : List Event) :
    locksOf (trace ++ evs) = evs.foldl LockState.after (locksOf trace) :=
  List.foldl_append

theorem Holding.noWait {pages : List Page} {so : RTreeScanOpaqueData} {s : Rel} (h : Holding pages so s) :
    NoWait s := by
  unfold NoWait
  rw [h.locks]

/-- The page a scan stands on is a page of the relation and not the meta page. -/
def OnDataPage (pages : List Page) (so : RTreeScanOpaqueData) : Prop :=
  ∀ b ∈ so.curBuf, 0 < b ∧ b < pages.length

section Insert
variable {env : Env} {itup : IndexTuple} {box : RTreeTemporalBox} {s : Rel} {so : RTreeScanOpaqueData}

/-- Reading the meta page takes a share lock and gives it back. -/
theorem after_metaRead (locks : LockState) :
    [Event.lock 0 .share, Event.unlock 0].foldl LockState.after locks = locks := by
  simp [LockState.after]

/-- The blocks an insert may lock once it has read the meta page. -/
def InsertLocks (pages : List Page) (box : RTreeTemporalBox) (x : BlockNumber) : Prop :=
  OnPath pages box (metaAt pages).rootLevel (metaAt pages).root x ∨ x = 0

/-- A completed insert reads the meta page, then locks those. -/
theorem InsertsTuple.locks {pages pages' : List Page} {evs : List Event}
    (h : InsertsTuple env itup box pages pages' evs) :
    ∃ rest, evs = [Event.lock 0 .share, Event.unlock 0] ++ rest ∧ LocksIn (InsertLocks pages box) rest := by
  cases h with
  | keep hlen hmagic hins => exact ⟨_, rfl, hins.locks.mono fun x => Or.inl⟩
  | @promote pages₁ leftBox right evs hlen hmagic hins hext =>
      have hroot : InsertLocks pages box (metaAt pages).root := Or.inl onPath_self
      have hnew : InsertLocks pages box pages₁.length := Or.inl (onPath_new hins.length_le)
      have hmeta : InsertLocks pages box 0 := Or.inr rfl
      refine ⟨evs ++ promoteTrace pages₁ (metaAt pages).root leftBox right (metaAt pages).rootLevel ++
        [Event.lock 0 .exclusive, Event.dirty 0, Event.unlock 0], by simp only [List.append_assoc], ?_⟩
      have hbelow : LocksIn (InsertLocks pages box) evs := hins.locks.mono fun x => Or.inl
      simp [hbelow, hmeta, promoteTrace_locks hroot hnew]

/-- **An insert whose descent avoids the page the scan stands on waits for nothing.** -/
theorem insertTuple_locks (hlocks : locksOf s.trace = { shared := so.curBuf.toList })
    (hpage : OnDataPage s.pages so)
    (havoid : ∀ b ∈ so.curBuf,
      b ∉ descentPath s.pages box (metaAt s.pages).rootLevel (metaAt s.pages).root) :
    Ends (fun _ s' => locksOf s'.trace = { shared := so.curBuf.toList }) NoWait
      (insertTuple env itup box s) := by
  -- the page held is none of those an insert locks
  have hnot : ∀ x, InsertLocks s.pages box x → x ∉ so.curBuf.toList := by
    rintro x hx hcur
    have hcur : x ∈ so.curBuf := Option.mem_toList.mp hcur
    rcases hx with (hx | hx) | rfl
    · exact havoid x hcur hx
    · exact Nat.lt_irrefl _ (Nat.lt_of_lt_of_le (hpage x hcur).2 hx)
    · exact Nat.lt_irrefl 0 (hpage 0 hcur).1
  -- so after the read of the meta page the trace changes nothing
  have hkeep : ∀ {evs : List Event}, LocksIn (InsertLocks s.pages box) evs →
      locksOf (s.trace ++ ([Event.lock 0 .share, Event.unlock 0] ++ evs)) =
        { shared := so.curBuf.toList } := by
    intro evs h
    rw [locksOf_append, List.foldl_append, after_metaRead, hlocks,
      foldl_after_of_locks (h.mono hnot)]
  cases hrun : insertTuple env itup box s with
  | ok u s' =>
      obtain ⟨evs, hins, htrace⟩ := insertTuple_inserts hrun
      obtain ⟨rest, rfl, hrest⟩ := hins.locks
      show locksOf s'.trace = _
      rw [htrace, hkeep hrest]
  | error err s' =>
      obtain ⟨evs, hfail, htrace⟩ := insertTuple_fails hrun
      show (locksOf s'.trace).waitsForItself = false
      rw [htrace]
      generalize s'.pages = pages' at hfail
      cases hfail with
      | unreadable => rw [List.append_nil, hlocks]
      | missingMeta => rw [locksOf_append, hlocks]; rfl
      | descent hlen hmagic hfail => rw [hkeep (hfail.locks.mono fun x => Or.inl)]
      | promote hlen hmagic hins hext =>
          rw [List.append_assoc, hkeep]
          have hroot : InsertLocks s.pages box (metaAt s.pages).root := Or.inl onPath_self
          have hbelow : LocksIn (InsertLocks s.pages box) _ := hins.locks.mono fun x => Or.inl
          simp [hbelow, hroot]

end Insert

/-! ## The locks of a scan -/

section Scan
variable {pages : List Page} {s : Rel}

theorem rtreeReleaseCurrentPage_holding {so : RTreeScanOpaqueData} (h : Holding pages so s) :
    Ends (fun so' s' => so' = { so with curBuf := none } ∧ Holding pages so' s') NoWait
      (rtreeReleaseCurrentPage so s) := by
  obtain ⟨hpages, hlocks⟩ := h
  obtain ⟨curBuf, firstCall, queryBox, strategy, haveQuery, stack⟩ := so
  cases curBuf with
  | none => exact ⟨rfl, hpages, hlocks⟩
  | some b =>
      refine ⟨rfl, hpages, ?_⟩
      rw [locksOf_append, hlocks]
      simp [LockState.after]

theorem standOnFrame_holding {so : RTreeScanOpaqueData} {blkno : BlockNumber} (h : Holding pages so s)
    (hpage : OnDataPage pages so) :
    Ends (fun so' s' => so' = { so with curBuf := some blkno } ∧ blkno < pages.length ∧
      Holding pages so' s') NoWait (standOnFrame so blkno s) := by
  by_cases hcur : so.curBuf = some blkno
  · rw [standOnFrame, if_pos hcur]
    refine ⟨?_, (hpage blkno hcur).2, h⟩
    rw [← hcur]
  · rw [standOnFrame, if_neg hcur]
    refine Ends.bind (rtreeReleaseCurrentPage_holding h) fun so₁ s₁ h₁ => ?_
    obtain ⟨rfl, hpages, hlocks⟩ := h₁
    rw [manager_readBuffer, manager_lockForRead]
    by_cases hblk : blkno < s₁.pages.length
    · rw [bind_of_ok (readBuffer_run_of_lt hblk), bind_of_ok (lockBuffer_run _ _ _)]
      refine ⟨rfl, hpages ▸ hblk, hpages, ?_⟩
      rw [locksOf_append, hlocks]
      rfl
    · rw [bind_of_error (readBuffer_run_of_not_lt hblk)]
      show (locksOf s₁.trace).waitsForItself = false
      rw [hlocks]

/-- The loop over the offsets of a page without tuples finds nothing. -/
theorem scanOffsets_drop_nil {level n : Nat} {q : RTreeTemporalBox} {strategy : StrategyNumber}
    {items : List IndexTuple} {offset : OffsetNumber} (h : items = []) :
    scanOffsets level q strategy (items.drop n) offset = .exhausted := by
  rw [h, List.drop_nil]
  rfl

/-- What the calls of a scan keep. -/
def ScanKeeps (pages : List Page) (so : RTreeScanOpaqueData) (s : Rel) : Prop :=
  Holding pages so s ∧ OnDataPage pages so

theorem ScanKeeps.noWait {so : RTreeScanOpaqueData} (h : ScanKeeps pages so s) : NoWait s := h.1.noWait

variable (hzero : (pageAt pages 0).items = [])
include hzero

/-- **A turn of the loop stands on no page, or on one it has found a tuple on.** -/
theorem rtreeScanTurn_keeps {scan : IndexScanDesc} (h : ScanKeeps pages scan.so s) :
    Ends (fun res s' => ScanKeeps pages res.2.so s') NoWait (rtreeScanTurn scan s) := by
  obtain ⟨hhold, hpage⟩ := h
  rw [rtreeScanTurn]
  cases hs : scan.so.stack with
  | nil => exact ⟨hhold, hpage⟩
  | cons frame below =>
      refine Ends.bind (standOnFrame_holding hhold hpage) fun so₁ s₁ h₁ => ?_
      obtain ⟨rfl, hblk, hpages, hlocks⟩ := h₁
      rw [manager_getPage, bind_of_ok (bufferGetPage_run _ _)]
      generalize hhit : scanOffsets frame.level _ _ _ frame.nextOffset = hit
      cases hit with
      | returns offset itup =>
          refine ⟨⟨hpages, hlocks⟩, ?_⟩
          -- the meta page has no tuples, so the loop would not have stopped there
          rintro b ⟨⟩
          refine ⟨Nat.pos_of_ne_zero fun h0 => ?_, hblk⟩
          rw [h0, hpages, scanOffsets_drop_nil hzero] at hhit
          exact absurd hhit (by simp)
      | descends offset childblk =>
          refine Ends.bind (rtreeReleaseCurrentPage_holding ⟨hpages, hlocks⟩) fun so₂ s₂ h₂ => ?_
          obtain ⟨rfl, hhold₂⟩ := h₂
          exact ⟨⟨hhold₂.pages_eq, hhold₂.locks⟩, fun b hb => absurd hb (by simp [rtreeStackPush])⟩
      | exhausted =>
          refine Ends.bind (rtreeReleaseCurrentPage_holding ⟨hpages, hlocks⟩) fun so₂ s₂ h₂ => ?_
          obtain ⟨rfl, hhold₂⟩ := h₂
          exact ⟨⟨hhold₂.pages_eq, hhold₂.locks⟩, fun b hb => absurd hb (by simp)⟩

theorem rtreeScanNext_keeps {fuel : Nat} {scan : IndexScanDesc} (h : ScanKeeps pages scan.so s) :
    Ends (fun res s' => ScanKeeps pages res.2.so s') NoWait (rtreeScanNext fuel scan s) := by
  induction fuel generalizing scan s with
  | zero => exact h.noWait
  | succ fuel ih =>
      rw [rtreeScanNext]
      refine Ends.bind (rtreeScanTurn_keeps hzero h) fun res s₁ h₁ => ?_
      obtain ⟨turn, scan₁⟩ := res
      cases turn with
      | returned => exact h₁
      | finished => exact h₁
      | again => exact ih h₁

omit hzero in
theorem rtreeInitializeScan_keeps {scan : IndexScanDesc} (hlen : 0 < pages.length)
    (h : ScanKeeps pages scan.so s) :
    Ends (fun res s' => ScanKeeps pages res.2.so s') NoWait (rtreeInitializeScan scan s) := by
  rw [rtreeInitializeScan]
  cases hq : rtreeEnsureQuery scan with
  | none => exact h
  | some scan₁ =>
      -- the query changes nothing about the page
      have hcur : scan₁.so.curBuf = scan.so.curBuf := by
        unfold rtreeEnsureQuery at hq
        split at hq
        · rw [Option.some.inj hq]
        · split at hq
          · exact absurd hq (by simp)
          · rw [← Option.some.inj hq]
      obtain ⟨⟨hpages, hlocks⟩, hpage⟩ := h
      rw [rtreeReadMeta_eq]
      show Ends _ _ ((readMeta >>= _) s)
      rw [bind_of_ok (readMeta_run (hpages ▸ hlen))]
      have hlocks₁ : locksOf (s.trace ++ [Event.lock 0 .share, Event.unlock 0]) =
          { shared := scan₁.so.curBuf.toList } := by
        rw [locksOf_append, after_metaRead, hlocks, hcur]
      split
      · exact ⟨⟨hpages, hlocks₁⟩, fun b hb => hpage b (hcur ▸ hb)⟩
      · refine Ends.bind (rtreeReleaseCurrentPage_holding ⟨hpages, hlocks₁⟩) fun so₂ s₂ h₂ => ?_
        obtain ⟨rfl, hhold₂⟩ := h₂
        dsimp only
        split
        · exact ⟨⟨hhold₂.pages_eq, hhold₂.locks⟩, fun b hb => absurd hb (by simp)⟩
        · exact ⟨⟨hhold₂.pages_eq, hhold₂.locks⟩, fun b hb => absurd hb (by simp [rtreeStackPush])⟩

/-- **A call of `temporal_rtree_gettuple` keeps at most one page locked.** -/
theorem temporalRtreeGettuple_keeps {fuel : Nat} {scan : IndexScanDesc} {forward : Bool}
    (hlen : 0 < pages.length) (h : ScanKeeps pages scan.so s) :
    Ends (fun res s' => ScanKeeps pages res.2.so s') NoWait
      (temporalRtreeGettuple fuel scan forward s) := by
  unfold temporalRtreeGettuple
  split
  · exact h
  · split
    · refine Ends.bind (rtreeInitializeScan_keeps hlen h) fun init s₁ h₁ => ?_
      obtain ⟨started, scan₁⟩ := init
      cases started with
      | false => exact h₁
      | true => exact rtreeScanNext_keeps hzero h₁
    · exact rtreeScanNext_keeps hzero h

end Scan

/-! ## Runs -/

/-- The meta page has no tuples. -/
theorem WF.zero_items {pages : List Page} (h : WF pages) : (pageAt pages 0).items = [] := by
  have hmagic := h.magic
  unfold metaAt at hmagic
  unfold pageAt
  cases hpage : pages.getD 0 .zero with
  | zero => rfl
  | metapage m => rfl
  | data p =>
      rw [hpage] at hmagic
      exact absurd hmagic (by simp [Page.asMeta, trtreeMetaMagic])

/-- The descent of an insert avoids the page the scan stands on. -/
def updateGuard (w : UpdateWorld) : UpdateAction → Prop
  | .gettuple .. => True
  | .insert key _ => ∀ cube ∈ key, ∀ b ∈ w.scan.so.curBuf,
      b ∉ descentPath w.rel.pages (rtreeCubeToBox cube) (metaAt w.rel.pages).rootLevel
        (metaAt w.rel.pages).root

instance (w : UpdateWorld) (act : UpdateAction) : Decidable (updateGuard w act) := by
  cases act with
  | gettuple => exact inferInstanceAs (Decidable True)
  | insert key htCtid => unfold updateGuard; infer_instance

/-- What holds between the calls of the session. -/
structure UpdateInv (w : UpdateWorld) : Prop where
  noWait : NoWait w.rel
  wf : w.failed = false → WF w.rel.pages
  keeps : w.failed = false → ScanKeeps w.rel.pages w.scan.so w.rel

section Run
variable {env : Env} {w w' : UpdateWorld}

theorem UpdateInv.gettuple {fuel : Nat} {forward : Bool} (h : UpdateInv w)
    (hs : stepUpdate env w (.gettuple fuel forward) = some w') : UpdateInv w' := by
  unfold stepUpdate at hs
  split at hs
  · exact absurd hs (by simp)
  · next hok =>
    have hok : w.failed = false := by simpa using hok
    have hwf := h.wf hok
    have hends : Ends _ _ (temporalRtreeGettuple fuel w.scan forward w.rel) :=
      temporalRtreeGettuple_keeps hwf.zero_items (Nat.lt_of_lt_of_le Nat.two_pos hwf.two_le_length)
        (h.keeps hok)
    dsimp only at hs
    cases hrun : temporalRtreeGettuple fuel w.scan forward w.rel with
    | ok res rel =>
        rw [hrun] at hs hends
        obtain rfl := Option.some.inj hs
        obtain ⟨⟨hpages, hlocks⟩, hpage⟩ : ScanKeeps w.rel.pages res.2.so rel := hends
        have hkeeps : ScanKeeps rel.pages res.2.so rel := ⟨⟨rfl, hlocks⟩, hpages ▸ hpage⟩
        exact ⟨hkeeps.noWait, fun _ => hpages ▸ hwf, fun _ => hkeeps⟩
    | error e rel =>
        rw [hrun] at hs hends
        obtain rfl := Option.some.inj hs
        exact ⟨hends, fun hf => absurd hf (by simp), fun hf => absurd hf (by simp)⟩

theorem UpdateInv.insert {key : Option NDBOX} {htCtid : ItemPointerData} (h : UpdateInv w)
    (hguard : updateGuard w (.insert key htCtid))
    (hs : stepUpdate env w (.insert key htCtid) = some w') : UpdateInv w' := by
  unfold stepUpdate at hs
  split at hs
  · exact absurd hs (by simp)
  · next hok =>
    have hok : w.failed = false := by simpa using hok
    have hwf := h.wf hok
    obtain ⟨⟨-, hlocks⟩, hpage⟩ := h.keeps hok
    dsimp only at hs
    cases key with
    | none =>
        rw [temporalRtreeInsert_run_of_none hwf.two_le_length] at hs
        obtain rfl := Option.some.inj hs
        exact h
    | some cube =>
        rw [temporalRtreeInsert_run_of_some hwf.two_le_length] at hs
        have hends : Ends _ _
            (insertTuple env { tTid := htCtid, key := some cube } (rtreeCubeToBox cube) w.rel) :=
          insertTuple_locks hlocks hpage (hguard cube rfl)
        cases hrun : insertTuple env { tTid := htCtid, key := some cube } (rtreeCubeToBox cube) w.rel with
        | ok u rel =>
            rw [bind_of_ok hrun] at hs
            rw [hrun] at hends
            obtain rfl := Option.some.inj hs
            obtain ⟨evs, hins, htrace⟩ := insertTuple_inserts hrun
            have hlen : w.rel.pages.length ≤ rel.pages.length := hins.length_le
            have hkeeps : ScanKeeps rel.pages w.scan.so rel :=
              ⟨⟨rfl, hends⟩, fun b hb => ⟨(hpage b hb).1, Nat.lt_of_lt_of_le (hpage b hb).2 hlen⟩⟩
            exact ⟨hkeeps.noWait, fun _ => (hins.wf rfl hwf).1, fun _ => hkeeps⟩
        | error e rel =>
            rw [bind_of_error hrun] at hs
            rw [hrun] at hends
            obtain rfl := Option.some.inj hs
            exact ⟨hends, fun hf => absurd hf (by simp), fun hf => absurd hf (by simp)⟩

theorem UpdateInv.step (h : UpdateInv w) {act : UpdateAction} (hguard : updateGuard w act)
    (hs : stepUpdate env w act = some w') : UpdateInv w' := by
  cases act with
  | gettuple fuel forward => exact h.gettuple hs
  | insert key htCtid => exact h.insert hguard hs

end Run

/-- **A session whose inserts all avoid the page its scan stands on never waits for itself.** -/
theorem guarded_update_never_waits (env : Env) {scan : IndexScanDesc} {s : Rel} {w : UpdateWorld}
    (hwf : WF s.pages) (hlocks : locksOf s.trace = {}) (hopen : scan.so.curBuf = none)
    (hrun : Guarded (stepUpdate env) updateGuard { rel := s, scan := scan } w) :
    (locksOf w.rel.trace).waitsForItself = false := by
  have hstart : UpdateInv { rel := s, scan := scan } := by
    have hkeeps : ScanKeeps s.pages scan.so s := by
      refine ⟨⟨rfl, ?_⟩, ?_⟩
      · rw [hlocks, hopen]
        rfl
      · rw [OnDataPage, hopen]
        simp
    exact ⟨hkeeps.noWait, fun _ => hwf, fun _ => hkeeps⟩
  exact (hrun.invariant UpdateInv (fun _ _ _ hinv hguard hs => hinv.step hguard hs) hstart).noWait

/-- The first row splits the root. The scan then stands on the left leaf, which it keeps locked, and the second row goes
    to the right one. -/
theorem guarded_update_never_waits_other_leaf :
    ∃ w, Guarded (stepUpdate roomyEnv) updateGuard
        { rel := stairs 5, scan := rescanned (temporalRtreeBeginscan 1) [allTimes] } w ∧
      w.failed = false ∧ w.scan.so.curBuf = some 1 ∧ (locksOf w.rel.trace).shared = [1] ∧
      ⟨⟨0, 7⟩, rowCube 9 60 (.fin 70)⟩ ∈ contents w.rel.pages ∧ (locksOf w.rel.trace).waitsForItself = false := by
  have hrun : (runGuarded (stepUpdate roomyEnv) updateGuard
      { rel := stairs 5, scan := rescanned (temporalRtreeBeginscan 1) [allTimes] }
      [.insert (stair 5).key (stair 5).tTid, .gettuple 9 true, .insert (rowCube 9 60 (.fin 70)) ⟨0, 7⟩]).any
      (fun w => decide (w.failed = false ∧ w.scan.so.curBuf = some 1 ∧ (locksOf w.rel.trace).shared = [1] ∧
        ⟨⟨0, 7⟩, rowCube 9 60 (.fin 70)⟩ ∈ contents w.rel.pages)) = true := by decide +kernel
  obtain ⟨w, hw, hcheck⟩ := (Option.any_eq_true _ _).mp hrun
  have hguarded := guarded_of_runGuarded hw
  obtain ⟨hok, hpage, hheld, hmem⟩ := of_decide_eq_true hcheck
  exact ⟨w, hguarded, hok, hpage, hheld, hmem, guarded_update_never_waits roomyEnv (stairs_wf 5) rfl rfl hguarded⟩

/-- The scan stands on the leaf it has returned a row of, and the new version of the row goes to that leaf. -/
theorem update_waits_for_itself :
    ∃ w, run (stepUpdate roomyEnv)
        { rel := stairs 2, scan := rescanned (temporalRtreeBeginscan 1) [allTimes] }
        [.gettuple 9 true, .insert (stair 5).key (stair 5).tTid] = some w ∧
      WF (stairs 2).pages ∧ w.scan.xsHeaptid = (stair 0).tTid ∧
      (locksOf w.rel.trace).waitsForItself = true := by
  have hrun : (run (stepUpdate roomyEnv)
      { rel := stairs 2, scan := rescanned (temporalRtreeBeginscan 1) [allTimes] }
      [.gettuple 9 true, .insert (stair 5).key (stair 5).tTid]).any
      (fun w => decide (w.scan.xsHeaptid = (stair 0).tTid ∧
        (locksOf w.rel.trace).waitsForItself = true)) = true := by decide +kernel
  obtain ⟨w, hw, hcheck⟩ := (Option.any_eq_true _ _).mp hrun
  exact ⟨w, hw, stairs_wf 2, of_decide_eq_true hcheck⟩

end TemporalRTree
