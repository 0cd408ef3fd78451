import TemporalRTree.Correctness.LockOrder
import TemporalRTree.Correctness.ScanVacuum

/-!
# `Correctness.LockSerial` — a call that no other disturbs

`Model.LockSteps` cuts calls at the locks they may wait for. Put together again, the steps are the calls: a completed
insert, bulk deletion or call of `temporal_rtree_gettuple` is a run of steps (`insertTuple_goes`, `bulkdelete_goes`,
`gettuple_goes`). In a world in which no other session is in a call it never has to wait, not for itself either, since
what it asks for ranks below what it has locked. So the system can carry out every call as a whole
(`serialCalls_run`).
-/

namespace TemporalRTree
open EStateM Transition Relation

/-- A session in a call takes its next step. -/
def Goes (env : Env) (a b : Activity × Rel) : Prop := a.1 ≠ .idle ∧ a.1.advance env a.2 = .ok b.1 b.2

section Calls
variable {env : Env} {s s' : Rel}

theorem Goes.step {act act' : Activity} (hbusy : act ≠ .idle) (h : act.advance env s = .ok act' s') :
    ReflTransGen (Goes env) (act, s) (act', s') :=
  .single ⟨hbusy, h⟩

/-! ## Inserts -/

section Insert
variable {itup : IndexTuple} {box : RTreeTemporalBox} {root blkno : BlockNumber} {level l : Nat}
  {frames : List InsertFrame} {res : RTreeInsertResult}

/-- One step into a page. -/
theorem entering_goes {state : DescentState} (h : insertEnter env itup box blkno l frames s = .ok state s') :
    ReflTransGen (Goes env) (.descent itup box root level (.entering blkno l frames), s)
      (.descent itup box root level state, s') := by
  refine Goes.step (by simp) ?_
  rw [Activity.advance, bind_of_ok h, pure_apply]

/-- **A call of `rtree_insert_page` is a run of steps.** -/
theorem rtreeInsertPage_goes (h : rtreeInsertPage env blkno l itup box s = .ok res s') :
    ReflTransGen (Goes env) (.descent itup box root level (.entering blkno l frames), s)
      (.descent itup box root level (.returning res frames), s') := by
  -- down one level with the frame of this call, and back
  induction l generalizing blkno frames s s' res with
  | zero =>
      rw [rtreeInsertPage] at h
      obtain ⟨u, s₁, hread, h⟩ := bind_eq_ok.mp h
      obtain ⟨u', s₂, hlock, h⟩ := bind_eq_ok.mp h
      obtain ⟨page, s₃, hpage, h⟩ := bind_eq_ok.mp h
      refine entering_goes ?_
      rw [insertEnter, bind_of_ok hread, bind_of_ok hlock, bind_of_ok hpage]
      exact bind_of_ok h
  | succ l ih =>
      rw [rtreeInsertPage] at h
      obtain ⟨u, s₁, hread, h⟩ := bind_eq_ok.mp h
      obtain ⟨u', s₂, hlock, h⟩ := bind_eq_ok.mp h
      obtain ⟨page, s₃, hpage, h⟩ := bind_eq_ok.mp h
      dsimp only at h
      by_cases hleaf : page.special.flags.leaf = true
      · rw [if_pos hleaf] at h
        refine entering_goes ?_
        rw [insertEnter, bind_of_ok hread, bind_of_ok hlock, bind_of_ok hpage]
        dsimp only
        rw [if_pos hleaf]
        exact bind_of_ok h
      · rw [if_neg hleaf] at h
        by_cases hvalid : chooseSubtreeInsert page box = invalidBlockNumber
        · rw [if_pos hvalid, bind_of_ok (unlockBuffer_run _ _)] at h
          exact absurd h (by simp)
        · rw [if_neg hvalid] at h
          cases hpos : page.items.findIdx? (fun t => t.tTid.blkno = chooseSubtreeInsert page box) with
          | none =>
              rw [hpos] at h
              dsimp only at h
              rw [bind_of_ok (unlockBuffer_run _ _)] at h
              exact absurd h (by simp)
          | some pos =>
              rw [hpos] at h
              obtain ⟨childres, s₄, hchild, h⟩ := bind_eq_ok.mp h
              let frame : InsertFrame :=
                { blkno := blkno, level := l + 1, bestoff := pos + 1
                  tid := ((page.items[pos]?).map IndexTuple.tTid).getD (childTid (chooseSubtreeInsert page box)) }
              have hdown : insertEnter env itup box blkno (l + 1) frames s =
                  .ok (.entering (chooseSubtreeInsert page box) l (frame :: frames)) s₃ := by
                rw [insertEnter, bind_of_ok hread, bind_of_ok hlock, bind_of_ok hpage]
                dsimp only
                rw [if_neg hleaf, if_neg hvalid, hpos]
                rfl
              refine (entering_goes hdown).trans ((ih hchild).trans (Goes.step (by simp) ?_))
              rw [Activity.advance, insertLeave]
              exact bind_of_ok (bind_of_ok h)

/-- **An insert is a run of steps.** -/
theorem insertTuple_goes (h : insertTuple env itup box s = .ok () s') :
    ReflTransGen (Goes env) (.insertMeta itup box, s) (.idle, s') := by
  rw [insertTuple] at h
  obtain ⟨⟨root, level⟩, s₁, hmeta, h⟩ := bind_eq_ok.mp h
  obtain ⟨res, s₂, hpage, h⟩ := bind_eq_ok.mp h
  have hstart : ReflTransGen (Goes env) (.insertMeta itup box, s)
      (.descent itup box root level (.entering root level []), s₁) := by
    refine Goes.step (by simp) ?_
    rw [Activity.advance, bind_of_ok hmeta, pure_apply]
  have hdown := hstart.trans (rtreeInsertPage_goes hpage)
  have hback : ReflTransGen (Goes env) (.descent itup box root level (.returning res []), s₂)
      (.afterDescent root level res, s₂) := by
    refine Goes.step (by simp) ?_
    rw [Activity.advance, pure_apply]
  refine hdown.trans (hback.trans ?_)
  rw [Activity.afterDescent]
  cases hsplit : res.split with
  | none =>
      rw [hsplit] at h
      cases h
      exact .refl
  | some right =>
      rw [hsplit] at h
      obtain ⟨newRoot, s₃, hpromote, hwrite⟩ := bind_eq_ok.mp h
      have hnew : (Activity.promote root level res.leftBox right).advance env s₂ =
          .ok (.metaWrite newRoot (level + 1)) s₃ := by
        rw [Activity.advance, bind_of_ok hpromote, pure_apply]
      refine (Goes.step (by simp) hnew).trans (Goes.step (by simp) ?_)
      rw [Activity.advance, bind_of_ok hwrite, pure_apply]

/-- A call of `temporal_rtree_insert` on an initialised index; a NULL key is no call. -/
theorem insert_goes {key : Option NDBOX} {htCtid : ItemPointerData} {b : Bool} (hlen : 2 ≤ s.pages.length)
    (h : temporalRtreeInsert env key htCtid s = .ok b s') :
    ReflTransGen (Goes env) ((SessionCall.insert { tTid := htCtid, key := key }).start, s) (.idle, s') := by
  have hinit : ensureInitialised env s = .ok () s := by
    rw [ensureInitialised, bind_of_ok (get_apply s), if_neg (Nat.not_lt.mpr hlen), pure_apply]
  rw [temporalRtreeInsert, bind_of_ok hinit] at h
  rw [SessionCall.start]
  cases hbox : rtreeIndexTupleBox { tTid := htCtid, key := key } with
  | none =>
      rw [hbox] at h
      cases h
      exact .refl
  | some box =>
      rw [hbox] at h
      obtain ⟨u, s₁, hins, h⟩ := bind_eq_ok.mp h
      cases h
      exact insertTuple_goes hins

end Insert

/-! ## Bulk deletions -/

section Delete
variable {callback : IndexBulkDeleteCallback} {root : BlockNumber} {level : Nat}

/-- The steps of a walk are steps of the session. -/
theorem walk_goes {a b : WalkState × Rel} (h : ReflTransGen (WalkStep env callback) a b) :
    ReflTransGen (Goes env) (.ofWalk callback root level a.1, a.2) (.ofWalk callback root level b.1, b.2) := by
  refine h.lift (fun a : WalkState × Rel => (Activity.ofWalk callback root level a.1, a.2)) ?_
  rintro ⟨_, s⟩ ⟨state, s'⟩ ⟨top, below, rfl, hstep⟩
  refine ⟨by simp [Activity.ofWalk], ?_⟩
  show (Activity.walking callback root level top below).advance env s = _
  rw [Activity.advance]
  exact bind_of_ok hstep

/-- **`rtree_vacuum_shrink_root` is a run of steps.** -/
theorem shrinkRoot_goes {b : Bool} (hne : root ≠ invalidBlockNumber)
    (h : rtreeVacuumShrinkRoot env root level s = .ok b s') :
    ReflTransGen (Goes env) (.shrinkMeta root level, s) (.idle, s') := by
  rw [rtreeVacuumShrinkRoot, if_neg hne] at h
  obtain ⟨u, s₁, hread, h⟩ := bind_eq_ok.mp h
  obtain ⟨u', s₂, hlock, h⟩ := bind_eq_ok.mp h
  rw [bind_of_ok (get_apply s₂)] at h
  by_cases hmoved : (metaAt s₂.pages).magic ≠ trtreeMetaMagic ∨ (metaAt s₂.pages).root ≠ root
  · rw [if_pos hmoved, bind_of_ok (unlockBuffer_run _ _)] at h
    cases h
    refine Goes.step (by simp) ?_
    rw [Activity.advance, bind_of_ok hread, bind_of_ok hlock, bind_of_ok (get_apply s₂), if_pos hmoved,
      bind_of_ok (unlockBuffer_run _ _), pure_apply]
  · rw [if_neg hmoved] at h
    obtain ⟨u, s₃, hread', h⟩ := bind_eq_ok.mp h
    obtain ⟨u', s₄, hlock', h⟩ := bind_eq_ok.mp h
    have hmeta : (Activity.shrinkMeta root level).advance env s = .ok (.shrinkRoot root level) s₂ := by
      rw [Activity.advance, bind_of_ok hread, bind_of_ok hlock, bind_of_ok (get_apply s₂), if_neg hmoved, pure_apply]
    have hfinish : finishShrink env root level s₄ = .ok () s' := by
      obtain ⟨changed, s₅, hshrink, h⟩ := bind_eq_ok.mp h
      rw [bind_of_ok (unlockBuffer_run _ _), bind_of_ok (unlockBuffer_run _ _)] at h
      cases h
      rw [finishShrink, bind_of_ok hshrink, bind_of_ok (unlockBuffer_run _ _), unlockBuffer_run]
    refine (Goes.step (by simp) hmeta).trans ?_
    cases hchild : onlyChild (pageAt s₄.pages root) level with
    | none =>
        refine Goes.step (by simp) ?_
        rw [Activity.advance, bind_of_ok hread', bind_of_ok hlock', bind_of_ok (bufferGetPage_run _ _), hchild]
        exact bind_of_ok hfinish
    | some child =>
        have hroot : (Activity.shrinkRoot root level).advance env s₂ = .ok (.shrinkChild root level child) s₄ := by
          rw [Activity.advance, bind_of_ok hread', bind_of_ok hlock', bind_of_ok (bufferGetPage_run _ _), hchild]
          rfl
        refine (Goes.step (by simp) hroot).trans (Goes.step (by simp) ?_)
        rw [Activity.advance]
        exact bind_of_ok hfinish

/-- **A bulk deletion is a run of steps.** -/
theorem bulkdelete_goes {stats : Option IndexBulkDeleteResult} {res : IndexBulkDeleteResult}
    (h : temporalRtreeBulkdelete env stats callback s = .ok res s') :
    ReflTransGen (Goes env) (.deleteMeta callback stats, s) (.idle, s') := by
  rw [temporalRtreeBulkdelete, bind_of_ok (get_apply s)] at h
  by_cases hblocks : s.pages.length < 2
  · rw [if_pos hblocks] at h
    cases h
    refine Goes.step (by simp) ?_
    rw [Activity.advance, bind_of_ok (get_apply s), if_pos hblocks, pure_apply]
  · rw [if_neg hblocks] at h
    obtain ⟨m, s₁, hmeta, h⟩ := bind_eq_ok.mp h
    by_cases hmagic : m.magic ≠ trtreeMetaMagic
    · rw [if_pos hmagic] at h
      cases h
      refine Goes.step (by simp) ?_
      rw [Activity.advance, bind_of_ok (get_apply s), if_neg hblocks, bind_of_ok hmeta, if_pos hmagic, pure_apply]
    · rw [if_neg hmagic] at h
      by_cases hroot : m.root = invalidBlockNumber
      · rw [if_pos hroot] at h
        cases h
        refine Goes.step (by simp) ?_
        rw [Activity.advance, bind_of_ok (get_apply s), if_neg hblocks, bind_of_ok hmeta, if_neg hmagic,
          if_pos hroot, pure_apply]
      · rw [if_neg hroot] at h
        obtain ⟨res', s₂, hwalk, h⟩ := bind_eq_ok.mp h
        obtain ⟨changed, s₃, hshrink, h⟩ := bind_eq_ok.mp h
        cases h
        have hstart : (Activity.deleteMeta callback stats).advance env s =
            .ok (.walkRoot callback m.root m.rootLevel (bulkdeleteStats s.pages.length stats)) s₁ := by
          rw [Activity.advance, bind_of_ok (get_apply s), if_neg hblocks, bind_of_ok hmeta, if_neg hmagic,
            if_neg hroot, pure_apply]
        obtain ⟨state, s₄, henter, hsteps⟩ : ∃ state s₄, vacuumEnter env callback m.root
            (bulkdeleteStats s.pages.length stats) [] s₁ = .ok state s₄ ∧
              ReflTransGen (WalkStep env callback) (state, s₄) (.deliver [] res', s₂) := rtreeVacuumPage_steps hwalk
        have hfirst : (Activity.walkRoot callback m.root m.rootLevel (bulkdeleteStats s.pages.length stats)).advance
            env s₁ = .ok (.ofWalk callback m.root m.rootLevel state) s₄ := by
          rw [Activity.advance]
          exact bind_of_ok henter
        exact (Goes.step (by simp) hstart).trans ((Goes.step (by simp) hfirst).trans
          ((walk_goes hsteps).trans (shrinkRoot_goes hroot hshrink)))

end Delete

/-! ## Scans -/

section Scan
variable {scan scan' : IndexScanDesc} {fuel : Nat}

/-- However it comes to stand on a page, a scan changes nothing else. -/
theorem standOnFrame_eq_ok {so so' : RTreeScanOpaqueData} {b : BlockNumber} (h : standOnFrame so b s = .ok so' s') :
    ∃ evs, standOnFrame so b s = .ok { so with curBuf := some b } { s with trace := s.trace ++ evs } := by
  by_cases hcur : so.curBuf = some b
  · refine ⟨[], ?_⟩
    rw [standOnFrame, if_pos hcur, ← hcur, List.append_nil]
    rfl
  · by_cases hb : b < s.pages.length
    · exact standOnFrame_run so hb
    · obtain ⟨evs, herr⟩ := standOnFrame_run_of_not_lt so hb hcur
      rw [herr] at h
      exact absurd h (by simp)

theorem rtreeScanTurn_firstCall {turn : Turn} (h : rtreeScanTurn scan s = .ok (turn, scan') s') :
    scan'.so.firstCall = scan.so.firstCall := by
  cases hs : scan.so.stack with
  | nil =>
      rw [rtreeScanTurn, hs] at h
      cases h
      rfl
  | cons frame below =>
      have hstand : ∃ evs, standOnFrame scan.so frame.blkno s =
          .ok { scan.so with curBuf := some frame.blkno } { s with trace := s.trace ++ evs } := by
        rw [rtreeScanTurn, hs] at h
        obtain ⟨so', s₁, hstand, -⟩ := bind_eq_ok.mp h
        exact standOnFrame_eq_ok hstand
      obtain ⟨evs, hstand⟩ := hstand
      obtain ⟨evs', hrun⟩ := rtreeScanTurn_run hs hstand
      rw [hrun] at h
      generalize scanOffsets frame.level scan.so.queryBox scan.so.strategy
        ((pageAt s.pages frame.blkno).items.drop (frame.nextOffset - 1)) frame.nextOffset = hit at h
      injection h with hout _
      rw [show scan' = (turnOutcome scan frame below hit).2 from (congrArg Prod.snd hout).symm]
      cases hit with
      | returns offset itup => rfl
      | descends offset childblk => rfl
      | exhausted => rfl

/-- A call of `rtree_scan_next` that returns a tuple is a run of steps. -/
theorem scanNext_goes (hstarted : scan.so.firstCall = false) (h : rtreeScanNext fuel scan s = .ok (true, scan') s') :
    ReflTransGen (Goes env) (.scanning scan, s) (.scanning scan', s') := by
  induction fuel generalizing scan s with
  | zero => exact absurd h (by simp [rtreeScanNext])
  | succ fuel ih =>
      rw [rtreeScanNext] at h
      obtain ⟨⟨turn, scan₁⟩, s₁, hturn, h⟩ := bind_eq_ok.mp h
      have hnext : turn ≠ .finished → (Activity.scanning scan).advance env s = .ok (.scanning scan₁) s₁ := by
        intro hne
        rw [Activity.advance, if_neg (by simp [hstarted]), bind_of_ok hturn]
        cases turn with
        | finished => exact absurd rfl hne
        | returned => rfl
        | again => rfl
      cases turn with
      | finished => exact absurd h (by simp)
      | returned =>
          cases h
          exact Goes.step (by simp) (hnext (by simp))
      | again =>
          exact (Goes.step (by simp) (hnext (by simp))).trans
            (ih ((rtreeScanTurn_firstCall hturn).trans hstarted) h)

theorem rtreeInitializeScan_firstCall (h : rtreeInitializeScan scan s = .ok (true, scan') s') :
    scan'.so.firstCall = false := by
  rw [rtreeInitializeScan] at h
  cases hquery : rtreeEnsureQuery scan with
  | none =>
      rw [hquery] at h
      exact absurd h (by simp)
  | some scan₁ =>
      rw [hquery] at h
      obtain ⟨m, s₁, hmeta, h⟩ := bind_eq_ok.mp h
      split at h
      · exact absurd h (by simp)
      · obtain ⟨so, s₂, hrel, h⟩ := bind_eq_ok.mp h
        split at h
        · exact absurd h (by simp)
        · cases h
          rfl

/-- **A call of `temporal_rtree_gettuple` that returns a tuple is a run of steps.** -/
theorem gettuple_goes (h : temporalRtreeGettuple fuel scan true s = .ok (true, scan') s') :
    ReflTransGen (Goes env) (.scanning scan, s) (.scanning scan', s') := by
  rw [temporalRtreeGettuple, if_neg (by simp)] at h
  by_cases hfirst : scan.so.firstCall = true
  · rw [if_pos hfirst] at h
    obtain ⟨⟨started, scan₁⟩, s₁, hinit, h⟩ := bind_eq_ok.mp h
    cases started with
    | false => exact absurd h (by simp)
    | true =>
        refine (Goes.step (by simp) ?_).trans (scanNext_goes ?_ h)
        · rw [Activity.advance, if_pos hfirst, bind_of_ok hinit]
          rfl
        · exact rtreeInitializeScan_firstCall hinit
  · rw [if_neg hfirst] at h
    exact scanNext_goes (Bool.eq_false_iff.mpr hfirst) h

end Scan

end Calls

/-! ## Alone in the world -/

section Alone
variable {env : Env} {w : LockWorld} {i : Nat}

theorem LockWorld.put_self (hi : i < w.sessions.length) : w.put i w.rel (w.at i) = w := by
  have hat : w.at i = w.sessions[i] := LockWorld.at_eq (List.getElem?_eq_getElem hi)
  rw [LockWorld.put, hat, List.set_getElem_self]

theorem LockWorld.put_put (rel rel' : Rel) (act act' : Activity) :
    (w.put i rel act).put i rel' act' = w.put i rel' act' := by
  rw [LockWorld.put, LockWorld.put, LockWorld.put, List.set_set]

/-- What a session asks for does not conflict with what it has locked itself. -/
theorem Activity.Ranked.wants_free {rank : BlockNumber → Nat} {n : Nat} {metaRoot : BlockNumber} {act : Activity}
    {l l' : PageLock} (h : act.Ranked rank n metaRoot) (hwants : act.wants = some l) (hlocked : l' ∈ act.locked) :
    l.conflicts l' = false := by
  refine Bool.eq_false_iff.mpr fun hconf => ?_
  have hlt := h.wants_below hwants hlocked
  rw [lockRank_of_conflicts hconf] at hlt
  exact lt_irrefl _ hlt

/-- A session that no other disturbs takes its next step. -/
theorem aloneSession_steps {b : Activity × Rel} (hinv : LockInv w) (halone : ∀ j, j ≠ i → w.at j = .idle)
    (h : Goes env (w.at i, w.rel) b) : stepLock env w (.advance i) = some (w.put i b.2 b.1) := by
  obtain ⟨hbusy, hadv⟩ := h
  obtain ⟨rank, -, hat⟩ := hinv.ranked
  have hfree : ∀ k, ¬ WaitsFor w i k := by
    rintro k ⟨l, l', hwants, hl', hconf⟩
    by_cases hk : k = i
    · subst hk
      rw [(hat k).wants_free hwants hl'] at hconf
      exact absurd hconf (by simp)
    · rw [halone k hk] at hl'
      exact absurd hl' List.not_mem_nil
  rw [stepLock_of_free hbusy hfree, hadv]
  rfl

/-- **A run of a session's steps is a run of the system**, when no other session is in a call. -/
theorem aloneSession_runs {a b : Activity × Rel} (h : ReflTransGen (Goes env) a b) (hact : w.at i = a.1)
    (hrel : w.rel = a.2) (hinv : LockInv w) (halone : ∀ j, j ≠ i → w.at j = .idle) (hi : i < w.sessions.length) :
    ∃ k, run (stepLock env) w (List.replicate k (.advance i)) = some (w.put i b.2 b.1) := by
  induction h using ReflTransGen.head_induction_on generalizing w with
  | refl =>
      refine ⟨0, ?_⟩
      rw [← hact, ← hrel, LockWorld.put_self hi]
      rfl
  | head hstep _ ih =>
      rename_i _ c _
      have hgo : stepLock env w (.advance i) = some (w.put i c.2 c.1) := by
        refine aloneSession_steps hinv halone ?_
        rw [hact, hrel]
        exact hstep
      have hput : i < (w.put i c.2 c.1).sessions.length := by
        rw [LockWorld.put, List.length_set]
        exact hi
      obtain ⟨k, hk⟩ := ih (LockWorld.at_put_self hi) rfl (hinv.step hgo)
        (fun j hj => (LockWorld.at_put_ne (Ne.symm hj)).trans (halone j hj)) hput
      refine ⟨k + 1, ?_⟩
      rw [List.replicate_succ, Transition.run, hgo, Option.bind_some, hk, LockWorld.put_put]

/-- A call begins, and no other session is in one. -/
theorem aloneCall_runs (call : SessionCall) {act : Activity} {s' : Rel}
    (h : ReflTransGen (Goes env) (call.start, w.rel) (act, s')) (hinv : LockInv w) (hidle : ∀ j, w.at j = .idle)
    (hi : i < w.sessions.length) :
    ∃ k, run (stepLock env) w (.begin i call :: List.replicate k (.advance i)) = some (w.put i s' act) := by
  have hs : w.sessions[i]? = some .idle := by
    rw [List.getElem?_eq_getElem hi, ← LockWorld.at_eq (List.getElem?_eq_getElem hi), hidle i]
  have hbegin : stepLock env w (.begin i call) = some (w.put i w.rel call.start) := by
    simp only [stepLock, hs]
  have hput : i < (w.put i w.rel call.start).sessions.length := by
    rw [LockWorld.put, List.length_set]
    exact hi
  obtain ⟨k, hk⟩ := aloneSession_runs h (LockWorld.at_put_self hi) rfl (hinv.step hbegin)
    (fun j hj => (LockWorld.at_put_ne (Ne.symm hj)).trans (hidle j)) hput
  refine ⟨k, ?_⟩
  rw [Transition.run, hbegin, Option.bind_some, hk, LockWorld.put_put]

/-- Back to a world in which nobody is in a call. -/
theorem LockWorld.put_idle {rel : Rel} (hidle : w.at i = .idle) (hi : i < w.sessions.length) :
    w.put i rel .idle = { w with rel := rel } := by
  have hself := LockWorld.put_self hi
  rw [hidle, LockWorld.put] at hself
  rw [LockWorld.put, show w.sessions.set i .idle = w.sessions from congrArg LockWorld.sessions hself]

/-- **Whole calls.** From every world that is reached and in which no session is in a call, the system can carry out
    each completed call of `temporal_rtree_insert` and `temporal_rtree_bulkdelete`, and each call of
    `temporal_rtree_gettuple` that returns a tuple, with the effect on the index that the call has as a whole: no lock
    that a call asks for is one that it has itself. -/
theorem serialCalls_run {n : Nat} {acts : List LockAction} (hrun : run (stepLock env) (freshSessions n) acts = some w)
    (hidle : ∀ j, w.at j = .idle) (hi : i < w.sessions.length) :
    (∀ key htCtid b s', temporalRtreeInsert env key htCtid w.rel = .ok b s' →
      ∃ k, run (stepLock env) w (.begin i (.insert { tTid := htCtid, key := key }) :: List.replicate k (.advance i)) =
        some { w with rel := s' }) ∧
    (∀ callback stats res s', temporalRtreeBulkdelete env stats callback w.rel = .ok res s' →
      ∃ k, run (stepLock env) w (.begin i (.bulkdelete callback stats) :: List.replicate k (.advance i)) =
        some { w with rel := s' }) ∧
    ∀ keys fuel scan' s', temporalRtreeGettuple fuel { temporalRtreeBeginscan keys.length with keyData := keys } true
        w.rel = .ok (true, scan') s' →
      ∃ k, run (stepLock env) w (.begin i (.scan keys) :: List.replicate k (.advance i)) =
        some (w.put i s' (.scanning scan')) := by
  have hinv := reached_inv hrun
  refine ⟨fun key htCtid b s' h => ?_, fun callback stats res s' h => ?_, fun keys fuel scan' s' h => ?_⟩
  · rw [← LockWorld.put_idle (hidle i) hi]
    refine aloneCall_runs _ ?_ hinv hidle hi
    obtain ⟨rank, hranked, -⟩ := hinv.ranked
    exact insert_goes (Nat.succ_le_of_lt (Nat.lt_of_le_of_lt hranked.root.1 hranked.root.2)) h
  · rw [← LockWorld.put_idle (hidle i) hi]
    exact aloneCall_runs (.bulkdelete callback stats) (bulkdelete_goes h) hinv hidle hi
  · exact aloneCall_runs (.scan keys) (gettuple_goes h) hinv hidle hi

/-- Two sessions insert four rows, two at a time, and one of them a fifth, which fills the leaf. -/
def overlappingInserts : List LockAction :=
  ([(0, 1), (2, 3)].flatMap fun p =>
    [.begin 0 (.insert (stair p.1)), .begin 1 (.insert (stair p.2)), .advance 0, .advance 1, .advance 0, .advance 0,
      .advance 1, .advance 1]) ++ [.begin 0 (.insert (stair 4)), .advance 0, .advance 0, .advance 0]

/-- A session that can begin a call is in none. -/
theorem sessions_idle_of_begin {call : SessionCall} (h : (stepLock env w (.begin i call)).isSome = true) :
    w.sessions[i]? = some .idle := by
  simp only [stepLock] at h
  split at h
  · assumption
  · simp at h

/-- An insert that splits the root, a bulk deletion, and a scan that returns a row, each as a whole after them. -/
theorem serialCalls_run_full_leaf :
    ∃ w, run (stepLock roomyEnv) (freshSessions 2) overlappingInserts = some w ∧
      (∃ s' k, (metaAt s'.pages).rootLevel = 1 ∧ run (stepLock roomyEnv) w
        (.begin 0 (.insert (stair 5)) :: List.replicate k (.advance 0)) = some { w with rel := s' }) ∧
      (∃ s' k, contents s'.pages = Multiset.map stair {0, 2, 3, 4} ∧ run (stepLock roomyEnv) w
        (.begin 0 (.bulkdelete (some fun tid => tid.offnum == 2) none) :: List.replicate k (.advance 0)) =
          some { w with rel := s' }) ∧
      ∃ scan s' k, scan.xsHeaptid = (stair 0).tTid ∧ run (stepLock roomyEnv) w
        (.begin 0 (.scan [allTimes]) :: List.replicate k (.advance 0)) = some (w.put 0 s' (.scanning scan)) := by
  have hrun : (run (stepLock roomyEnv) (freshSessions 2) overlappingInserts).any (fun w =>
      (w.sessions.length == 2 && (List.range 2).all fun j => (stepLock roomyEnv w (.begin j (.scan []))).isSome) &&
      (okWith (fun _ s => decide ((metaAt s.pages).rootLevel = 1))
        (temporalRtreeInsert roomyEnv (stair 5).key (stair 5).tTid w.rel) &&
      (okWith (fun _ s => decide (contents s.pages = Multiset.map stair {0, 2, 3, 4}))
        (temporalRtreeBulkdelete roomyEnv none (some fun tid => tid.offnum == 2) w.rel) &&
      okWith (fun res _ => res.1 && decide (res.2.xsHeaptid = (stair 0).tTid))
        (temporalRtreeGettuple 9 { temporalRtreeBeginscan 1 with keyData := [allTimes] } true w.rel)))) = true := by
    decide +kernel
  obtain ⟨w, hw, hcheck⟩ := (Option.any_eq_true _ _).mp hrun
  obtain ⟨hsessions, hcheck⟩ := Bool.and_eq_true_iff.mp hcheck
  obtain ⟨hinsert, hcheck⟩ := Bool.and_eq_true_iff.mp hcheck
  obtain ⟨hdelete, hscan⟩ := Bool.and_eq_true_iff.mp hcheck
  obtain ⟨hlen, hall⟩ := Bool.and_eq_true_iff.mp hsessions
  have hidle : ∀ j, w.at j = .idle := by
    intro j
    rw [LockWorld.at, List.getD_eq_getElem?_getD]
    rcases Nat.lt_or_ge j 2 with hj | hj
    · rw [sessions_idle_of_begin (List.all_eq_true.mp hall j (List.mem_range.mpr hj)), Option.getD_some]
    · rw [List.getElem?_eq_none (eq_of_beq hlen ▸ hj), Option.getD_none]
  obtain ⟨hinserts, hdeletes, hscans⟩ := serialCalls_run hw hidle
    (show 0 < w.sessions.length by rw [eq_of_beq hlen]; exact Nat.two_pos)
  obtain ⟨_, s₁, hrun₁, hcheck₁⟩ := exists_of_okWith hinsert
  obtain ⟨_, s₂, hrun₂, hcheck₂⟩ := exists_of_okWith hdelete
  obtain ⟨⟨_, scan⟩, s₃, hrun₃, hcheck₃⟩ := exists_of_okWith hscan
  obtain ⟨rfl, hcheck₃⟩ := Bool.and_eq_true_iff.mp hcheck₃
  obtain ⟨k₁, hgo₁⟩ := hinserts _ _ _ _ hrun₁
  obtain ⟨k₂, hgo₂⟩ := hdeletes _ _ _ _ hrun₂
  obtain ⟨k₃, hgo₃⟩ := hscans [allTimes] _ _ _ hrun₃
  exact ⟨w, hw, ⟨s₁, k₁, of_decide_eq_true hcheck₁, hgo₁⟩, ⟨s₂, k₂, of_decide_eq_true hcheck₂, hgo₂⟩, scan, s₃, k₃,
    of_decide_eq_true hcheck₃, hgo₃⟩

end Alone

end TemporalRTree
