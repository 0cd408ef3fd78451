import TemporalRTree.Lib.WaitChain
import TemporalRTree.Correctness.LockSessions

/-!
# `Correctness.LockOrder` — sessions that wait for page locks, and why none waits forever

The meta page ranks above all blocks and every block above its children (`Correctness.LockRanks`), and a session asks
only for what ranks below all it has locked (`Correctness.LockSessions`). Both hold in every world that inserts, bulk
deletions and scans of several sessions reach (`LockInv`), and with them that conflicting locks are never held
together. So no session changes a page under another one that has it locked (`lockedPages_isolated`), and by
`WaitChain.exists_not_waiting` every chain of waiting sessions ends with one that can go on
(`busySession_progresses`).
-/

namespace TemporalRTree
open EStateM Transition

/-! ## Worlds -/

/-- The session that acts. -/
def LockAction.session : LockAction → Nat
  | .begin i _ => i
  | .advance i => i
  | .endscan i => i

/-- A freshly initialised index and `n` sessions that have not begun a call. -/
def freshSessions (n : Nat) : LockWorld where
  rel := { pages := initPages 0 }
  sessions := List.replicate n .idle

/-- What holds of a world in every run: there are ranks that the pages and the sessions agree with, and no two
    sessions have conflicting locks. -/
structure LockInv (w : LockWorld) : Prop where
  ranked : ∃ rank, Ranked rank w.rel.pages ∧
    ∀ i, (w.at i).Ranked rank w.rel.pages.length (metaAt w.rel.pages).root
  apart : ∀ i j, i ≠ j → ∀ l ∈ (w.at i).locked, ∀ l' ∈ (w.at j).locked, l.conflicts l' = false

section World
variable {env : Env} {w w' : LockWorld} {rank : BlockNumber → Nat} {i j : Nat} {l l' : PageLock}

theorem LockWorld.at_eq {act : Activity} (h : w.sessions[i]? = some act) : w.at i = act := by
  rw [LockWorld.at, List.getD_eq_getElem?_getD, h, Option.getD_some]

theorem LockWorld.at_of_ge (h : w.sessions.length ≤ i) : w.at i = .idle := by
  rw [LockWorld.at, List.getD_eq_getElem?_getD, List.getElem?_eq_none h, Option.getD_none]

theorem LockWorld.at_put_self {rel : Rel} {act : Activity} (h : i < w.sessions.length) :
    (w.put i rel act).at i = act :=
  LockWorld.at_eq (List.getElem?_set_self h)

theorem LockWorld.at_put_ne {rel : Rel} {act : Activity} (h : i ≠ j) : (w.put i rel act).at j = w.at j := by
  rw [LockWorld.at, LockWorld.at, LockWorld.put, List.getD_eq_getElem?_getD, List.getElem?_set_ne h,
    List.getD_eq_getElem?_getD]

/-- A lock is granted when no session has a conflicting one. -/
theorem LockWorld.blocked_eq_false : w.blocked l = false ↔ ∀ j, ∀ l' ∈ (w.at j).locked, l.conflicts l' = false := by
  rw [LockWorld.blocked, List.any_eq_false]
  constructor
  · intro h j l' hl'
    by_cases hj : j < w.sessions.length
    · have hat : w.at j = w.sessions[j] := LockWorld.at_eq (List.getElem?_eq_getElem hj)
      rw [hat] at hl'
      have hany := h _ (List.getElem_mem hj)
      exact Bool.eq_false_iff.mpr fun hconf => hany (List.any_eq_true.mpr ⟨l', hl', hconf⟩)
    · rw [LockWorld.at_of_ge (Nat.le_of_not_lt hj)] at hl'
      exact absurd hl' List.not_mem_nil
  · intro h act hact hany
    obtain ⟨j, hj, rfl⟩ := List.getElem_of_mem hact
    obtain ⟨l', hl', hconf⟩ := List.any_eq_true.mp hany
    have hat : w.at j = w.sessions[j] := LockWorld.at_eq (List.getElem?_eq_getElem hj)
    exact absurd hconf (Bool.eq_false_iff.mp (h j l' (hat ▸ hl')))

/-- What a step of session `i` does: from `act`, which has no more locked than the session and asks for a lock that is
    granted. A scan that is ended early asks for none. -/
structure Moves (rank : BlockNumber → Nat) (w : LockWorld) (i : Nat) (act : Activity) (rank' : BlockNumber → Nat)
    (rel : Rel) (act' : Activity) : Prop where
  lt : i < w.sessions.length
  locked : act.locked ⊆ (w.at i).locked
  granted : ∀ l, act.wants = some l → w.blocked l = false
  advances : Advances rank w.rel.pages act rank' rel.pages act'

/-- A call begins without locks. -/
theorem SessionCall.start_locked (call : SessionCall) : call.start.locked = [] := by
  cases call with
  | insert itup =>
      rw [SessionCall.start]
      cases rtreeIndexTupleBox itup with
      | none => rfl
      | some box => rfl
  | bulkdelete callback stats => rfl
  | scan keys => rfl

theorem SessionCall.start_ranked {n : Nat} {metaRoot : BlockNumber} (call : SessionCall) :
    call.start.Ranked rank n metaRoot := by
  cases call with
  | insert itup =>
      rw [SessionCall.start]
      cases rtreeIndexTupleBox itup with
      | none => exact True.intro
      | some box => exact True.intro
  | bulkdelete callback stats => exact True.intro
  | scan keys => exact fun b hb => absurd hb (by simp [temporalRtreeBeginscan])

/-- A session in a call goes on unless the lock it asks for is not granted. -/
theorem stepLock_advance {act : Activity} (hs : w.sessions[i]? = some act) (hbusy : act ≠ .idle) :
    stepLock env w (.advance i) =
      if act.wants.any w.blocked then none else some (w.after i (act.advance env w.rel)) := by
  cases act with
  | idle => exact absurd rfl hbusy
  | _ => simp only [stepLock, hs]

/-- **Every step of the system is the step of one session.** -/
theorem stepLock_moves {a : LockAction} (h : stepLock env w a = some w') (hranked : Ranked rank w.rel.pages)
    (hat : ∀ i, (w.at i).Ranked rank w.rel.pages.length (metaAt w.rel.pages).root) :
    ∃ act rank' rel act', Moves rank w a.session act rank' rel act' ∧ w' = w.put a.session rel act' := by
  have hnone : ∀ l, Activity.idle.wants = some l → w.blocked l = false := fun l hl =>
    absurd hl (by simp [Activity.wants])
  cases a with
  | begin i call =>
      simp only [stepLock] at h
      split at h
      · next hidle =>
        obtain rfl := Option.some.inj h
        refine ⟨.idle, rank, w.rel, call.start, ⟨?_, List.nil_subset _, hnone, .keep hranked ?_ ?_⟩, rfl⟩
        · exact (List.getElem?_eq_some_iff.mp hidle).1
        · exact call.start_ranked
        · rw [call.start_locked]
          exact fun l hl => absurd hl List.not_mem_nil
      · exact absurd h (by simp)
  | advance i =>
      cases hs : w.sessions[i]? with
      | none =>
          simp only [stepLock, hs] at h
          exact absurd h (by simp)
      | some act =>
          by_cases hbusy : act = .idle
          · subst hbusy
            simp only [stepLock, hs] at h
            exact absurd h (by simp)
          · have hact : w.at i = act := LockWorld.at_eq hs
            have hends : StepEnds rank w.rel.pages act (act.advance env w.rel) := advance_ends hranked (hact ▸ hat i)
            rw [stepLock_advance hs hbusy] at h
            obtain ⟨hgranted, h⟩ := Option.ite_none_left_eq_some.mp h
            obtain rfl := Option.some.inj h
            have hmoves : ∀ {rank' rel act'}, Advances rank w.rel.pages act rank' rel.pages act' →
                Moves rank w i act rank' rel act' := by
              intro rank' rel act' hadv
              refine ⟨(List.getElem?_eq_some_iff.mp hs).1, ?_, fun l hl => ?_, hadv⟩
              · rw [hact]
                exact List.Subset.refl _
              · rw [hl] at hgranted
                exact Bool.eq_false_iff.mpr hgranted
            cases hrun : act.advance env w.rel with
            | ok act' rel =>
                rw [hrun] at hends
                obtain ⟨rank', hadv⟩ := hends
                exact ⟨act, rank', rel, act', hmoves hadv, rfl⟩
            | error e rel =>
                rw [hrun] at hends
                obtain ⟨rank', hadv⟩ := hends
                exact ⟨act, rank', rel, .idle, hmoves hadv, rfl⟩
  | endscan i =>
      simp only [stepLock] at h
      split at h
      · next scan hscan =>
        obtain ⟨evs, hend⟩ := temporalRtreeEndscan_run scan w.rel
        rw [bind_of_ok hend] at h
        obtain rfl := Option.some.inj h
        refine ⟨.idle, rank, { w.rel with trace := w.rel.trace ++ evs }, .idle, ⟨?_, List.nil_subset _, hnone, ?_⟩, rfl⟩
        · exact (List.getElem?_eq_some_iff.mp hscan).1
        · exact .idle hranked
      · exact absurd h (by simp)

/-! ### The invariant -/

theorem conflicts_exclusive (b : BlockNumber) (mode : LockMode) :
    PageLock.conflicts (b, .exclusive) (b, mode) = true := by
  simp [PageLock.conflicts]

section Moved
variable {act act' : Activity} {rank' : BlockNumber → Nat} {rel : Rel}

/-- What a step writes to, no other session has locked. -/
theorem Moves.not_owns (hm : Moves rank w i act rank' rel act') (hinv : LockInv w) (hij : i ≠ j)
    (hl : l ∈ (w.at j).locked) : ¬ act.Owns l.1 := by
  rintro (howned | hwanted)
  · have hfree := hinv.apart i j hij _ (hm.locked howned) l hl
    rw [conflicts_exclusive] at hfree
    exact absurd hfree (by simp)
  · have hfree := LockWorld.blocked_eq_false.mp (hm.granted _ hwanted) j l hl
    rw [conflicts_exclusive] at hfree
    exact absurd hfree (by simp)

/-- The locks after a step do not conflict with those of another session. -/
theorem Moves.apart (hm : Moves rank w i act rank' rel act') (hinv : LockInv w) (hij : i ≠ j) (hl : l ∈ act'.locked)
    (hl' : l' ∈ (w.at j).locked) : l.conflicts l' = false := by
  rcases hm.advances.locks l hl with hheld | hgranted
  · exact hinv.apart i j hij l (hm.locked hheld) l' hl'
  · exact LockWorld.blocked_eq_false.mp (hm.granted l hgranted) j l' hl'

theorem PageLock.conflicts_comm (l l' : PageLock) : l.conflicts l' = l'.conflicts l := by
  simp only [PageLock.conflicts, eq_comm, Bool.and_comm]

theorem metaAt_congr {pages pages' : List Page} (h : pages'[0]? = pages[0]?) : metaAt pages' = metaAt pages := by
  simp only [metaAt, List.getD_eq_getElem?_getD, h]

/-- **Every step keeps the invariant.** -/
theorem Moves.inv (hm : Moves rank w i act rank' rel act') (hinv : LockInv w)
    (hat : ∀ i, (w.at i).Ranked rank w.rel.pages.length (metaAt w.rel.pages).root) : LockInv (w.put i rel act') := by
  have hadv := hm.advances
  refine ⟨⟨rank', hadv.ranked, fun j => ?_⟩, fun j k hjk => ?_⟩
  · by_cases hij : i = j
    · subst hij
      rw [LockWorld.at_put_self hm.lt]
      exact hadv.next
    · rw [LockWorld.at_put_ne hij]
      refine (hat j).mono hadv.lowers hadv.length_le (fun b hb hl => ?_) fun hl => ?_
      · exact hadv.same b hb (hm.not_owns hinv hij hl)
      · obtain ⟨_, hr, _⟩ := hinv.ranked
        have hframe := hadv.frame 0 (Nat.lt_trans hr.root.1 hr.root.2) (hm.not_owns hinv hij hl)
        exact congrArg RTreeMetaPageData.root (metaAt_congr hframe)
  · by_cases hij : i = j
    · subst hij
      rw [LockWorld.at_put_self hm.lt, LockWorld.at_put_ne hjk]
      exact fun l hl l' hl' => hm.apart hinv hjk hl hl'
    · rw [LockWorld.at_put_ne hij]
      by_cases hik : i = k
      · subst hik
        rw [LockWorld.at_put_self hm.lt]
        intro l hl l' hl'
        rw [PageLock.conflicts_comm]
        exact hm.apart hinv (Ne.symm hjk) hl' hl
      · rw [LockWorld.at_put_ne hik]
        exact hinv.apart j k hjk

end Moved

theorem LockInv.step {a : LockAction} (hinv : LockInv w) (h : stepLock env w a = some w') : LockInv w' := by
  obtain ⟨rank, hranked, hat⟩ := hinv.ranked
  obtain ⟨act, rank', rel, act', hm, rfl⟩ := stepLock_moves h hranked hat
  exact hm.inv hinv hat

theorem freshSessions_at (n i : Nat) : (freshSessions n).at i = .idle := by
  rw [LockWorld.at, freshSessions, List.getD_eq_getElem?_getD, List.getElem?_replicate]
  split <;> rfl

theorem freshSessions_inv (n : Nat) : LockInv (freshSessions n) := by
  refine ⟨⟨fun _ => 0, ⟨?_, ?_, ?_⟩, fun i => ?_⟩, fun i j _ l hl => ?_⟩
  · exact ⟨Nat.one_pos, Nat.lt_succ_self 1⟩
  · exact Nat.le_refl 0
  · intro b hb
    obtain rfl : b = 1 := Nat.le_antisymm (Nat.lt_succ_iff.mp hb.2) hb.1
    refine ⟨Nat.zero_le _, ?_, ?_⟩
    · exact fun hleaf => absurd hleaf (by simp [freshSessions, initPages, pageAt, Page.asData, rtreeInitDatapage])
    · exact fun hleaf => absurd hleaf (by simp [freshSessions, initPages, pageAt, Page.asData, rtreeInitDatapage])
  · rw [freshSessions_at]
    exact True.intro
  · rw [freshSessions_at] at hl
    exact absurd hl List.not_mem_nil

theorem reached_inv {n : Nat} {acts : List LockAction} (h : run (stepLock env) (freshSessions n) acts = some w) :
    LockInv w :=
  run_invariant LockInv (fun _ _ _ hinv hstep => hinv.step hstep) h (freshSessions_inv n)

end World

/-! ## Isolation and progress -/

section Results
variable {env : Env} {w w' : LockWorld} {n : Nat} {acts : List LockAction}

/-- **Isolation.** Whatever inserts, bulk deletions and scans the sessions run and however their steps interleave, as
    long as they do not extend the relation at the same moment: no two sessions have conflicting page locks, and no step
    of one changes a page that another has locked. -/
theorem lockedPages_isolated (hrun : run (stepLock env) (freshSessions n) acts = some w) :
    (∀ i j, i ≠ j → ∀ l ∈ (w.at i).locked, ∀ l' ∈ (w.at j).locked, l.conflicts l' = false) ∧
      ∀ a w', stepLock env w a = some w' → ∀ j, j ≠ a.session → ∀ l ∈ (w.at j).locked,
        w'.rel.pages[l.1]? = w.rel.pages[l.1]? := by
  have hinv := reached_inv hrun
  refine ⟨hinv.apart, fun a w' hstep j hj l hl => ?_⟩
  obtain ⟨rank, hranked, hat⟩ := hinv.ranked
  obtain ⟨act, rank', rel, act', hm, rfl⟩ := stepLock_moves hstep hranked hat
  have hpos : 0 < w.rel.pages.length := Nat.lt_trans hranked.root.1 hranked.root.2
  exact hm.advances.frame l.1 ((hat j).locked_lt hpos hl) (hm.not_owns hinv (Ne.symm hj) hl)

/-- A row is inserted, a scan returns it, and an insert comes to its page. -/
def insertBehindScan : List LockAction :=
  [.begin 0 (.insert (stair 0)), .advance 0, .advance 0, .advance 0, .begin 1 (.scan [allTimes]), .advance 1,
    .advance 1, .begin 0 (.insert (stair 1)), .advance 0]

/-- The scan stands on the leaf, which the other session cannot change. -/
theorem lockedPages_isolated_behind_scan :
    ∃ w, run (stepLock roomyEnv) (freshSessions 2) insertBehindScan = some w ∧ (w.at 1).locked = [(1, .share)] ∧
      ∀ a w', stepLock roomyEnv w a = some w' → a.session = 0 → w'.rel.pages[1]? = w.rel.pages[1]? := by
  have hrun : (run (stepLock roomyEnv) (freshSessions 2) insertBehindScan).any
      (fun w => decide ((w.at 1).locked = [(1, .share)])) = true := by decide +kernel
  obtain ⟨w, hw, hcheck⟩ := (Option.any_eq_true _ _).mp hrun
  have hlocked := of_decide_eq_true hcheck
  refine ⟨w, hw, hlocked, fun a w' hstep hsession => ?_⟩
  exact (lockedPages_isolated hw).2 a w' hstep 1 (by simp [hsession]) (1, .share) (by simp [hlocked])

theorem lockRank_of_conflicts {rank : BlockNumber → Nat} {l l' : PageLock} (h : l.conflicts l' = true) :
    lockRank rank l' = lockRank rank l := by
  have hblock : l.1 = l'.1 := by
    have hand := (Bool.and_eq_true _ _).mp h
    exact of_decide_eq_true hand.1
  rw [lockRank, lockRank, hblock]

/-- A session in a call whose lock nobody withholds goes on. -/
theorem stepLock_of_free {j : Nat} (hbusy : w.at j ≠ .idle) (hfree : ∀ k, ¬ WaitsFor w j k) :
    stepLock env w (.advance j) = some (w.after j ((w.at j).advance env w.rel)) := by
  have hj : j < w.sessions.length := by
    by_contra hj
    exact hbusy (LockWorld.at_of_ge (Nat.le_of_not_lt hj))
  have hs : w.sessions[j]? = some (w.at j) := by
    rw [LockWorld.at_eq (List.getElem?_eq_getElem hj)]
    exact List.getElem?_eq_getElem hj
  have hgranted : (w.at j).wants.any w.blocked = false := by
    cases hwants : (w.at j).wants with
    | none => rfl
    | some l =>
        refine LockWorld.blocked_eq_false.mpr fun k l' hl' => ?_
        exact Bool.eq_false_iff.mpr fun hconf => hfree k ⟨l, l', hwants, hl', hconf⟩
  rw [stepLock_advance hs hbusy, hgranted]
  exact if_neg Bool.false_ne_true

/-- **No deadlock.** From every session that is in a call, the sessions that wait for one another lead to one that can
    take its next step: whatever inserts, bulk deletions and scans they run, and however these have been interleaved,
    extensions of the relation one after the other. -/
theorem busySession_progresses (hrun : run (stepLock env) (freshSessions n) acts = some w) {i : Nat}
    (hbusy : w.at i ≠ .idle) :
    ∃ j, Relation.ReflTransGen (WaitsFor w) i j ∧ (stepLock env w (.advance j)).isSome = true := by
  obtain ⟨rank, -, hat⟩ := (reached_inv hrun).ranked
  obtain ⟨j, hchain, hfree⟩ : ∃ j, Relation.ReflTransGen (WaitsFor w) i j ∧ ∀ k, ¬ WaitsFor w j k :=
    WaitChain.exists_not_waiting (lockRank rank) (fun _ _ h => le_of_eq (lockRank_of_conflicts h))
      (fun k _ _ hl hl' => (hat k).wants_below hl hl') i
  have hj : w.at j ≠ .idle := by
    -- the last of the chain is the session itself, or has a lock that another waits for
    rcases Relation.ReflTransGen.cases_tail hchain with rfl | ⟨k, -, l, l', -, hl', -⟩
    · exact hbusy
    · intro hidle
      rw [hidle] at hl'
      exact absurd hl' List.not_mem_nil
  exact ⟨j, hchain, Option.isSome_of_eq_some (stepLock_of_free hj hfree)⟩

/-- The insert waits for the scan, which can go on. -/
theorem busySession_progresses_behind_scan :
    ∃ w, run (stepLock roomyEnv) (freshSessions 2) insertBehindScan = some w ∧
      (stepLock roomyEnv w (.advance 0)).isNone = true ∧
      ∃ j, Relation.ReflTransGen (WaitsFor w) 0 j ∧ (stepLock roomyEnv w (.advance j)).isSome = true := by
  have hrun : (run (stepLock roomyEnv) (freshSessions 2) insertBehindScan).any
      (fun w => decide ((w.at 0).wants = some (1, .exclusive)) && (stepLock roomyEnv w (.advance 0)).isNone) = true := by
    decide +kernel
  obtain ⟨w, hw, hcheck⟩ := (Option.any_eq_true _ _).mp hrun
  obtain ⟨hwants, hnone⟩ := Bool.and_eq_true_iff.mp hcheck
  refine ⟨w, hw, hnone, busySession_progresses hw fun hidle => ?_⟩
  have hwants := of_decide_eq_true hwants
  rw [hidle] at hwants
  exact absurd hwants (by simp [Activity.wants])

end Results

end TemporalRTree
