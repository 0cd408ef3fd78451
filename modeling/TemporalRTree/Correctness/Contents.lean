import TemporalRTree.Correctness.VacuumRoot
import TemporalRTree.Model.Build

/-!
# `Correctness.Contents` — the index refines a multiset of tuples

What an index is for: `Op.apply` gives every operation its meaning on the multiset of (TID, key) tuples that
are indexed. A run of operations in which no `PageAddItem` failed leaves exactly that multiset reachable
from the root, and it can only have been cut short by a relation that could not be extended.
-/

namespace TemporalRTree
open EStateM Layout

/-! ## The abstract index -/

/-- The index tuple of a heap row. -/
def HeapRow.tuple (row : HeapRow) : IndexTuple := { tTid := row.tid, key := row.key }

/-- A row is indexed unless its key is NULL. -/
def insertRow (row : HeapRow) (M : Multiset IndexTuple) : Multiset IndexTuple :=
  if row.key.isSome then row.tuple ::ₘ M else M

/-- What an operation does to the set of indexed tuples. -/
def Op.apply : Op → Multiset IndexTuple → Multiset IndexTuple
  | .build rows, _ => rows.foldl (fun M row => insertRow row M) 0
  | .insert row, M => insertRow row M
  | .bulkdelete _ callback, M => M.filter (fun t => ¬ isDead callback t.tTid = true)
  | .vacuumcleanup _ _, M => M

/-- What a run of operations does to it. -/
def applyOps (ops : List Op) (M : Multiset IndexTuple) : Multiset IndexTuple :=
  ops.foldl (fun M op => op.apply M) M

/-! ## Refinement of one run -/

/-- The states between operations: no block yet, or an initialised index. -/
def Valid (pages : List Page) : Prop := pages = [] ∨ WF pages

theorem contents_nil : contents [] = 0 := rfl

/-- A run from `s` that ends in a `V` state and changes the contents as `f` says if no `PageAddItem` fails,
    and can then fail only for want of a block. -/
def Refines {α : Type} (s : Rel) (V : List Page → Prop) (f : Multiset IndexTuple → Multiset IndexTuple) :
    Result RTreeError Rel α → Prop
  | .ok _ s' => V s'.pages ∧ ∃ evs, s'.trace = s.trace ++ evs ∧
      (AddsOk evs → contents s'.pages = f (contents s.pages))
  | .error e s' => ∃ evs, s'.trace = s.trace ++ evs ∧ (AddsOk evs → e = .couldNotExtend)

section Refines
variable {α β : Type} {s : Rel} {V W : List Page → Prop} {f g : Multiset IndexTuple → Multiset IndexTuple}

theorem Refines.pure {a : α} (h : V s.pages) : Refines s V id ((Pure.pure a : IndexM α) s) :=
  ⟨h, [], by simp, fun _ => rfl⟩

/-- Runs compose, and so do their effects. -/
theorem Refines.bind {x : IndexM α} {k : α → IndexM β} (h : Refines s V f (x s))
    (hk : ∀ a s', V s'.pages → Refines s' W g (k a s')) : Refines s W (g ∘ f) ((x >>= k) s) := by
  cases hx : x s with
  | error e s' =>
      rw [hx] at h
      rw [bind_of_error hx]
      exact h
  | ok a s' =>
      rw [hx] at h
      rw [bind_of_ok hx]
      obtain ⟨hv, evs, htrace, hcont⟩ := h
      have hrun := hk a s' hv
      cases hy : k a s' with
      | ok b s'' =>
          rw [hy] at hrun
          obtain ⟨hv', evs', htrace', hcont'⟩ := hrun
          refine ⟨hv', evs ++ evs', by rw [htrace', htrace, List.append_assoc], fun hok => ?_⟩
          obtain ⟨hok, hok'⟩ := addsOk_append.mp hok
          rw [hcont' hok', hcont hok]
          rfl
      | error e s'' =>
          rw [hy] at hrun
          obtain ⟨evs', htrace', he⟩ := hrun
          exact ⟨evs ++ evs', by rw [htrace', htrace, List.append_assoc], fun hok =>
            he (addsOk_append.mp hok).2⟩

end Refines

/-! ## Insertion and build -/

section Ops
variable {env : Env} {s : Rel}

theorem rtreeMetaAndRootInit_refines (h : s.pages = []) :
    Refines s WF id (rtreeMetaAndRootInit env s) := by
  by_cases hext : canExtend env s.pages.length ∧ canExtend env (s.pages.length + 1)
  · rw [rtreeMetaAndRootInit_run hext.1 hext.2]
    obtain ⟨hwf, hcont⟩ := initPages_wf
    refine ⟨?_, _, rfl, fun _ => ?_⟩
    · simpa [h] using hwf
    · simpa [h, contents_nil] using hcont
  · obtain ⟨s', evs, hrun, htrace⟩ := rtreeMetaAndRootInit_eq_error hext
    rw [hrun]
    exact ⟨evs, htrace, fun _ => rfl⟩

theorem ensureInitialised_refines (h : Valid s.pages) : Refines s WF id (ensureInitialised env s) := by
  rw [ensureInitialised, bind_of_ok (get_apply s)]
  rcases h with h | h
  · rw [if_pos (by simp [h])]
    exact rtreeMetaAndRootInit_refines h
  · rw [if_neg (by have := h.two_le_length; omega)]
    exact Refines.pure h

theorem insertTuple_refines {itup : IndexTuple} {box : RTreeTemporalBox} (hkey : itup.key.isSome = true)
    (h : WF s.pages) : Refines s WF (itup ::ₘ ·) (insertTuple env itup box s) := by
  cases hrun : insertTuple env itup box s with
  | ok u s' =>
      obtain ⟨evs, hins, htrace⟩ := insertTuple_inserts hrun
      obtain ⟨hwf, -, hcont⟩ := hins.wf hkey h
      exact ⟨hwf, evs, htrace, hcont⟩
  | error e s' =>
      obtain ⟨evs, hfail, htrace⟩ := insertTuple_fails hrun
      exact ⟨evs, htrace, hfail.couldNotExtend h⟩

theorem temporalRtreeInsert_refines (row : HeapRow) (h : Valid s.pages) :
    Refines s WF (insertRow row) (temporalRtreeInsert env row.key row.tid s) := by
  obtain ⟨tid, key⟩ := row
  cases key with
  | none =>
      have heff : insertRow ⟨tid, none⟩ = id ∘ id := rfl
      rw [heff]
      exact Refines.bind (ensureInitialised_refines h) fun u s₁ h₁ => Refines.pure h₁
  | some cube =>
      have heff : insertRow ⟨tid, some cube⟩ = (id ∘ (⟨tid, some cube⟩ ::ₘ ·)) ∘ id := rfl
      rw [heff]
      refine Refines.bind (ensureInitialised_refines h) fun u s₁ h₁ => ?_
      exact Refines.bind (insertTuple_refines rfl h₁) fun u s₂ h₂ => Refines.pure h₂

theorem rtreeBuildCallback_refines (rows : List HeapRow) (n : Nat) (h : WF s.pages) :
    Refines s WF (fun M => rows.foldl (fun M row => insertRow row M) M)
      (rtreeBuildCallback env rows n s) := by
  induction rows generalizing s n with
  | nil => exact Refines.pure h
  | cons row rest ih =>
      have heff : (fun M => (row :: rest).foldl (fun M row => insertRow row M) M) =
        (fun M => rest.foldl (fun M row => insertRow row M) M) ∘ insertRow row := rfl
      rw [heff, rtreeBuildCallback]
      exact Refines.bind (temporalRtreeInsert_refines row (Or.inr h)) fun inserted s₁ h₁ => ih _ h₁

theorem temporalRtreeBuild_refines (rows : List HeapRow) (h : s.pages = []) :
    Refines s WF (fun _ => rows.foldl (fun M row => insertRow row M) 0) (temporalRtreeBuild env rows s) := by
  have hrun : Refines s WF ((id ∘ fun M => rows.foldl (fun M row => insertRow row M) M) ∘ id)
      (temporalRtreeBuild env rows s) := by
    refine Refines.bind (rtreeMetaAndRootInit_refines h) fun u s₁ h₁ => ?_
    exact Refines.bind (rtreeBuildCallback_refines rows 0 h₁) fun n s₂ h₂ => Refines.pure h₂
  cases hr : temporalRtreeBuild env rows s with
  | ok a s' =>
      rw [hr] at hrun
      obtain ⟨hwf, evs, htrace, hcont⟩ := hrun
      refine ⟨hwf, evs, htrace, fun hok => ?_⟩
      rw [hcont hok, h, contents_nil]
      rfl
  | error e s' =>
      rw [hr] at hrun
      exact hrun

/-! ## Bulk deletion -/

/-- The number of blocks is fuel enough for the walk. -/
theorem WF.rootLevel_lt {pages : List Page} (h : WF pages) : (metaAt pages).rootLevel < pages.length := by
  have hlt := Holds.level_lt_length (fun l page hp => by simpa [nodes] using hp.inner_ne (Nat.succ_ne_zero l))
    (h.tree.holds _ (List.mem_singleton.mpr rfl))
  have hnd := h.tree.nodup
  rw [forestBlocks_cons, forestBlocks_nil, List.append_nil] at hnd
  have hsub : (nodes.blocks (pageAt pages) (metaAt pages).rootLevel (metaAt pages).root).Subperm
      (List.range pages.length) :=
    hnd.subperm fun x hx => List.mem_range.mpr (h.range x hx).2
  have := hsub.length_le
  rw [List.length_range] at this
  omega

/-- On an index, bulk deletion is the walk and the shrinking of the root. -/
theorem temporalRtreeBulkdelete_wf (stats : Option IndexBulkDeleteResult) (callback : IndexBulkDeleteCallback)
    (h : WF s.pages) :
    temporalRtreeBulkdelete env stats callback s =
      (do let res ← rtreeVacuumPage env callback s.pages.length (metaAt s.pages).root
            (bulkdeleteStats s.pages.length stats)
          let _ ← rtreeVacuumShrinkRoot env (metaAt s.pages).root (metaAt s.pages).rootLevel
          return res.2 : IndexM IndexBulkDeleteResult)
        { s with trace := s.trace ++ [Event.lock 0 .share, Event.unlock 0] } := by
  have hlen : 0 < s.pages.length := Nat.lt_of_lt_of_le Nat.two_pos h.two_le_length
  rw [temporalRtreeBulkdelete, bind_of_ok (get_apply s), if_neg (Nat.not_lt.mpr h.two_le_length),
    bind_of_ok (readMeta_run hlen), if_neg (not_not_intro h.magic), if_neg h.root_ne_invalid]

/-- The two parts of a bulk deletion that completed. -/
theorem temporalRtreeBulkdelete_parts {stats : Option IndexBulkDeleteResult} {callback : IndexBulkDeleteCallback}
    {res : IndexBulkDeleteResult} {s' : Rel} (hwf : WF s.pages)
    (h : temporalRtreeBulkdelete env stats callback s = .ok res s') :
    ∃ r s₁ b, rtreeVacuumPage env callback s.pages.length (metaAt s.pages).root
        (bulkdeleteStats s.pages.length stats)
        { s with trace := s.trace ++ [Event.lock 0 .share, Event.unlock 0] } = .ok r s₁ ∧
      VacuumSpec callback s.pages (metaAt s.pages).root (metaAt s.pages).rootLevel
        (if r.1.isSome then [(metaAt s.pages).root] else []) s₁.pages ∧
      rtreeVacuumShrinkRoot env (metaAt s.pages).root (metaAt s.pages).rootLevel s₁ = .ok b s' ∧ r.2 = res := by
  rw [temporalRtreeBulkdelete_wf stats callback hwf] at h
  obtain ⟨r, s₁, hwalk, h⟩ := bind_eq_ok.mp h
  obtain ⟨b, s₂, hshrink, h⟩ := bind_eq_ok.mp h
  injection h with hres h
  subst h
  let s₀ : Rel := { s with trace := s.trace ++ [Event.lock 0 .share, Event.unlock 0] }
  have hspec : VacuumRun s₀ _ (rtreeVacuumPage env callback s.pages.length (metaAt s.pages).root
      (bulkdeleteStats s.pages.length stats) s₀) := rtreeVacuumPage_spec hwf.rootLevel_lt hwf.tree hwf.halloc
  rw [hwalk] at hspec
  exact ⟨r, s₁, b, hwalk, hspec.1, hshrink, hres⟩

theorem temporalRtreeBulkdelete_refines (stats : Option IndexBulkDeleteResult)
    (callback : IndexBulkDeleteCallback) (h : Valid s.pages) :
    Refines s Valid (fun M => M.filter (fun t => ¬ isDead callback t.tTid = true))
      (temporalRtreeBulkdelete env stats callback s) := by
  rcases h with h | h
  · rw [temporalRtreeBulkdelete, bind_of_ok (get_apply s), if_pos (by simp [h])]
    refine ⟨Or.inl h, [], by simp, fun _ => ?_⟩
    simp [h, contents_nil]
  · rw [temporalRtreeBulkdelete_wf stats callback h]
    let s₀ : Rel := { s with trace := s.trace ++ [Event.lock 0 .share, Event.unlock 0] }
    let stats₀ := bulkdeleteStats s.pages.length stats
    have hvac : VacuumRun s₀ _ (rtreeVacuumPage env callback s.pages.length (metaAt s.pages).root stats₀ s₀) :=
      rtreeVacuumPage_spec h.rootLevel_lt h.tree h.halloc
    cases hrun : rtreeVacuumPage env callback s.pages.length (metaAt s.pages).root stats₀ s₀ with
    | error e s₁ =>
        rw [hrun] at hvac
        obtain ⟨-, evs, htrace, hbad⟩ := hvac
        rw [bind_of_error hrun]
        exact ⟨[Event.lock 0 .share, Event.unlock 0] ++ evs, by simp [htrace, s₀], fun hok =>
          absurd (addsOk_append.mp hok).2 hbad⟩
    | ok res s₁ =>
        rw [hrun] at hvac
        obtain ⟨hspec, evs, htrace⟩ := hvac
        obtain ⟨hv, hcont, hmeta⟩ := hspec.root h
        obtain ⟨b, s₂, evs', hshrink, hwf, hcont', htrace'⟩ := rtreeVacuumShrinkRoot_spec env hv
        rw [hmeta] at hshrink
        rw [bind_of_ok hrun, bind_of_ok hshrink, pure_apply]
        refine ⟨Or.inr hwf, [Event.lock 0 .share, Event.unlock 0] ++ evs ++ evs', ?_, fun _ => ?_⟩
        · simp [htrace', htrace, s₀]
        · rw [hcont', hcont]
          simp [isAlive]

theorem temporalRtreeVacuumcleanup_refines (info : IndexVacuumInfo)
    (stats : Option IndexBulkDeleteResult) (h : Valid s.pages) :
    Refines s Valid id (temporalRtreeVacuumcleanup env info stats s) := by
  rw [temporalRtreeVacuumcleanup]
  by_cases ha : info.analyzeOnly = true
  · rw [if_pos ha]
    exact Refines.pure h
  · rw [if_neg ha]
    cases stats with
    | some st => exact Refines.pure h
    | none =>
        -- without a callback nothing is dead
        have hkeep : (fun M : Multiset IndexTuple => M.filter (fun t => ¬ isDead none t.tTid = true)) = id := by
          funext M
          simp [isDead]
        have hrun : Refines s Valid _ (temporalRtreeBulkdelete env (some {}) none s) :=
          temporalRtreeBulkdelete_refines (some {}) none h
        rw [hkeep] at hrun
        exact Refines.bind hrun fun st s₁ h₁ => Refines.pure h₁

/-! ## Runs -/

/-- **Every operation refines its meaning on the indexed tuples.** -/
theorem runOp_refines (op : Op) (h : Valid s.pages) : Refines s Valid op.apply (runOp env op s) := by
  cases op with
  | build rows =>
      rw [runOp, bind_of_ok (modify_apply _ s)]
      have hrun : Refines { s with pages := [] } WF _ (temporalRtreeBuild env rows { s with pages := [] }) :=
        temporalRtreeBuild_refines rows rfl
      exact Refines.bind (g := id) hrun fun _ s₁ h₁ => Refines.pure (Or.inr h₁)
  | insert row =>
      exact Refines.bind (g := id) (temporalRtreeInsert_refines row h) fun _ s₁ h₁ =>
        Refines.pure (Or.inr h₁)
  | bulkdelete stats callback =>
      exact Refines.bind (g := id) (temporalRtreeBulkdelete_refines stats callback h) fun _ s₁ h₁ =>
        Refines.pure h₁
  | vacuumcleanup info stats =>
      exact Refines.bind (g := id) (temporalRtreeVacuumcleanup_refines info stats h) fun _ s₁ h₁ =>
        Refines.pure h₁

theorem runOps_refines (ops : List Op) (h : Valid s.pages) :
    Refines s Valid (applyOps ops) (runOps env ops s) := by
  induction ops generalizing s with
  | nil => exact Refines.pure h
  | cons op ops ih => exact Refines.bind (runOp_refines op h) fun _ s₁ h₁ => ih h₁

theorem runOps_valid {ops : List Op} {s' : Rel} {u : Unit} (h : Valid s.pages)
    (hrun : runOps env ops s = .ok u s') : Valid s'.pages := by
  have hrefines : Refines s Valid (applyOps ops) (runOps env ops s) := runOps_refines ops h
  rw [hrun] at hrefines
  exact hrefines.1

end Ops

/-- **Contents refinement.** After any run of operations on a relation that starts without blocks, in which
    no `PageAddItem` failed, the tuples reachable from the root are those the operations' meaning gives; and
    such a run ends early only when the relation cannot be extended. A page with more tuples than the work arrays of a
    split or a bulk deletion hold, which takes keys of dimension 0, is treated like any other here. -/
theorem runOps_contents (env : Env) (ops : List Op) :
    (∀ s, runOps env ops { pages := [] } = .ok () s → AddsOk s.trace →
      contents s.pages = applyOps ops 0) ∧
    (∀ e s, runOps env ops { pages := [] } = .error e s → AddsOk s.trace → e = .couldNotExtend) := by
  have hrun : Refines { pages := [] } Valid (applyOps ops) (runOps env ops { pages := [] }) :=
    runOps_refines ops (Or.inl rfl)
  refine ⟨fun s hs hok => ?_, fun e s hs hok => ?_⟩
  · rw [hs] at hrun
    obtain ⟨-, evs, htrace, hcont⟩ := hrun
    exact hcont (by rwa [htrace, List.nil_append] at hok)
  · rw [hs] at hrun
    obtain ⟨evs, htrace, he⟩ := hrun
    exact he (by rwa [htrace, List.nil_append] at hok)

/-- A build of two rows and a NULL, an insert and a bulk deletion. -/
theorem runOps_contents_build_insert_delete :
    let cube : NDBOX := { dim := 1, isPoint := true, x := [.fin 7], dim_le := by decide, x_length := rfl }
    let ops : List Op :=
      [.build [⟨⟨0, 1⟩, some cube⟩, ⟨⟨0, 2⟩, none⟩, ⟨⟨0, 3⟩, some cube⟩], .insert ⟨⟨0, 4⟩, some cube⟩,
        .bulkdelete none (some fun tid => tid.offnum == 3)]
    ∃ s, runOps { needsWal := true, extendOk := fun _ => true } ops { pages := [] } = .ok () s ∧
      AddsOk s.trace ∧ contents s.pages = {⟨⟨0, 1⟩, some cube⟩, ⟨⟨0, 4⟩, some cube⟩} := by
  intro cube ops
  have hok : okWith (fun _ s => decide (AddsOk s.trace))
      (runOps { needsWal := true, extendOk := fun _ => true } ops { pages := [] }) = true := by decide +kernel
  obtain ⟨u, s, hrun, hadds⟩ := exists_of_okWith hok
  have hadds : AddsOk s.trace := by simpa using hadds
  exact ⟨s, hrun, hadds, ((runOps_contents _ ops).1 s hrun hadds).trans (by decide +kernel)⟩

/-- The heap rows of the first `n` stairs. -/
def stairRows (n : Nat) : List HeapRow := (List.range n).map fun i => ⟨(stair i).tTid, (stair i).key⟩

/-- Three calls after each other: a build of five rows, an insert that splits the root and finds no room on the disk for
    a new one, and an insert with room again. -/
def failedPromotion (check : Rel → Rel → Rel → Bool) : Bool :=
  okWith (fun _ s₁ => errorWith (fun _ s₂ => okWith (fun _ s₃ => check s₁ s₂ s₃)
      (runOp roomyEnv (.insert ⟨(stair 6).tTid, (stair 6).key⟩) s₂))
    (runOp (diskOf 3) (.insert ⟨(stair 5).tTid, (stair 5).key⟩) s₁))
  (runOps roomyEnv [.build (stairRows 5)] { pages := [] })

theorem exists_of_failedPromotion {check : Rel → Rel → Rel → Bool} (h : failedPromotion check = true) :
    ∃ s₁ e s₂ s₃, runOps roomyEnv [.build (stairRows 5)] { pages := [] } = .ok () s₁ ∧
      runOp (diskOf 3) (.insert ⟨(stair 5).tTid, (stair 5).key⟩) s₁ = .error e s₂ ∧
      runOp roomyEnv (.insert ⟨(stair 6).tTid, (stair 6).key⟩) s₂ = .ok () s₃ ∧ check s₁ s₂ s₃ = true := by
  obtain ⟨u, s₁, h₁, h⟩ := exists_of_okWith h
  obtain ⟨e, s₂, h₂, h⟩ := exists_of_errorWith h
  obtain ⟨u', s₃, h₃, h⟩ := exists_of_okWith h
  exact ⟨s₁, e, s₂, s₃, h₁, h₂, h₃, h⟩

/-- No `PageAddItem` has failed in them, and two rows of the build stay out of reach. -/
theorem failed_extension_loses_rows :
    ∃ s₁ e s₂ s₃, runOps roomyEnv [.build (stairRows 5)] { pages := [] } = .ok () s₁ ∧
      runOp (diskOf 3) (.insert ⟨(stair 5).tTid, (stair 5).key⟩) s₁ = .error e s₂ ∧
      runOp roomyEnv (.insert ⟨(stair 6).tTid, (stair 6).key⟩) s₂ = .ok () s₃ ∧ AddsOk s₃.trace ∧
      ∀ t ∈ [stair 3, stair 4], t ∈ contents s₁.pages ∧ t ∉ contents s₃.pages := by
  have hcheck : failedPromotion (fun s₁ _ s₃ => decide (AddsOk s₃.trace ∧
      ∀ t ∈ [stair 3, stair 4], t ∈ contents s₁.pages ∧ t ∉ contents s₃.pages)) = true := by decide +kernel
  obtain ⟨s₁, e, s₂, s₃, h₁, h₂, h₃, h⟩ := exists_of_failedPromotion hcheck
  obtain ⟨hok, hlost⟩ := of_decide_eq_true h
  exact ⟨s₁, e, s₂, s₃, h₁, h₂, h₃, hok, hlost⟩

end TemporalRTree
