import TemporalRTree.Correctness.Contents
import TemporalRTree.Correctness.VacuumCases

/-!
# `Correctness.Operations` — what a completed operation can have done, and invariants of runs

An operation on an index is made of a few big steps: an insert is an `InsertsTuple`, a bulk deletion a walk from
the root (`Vacuums`) followed by `ShrinksRoot`, a build the initialisation followed by inserts. So a condition on
the pages holds after every run of operations if it holds of the initialised index and these steps keep it
(`OpInvariant.runOps`), and a relation that composes holds across a run if it holds across these steps
(`OpRel.runOps`).
-/

namespace TemporalRTree
open EStateM Layout

variable {env : Env} {s s' : Rel}

/-! ## Single operations -/

/-- A completed initialisation. -/
theorem rtreeMetaAndRootInit_eq_ok {u : Unit} (hpages : s.pages = [])
    (h : rtreeMetaAndRootInit env s = .ok u s') : s'.pages = initPages 0 := by
  by_cases hext : canExtend env s.pages.length ∧ canExtend env (s.pages.length + 1)
  · rw [rtreeMetaAndRootInit_run hext.1 hext.2] at h
    injection h with _ h
    rw [← h, hpages]
    rfl
  · obtain ⟨s₁, evs, hrun, -⟩ := rtreeMetaAndRootInit_eq_error hext
    rw [hrun] at h
    exact absurd h (by simp)

/-- An insert into a relation without blocks is an insert into the initialised index. -/
theorem temporalRtreeInsert_of_nil {key : Option NDBOX} {htCtid : ItemPointerData} {b : Bool}
    (hpages : s.pages = []) (h : temporalRtreeInsert env key htCtid s = .ok b s') :
    ∃ s₁ : Rel, s₁.pages = initPages 0 ∧ temporalRtreeInsert env key htCtid s₁ = .ok b s' := by
  rw [temporalRtreeInsert] at h
  obtain ⟨u, s₁, hinit, h⟩ := bind_eq_ok.mp h
  rw [ensureInitialised, bind_of_ok (get_apply s), if_pos (by simp [hpages])] at hinit
  have hpages₁ := rtreeMetaAndRootInit_eq_ok hpages hinit
  refine ⟨s₁, hpages₁, ?_⟩
  have hskip : ensureInitialised env s₁ = .ok () s₁ := by
    rw [ensureInitialised, bind_of_ok (get_apply s₁), if_neg (by simp [hpages₁, initPages])]
    rfl
  rw [temporalRtreeInsert, bind_of_ok hskip]
  exact h

/-- **A completed bulk deletion is a walk from the root, after which the root may shrink.** -/
theorem temporalRtreeBulkdelete_eq_ok {stats : Option IndexBulkDeleteResult}
    {callback : IndexBulkDeleteCallback} {res : IndexBulkDeleteResult} (hwf : WF s.pages)
    (h : temporalRtreeBulkdelete env stats callback s = .ok res s') :
    ∃ walked pages₁ evs evs', Vacuums env callback s.pages [(metaAt s.pages).root] walked pages₁ evs ∧
      (WF pages₁ ∨ Emptied pages₁) ∧ metaAt pages₁ = metaAt s.pages ∧
      ShrinksRoot env pages₁ s'.pages evs' ∧
      s'.trace = s.trace ++ ([Event.lock 0 .share, Event.unlock 0] ++ evs ++
        ([Event.lock 0 .exclusive, Event.lock (metaAt s.pages).root .exclusive] ++ evs' ++
          [Event.unlock (metaAt s.pages).root, Event.unlock 0])) := by
  obtain ⟨r, s₁, b, hwalk, hspec, hshrink, -⟩ := temporalRtreeBulkdelete_parts hwf h
  obtain ⟨evs, hvac, htrace⟩ := rtreeVacuumPage_vacuums hwalk
  obtain ⟨hv, -, hmeta⟩ := hspec.root hwf
  obtain ⟨b', pages', evs', hrun, hshrinks⟩ := rtreeVacuumShrinkRoot_shrinks env hv
  rw [hmeta] at hrun
  obtain ⟨rfl, rfl⟩ : b' = b ∧ _ = s' := by
    injection hrun.symm.trans hshrink with h1 h2
    exact ⟨h1, h2⟩
  refine ⟨_, _, evs, evs', hvac, hv, hmeta, hshrinks, ?_⟩
  simp only [htrace, List.append_assoc]

/-! ## Invariants -/

/-- The rows an operation brings in. -/
def Op.rows : Op → List HeapRow
  | .build rows => rows
  | .insert row => [row]
  | .bulkdelete _ _ => []
  | .vacuumcleanup _ _ => []

/-- A condition `I` on the pages of a well-formed index that the big steps keep, as long as the tuples inserted
    meet `G`. -/
structure OpInvariant (env : Env) (G : IndexTuple → Prop) (I : List Page → Prop) : Prop where
  init : I (initPages 0)
  insert : ∀ {itup : IndexTuple} {box : RTreeTemporalBox} {pages pages' : List Page} {evs : List Event},
    WF pages → I pages → itup.key.isSome = true → G itup → InsertsTuple env itup box pages pages' evs → I pages'
  delete : ∀ {callback : IndexBulkDeleteCallback} {pages pages₁ pages' : List Page}
    {walked : List (BlockNumber × RTreeTemporalBox)} {evs evs' : List Event},
    WF pages → I pages → Vacuums env callback pages [(metaAt pages).root] walked pages₁ evs →
    (WF pages₁ ∨ Emptied pages₁) → metaAt pages₁ = metaAt pages → ShrinksRoot env pages₁ pages' evs' → I pages'

/-- No block yet, or an initialised index that meets `I`. -/
def Meets (I : List Page → Prop) (pages : List Page) : Prop := pages = [] ∨ (WF pages ∧ I pages)

section Run
variable {G : IndexTuple → Prop} {I : List Page → Prop} (hI : OpInvariant env G I)
include hI

theorem OpInvariant.temporalRtreeInsert {row : HeapRow} {b : Bool}
    (hG : row.key.isSome = true → G row.tuple) (h : Meets I s.pages)
    (hrun : temporalRtreeInsert env row.key row.tid s = .ok b s') : WF s'.pages ∧ I s'.pages := by
  -- the relation is initialised first if need be
  obtain ⟨s, hwf, hinv, hrun⟩ : ∃ s₁ : Rel, WF s₁.pages ∧ I s₁.pages ∧
      TemporalRTree.temporalRtreeInsert env row.key row.tid s₁ = .ok b s' := by
    rcases h with h | ⟨hwf, hinv⟩
    · obtain ⟨s₁, hpages, hrun⟩ := temporalRtreeInsert_of_nil h hrun
      exact ⟨s₁, hpages ▸ initPages_wf.1, hpages ▸ hI.init, hrun⟩
    · exact ⟨s, hwf, hinv, hrun⟩
  rcases temporalRtreeInsert_eq_ok hwf.two_le_length hrun with ⟨-, rfl⟩ | ⟨box, evs, hsome, -, -, hins⟩
  · exact ⟨hwf, hinv⟩
  · exact ⟨(hins.wf hsome hwf).1, hI.insert hwf hinv hsome (hG hsome) hins⟩

theorem OpInvariant.rtreeBuildCallback {rows : List HeapRow} {n n' : Nat}
    (hG : ∀ row ∈ rows, row.key.isSome = true → G row.tuple) (h : WF s.pages ∧ I s.pages)
    (hrun : rtreeBuildCallback env rows n s = .ok n' s') : WF s'.pages ∧ I s'.pages := by
  induction rows generalizing s n with
  | nil =>
      injection hrun with _ hrun
      exact hrun ▸ h
  | cons row rest ih =>
      obtain ⟨b, s₁, hins, hrun⟩ := bind_eq_ok.mp hrun
      exact ih (fun row hrow => hG row (List.mem_cons_of_mem _ hrow))
        (hI.temporalRtreeInsert (hG row List.mem_cons_self) (Or.inr h) hins) hrun

theorem OpInvariant.temporalRtreeBulkdelete {stats : Option IndexBulkDeleteResult}
    {callback : IndexBulkDeleteCallback} {res : IndexBulkDeleteResult} (h : Meets I s.pages)
    (hrun : temporalRtreeBulkdelete env stats callback s = .ok res s') : Meets I s'.pages := by
  rcases h with h | ⟨hwf, hinv⟩
  · rw [TemporalRTree.temporalRtreeBulkdelete, bind_of_ok (get_apply s), if_pos (by simp [h])] at hrun
    injection hrun with _ hrun
    exact hrun ▸ Or.inl h
  · obtain ⟨walked, pages₁, evs, evs', hvac, hv, hmeta, hshrinks, -⟩ := temporalRtreeBulkdelete_eq_ok hwf hrun
    exact Or.inr ⟨(hshrinks.wf hv).1, hI.delete hwf hinv hvac hv hmeta hshrinks⟩

theorem OpInvariant.runOp {op : Op} {u : Unit} (hG : ∀ row ∈ op.rows, row.key.isSome = true → G row.tuple)
    (h : Meets I s.pages) (hrun : runOp env op s = .ok u s') : Meets I s'.pages := by
  cases op with
  | build rows =>
      rw [TemporalRTree.runOp, bind_of_ok (modify_apply _ s)] at hrun
      obtain ⟨res, s₁, hbuild, hrun⟩ := bind_eq_ok.mp hrun
      obtain ⟨u', s₂, hinit, hbuild⟩ := bind_eq_ok.mp hbuild
      obtain ⟨n, s₃, hrows, hbuild⟩ := bind_eq_ok.mp hbuild
      cases hbuild
      cases hrun
      have hpages := rtreeMetaAndRootInit_eq_ok rfl hinit
      exact Or.inr (hI.rtreeBuildCallback hG ⟨hpages ▸ initPages_wf.1, hpages ▸ hI.init⟩ hrows)
  | insert row =>
      obtain ⟨b, s₁, hins, hrun⟩ := bind_eq_ok.mp hrun
      cases hrun
      exact Or.inr (hI.temporalRtreeInsert (hG row (List.mem_singleton.mpr rfl)) h hins)
  | bulkdelete stats callback =>
      obtain ⟨res, s₁, hdel, hrun⟩ := bind_eq_ok.mp hrun
      cases hrun
      exact hI.temporalRtreeBulkdelete h hdel
  | vacuumcleanup info stats =>
      obtain ⟨res, s₁, hclean, hrun⟩ := bind_eq_ok.mp hrun
      cases hrun
      rw [temporalRtreeVacuumcleanup] at hclean
      split at hclean
      · cases hclean
        exact h
      · cases stats with
        | some st =>
            cases hclean
            exact h
        | none =>
            obtain ⟨st, s₂, hdel, hclean⟩ := bind_eq_ok.mp hclean
            cases hclean
            exact hI.temporalRtreeBulkdelete h hdel

/-- **A condition the big steps keep holds after every run of operations.** -/
theorem OpInvariant.runOps {ops : List Op} {u : Unit}
    (hG : ∀ op ∈ ops, ∀ row ∈ op.rows, row.key.isSome = true → G row.tuple) (h : Meets I s.pages)
    (hrun : runOps env ops s = .ok u s') : Meets I s'.pages := by
  induction ops generalizing s with
  | nil =>
      cases hrun
      exact h
  | cons op ops ih =>
      obtain ⟨u', s₁, hop, hrun⟩ := bind_eq_ok.mp hrun
      exact ih (fun op' hop' => hG op' (List.mem_cons_of_mem _ hop'))
        (hI.runOp (hG op List.mem_cons_self) h hop) hrun

end Run

/-! ## Relations between the pages before and after -/

/-- A relation that composes and that the big steps on a well-formed index meet. -/
structure OpRel (env : Env) (R : List Page → List Page → Prop) : Prop where
  refl : ∀ pages, R pages pages
  trans : ∀ {pages pages₁ pages' : List Page}, R pages pages₁ → R pages₁ pages' → R pages pages'
  insert : ∀ {itup : IndexTuple} {box : RTreeTemporalBox} {pages pages' : List Page} {evs : List Event},
    WF pages → itup.key.isSome = true → InsertsTuple env itup box pages pages' evs → R pages pages'
  delete : ∀ {callback : IndexBulkDeleteCallback} {pages pages₁ pages' : List Page}
    {walked : List (BlockNumber × RTreeTemporalBox)} {evs evs' : List Event},
    WF pages → Vacuums env callback pages [(metaAt pages).root] walked pages₁ evs →
    (WF pages₁ ∨ Emptied pages₁) → metaAt pages₁ = metaAt pages → ShrinksRoot env pages₁ pages' evs' →
    R pages pages'

section Related
variable {R : List Page → List Page → Prop} (hR : OpRel env R)
include hR

theorem OpRel.temporalRtreeBulkdelete {stats : Option IndexBulkDeleteResult} {callback : IndexBulkDeleteCallback}
    {res : IndexBulkDeleteResult} (hwf : WF s.pages)
    (hrun : temporalRtreeBulkdelete env stats callback s = .ok res s') : WF s'.pages ∧ R s.pages s'.pages := by
  obtain ⟨walked, pages₁, evs, evs', hvac, hv, hmeta, hshrinks, -⟩ := temporalRtreeBulkdelete_eq_ok hwf hrun
  exact ⟨(hshrinks.wf hv).1, hR.delete hwf hvac hv hmeta hshrinks⟩

/-- An operation that does not build the index anew. -/
theorem OpRel.runOp {op : Op} {u : Unit} (hop : ∀ rows, op ≠ .build rows) (hwf : WF s.pages)
    (hrun : runOp env op s = .ok u s') : WF s'.pages ∧ R s.pages s'.pages := by
  cases op with
  | build rows => exact absurd rfl (hop rows)
  | insert row =>
      obtain ⟨b, s₁, hins, hrun⟩ := bind_eq_ok.mp hrun
      cases hrun
      rcases temporalRtreeInsert_eq_ok hwf.two_le_length hins with ⟨-, rfl⟩ | ⟨box, evs, hsome, -, -, hins⟩
      · exact ⟨hwf, hR.refl _⟩
      · exact ⟨(hins.wf hsome hwf).1, hR.insert hwf hsome hins⟩
  | bulkdelete stats callback =>
      obtain ⟨res, s₁, hdel, hrun⟩ := bind_eq_ok.mp hrun
      cases hrun
      exact hR.temporalRtreeBulkdelete hwf hdel
  | vacuumcleanup info stats =>
      obtain ⟨res, s₁, hclean, hrun⟩ := bind_eq_ok.mp hrun
      cases hrun
      rw [temporalRtreeVacuumcleanup] at hclean
      split at hclean
      · cases hclean
        exact ⟨hwf, hR.refl _⟩
      · cases stats with
        | some st =>
            cases hclean
            exact ⟨hwf, hR.refl _⟩
        | none =>
            obtain ⟨st, s₂, hdel, hclean⟩ := bind_eq_ok.mp hclean
            cases hclean
            exact hR.temporalRtreeBulkdelete hwf hdel

/-- **Such a relation holds between the pages before and after every run that does not build the index anew.** -/
theorem OpRel.runOps {ops : List Op} {u : Unit} (hops : ∀ op ∈ ops, ∀ rows, op ≠ .build rows) (hwf : WF s.pages)
    (hrun : runOps env ops s = .ok u s') : WF s'.pages ∧ R s.pages s'.pages := by
  induction ops generalizing s with
  | nil =>
      cases hrun
      exact ⟨hwf, hR.refl _⟩
  | cons op ops ih =>
      obtain ⟨u', s₁, hop, hrun⟩ := bind_eq_ok.mp hrun
      obtain ⟨hwf₁, hrel⟩ := hR.runOp (hops op List.mem_cons_self) hwf hop
      obtain ⟨hwf', hrel'⟩ := ih (fun op' hop' => hops op' (List.mem_cons_of_mem _ hop')) hwf₁ hrun
      exact ⟨hwf', hR.trans hrel hrel'⟩

end Related

end TemporalRTree
