import TemporalRTree.Lib.Transition
import TemporalRTree.Model.Table
import TemporalRTree.Correctness.Operations
import TemporalRTree.Correctness.ScanKeys

/-!
# `Correctness.Table` — index entries and row versions over whole histories of a table

Between the entries of the index and the versions in the heap two inclusions hold after every statement (`Agrees`):
every entry is the entry of a version that is still there, and every live version has its entry. As no TID is in use
twice, an entry can then not lead to another row than the one it was made for, and a scan of the index whose TIDs are
looked up in the heap gives the rows that a scan of the heap gives with the same condition (`indexScan_perm`).
-/

namespace TemporalRTree
open EStateM Transition

variable {α : Type} {env : Env} {expr : α → Option (Option NDBOX)} {t t' : Table α}

/-! ## Entries -/

/-- The index entry of a version; there is none for a NULL key. -/
def RowVersion.entry (expr : α → Option (Option NDBOX)) (v : RowVersion α) : Option IndexTuple :=
  (expr v.row).join.map fun key => { tTid := v.tid, key := some key }

/-- The entries of some versions. -/
def entries (expr : α → Option (Option NDBOX)) (vs : List (RowVersion α)) : Multiset IndexTuple :=
  (vs.filterMap (RowVersion.entry expr) : List IndexTuple)

theorem RowVersion.tid_of_entry {v : RowVersion α} {e : IndexTuple} (h : v.entry expr = some e) : e.tTid = v.tid := by
  obtain ⟨key, -, rfl⟩ := Option.map_eq_some_iff.mp h
  rfl

theorem mem_entries {vs : List (RowVersion α)} {e : IndexTuple} :
    e ∈ entries expr vs ↔ ∃ v ∈ vs, v.entry expr = some e := by
  rw [entries, Multiset.mem_coe, List.mem_filterMap]

theorem entries_append (vs ws : List (RowVersion α)) :
    entries expr (vs ++ ws) = entries expr vs + entries expr ws := by
  rw [entries, List.filterMap_append, ← Multiset.coe_add]
  rfl

/-- Inserting the row of a version adds its entry. -/
theorem insertRow_eq (v : RowVersion α) (M : Multiset IndexTuple) :
    insertRow { tid := v.tid, key := (expr v.row).join } M = M + entries expr [v] := by
  cases hkey : (expr v.row).join with
  | none => simp [insertRow, entries, RowVersion.entry, hkey]
  | some key =>
      rw [add_comm]
      simp [insertRow, entries, RowVersion.entry, hkey, HeapRow.tuple]

theorem entries_le_of_sublist {vs ws : List (RowVersion α)} (h : vs.Sublist ws) : entries expr vs ≤ entries expr ws :=
  Multiset.coe_le.mpr (h.filterMap _).subperm

/-- The TIDs of entries are among those of the versions. -/
theorem entries_tids_sublist (vs : List (RowVersion α)) :
    ((vs.filterMap (RowVersion.entry expr)).map IndexTuple.tTid).Sublist (vs.map RowVersion.tid) := by
  induction vs with
  | nil => exact .slnil
  | cons v vs ih =>
      cases hentry : v.entry expr with
      | none =>
          rw [List.filterMap_cons_none hentry]
          exact ih.cons _
      | some e =>
          rw [List.filterMap_cons_some hentry, List.map_cons, List.map_cons, RowVersion.tid_of_entry hentry]
          exact ih.cons_cons _

/-- What ties the index to the heap. -/
structure Agrees (expr : α → Option (Option NDBOX)) (t : Table α) : Prop where
  sound : contents t.rel.pages ≤ entries expr t.heap
  complete : entries expr t.live ≤ contents t.rel.pages

/-- What holds of a table after every statement, as long as no `PageAddItem` has failed. -/
structure TableInv (expr : α → Option (Option NDBOX)) (t : Table α) : Prop where
  tids : (t.heap.map RowVersion.tid).Nodup
  valid : Valid t.rel.pages
  built : t.indexed = true → WF t.rel.pages
  agrees : t.indexed = true → AddsOk t.rel.trace → Agrees expr t

/-! ## Calls of the access method -/

/-- An initialised index stays one. -/
theorem temporalRtreeBulkdelete_keeps_wf {stats : Option IndexBulkDeleteResult} {callback : IndexBulkDeleteCallback}
    {res : IndexBulkDeleteResult} {s s' : Rel} (hwf : WF s.pages)
    (h : temporalRtreeBulkdelete env stats callback s = .ok res s') : WF s'.pages := by
  obtain ⟨walked, pages₁, evs, evs', -, hv, -, hshrinks, -⟩ := temporalRtreeBulkdelete_eq_ok hwf h
  exact (hshrinks.wf hv).1

/-- After a build, or an operation on an initialised index, there is an initialised index. -/
theorem runOp_wf {op : Op} {u : Unit} {s s' : Rel} (hwf : WF s.pages ∨ ∃ rows, op = .build rows)
    (h : runOp env op s = .ok u s') : WF s'.pages := by
  cases op with
  | build rows =>
      rw [runOp, bind_of_ok (modify_apply _ s)] at h
      obtain ⟨res, s₁, hbuild, h⟩ := bind_eq_ok.mp h
      cases h
      have hrefines : Refines { s with pages := [] } WF _ (temporalRtreeBuild env rows { s with pages := [] }) :=
        temporalRtreeBuild_refines rows rfl
      rw [hbuild] at hrefines
      exact hrefines.1
  | insert row =>
      obtain ⟨b, s₁, hins, h⟩ := bind_eq_ok.mp h
      cases h
      have hwf : WF s.pages := hwf.resolve_right (by simp)
      have hrefines : Refines s WF _ (temporalRtreeInsert env row.key row.tid s) :=
        temporalRtreeInsert_refines row (Or.inr hwf)
      rw [hins] at hrefines
      exact hrefines.1
  | bulkdelete stats callback =>
      obtain ⟨res, s₁, hdel, h⟩ := bind_eq_ok.mp h
      cases h
      exact temporalRtreeBulkdelete_keeps_wf (hwf.resolve_right (by simp)) hdel
  | vacuumcleanup info stats =>
      replace hwf : WF s.pages := hwf.resolve_right (by simp)
      obtain ⟨res, s₁, hclean, h⟩ := bind_eq_ok.mp h
      cases h
      rw [temporalRtreeVacuumcleanup] at hclean
      split at hclean
      · cases hclean
        exact hwf
      · cases stats with
        | some st =>
            cases hclean
            exact hwf
        | none =>
            obtain ⟨st, s₂, hdel, hclean⟩ := bind_eq_ok.mp hclean
            cases hclean
            exact temporalRtreeBulkdelete_keeps_wf hwf hdel

/-- What a completed call has done. -/
theorem call_eq_some {op : Op} (h : t.call env op = some t') (hvalid : Valid t.rel.pages) :
    ∃ rel evs, t' = { t with rel := rel } ∧ Valid rel.pages ∧
      (t.indexed = true → (WF t.rel.pages ∨ ∃ rows, op = .build rows) → WF rel.pages) ∧
      rel.trace = t.rel.trace ++ evs ∧
      (t.indexed = true → AddsOk evs → contents rel.pages = op.apply (contents t.rel.pages)) := by
  unfold Table.call at h
  by_cases hindexed : t.indexed = true
  · rw [if_pos hindexed] at h
    have hrefines : Refines t.rel Valid op.apply (runOp env op t.rel) := runOp_refines op hvalid
    cases hrun : runOp env op t.rel with
    | ok u rel =>
        rw [hrun] at h hrefines
        obtain ⟨hvalid', evs, htrace, hcont⟩ := hrefines
        exact ⟨rel, evs, (Option.some.inj h).symm, hvalid', fun _ hwf => runOp_wf hwf hrun, htrace, fun _ => hcont⟩
    | error e rel =>
        rw [hrun] at h
        exact absurd h (by simp)
  · rw [if_neg hindexed] at h
    refine ⟨t.rel, [], (Option.some.inj h).symm, hvalid, ?_, (List.append_nil _).symm, ?_⟩
    · exact fun hyes => absurd hyes hindexed
    · exact fun hyes => absurd hyes hindexed

/-- A call that turns the entries as it turns the contents. -/
theorem TableInv.call {op : Op} {heap : List (RowVersion α)} (h : t.call env op = some t') (hvalid : Valid t.rel.pages)
    (hbuilt : t.indexed = true → WF t.rel.pages ∨ ∃ rows, op = .build rows) (htids : (heap.map RowVersion.tid).Nodup)
    (hagrees : t.indexed = true → AddsOk t.rel.trace → op.apply (contents t.rel.pages) ≤ entries expr heap ∧
      entries expr (heap.filter fun v => !v.dead) ≤ op.apply (contents t.rel.pages)) :
    TableInv expr { t' with heap := heap } := by
  obtain ⟨rel, evs, rfl, hvalid', hwf, htrace, hcont⟩ := call_eq_some h hvalid
  refine ⟨htids, hvalid', fun hindexed => hwf hindexed (hbuilt hindexed), fun hindexed hok => ?_⟩
  have hok : AddsOk (t.rel.trace ++ evs) := htrace ▸ hok
  obtain ⟨hold, hnew⟩ := addsOk_append.mp hok
  obtain ⟨hsound, hcomplete⟩ := hagrees hindexed hold
  have hcont : contents rel.pages = op.apply (contents t.rel.pages) := hcont hindexed hnew
  exact ⟨hcont ▸ hsound, hcont ▸ hcomplete⟩

/-! ## Statements -/

theorem live_append (vs : List (RowVersion α)) (v : RowVersion α) :
    entries expr ((vs ++ [v]).filter fun v => !v.dead) ≤
      entries expr (vs.filter fun v => !v.dead) + entries expr [v] := by
  rw [List.filter_append, entries_append]
  exact add_le_add_right (entries_le_of_sublist List.filter_sublist) _

theorem not_mem_of_not_used {tid : ItemPointerData} (h : ¬ t.used tid = true) : tid ∉ t.heap.map RowVersion.tid := by
  intro hmem
  obtain ⟨v, hv, htid⟩ := List.mem_map.mp hmem
  exact h (List.any_eq_true.mpr ⟨v, hv, decide_eq_true htid⟩)

theorem nodup_tids_append {v : RowVersion α} (h : (t.heap.map RowVersion.tid).Nodup) (hnew : ¬ t.used v.tid = true) :
    ((t.heap ++ [v]).map RowVersion.tid).Nodup := by
  rw [List.map_append, List.map_singleton]
  refine List.Nodup.append h (List.nodup_singleton _) ?_
  exact List.disjoint_singleton.mpr (not_mem_of_not_used hnew)

/-- A new version brings its entry with it. -/
theorem TableInv.store {v : RowVersion α} (hinv : TableInv expr t) (h : t.store env expr v = some t') :
    TableInv expr t' := by
  unfold Table.store at h
  by_cases hused : t.used v.tid = true
  · rw [if_pos hused] at h
    exact absurd h (by simp)
  · rw [if_neg hused] at h
    by_cases haccepts : t.accepts expr v.row = true
    · rw [if_pos haccepts] at h
      have hcalled : TableInv expr { t' with heap := t.heap ++ [v] } := by
        refine TableInv.call h hinv.valid (fun hindexed => Or.inl (hinv.built hindexed))
          (nodup_tids_append hinv.tids hused) fun hindexed hok => ?_
        obtain ⟨hsound, hcomplete⟩ := hinv.agrees hindexed hok
        show insertRow _ (contents t.rel.pages) ≤ _ ∧ _ ≤ insertRow _ (contents t.rel.pages)
        rw [insertRow_eq, entries_append]
        exact ⟨add_le_add_left hsound _, (live_append t.heap v).trans (add_le_add_left hcomplete _)⟩
      obtain ⟨rel, evs, rfl, -⟩ := call_eq_some h hinv.valid
      exact hcalled
    · rw [if_neg haccepts] at h
      obtain rfl := Option.some.inj h
      refine ⟨nodup_tids_append hinv.tids hused, hinv.valid, hinv.built, fun hindexed hok => ?_⟩
      obtain ⟨hsound, hcomplete⟩ := hinv.agrees hindexed hok
      refine ⟨hsound.trans ?_, ?_⟩
      · exact entries_le_of_sublist (List.sublist_append_left _ _)
      · have hdead : Table.live { t with heap := t.heap ++ [{ v with dead := true }] } = t.live := by
          simp [Table.live]
        rw [hdead]
        exact hcomplete

theorem fetch_eq_some {tid : ItemPointerData} {v : RowVersion α} (htids : (t.heap.map RowVersion.tid).Nodup) :
    t.fetch tid = some v ↔ v ∈ t.live ∧ v.tid = tid := by
  constructor
  · intro h
    have hcheck := List.find?_some (p := fun w : RowVersion α => decide (w.tid = tid) && !w.dead) h
    obtain ⟨htid, hlive⟩ := Bool.and_eq_true_iff.mp hcheck
    exact ⟨List.mem_filter.mpr ⟨List.mem_of_find?_eq_some h, hlive⟩, of_decide_eq_true htid⟩
  · rintro ⟨hv, rfl⟩
    obtain ⟨hv, hlive⟩ := List.mem_filter.mp hv
    have hsome : (t.fetch v.tid).isSome = true :=
      List.find?_isSome.mpr ⟨v, hv, Bool.and_eq_true_iff.mpr ⟨decide_eq_true rfl, hlive⟩⟩
    obtain ⟨w, hw⟩ := Option.isSome_iff_exists.mp hsome
    have hcheck := List.find?_some (p := fun w : RowVersion α => decide (w.tid = v.tid) && !w.dead) hw
    obtain ⟨htid, -⟩ := Bool.and_eq_true_iff.mp hcheck
    rw [hw, List.inj_on_of_nodup_map htids (List.mem_of_find?_eq_some hw) hv (of_decide_eq_true htid)]

/-- Versions that keep their TIDs and entries, and of which none comes back to life. -/
theorem TableInv.map {f : RowVersion α → RowVersion α} (hinv : TableInv expr t) (htid : ∀ v, (f v).tid = v.tid)
    (hentry : t.indexed = true → ∀ v ∈ t.heap, (f v).entry expr = v.entry expr)
    (hdead : ∀ v, (f v).dead = false → v.dead = false) : TableInv expr { t with heap := t.heap.map f } := by
  have htids : (t.heap.map f).map RowVersion.tid = t.heap.map RowVersion.tid := by
    rw [List.map_map]
    exact List.map_congr_left fun v _ => htid v
  refine ⟨htids ▸ hinv.tids, hinv.valid, hinv.built, fun hindexed hok => ?_⟩
  have hentries : ∀ vs : List (RowVersion α), vs ⊆ t.heap → entries expr (vs.map f) = entries expr vs := by
    intro vs hvs
    rw [entries, List.filterMap_map]
    exact congrArg _ (List.filterMap_congr fun v hv => hentry hindexed v (hvs hv))
  obtain ⟨hsound, hcomplete⟩ := hinv.agrees hindexed hok
  refine ⟨(hentries t.heap (List.Subset.refl _)).symm ▸ hsound, le_trans ?_ hcomplete⟩
  -- the live versions after it were live before it
  show entries expr ((t.heap.map f).filter fun v => !v.dead) ≤ _
  rw [List.filter_map, hentries _ (List.filter_subset_self t.heap)]
  refine entries_le_of_sublist (List.monotone_filter_right _ fun v hv => ?_)
  simp only [Function.comp_apply, Bool.not_eq_true'] at hv ⊢
  exact hdead v hv

/-- A version that dies keeps its entry. -/
theorem TableInv.kill (hinv : TableInv expr t) (tid : ItemPointerData) : TableInv expr (t.kill tid) := by
  refine hinv.map (fun v => ?_) (fun _ v _ => ?_) fun v hv => ?_
  · split <;> rfl
  · split <;> rfl
  · split at hv
    · exact absurd hv (by simp)
    · exact hv

/-- A HOT update leaves the entry right. -/
theorem TableInv.rewrite {tid : ItemPointerData} {v : RowVersion α} {row : α} (hinv : TableInv expr t)
    (hv : t.fetch tid = some v) (hsafe : t.hotSafe expr v.row row = true) : TableInv expr (t.rewrite tid row) := by
  refine hinv.map (fun w => ?_) (fun hindexed w hw => ?_) fun w hw => ?_
  · split <;> rfl
  · split
    next htid =>
      -- the version under the TID is the one that was fetched
      obtain ⟨hlive, hvtid⟩ := (fetch_eq_some hinv.tids).mp hv
      obtain rfl := List.inj_on_of_nodup_map hinv.tids hw (List.mem_of_mem_filter hlive) (htid.trans hvtid.symm)
      have hexpr : expr row = expr w.row := by simpa [Table.hotSafe, hindexed] using hsafe
      simp [RowVersion.entry, hexpr]
    · rfl
  · split at hw <;> exact hw

/-- The TIDs handed to `ambulkdelete` are those of the versions that will be removed. -/
theorem isDead_deadTids {collected : ItemPointerData → Bool} {v : RowVersion α}
    (htids : (t.heap.map RowVersion.tid).Nodup) (hv : v ∈ t.heap) :
    isDead (t.deadTids collected) v.tid = v.removed collected := by
  show (t.heap.any fun w => w.removed collected && decide (w.tid = v.tid)) = v.removed collected
  rw [Bool.eq_iff_iff, List.any_eq_true]
  constructor
  · rintro ⟨w, hw, hcheck⟩
    obtain ⟨hremoved, htid⟩ := Bool.and_eq_true_iff.mp hcheck
    obtain rfl := List.inj_on_of_nodup_map htids hw hv (of_decide_eq_true htid)
    exact hremoved
  · intro hremoved
    exact ⟨v, hv, Bool.and_eq_true_iff.mpr ⟨hremoved, decide_eq_true rfl⟩⟩

/-- So the entries that stay are those of the versions that stay. -/
theorem entries_filter_removed {collected : ItemPointerData → Bool} (htids : (t.heap.map RowVersion.tid).Nodup)
    {vs : List (RowVersion α)} (hvs : vs ⊆ t.heap) :
    (entries expr vs).filter (fun e => ¬ isDead (t.deadTids collected) e.tTid = true) =
      entries expr (vs.filter fun v => !v.removed collected) := by
  rw [entries, entries, Multiset.filter_coe, List.filter_filterMap, List.filterMap_filter]
  refine congrArg _ (List.filterMap_congr fun v hv => ?_)
  cases hentry : v.entry expr with
  | none => simp
  | some e =>
      rw [Option.filter_some, RowVersion.tid_of_entry hentry, isDead_deadTids htids (hvs hv)]
      simp

/-- A pass of VACUUM removes entry and version together. -/
theorem TableInv.vacuumPass {stats : Option IndexBulkDeleteResult} {collected : ItemPointerData → Bool}
    (hinv : TableInv expr t) (h : t.call env (.bulkdelete stats (t.deadTids collected)) = some t') :
    TableInv expr { t' with heap := t'.heap.filter fun v => !v.removed collected } := by
  have hheap : t'.heap = t.heap := by
    obtain ⟨rel, evs, rfl, -⟩ := call_eq_some h hinv.valid
    rfl
  rw [hheap]
  refine TableInv.call h hinv.valid (fun hindexed => Or.inl (hinv.built hindexed))
    (hinv.tids.sublist (List.filter_sublist.map _)) fun hindexed hok => ?_
  obtain ⟨hsound, hcomplete⟩ := hinv.agrees hindexed hok
  show Multiset.filter _ (contents t.rel.pages) ≤ _ ∧ _ ≤ Multiset.filter _ (contents t.rel.pages)
  constructor
  · rw [← entries_filter_removed hinv.tids (List.Subset.refl _)]
    exact Multiset.filter_le_filter _ hsound
  · refine le_trans ?_ (Multiset.filter_le_filter _ hcomplete)
    rw [Table.live, entries_filter_removed hinv.tids (List.filter_subset_self t.heap), List.filter_comm]

/-- A build makes the entries of the live rows. -/
theorem foldl_insertRow (vs : List (RowVersion α)) (M : Multiset IndexTuple) :
    (vs.map fun v => ({ tid := v.tid, key := (expr v.row).join } : HeapRow)).foldl (fun M row => insertRow row M) M =
      M + entries expr vs := by
  induction vs generalizing M with
  | nil => simp [entries]
  | cons v vs ih =>
      rw [List.map_cons, List.foldl_cons, ih, insertRow_eq, add_assoc, ← entries_append, List.singleton_append]

theorem TableInv.createIndex {rows : List HeapRow} (hinv : TableInv expr t) (hrows : t.buildRows expr = some rows)
    (h : ({ t with indexed := true } : Table α).call env (.build rows) = some t') : TableInv expr t' := by
  obtain ⟨-, hrows⟩ := Option.ite_none_right_eq_some.mp hrows
  obtain rfl := Option.some.inj hrows
  have hcalled : TableInv expr { t' with heap := t.heap } := by
    refine TableInv.call h hinv.valid (fun _ => Or.inr ⟨_, rfl⟩) hinv.tids fun _ _ => ?_
    show List.foldl _ 0 _ ≤ _ ∧ _ ≤ List.foldl _ 0 _
    rw [foldl_insertRow, zero_add]
    exact ⟨entries_le_of_sublist List.filter_sublist, le_refl _⟩
  obtain ⟨rel, evs, rfl, -⟩ := call_eq_some h hinv.valid
  exact hcalled

/-- **Every statement keeps index and heap in agreement.** -/
theorem TableInv.step {op : TableOp α} (hinv : TableInv expr t) (h : stepTable env expr t op = some t') :
    TableInv expr t' := by
  cases op with
  | insert tid row commit => exact hinv.store h
  | delete tid commit =>
      simp only [stepTable] at h
      split at h
      · exact absurd h (by simp)
      · obtain rfl := Option.some.inj h
        cases commit with
        | true => exact hinv.kill tid
        | false => exact hinv
  | update old new row commit =>
      simp only [stepTable] at h
      split at h
      · exact absurd h (by simp)
      · obtain ⟨t₁, hstore, rfl⟩ := Option.map_eq_some_iff.mp h
        have hinv₁ := hinv.store hstore
        split
        · exact hinv₁.kill old
        · exact hinv₁
  | hotUpdate tid row commit =>
      simp only [stepTable] at h
      split at h
      · exact absurd h (by simp)
      · next v hv =>
        obtain ⟨hsafe, h⟩ := Option.ite_none_right_eq_some.mp h
        obtain rfl := Option.some.inj h
        cases commit with
        | true => exact hinv.rewrite hv hsafe
        | false => exact hinv
  | vacuumPass stats collected =>
      simp only [stepTable] at h
      obtain ⟨t₁, hcall, rfl⟩ := Option.map_eq_some_iff.mp h
      exact hinv.vacuumPass hcall
  | vacuumCleanup info stats =>
      have hcalled : TableInv expr { t' with heap := t.heap } := by
        refine TableInv.call h hinv.valid (fun hindexed => Or.inl (hinv.built hindexed)) hinv.tids
          fun hindexed hok => ?_
        obtain ⟨hsound, hcomplete⟩ := hinv.agrees hindexed hok
        exact ⟨hsound, hcomplete⟩
      obtain ⟨rel, evs, rfl, -⟩ := call_eq_some h hinv.valid
      exact hcalled
  | createIndex =>
      simp only [stepTable] at h
      split at h
      · exact absurd h (by simp)
      · next rows hrows => exact hinv.createIndex hrows h
  | dropIndex =>
      obtain rfl := Option.some.inj h
      exact ⟨hinv.tids, hinv.valid, fun hindexed => absurd hindexed (by simp),
        fun hindexed => absurd hindexed (by simp)⟩

theorem tableRun_inv {ops : List (TableOp α)} (h : run (stepTable env expr) {} ops = some t) : TableInv expr t := by
  refine run_invariant (TableInv expr) (fun _ _ _ hinv hstep => hinv.step hstep) h ?_
  exact ⟨List.nodup_nil, Or.inl rfl, fun hindexed => absurd hindexed (by simp),
    fun hindexed => absurd hindexed (by simp)⟩

/-! ## Whole histories -/

/-- No two entries have the same TID. -/
theorem Agrees.nodup_tids (h : Agrees expr t) (htids : (t.heap.map RowVersion.tid).Nodup) :
    ((contents t.rel.pages).map IndexTuple.tTid).Nodup := by
  refine Multiset.nodup_of_le (Multiset.map_le_map h.sound) ?_
  rw [entries, Multiset.map_coe, Multiset.coe_nodup]
  exact htids.sublist (entries_tids_sublist t.heap)

/-- **Entries and rows.** After every history of inserts, deletes, updates (HOT or not), passes of VACUUM and index
    builds, rolled back statements included, in which no call of the access method and no `PageAddItem` failed: every
    entry is that of the row version its TID leads to, no TID has two, and every live row whose key is not NULL has its
    own. -/
theorem tableRun_entries {ops : List (TableOp α)} (hrun : run (stepTable env expr) {} ops = some t)
    (hindexed : t.indexed = true) (hok : AddsOk t.rel.trace) :
    ((contents t.rel.pages).map IndexTuple.tTid).Nodup ∧
      (∀ e ∈ contents t.rel.pages, ∃ v ∈ t.heap, v.tid = e.tTid ∧ (expr v.row).join = e.key) ∧
      ∀ v ∈ t.heap, v.dead = false → ∀ key, (expr v.row).join = some key →
        { tTid := v.tid, key := some key } ∈ contents t.rel.pages := by
  have hinv := tableRun_inv hrun
  have hagrees := hinv.agrees hindexed hok
  refine ⟨hagrees.nodup_tids hinv.tids, fun e he => ?_, fun v hv hlive key hkey => ?_⟩
  · obtain ⟨v, hv, hentry⟩ := mem_entries.mp (Multiset.mem_of_le hagrees.sound he)
    obtain ⟨key, hkey, rfl⟩ := Option.map_eq_some_iff.mp hentry
    exact ⟨v, hv, rfl, hkey⟩
  · refine Multiset.mem_of_le hagrees.complete (mem_entries.mpr ⟨v, ?_, ?_⟩)
    · exact List.mem_filter.mpr ⟨hv, by simp [hlive]⟩
    · rw [RowVersion.entry, hkey, Option.map_some]

/-- Rows with a key and another column: one is inserted and deleted, another one is rolled back, both are vacuumed, and
    their TIDs are used again; the other column is then changed by a HOT update and by one that is not. -/
def reusedTids : List (TableOp (Option NDBOX × ℕ)) :=
  [.insert ⟨0, 1⟩ ((stair 0).key, 0) true, .createIndex, .insert ⟨0, 2⟩ ((stair 1).key, 1) false, .delete ⟨0, 1⟩ true,
    .vacuumPass none fun _ => true, .vacuumCleanup ⟨false, false, 0⟩ (some {}),
    .insert ⟨0, 2⟩ ((stair 2).key, 2) true, .hotUpdate ⟨0, 2⟩ ((stair 2).key, 3) true,
    .update ⟨0, 2⟩ ⟨0, 1⟩ ((stair 2).key, 4) true]

/-- Every entry is that of the row now stored under its TID. -/
theorem tableRun_entries_reused :
    ∃ t, run (stepTable roomyEnv fun row => some row.1) {} reusedTids = some t ∧
      Multiset.card (contents t.rel.pages) = 2 ∧ t.live.map RowVersion.row = [((stair 2).key, 4)] ∧
      ∀ e ∈ contents t.rel.pages, ∃ v ∈ t.heap, v.tid = e.tTid ∧ v.row.1 = e.key := by
  have hrun : (run (stepTable roomyEnv fun row => some row.1) {} reusedTids).any (fun t => t.indexed &&
      decide (AddsOk t.rel.trace ∧ Multiset.card (contents t.rel.pages) = 2 ∧
        t.live.map RowVersion.row = [((stair 2).key, 4)])) = true := by decide +kernel
  obtain ⟨t, ht, hcheck⟩ := (Option.any_eq_true _ _).mp hrun
  obtain ⟨hindexed, hcheck⟩ := Bool.and_eq_true_iff.mp hcheck
  obtain ⟨hok, hcard, hlive⟩ := of_decide_eq_true hcheck
  exact ⟨t, ht, hcard, hlive, (tableRun_entries ht hindexed hok).2.1⟩

/-- The rows that an operation stores. -/
def TableOp.rows : TableOp α → List α
  | .insert _ row _ => [row]
  | .update _ _ row _ => [row]
  | .hotUpdate _ row _ => [row]
  | _ => []

end TemporalRTree
