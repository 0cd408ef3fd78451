import TemporalRTree.Correctness.Scan
import TemporalRTree.Model.Build

/-!
# `Correctness.ScanKeys` — what the keys of a scan select

The query of a scan is the first key that is not NULL; the other keys are never applied. Without such a key the
scan returns nothing: neither a scan without keys nor one for IS NULL or IS NOT NULL, all of which the handler
declares (`amoptionalkey`, `amsearchnulls`), finds a row.
-/

namespace TemporalRTree
open EStateM Layout

/-! ## Several keys -/

/-- Whether a tuple satisfies a key; the operators are strict, so nothing satisfies a NULL argument. -/
def ScanKey.satisfied (key : ScanKey) (t : IndexTuple) : Bool :=
  match key.argument with
  | none => false
  | some cube => tupleMatches (rtreeCubeToBox cube) key.strategy t

/-- The three strategies of `temporal_cube_ops`. -/
def ScanKey.Supported (key : ScanKey) : Prop :=
  trtreeStrategyOverlap ≤ key.strategy ∧ key.strategy ≤ trtreeStrategyContained

instance (key : ScanKey) : Decidable key.Supported := inferInstanceAs (Decidable (_ ∧ _))

section Keys
variable {pages : List Page} {keys : List ScanKey}

theorem parseKey_of_supported {key : ScanKey} (h : key.Supported) :
    parseKey key = key.argument.map fun cube => (rtreeCubeToBox cube, key.strategy) := by
  obtain ⟨h1, h2⟩ := h
  unfold parseKey
  cases key.argument with
  | none => rfl
  | some cube => exact if_neg (not_or.mpr ⟨Nat.not_lt.mpr h1, Nat.not_lt.mpr h2⟩)

/-- The query is made of the first key that is not NULL. -/
theorem scanHits_eq (hkeys : ∀ k ∈ keys, k.Supported) :
    (scanHits pages keys : Multiset IndexTuple) =
      match keys.find? (·.argument.isSome) with
      | none => 0
      | some key => (contents pages).filter (key.satisfied · = true) := by
  have hparse : rtreeParseQuery keys = (keys.find? (·.argument.isSome)).bind parseKey := by
    induction keys with
    | nil => rfl
    | cons key keys ih =>
        have hkey := parseKey_of_supported (hkeys key List.mem_cons_self)
        have ih := ih fun k hk => hkeys k (List.mem_cons_of_mem _ hk)
        rw [rtreeParseQuery] at ih ⊢
        rw [List.findSome?_cons, List.find?_cons, hkey, ih]
        cases harg : key.argument with
        | none => rfl
        | some cube => simp [hkey, harg]
  cases hfind : keys.find? (·.argument.isSome) with
  | none => simp [scanHits, hparse, hfind]
  | some key =>
      have hkey := parseKey_of_supported (hkeys key (List.mem_of_find?_eq_some hfind))
      have hsome : key.argument.isSome = true := by simpa using List.find?_some hfind
      obtain ⟨cube, hcube⟩ := Option.isSome_iff_exists.mp hsome
      rw [hcube] at hkey
      simp [scanHits, hparse, hfind, hkey, contents, ScanKey.satisfied, hcube]

end Keys

/-- Two filters of a multiset, one below the other, have the same image only if they agree on it. -/
theorem map_filter_eq_iff {α β : Type} (f : α → β) {p q : α → Prop} [DecidablePred p] [DecidablePred q]
    {M : Multiset α} (hqp : ∀ a ∈ M, q a → p a) :
    (M.filter p).map f = (M.filter q).map f ↔ ∀ a ∈ M, p a → q a := by
  constructor
  · intro h
    have hle : M.filter q ≤ M.filter p := by
      rw [Multiset.le_filter]
      exact ⟨Multiset.filter_le _ _, fun a ha => hqp a (Multiset.mem_of_mem_filter ha) (Multiset.of_mem_filter ha)⟩
    have hcard : (M.filter p).card ≤ (M.filter q).card := by
      rw [← Multiset.card_map f, h, Multiset.card_map]
    have heq := Multiset.eq_of_le_of_card_le hle hcard
    intro a ha hp
    exact Multiset.of_mem_filter (heq ▸ Multiset.mem_filter.mpr ⟨ha, hp⟩)
  · intro h
    rw [Multiset.filter_congr fun a ha => ⟨h a ha, hqp a ha⟩]

/-- **A scan returns the tuples that satisfy all its keys exactly if the tuples that satisfy the first key
    that is not NULL satisfy all keys.** -/
theorem scanAll_conjunction_iff {s : Rel} (scan : IndexScanDesc) {keys : List ScanKey} (hwf : WF s.pages)
    (hne : keys ≠ []) (hspace : keys.length ≤ scan.keySpace) (hkeys : ∀ k ∈ keys, k.Supported) :
    ∃ tids bound,
      (∀ fuel n, bound ≤ fuel → bound ≤ n →
        ∃ s', scanAll fuel n scan keys s = .ok tids s' ∧ s'.pages = s.pages) ∧
      ((tids : Multiset ItemPointerData) =
          ((contents s.pages).filter fun t => ∀ k ∈ keys, k.satisfied t = true).map IndexTuple.tTid ↔
        ∀ first ∈ keys.find? (·.argument.isSome), ∀ t ∈ contents s.pages, first.satisfied t = true →
          ∀ k ∈ keys, k.satisfied t = true) := by
  have hspace' : scan.keySpace ≠ 0 :=
    Nat.ne_of_gt (Nat.lt_of_lt_of_le (List.length_pos_iff.mpr hne) hspace)
  obtain ⟨bound, hrun⟩ := scanAll_run scan hwf hne hspace'
  refine ⟨(scanHits s.pages keys).map IndexTuple.tTid, bound, fun fuel n hf hn => ?_, ?_⟩
  · obtain ⟨evs, hrun⟩ := hrun fuel n hf hn
    exact ⟨_, hrun, rfl⟩
  rw [← Multiset.map_coe, scanHits_eq hkeys]
  cases hfind : keys.find? (·.argument.isSome) with
  | none =>
      -- every key is NULL: nothing is returned, and nothing satisfies them
      obtain ⟨key, hkey⟩ := List.exists_mem_of_ne_nil keys hne
      have hnull : key.argument = none := by simpa using List.find?_eq_none.mp hfind key hkey
      have hnone : ∀ t, ¬ ∀ k ∈ keys, k.satisfied t = true := fun t h => by
        simpa [ScanKey.satisfied, hnull] using h key hkey
      simp [hnone]
  | some first =>
      have hmem := List.mem_of_find?_eq_some hfind
      simp only [Option.mem_def, Option.some.injEq, forall_eq']
      exact map_filter_eq_iff _ fun t _ h => h first hmem

/-- The index of one row: attribute value 10, period from 0 to 9. -/
def oneRow : Rel where
  pages := leafIndex [{ tTid := { blkno := 0, offnum := 1 }, key := rowCube 10 0 (.fin 9) }]
  trace := []

theorem oneRow_wf : WF oneRow.pages := leafIndex_wf (by simp)

/-- Two keys that the row satisfies. -/
theorem scanAll_conjunction_two_keys :
    let keys : List ScanKey := [⟨trtreeStrategyOverlap, some (rowCube 10 5 (.fin 20))⟩,
      ⟨trtreeStrategyContains, some (rowCube 10 2 (.fin 3))⟩]
    ∃ tids bound, (∀ fuel n, bound ≤ fuel → bound ≤ n →
        ∃ s', scanAll fuel n (temporalRtreeBeginscan 2) keys oneRow = .ok tids s' ∧ s'.pages = oneRow.pages) ∧
      (tids : Multiset ItemPointerData) =
        ((contents oneRow.pages).filter fun t => ∀ k ∈ keys, k.satisfied t = true).map IndexTuple.tTid := by
  intro keys
  obtain ⟨tids, bound, hrun, hiff⟩ := scanAll_conjunction_iff (s := oneRow) (temporalRtreeBeginscan 2)
    oneRow_wf (List.cons_ne_nil _ _ : keys ≠ []) (Nat.le_refl 2) (by decide)
  exact ⟨tids, bound, hrun, hiff.mpr (by decide +kernel)⟩

/-- A row that satisfies the first key and not the second is returned. -/
theorem second_key_ignored :
    let keys : List ScanKey := [⟨trtreeStrategyOverlap, some (rowCube 10 5 (.fin 20))⟩,
      ⟨trtreeStrategyOverlap, some (rowCube 10 15 (.fin 20))⟩]
    WF oneRow.pages ∧ (∀ k ∈ keys, k.Supported) ∧
      (scanAll 9 9 (temporalRtreeBeginscan 2) keys).run' oneRow = some [{ blkno := 0, offnum := 1 }] ∧
      (contents oneRow.pages).filter (fun t => ∀ k ∈ keys, k.satisfied t = true) = 0 := by
  intro keys
  exact ⟨oneRow_wf, by decide, by decide +kernel, by decide +kernel⟩

/-! ## Scans without an operator key -/

/-- The scans without an operator key that the handler's flags let the planner ask for. -/
inductive NullScan where
  /-- No key at all (`amoptionalkey`). -/
  | noKey
  /-- IS NULL (`amsearchnulls`). -/
  | isNull
  /-- IS NOT NULL (`amsearchnulls`). -/
  | isNotNull
  deriving DecidableEq

/-- The scan keys passed: a null test has the flag `SK_ISNULL` either way, and `InvalidStrategy`. -/
def NullScan.keys : NullScan → List ScanKey
  | .noKey => []
  | .isNull => [{ strategy := 0, argument := none }]
  | .isNotNull => [{ strategy := 0, argument := none }]

/-- The rows the scan is meant to return. -/
def NullScan.selects : NullScan → HeapRow → Bool
  | .noKey, _ => true
  | .isNull, row => row.key.isNone
  | .isNotNull, row => row.key.isSome

/-- How rows come into an index. -/
inductive Load where
  /-- `temporal_rtree_build`. -/
  | build
  /-- `temporal_rtree_insert` for each row. -/
  | insert
  deriving DecidableEq

/-- Load the rows into an index. -/
def loadRows (env : Env) (rows : List HeapRow) : Load → IndexM Unit
  | .build => runOp env (.build rows)
  | .insert => runOps env (rows.map .insert)

/-- Load the rows, then scan from a fresh `temporal_rtree_beginscan`. -/
def loadAndScan (env : Env) (rows : List HeapRow) (load : Load) (kind : NullScan) (fuel n : Nat) :
    IndexM (List ItemPointerData) := do
  loadRows env rows load
  scanAll fuel n (temporalRtreeBeginscan kind.keys.length) kind.keys

/-- Such a scan ends at its first call. -/
theorem scanAll_of_nullScan (kind : NullScan) (fuel n : Nat) (s : Rel) :
    scanAll fuel (n + 1) (temporalRtreeBeginscan kind.keys.length) kind.keys s = .ok [] s := by
  let scan : IndexScanDesc := { keySpace := kind.keys.length, keyData := kind.keys }
  have hrescan : temporalRtreeRescan (temporalRtreeBeginscan kind.keys.length) kind.keys s = .ok scan s := by
    cases kind <;> rfl
  have hquery : rtreeParseQuery scan.keyData = none := by cases kind <;> rfl
  have hget : temporalRtreeGettuple fuel scan true s = .ok (false, scan) s := by
    rw [temporalRtreeGettuple_first rfl (rtreeInitializeScan_run_of_none scan rfl hquery), cond_false]
  rw [scanAll, bind_of_ok hrescan, gettupleAll, bind_of_ok hget]
  rfl

/-- **A scan without an operator key returns the rows it is meant to return exactly if there are none.** -/
theorem null_scan_correct_iff {env : Env} {rows : List HeapRow} {load : Load} (kind : NullScan) (fuel n : Nat)
    {s : Rel} {u : Unit} (hload : loadRows env rows load { pages := [] } = .ok u s) :
    ∃ tids s', loadAndScan env rows load kind fuel (n + 1) { pages := [] } = .ok tids s' ∧
      ((tids : Multiset ItemPointerData) = ((rows.filter kind.selects).map HeapRow.tid : List ItemPointerData) ↔
        ∀ row ∈ rows, kind.selects row = false) := by
  refine ⟨[], s, ?_, ?_⟩
  · rw [loadAndScan, bind_of_ok hload]
    exact scanAll_of_nullScan kind fuel n s
  · rw [Multiset.coe_eq_coe, List.nil_perm, List.map_eq_nil_iff, List.filter_eq_nil_iff]
    simp

/-- A row with a key and one without. -/
def twoRows : List HeapRow :=
  [{ tid := { blkno := 0, offnum := 1 }, key := some (rowCube 10 0 (.fin 9)) },
    { tid := { blkno := 0, offnum := 2 }, key := none }]

/-- An IS NULL scan over a table without NULLs. -/
theorem null_scan_correct_without_nulls :
    ∃ tids s', loadAndScan { needsWal := true, extendOk := fun _ => true } (twoRows.take 1) .build .isNull 1 1
        { pages := [] } = .ok tids s' ∧
      (tids : Multiset ItemPointerData) =
        (((twoRows.take 1).filter NullScan.isNull.selects).map HeapRow.tid : List ItemPointerData) := by
  have hrun : okWith (fun _ _ => true)
      (loadRows { needsWal := true, extendOk := fun _ => true } (twoRows.take 1) .build { pages := [] }) =
        true := by decide +kernel
  obtain ⟨u, s, hload, -⟩ := exists_of_okWith hrun
  obtain ⟨tids, s', hscan, hiff⟩ := null_scan_correct_iff .isNull 1 0 hload
  exact ⟨tids, s', hscan, hiff.mpr (by decide)⟩

/-- Each of the three scans misses a row of the two. -/
theorem null_scan_returns_nothing :
    ([NullScan.noKey, .isNull, .isNotNull].map fun kind =>
        (loadAndScan { needsWal := true, extendOk := fun _ => true } twoRows .build kind 9 9).run'
          { pages := [] }) = [some [], some [], some []] ∧
      ([NullScan.noKey, .isNull, .isNotNull].map fun kind => (twoRows.filter kind.selects).length) = [2, 1, 1] := by
  decide +kernel

end TemporalRTree
