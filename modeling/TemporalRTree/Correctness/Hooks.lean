import TemporalRTree.Model.Hooks
import Mathlib.Data.Prod.Lex

/-!
# `Correctness.Hooks` — what the hooks may change

`set_cheapest` takes a path of least total cost, and of least startup cost among those (`setCheapest_total`). The
pathlist hook lowers the costs of the paths of one index and of no others, so the planner's choice either moves to that
index or costs what it cost without the hook (`pathlistHook_choice`). The queries this concerns are those with an
operator of the index on a `temporalbox` among the conjuncts of their conditions (`pathlistHook_applies_iff`).

The counters of the module are followed through whole sessions: they hold the numbers of what has happened since the
last reset, up to overflow (`hookStats_session`).
-/

namespace TemporalRTree

/-! ## The cheapest path -/

/-- How `set_cheapest` orders paths: by total cost, then by startup cost. -/
def Path.cost (path : Path) : ℚ ×ₗ ℚ := toLex (path.totalCost, path.startupCost)

section Choice
variable {p q : Path} {pathlist seen : List Path}

theorem Path.cost_le_iff : p.cost ≤ q.cost ↔
    p.totalCost < q.totalCost ∨ p.totalCost = q.totalCost ∧ p.startupCost ≤ q.startupCost := Prod.Lex.toLex_le_toLex

/-- A path takes the place of another only if it does not cost more. -/
theorem cost_le_of_supersedes (h : supersedes .totalCost p q = true) : q.cost ≤ p.cost := by
  rw [Path.cost_le_iff]
  unfold supersedes comparePathCosts at h
  dsimp only at h
  split_ifs at h with h1 h2 h3 h4
  · exact Or.inl h2
  · exact Or.inr ⟨le_antisymm (not_lt.mp h1) (not_lt.mp h2), h4.le⟩
  · exact Or.inr ⟨le_antisymm (not_lt.mp h1) (not_lt.mp h2), not_lt.mp h3⟩

/-- It is passed over only if it does not cost less. -/
theorem cost_le_of_not_supersedes (h : supersedes .totalCost p q = false) : p.cost ≤ q.cost := by
  rw [Path.cost_le_iff]
  unfold supersedes comparePathCosts at h
  dsimp only at h
  split_ifs at h with h1 h2 h3 h4
  · exact Or.inl h1
  · exact Or.inr ⟨le_antisymm (not_lt.mp h2) (not_lt.mp h1), h3.le⟩
  · exact Or.inr ⟨le_antisymm (not_lt.mp h2) (not_lt.mp h1), not_lt.mp h4⟩

/-- The slot for the cheapest path after the paths `seen`: the two slots are filled together, with a path that takes no
    parameters and costs no more than any other such path. -/
structure CheapestOf (seen : List Path) (c : Cheapest) : Prop where
  both : c.startup.isSome = c.total.isSome
  mem : ∀ t, c.total = some t → t ∈ seen ∧ t.paramInfo = none
  least : ∀ p ∈ seen, p.paramInfo = none → ∃ t, c.total = some t ∧ t.cost ≤ p.cost

/-- A path with parameters leaves the slots alone. -/
theorem considerPath_of_param (c : Cheapest) (h : p.paramInfo.isSome = true) :
    (considerPath c p).startup = c.startup ∧ (considerPath c p).total = c.total := by
  unfold considerPath
  rw [if_pos h]
  dsimp only
  split_ifs
  · exact ⟨rfl, rfl⟩
  · split
    · exact ⟨rfl, rfl⟩
    · split_ifs
      · exact ⟨rfl, rfl⟩
      · exact ⟨rfl, rfl⟩

/-- The first path without parameters fills both slots. -/
theorem considerPath_first {c : Cheapest} (hplain : p.paramInfo = none) (h : c.total = none) :
    considerPath c p = { c with startup := some p, total := some p } := by
  unfold considerPath
  rw [if_neg (by simp [hplain]), h]
  split
  · next htotal => cases htotal
  · rfl

/-- A later one competes with the paths that hold them. -/
theorem considerPath_next {c : Cheapest} {u t : Path} (hplain : p.paramInfo = none) (hu : c.startup = some u)
    (ht : c.total = some t) : (considerPath c p).startup.isSome = true ∧
      (considerPath c p).total = some (if supersedes .totalCost t p then p else t) := by
  unfold considerPath
  rw [if_neg (by simp [hplain]), hu, ht]
  exact ⟨rfl, rfl⟩

/-- Whoever keeps the slot costs no more than either of the two. -/
theorem cost_winner_le (t p : Path) : (if supersedes .totalCost t p then p else t).cost ≤ t.cost ∧
    (if supersedes .totalCost t p then p else t).cost ≤ p.cost := by
  split_ifs with hsup
  · exact ⟨cost_le_of_supersedes hsup, le_rfl⟩
  · exact ⟨le_rfl, cost_le_of_not_supersedes (Bool.eq_false_iff.mpr hsup)⟩

theorem CheapestOf.step {c : Cheapest} (h : CheapestOf seen c) (p : Path) :
    CheapestOf (seen ++ [p]) (considerPath c p) := by
  by_cases hparam : p.paramInfo.isSome = true
  · obtain ⟨hstartup, htotal⟩ := considerPath_of_param c hparam
    refine ⟨by rw [hstartup, htotal, h.both], fun t ht => ?_, fun q hq hplain => ?_⟩
    · rw [htotal] at ht
      exact ⟨List.mem_append_left _ (h.mem t ht).1, (h.mem t ht).2⟩
    · rw [htotal]
      rcases List.mem_append.mp hq with hq | hq
      · exact h.least q hq hplain
      · obtain rfl := List.mem_singleton.mp hq
        rw [hplain] at hparam
        cases hparam
  · have hplain : p.paramInfo = none := Option.not_isSome_iff_eq_none.mp hparam
    cases htotal : c.total with
    | none =>
        rw [considerPath_first hplain htotal]
        refine ⟨rfl, ?_, fun q hq hq' => ⟨p, rfl, ?_⟩⟩
        · rintro t ⟨⟩
          exact ⟨by simp, hplain⟩
        · rcases List.mem_append.mp hq with hq | hq
          · -- an empty slot: no path without parameters has been seen
            obtain ⟨t, ht, -⟩ := h.least q hq hq'
            rw [htotal] at ht
            cases ht
          · rw [List.mem_singleton.mp hq]
    | some t =>
        obtain ⟨u, hu⟩ : ∃ u, c.startup = some u := Option.isSome_iff_exists.mp (by rw [h.both, htotal]; rfl)
        obtain ⟨hmem, ht⟩ := h.mem t htotal
        obtain ⟨hstartup', htotal'⟩ := considerPath_next hplain hu htotal
        obtain ⟨hold, hnew⟩ := cost_winner_le t p
        refine ⟨by rw [hstartup', htotal']; rfl, fun t' ht' => ?_, fun q hq hq' => ⟨_, htotal', ?_⟩⟩
        · rw [htotal'] at ht'
          cases ht'
          split_ifs
          · exact ⟨by simp, hplain⟩
          · exact ⟨List.mem_append_left _ hmem, ht⟩
        · rcases List.mem_append.mp hq with hq | hq
          · obtain ⟨t', ht', hle⟩ := h.least q hq hq'
            rw [htotal] at ht'
            cases ht'
            exact hold.trans hle
          · rw [List.mem_singleton.mp hq]
            exact hnew

theorem CheapestOf.foldl {c : Cheapest} (h : CheapestOf seen c) (pathlist : List Path) :
    CheapestOf (seen ++ pathlist) (pathlist.foldl considerPath c) := by
  induction pathlist generalizing seen c with
  | nil => simpa using h
  | cons p pathlist ih =>
      have hrest := ih (h.step p)
      rwa [List.append_assoc, List.singleton_append] at hrest

/-- A path of least cost among those that take no parameters. -/
structure LeastPath (pathlist : List Path) (t : Path) : Prop where
  mem : t ∈ pathlist
  plain : t.paramInfo = none
  least : ∀ p ∈ pathlist, p.paramInfo = none → t.cost ≤ p.cost

/-- `set_cheapest` on a list with a path that takes no parameters. -/
theorem setCheapest_total (h : ∃ p ∈ pathlist, p.paramInfo = none) :
    ∃ c t, setCheapest pathlist = some c ∧ c.total = some t ∧ LeastPath pathlist t := by
  obtain ⟨p, hp, hplain⟩ := h
  have hcheapest : CheapestOf pathlist (pathlist.foldl considerPath {}) := by
    have hstart : CheapestOf [] {} := ⟨rfl, fun t ht => (by cases ht), fun p hp => (by cases hp)⟩
    simpa using hstart.foldl pathlist
  obtain ⟨t, ht, -⟩ := hcheapest.least p hp hplain
  have hset : setCheapest pathlist = some { pathlist.foldl considerPath {} with
      parameterized := t :: (pathlist.foldl considerPath {}).parameterized } := by
    unfold setCheapest
    rw [if_neg (List.ne_nil_of_mem hp)]
    dsimp only
    rw [ht]
  refine ⟨_, t, hset, ht, (hcheapest.mem t ht).1, (hcheapest.mem t ht).2, fun q hq hq' => ?_⟩
  obtain ⟨t', ht', hle⟩ := hcheapest.least q hq hq'
  rw [ht] at ht'
  cases ht'
  exact hle

end Choice

/-! ## The bias -/

section Bias
variable {oid : Oid} {p : Path} {pathlist : List Path}

@[simp] theorem Path.bias_kind : (p.bias oid).kind = p.kind := by
  unfold Path.bias
  split_ifs <;> rfl

@[simp] theorem Path.bias_paramInfo : (p.bias oid).paramInfo = p.paramInfo := by
  unfold Path.bias
  split_ifs <;> rfl

theorem Path.bias_of_ne (h : p.kind ≠ .index oid) : p.bias oid = p := if_neg h

theorem Path.totalCost_bias (h : p.kind = .index oid) : (p.bias oid).totalCost = p.totalCost * costBiasFactor := by
  unfold Path.bias
  rw [if_pos h]

theorem biased_le {x : ℚ} (h : 0 ≤ x) : x * costBiasFactor ≤ x := by
  unfold costBiasFactor
  linarith

/-- The bias makes no path dearer. -/
theorem Path.cost_bias_le (oid : Oid) (hstartup : 0 ≤ p.startupCost) (htotal : 0 ≤ p.totalCost) :
    (p.bias oid).cost ≤ p.cost := by
  by_cases h : p.kind = .index oid
  · rw [Path.cost_le_iff]
    unfold Path.bias
    rw [if_pos h]
    rcases (biased_le htotal).lt_or_eq with hlt | heq
    · exact Or.inl hlt
    · exact Or.inr ⟨heq, biased_le hstartup⟩
  · rw [Path.bias_of_ne h]

/-- An unbiased path that wins costs no more than the biased old choice, and no less than the old choice. -/
theorem LeastPath.of_bias {t t' : Path} (hcosts : ∀ p ∈ pathlist, 0 ≤ p.startupCost ∧ 0 ≤ p.totalCost)
    (ht : LeastPath pathlist t) (ht' : LeastPath (pathlist.map (Path.bias oid)) t') :
    t'.kind = .index oid ∨ t' ∈ pathlist ∧ t'.cost = t.cost := by
  obtain ⟨u, hu, rfl⟩ := List.mem_map.mp ht'.mem
  by_cases hkind : u.kind = .index oid
  · exact Or.inl (by rw [Path.bias_kind, hkind])
  · have hold : (u.bias oid).cost ≤ (t.bias oid).cost :=
      ht'.least _ (List.mem_map_of_mem ht.mem) (by rw [Path.bias_paramInfo, ht.plain])
    have hbias : (t.bias oid).cost ≤ t.cost := Path.cost_bias_le oid (hcosts t ht.mem).1 (hcosts t ht.mem).2
    have hplain : u.paramInfo = none := by rw [← Path.bias_paramInfo, ht'.plain]
    rw [Path.bias_of_ne hkind] at hold ⊢
    exact Or.inr ⟨hu, le_antisymm (hold.trans hbias) (ht.least u hu hplain)⟩

/-- A path of the index that beats all others at a twentieth of its cost brings the choice to the index. -/
theorem LeastPath.kind_of_bias {q t' : Path} (ht' : LeastPath (pathlist.map (Path.bias oid)) t') (hq : q ∈ pathlist)
    (hplain : q.paramInfo = none) (hkind : q.kind = .index oid)
    (hcheap : ∀ p ∈ pathlist, p.paramInfo = none → p.kind ≠ .index oid → q.totalCost * costBiasFactor < p.totalCost) :
    t'.kind = .index oid := by
  obtain ⟨u, hu, rfl⟩ := List.mem_map.mp ht'.mem
  by_contra hne
  rw [Path.bias_kind] at hne
  have hle : (u.bias oid).cost ≤ (q.bias oid).cost :=
    ht'.least _ (List.mem_map_of_mem hq) (by rw [Path.bias_paramInfo, hplain])
  rw [Path.bias_of_ne hne] at hle
  have htotal : u.totalCost ≤ q.totalCost * costBiasFactor := by
    rw [← Path.totalCost_bias hkind]
    rcases Path.cost_le_iff.mp hle with hlt | ⟨heq, -⟩
    · exact hlt.le
    · exact heq.le
  have huplain : u.paramInfo = none := by rw [← Path.bias_paramInfo, ht'.plain]
  exact absurd (hcheap u hu huplain hne) (not_lt.mpr htotal)

/-- **The bias moves the planner's choice to the index or leaves its cost alone.** With costs that are not negative and
    a path that takes no parameters, the path chosen after the hook is one of the temporal_rtree index, or one of the
    list as it was that costs what the choice without the hook costs. It is one of the index whenever some path of the
    index is, at a twentieth of its cost, cheaper than every path of another kind; and where the hook does not apply,
    the choice is the same. -/
theorem pathlistHook_choice (cat : Catalog) (commandType : CmdType) (rte : RangeTblEntry) (clauses : List Node)
    (st : HookState) (hcosts : ∀ p ∈ pathlist, 0 ≤ p.startupCost ∧ 0 ≤ p.totalCost)
    (hplain : ∃ p ∈ pathlist, p.paramInfo = none) :
    ∃ c t c' t', setCheapest pathlist = some c ∧ c.total = some t ∧
      setCheapest (trtreeSetRelPathlistHook cat commandType rte clauses pathlist st).2 = some c' ∧ c'.total = some t' ∧
      (t'.kind = .index (trtreeGetRtreeIndexOid cat rte.relid) ∨ t' ∈ pathlist ∧ t'.cost = t.cost) ∧
      (biases cat st.settings commandType rte clauses = true → ∀ q ∈ pathlist, q.paramInfo = none →
        q.kind = .index (trtreeGetRtreeIndexOid cat rte.relid) →
        (∀ p ∈ pathlist, p.paramInfo = none → p.kind ≠ .index (trtreeGetRtreeIndexOid cat rte.relid) →
          q.totalCost * costBiasFactor < p.totalCost) →
        t'.kind = .index (trtreeGetRtreeIndexOid cat rte.relid)) ∧
      (biases cat st.settings commandType rte clauses = false → t' = t) := by
  obtain ⟨c, t, hset, ht, hleast⟩ := setCheapest_total hplain
  by_cases hb : biases cat st.settings commandType rte clauses = true
  · have hpaths : (trtreeSetRelPathlistHook cat commandType rte clauses pathlist st).2 =
        pathlist.map (Path.bias (trtreeGetRtreeIndexOid cat rte.relid)) := by
      rw [trtreeSetRelPathlistHook, if_pos hb]
    have hplain' : ∃ p ∈ pathlist.map (Path.bias (trtreeGetRtreeIndexOid cat rte.relid)), p.paramInfo = none :=
      ⟨_, List.mem_map_of_mem hleast.mem, by rw [Path.bias_paramInfo, hleast.plain]⟩
    obtain ⟨c', t', hset', ht', hleast'⟩ := setCheapest_total hplain'
    refine ⟨c, t, c', t', hset, ht, by rw [hpaths, hset'], ht', hleast.of_bias hcosts hleast', ?_, ?_⟩
    · intro _ q hq hqplain hqkind hcheap
      exact hleast'.kind_of_bias hq hqplain hqkind hcheap
    · intro hnot
      rw [hb] at hnot
      cases hnot
  · have hpaths : (trtreeSetRelPathlistHook cat commandType rte clauses pathlist st).2 = pathlist := by
      rw [trtreeSetRelPathlistHook, if_neg hb]
    exact ⟨c, t, c, t, hset, ht, by rw [hpaths, hset], ht, Or.inr ⟨hleast.mem, rfl⟩, fun h => absurd h hb, fun _ => rfl⟩

/-- Relation 1 has the temporal_rtree index 7; function 9 is `temporalbox`, operator 3 is `&&`. -/
def smallCatalog : Catalog where
  indexList relid := if relid = 1 then [7] else []
  relam oid := if oid = 7 then some 5 else none
  amname oid := if oid = 5 then some "temporal_rtree" else none
  proname oid := if oid = 9 then some "temporalbox" else none
  oprname oid := if oid = 3 then some "&&" else none

/-- A sequential scan, and a scan of index 7 at ten times its cost. -/
def twoPaths : List Path := [⟨.seqScan, 0, 100, [], none⟩, ⟨.index 7, 2, 1000, [], none⟩]

/-- `temporalbox(..) && ..`, with the bias switched on: the index is chosen. -/
theorem pathlistHook_choice_forced :
    ∃ c t, setCheapest (trtreeSetRelPathlistHook smallCatalog .select ⟨true, 1⟩ [.opExpr 3 [.funcExpr 9 [], .other []]]
      twoPaths { settings := { forceRtreePaths := true } }).2 = some c ∧ c.total = some t ∧ t.kind = .index 7 := by
  have hcosts : ∀ p ∈ twoPaths, 0 ≤ p.startupCost ∧ 0 ≤ p.totalCost := by decide +kernel
  have hplain : ∃ p ∈ twoPaths, p.paramInfo = none := ⟨⟨.seqScan, 0, 100, [], none⟩, by simp [twoPaths], rfl⟩
  obtain ⟨-, -, c, t, -, -, hset, ht, -, hforced, -⟩ :=
    pathlistHook_choice smallCatalog .select ⟨true, 1⟩ [.opExpr 3 [.funcExpr 9 [], .other []]]
      { settings := { forceRtreePaths := true } } hcosts hplain
  refine ⟨c, t, hset, ht, hforced (by decide +kernel) ⟨.index 7, 2, 1000, [], none⟩ ?_ rfl rfl ?_⟩
  · simp [twoPaths]
  · decide +kernel

end Bias

/-! ## When the bias applies -/

mutual

/-- The conjuncts of a clause: nested ANDs are opened. -/
def Node.conjuncts : Node → List Node
  | .boolExpr .andExpr args => conjunctsOf args
  | .boolExpr .orExpr args => [.boolExpr .orExpr args]
  | .boolExpr .notExpr args => [.boolExpr .notExpr args]
  | .opExpr opno args => [.opExpr opno args]
  | .funcExpr funcid args => [.funcExpr funcid args]
  | .query => [.query]
  | .other children => [.other children]

def conjunctsOf : List Node → List Node
  | [] => []
  | node :: nodes => node.conjuncts ++ conjunctsOf nodes

end

/-- An operator `&&`, `@>` or `<@` with `temporalbox` on one of its two sides. -/
def Node.BoxOperator (cat : Catalog) (node : Node) : Prop :=
  ∃ opno left right, node = .opExpr opno [left, right] ∧ trtreeIsCompatibleOperator cat opno = true ∧
    (trtreeContainsTemporalbox cat left = true ∨ trtreeContainsTemporalbox cat right = true)

section Applies
variable {cat : Catalog}

theorem boxOperator_opExpr {opno : Oid} {args : List Node} :
    (Node.opExpr opno args).BoxOperator cat ↔ compatibleOpExpr cat opno args = true := by
  constructor
  · rintro ⟨opno', left, right, heq, hop, hbox⟩
    cases heq
    rcases hbox with hbox | hbox
    · simp [compatibleOpExpr, hop, hbox]
    · simp [compatibleOpExpr, hop, hbox]
  · intro h
    unfold compatibleOpExpr at h
    split at h
    · next left right =>
      rcases Bool.or_eq_true_iff.mp h with h | h
      · exact ⟨opno, left, right, rfl, (Bool.and_eq_true_iff.mp h).2, Or.inl (Bool.and_eq_true_iff.mp h).1⟩
      · exact ⟨opno, left, right, rfl, (Bool.and_eq_true_iff.mp h).2, Or.inr (Bool.and_eq_true_iff.mp h).1⟩
    · cases h

mutual

/-- A clause is compatible if one of its conjuncts is. -/
theorem compatible_iff (cat : Catalog) : (clause : Node) →
    (trtreeClauseIsTemporalRtreeCompatible cat clause = true ↔ ∃ node ∈ clause.conjuncts, node.BoxOperator cat)
  | .opExpr opno args => by
      simp [trtreeClauseIsTemporalRtreeCompatible, Node.conjuncts, boxOperator_opExpr]
  | .boolExpr .andExpr args => by
      simpa [trtreeClauseIsTemporalRtreeCompatible, Node.conjuncts] using anyCompatible_iff cat args
  | .boolExpr .orExpr args => by simp [trtreeClauseIsTemporalRtreeCompatible, Node.conjuncts, Node.BoxOperator]
  | .boolExpr .notExpr args => by simp [trtreeClauseIsTemporalRtreeCompatible, Node.conjuncts, Node.BoxOperator]
  | .funcExpr funcid args => by simp [trtreeClauseIsTemporalRtreeCompatible, Node.conjuncts, Node.BoxOperator]
  | .query => by simp [trtreeClauseIsTemporalRtreeCompatible, Node.conjuncts, Node.BoxOperator]
  | .other children => by simp [trtreeClauseIsTemporalRtreeCompatible, Node.conjuncts, Node.BoxOperator]

theorem anyCompatible_iff (cat : Catalog) : (clauses : List Node) →
    (anyCompatible cat clauses = true ↔ ∃ node ∈ conjunctsOf clauses, node.BoxOperator cat)
  | [] => by simp [anyCompatible, conjunctsOf]
  | clause :: clauses => by
      rw [anyCompatible, Bool.or_eq_true_iff, compatible_iff cat clause, anyCompatible_iff cat clauses, conjunctsOf]
      simp only [List.mem_append, or_and_right, exists_or]

end

/-- The two searches for an index agree where no index has the invalid identifier. -/
theorem getRtreeIndexOid_ne_iff {relid : Oid} (hvalid : ∀ oid ∈ cat.indexList relid, oid ≠ invalidOid) :
    trtreeGetRtreeIndexOid cat relid ≠ invalidOid ↔ trtreeHasTemporalRtreeIndex cat relid = true := by
  unfold trtreeGetRtreeIndexOid trtreeHasTemporalRtreeIndex
  cases hfind : (cat.indexList relid).find? cat.isRtreeIndex with
  | none =>
      have hnone : (cat.indexList relid).any cat.isRtreeIndex = false := by
        rw [List.any_eq_false]
        exact List.find?_eq_none.mp hfind
      simp [hnone]
  | some oid =>
      have hsome : (cat.indexList relid).any cat.isRtreeIndex = true :=
        List.any_eq_true.mpr ⟨oid, List.mem_of_find?_eq_some hfind, List.find?_some hfind⟩
      simpa [hsome] using hvalid oid (List.mem_of_find?_eq_some hfind)

/-- **Which queries are biased.** The bias applies to a relation of a SELECT, UPDATE or DELETE exactly if it is forced,
    the relation has an index that the planner hook finds too, and the clauses have among their conjuncts one of the
    operators of the index on a `temporalbox`; below an OR or a NOT, one does not count. -/
theorem pathlistHook_applies_iff (settings : HookSettings) (commandType : CmdType) (rte : RangeTblEntry)
    (clauses : List Node) (hvalid : ∀ oid ∈ cat.indexList rte.relid, oid ≠ invalidOid) :
    biases cat settings commandType rte clauses = true ↔
      settings.forceRtreePaths = true ∧ commandType ∈ [CmdType.select, .update, .delete] ∧ rte.named = true ∧
        trtreeHasTemporalRtreeIndex cat rte.relid = true ∧
        ∃ clause ∈ clauses, ∃ node ∈ clause.conjuncts, node.BoxOperator cat := by
  have hcompatible : trtreeHasCompatibleClauses cat clauses = true ↔
      ∃ clause ∈ clauses, ∃ node ∈ clause.conjuncts, node.BoxOperator cat := by
    simp only [trtreeHasCompatibleClauses, List.any_eq_true, compatible_iff]
  rw [← hcompatible, ← getRtreeIndexOid_ne_iff hvalid]
  simp [biases, and_assoc, or_assoc]

/-- A clause with the operator inside a nested AND. -/
theorem pathlistHook_applies_nested :
    biases smallCatalog { forceRtreePaths := true } .delete ⟨true, 1⟩
      [.boolExpr .andExpr [.query, .boolExpr .andExpr [.opExpr 3 [.other [], .funcExpr 9 []]]]] = true := by
  have hvalid : ∀ oid ∈ smallCatalog.indexList 1, oid ≠ invalidOid := by decide +kernel
  refine (pathlistHook_applies_iff _ _ _ _ hvalid).mpr
    ⟨rfl, by decide, rfl, by decide +kernel, _, List.mem_singleton.mpr rfl, .opExpr 3 [.other [], .funcExpr 9 []], ?_,
      3, .other [], .funcExpr 9 [], rfl, by decide +kernel, Or.inr (by decide +kernel)⟩
  simp [Node.conjuncts, conjunctsOf]

end Applies

/-! ## The counters over a session -/

/-- The counters as numbers that do not overflow. -/
structure HookCounts where
  plannerHits : Nat := 0
  plannerRtreeEligibleHits : Nat := 0
  executorDmlHits : Nat := 0
  executorTargetWithRtreeHits : Nat := 0
  pathBiasApplied : Nat := 0

/-- What the counters of the module make of them. -/
def HookCounts.wrap (counts : HookCounts) : HookStats where
  plannerHits := UInt64.ofNat counts.plannerHits
  plannerRtreeEligibleHits := UInt64.ofNat counts.plannerRtreeEligibleHits
  executorDmlHits := UInt64.ofNat counts.executorDmlHits
  executorTargetWithRtreeHits := UInt64.ofNat counts.executorTargetWithRtreeHits
  pathBiasApplied := UInt64.ofNat counts.pathBiasApplied

/-- What is counted: the queries planned that call `temporalbox` or read a table with a temporal_rtree index, and those
    that do both; the relations of statements other than SELECT that are started, and those with such an index; the
    paths biased. A reset starts over. -/
def tallyStep (acc : HookSettings × HookCounts) : Catalog × HookEvent → HookSettings × HookCounts
  | (_, .set settings) => (settings, acc.2)
  | (cat, .plan parse _) => (acc.1, { acc.2 with
      plannerHits := acc.2.plannerHits + (parse.hasTemporalbox cat || parse.hasRtreeIndexedRel cat).toNat
      plannerRtreeEligibleHits := acc.2.plannerRtreeEligibleHits +
        (parse.hasTemporalbox cat && parse.hasRtreeIndexedRel cat).toNat })
  | (cat, .start operation rtable) => (acc.1, { acc.2 with
      executorDmlHits := acc.2.executorDmlHits + rtable.countP fun rte => rte.named && operation ≠ .select
      executorTargetWithRtreeHits := acc.2.executorTargetWithRtreeHits +
        rtable.countP fun rte => rte.named && operation ≠ .select && trtreeHasTemporalRtreeIndex cat rte.relid })
  | (cat, .paths commandType rte clauses pathlist) => (acc.1, { acc.2 with
      pathBiasApplied := acc.2.pathBiasApplied + pathlist.countP fun path =>
        biases cat acc.1 commandType rte clauses && path.kind = .index (trtreeGetRtreeIndexOid cat rte.relid) })
  | (_, .reset) => (acc.1, {})

/-- The module's variables hold what has been counted. -/
structure Tallied (st : HookState) (acc : HookSettings × HookCounts) : Prop where
  settings : st.settings = acc.1
  stats : st.stats = acc.2.wrap
  eligible_le : acc.2.plannerRtreeEligibleHits ≤ acc.2.plannerHits
  target_le : acc.2.executorTargetWithRtreeHits ≤ acc.2.executorDmlHits

section Session
variable {st : HookState} {acc : HookSettings × HookCounts} {cat : Catalog}

theorem countP_cons_toNat {α : Type} (f : α → Bool) (a : α) (as : List α) :
    (a :: as).countP f = (f a).toNat + as.countP f := by
  rw [List.countP_cons, Nat.add_comm]
  cases f a <;> rfl

/-- One relation of a range table. -/
theorem countTarget_wrap (cat : Catalog) (operation : CmdType) (counts : HookCounts) (found : Bool)
    (rte : RangeTblEntry) :
    (countTarget cat operation (counts.wrap, found) rte).1 = HookCounts.wrap { counts with
      executorDmlHits := counts.executorDmlHits + (rte.named && operation ≠ .select : Bool).toNat
      executorTargetWithRtreeHits := counts.executorTargetWithRtreeHits +
        (rte.named && operation ≠ .select && trtreeHasTemporalRtreeIndex cat rte.relid : Bool).toNat } := by
  unfold countTarget
  cases (rte.named && decide (operation ≠ .select)) with
  | false => rfl
  | true =>
      cases trtreeHasTemporalRtreeIndex cat rte.relid with
      | false => simp [HookCounts.wrap, UInt64.ofNat_add]
      | true => simp [HookCounts.wrap, UInt64.ofNat_add]

/-- The loop over a range table. -/
theorem foldl_countTarget (cat : Catalog) (operation : CmdType) (rtable : List RangeTblEntry) (counts : HookCounts)
    (found : Bool) :
    (rtable.foldl (countTarget cat operation) (counts.wrap, found)).1 = HookCounts.wrap { counts with
      executorDmlHits := counts.executorDmlHits + rtable.countP fun rte => rte.named && operation ≠ .select
      executorTargetWithRtreeHits := counts.executorTargetWithRtreeHits +
        rtable.countP fun rte => rte.named && operation ≠ .select && trtreeHasTemporalRtreeIndex cat rte.relid } := by
  induction rtable generalizing counts found with
  | nil => rfl
  | cons rte rtable ih =>
      have hstep := countTarget_wrap cat operation counts found rte
      rw [List.foldl_cons, ← Prod.mk.eta (p := countTarget cat operation (counts.wrap, found) rte), hstep, ih]
      simp only [countP_cons_toNat, Nat.add_assoc]

/-- One path. -/
theorem noteBias_wrap (oid : Oid) (path : Path) {counts : HookCounts} (h : st.stats = counts.wrap) :
    (noteBias oid st path).settings = st.settings ∧
      (noteBias oid st path).stats = HookCounts.wrap { counts with
        pathBiasApplied := counts.pathBiasApplied + (path.kind = .index oid : Bool).toNat } := by
  unfold noteBias
  by_cases hkind : path.kind = .index oid
  · simp [hkind, h, HookCounts.wrap, UInt64.ofNat_add]
  · simp [hkind, h]

/-- The loop over a list of paths. -/
theorem foldl_noteBias (oid : Oid) (pathlist : List Path) {counts : HookCounts} (h : st.stats = counts.wrap) :
    (pathlist.foldl (noteBias oid) st).settings = st.settings ∧
      (pathlist.foldl (noteBias oid) st).stats = HookCounts.wrap { counts with
        pathBiasApplied := counts.pathBiasApplied + pathlist.countP fun path => path.kind = .index oid } := by
  induction pathlist generalizing st counts with
  | nil => exact ⟨rfl, h⟩
  | cons path pathlist ih =>
      obtain ⟨hsettings, hstats⟩ := noteBias_wrap oid path h
      obtain ⟨ihsettings, ihstats⟩ := ih hstats
      refine ⟨ihsettings.trans hsettings, ?_⟩
      rw [List.foldl_cons, ihstats]
      simp only [countP_cons_toNat, Nat.add_assoc]

theorem Tallied.plan (h : Tallied st acc) (parse : Query) (queryString : Option String) :
    Tallied (stepHook st (cat, .plan parse queryString)) (tallyStep acc (cat, .plan parse queryString)) := by
  have hstats : (trtreePlannerHook cat parse queryString st).stats = HookCounts.wrap { acc.2 with
      plannerHits := acc.2.plannerHits + (parse.hasTemporalbox cat || parse.hasRtreeIndexedRel cat).toNat
      plannerRtreeEligibleHits := acc.2.plannerRtreeEligibleHits +
        (parse.hasTemporalbox cat && parse.hasRtreeIndexedRel cat).toNat } := by
    unfold trtreePlannerHook
    rw [h.stats]
    cases parse.hasTemporalbox cat <;> cases parse.hasRtreeIndexedRel cat <;>
      simp [HookCounts.wrap, UInt64.ofNat_add]
  refine ⟨h.settings, hstats, ?_, h.target_le⟩
  have hle : (parse.hasTemporalbox cat && parse.hasRtreeIndexedRel cat).toNat ≤
      (parse.hasTemporalbox cat || parse.hasRtreeIndexedRel cat).toNat := by
    cases parse.hasTemporalbox cat <;> cases parse.hasRtreeIndexedRel cat <;> decide
  exact Nat.add_le_add h.eligible_le hle

theorem Tallied.start (h : Tallied st acc) (operation : CmdType) (rtable : List RangeTblEntry) :
    Tallied (stepHook st (cat, .start operation rtable)) (tallyStep acc (cat, .start operation rtable)) := by
  refine ⟨h.settings, ?_, h.eligible_le, ?_⟩
  · have hcount := foldl_countTarget cat operation rtable acc.2 false
    rw [← h.stats] at hcount
    exact hcount
  · refine Nat.add_le_add h.target_le (List.countP_mono_left fun rte _ htarget => ?_)
    exact (Bool.and_eq_true_iff.mp htarget).1

theorem Tallied.paths (h : Tallied st acc) (commandType : CmdType) (rte : RangeTblEntry) (clauses : List Node)
    (pathlist : List Path) : Tallied (stepHook st (cat, .paths commandType rte clauses pathlist))
      (tallyStep acc (cat, .paths commandType rte clauses pathlist)) := by
  have hcount : (trtreeSetRelPathlistHook cat commandType rte clauses pathlist st).1.settings = st.settings ∧
      (trtreeSetRelPathlistHook cat commandType rte clauses pathlist st).1.stats = HookCounts.wrap { acc.2 with
        pathBiasApplied := acc.2.pathBiasApplied + pathlist.countP fun path =>
          biases cat acc.1 commandType rte clauses && path.kind = .index (trtreeGetRtreeIndexOid cat rte.relid) } := by
    unfold trtreeSetRelPathlistHook
    rw [h.settings]
    cases biases cat acc.1 commandType rte clauses with
    | false => simp [h.settings, h.stats]
    | true => simpa [h.settings] using foldl_noteBias (trtreeGetRtreeIndexOid cat rte.relid) pathlist h.stats
  exact ⟨hcount.1.trans h.settings, hcount.2, h.eligible_le, h.target_le⟩

/-- One event. -/
theorem Tallied.step (h : Tallied st acc) (event : Catalog × HookEvent) :
    Tallied (stepHook st event) (tallyStep acc event) := by
  obtain ⟨cat, event⟩ := event
  cases event with
  | set settings => exact ⟨rfl, h.stats, h.eligible_le, h.target_le⟩
  | plan parse queryString => exact h.plan parse queryString
  | start operation rtable => exact h.start operation rtable
  | paths commandType rte clauses pathlist => exact h.paths commandType rte clauses pathlist
  | reset => exact ⟨h.settings, rfl, Nat.le_refl _, Nat.le_refl _⟩

theorem Tallied.foldl (h : Tallied st acc) (events : List (Catalog × HookEvent)) :
    Tallied (events.foldl stepHook st) (events.foldl tallyStep acc) := by
  induction events generalizing st acc with
  | nil => exact h
  | cons event events ih => exact ih (h.step event)

end Session

/-- **The statistics are counts since the last reset.** In every session, with the settings and the catalog changing as
    they may, the statistics function returns the numbers of what has happened since the last reset, each up to
    overflow of its counter; of these, no more queries are eligible than were hits, and no more relations are targets
    with an index than were targets. -/
theorem hookStats_session (settings : HookSettings) (events : List (Catalog × HookEvent)) :
    temporalRtreeHookStats (events.foldl stepHook { settings := settings }) =
        [(events.foldl tallyStep (settings, {})).2.plannerHits,
          (events.foldl tallyStep (settings, {})).2.plannerRtreeEligibleHits,
          (events.foldl tallyStep (settings, {})).2.executorDmlHits,
          (events.foldl tallyStep (settings, {})).2.executorTargetWithRtreeHits,
          (events.foldl tallyStep (settings, {})).2.pathBiasApplied].map Int64.ofNat ∧
      (events.foldl tallyStep (settings, {})).2.plannerRtreeEligibleHits ≤
        (events.foldl tallyStep (settings, {})).2.plannerHits ∧
      (events.foldl tallyStep (settings, {})).2.executorTargetWithRtreeHits ≤
        (events.foldl tallyStep (settings, {})).2.executorDmlHits := by
  have hstart : Tallied { settings := settings } (settings, {}) := ⟨rfl, rfl, Nat.le_refl _, Nat.le_refl _⟩
  have htally := hstart.foldl events
  refine ⟨?_, htally.eligible_le, htally.target_le⟩
  unfold temporalRtreeHookStats
  rw [htally.stats]
  rfl

end TemporalRTree
