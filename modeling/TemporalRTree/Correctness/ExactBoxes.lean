import TemporalRTree.Correctness.Codec
import TemporalRTree.Correctness.PageMbr
import TemporalRTree.Correctness.TreeShape

/-!
# `Correctness.ExactBoxes` — downlinks decode to the least box over their subtrees

With keys whose coordinates are integers that doubles hold exactly, the boxes written into downlinks come back
as they were (`BoundedBox.roundTrip`). A tree is `Exact` when every downlink decodes to what `rtree_page_mbr`
gives for the page it leads to. Inserts and walks rebuild it bottom-up, each page after its children, and so
keep it; that the boxes are the least ones over all leaf tuples below is then a fact about unions.
-/

namespace TemporalRTree
open EStateM Layout Binary64

/-! ## Boxes that survive the codec -/

/-- A key of two dimensions with finite coordinates: integer attribute values, times of magnitude up to
    `2 ^ 53`. -/
structure BoundedKey (c : NDBOX) : Prop where
  dim_eq : c.dim = 2
  attrLo : ∃ n : ℤ, pgInt32Min ≤ n ∧ n ≤ pgInt32Max ∧ c.llCoord 0 = .fin n
  attrHi : ∃ n : ℤ, pgInt32Min ≤ n ∧ n ≤ pgInt32Max ∧ c.urCoord 0 = .fin n
  lower : ∃ q : ℚ, |q| ≤ 2 ^ 53 ∧ c.llCoord 1 = .fin q
  upper : ∃ q : ℚ, |q| ≤ 2 ^ 53 ∧ c.urCoord 1 = .fin q

/-- The boxes of such keys and what is between their bounds. -/
structure BoundedBox (b : RTreeTemporalBox) : Prop where
  dims_eq : b.dims = 2
  flags_eq : b.flags = {}
  attrLo : pgInt32Min ≤ b.attrLo ∧ b.attrLo ≤ pgInt32Max
  attrHi : pgInt32Min ≤ b.attrHi ∧ b.attrHi ≤ pgInt32Max
  lower : |b.lowerUs| ≤ 2 ^ 53
  upper : |b.upperUs| ≤ 2 ^ 53

/-- A time coordinate is decoded to an integer of its range. -/
theorem llround_of_abs_le {q : ℚ} (h : |q| ≤ 2 ^ 53) :
    llround (.fin q) = roundHalfAway q ∧ |roundHalfAway q| ≤ 2 ^ 53 := by
  obtain ⟨hlo, hhi⟩ := abs_le.mp h
  have h1 : roundHalfAway q ≤ (2 ^ 53 : ℤ) := roundHalfAway_le (by push_cast; exact hhi)
  have h2 : (-2 ^ 53 : ℤ) ≤ roundHalfAway q := le_roundHalfAway (by push_cast; exact hlo)
  refine ⟨llround_of_range ?_ ?_, abs_le.mpr ⟨by omega, h1⟩⟩
  · exact le_trans (by norm_num [pgInt64Min]) hlo
  · exact hhi.trans (by norm_num [pgInt64Max])

theorem BoundedKey.boundedBox {c : NDBOX} (h : BoundedKey c) : BoundedBox (rtreeCubeToBox c) := by
  obtain ⟨lo, hlo1, hlo2, hlo⟩ := h.attrLo
  obtain ⟨hi, hhi1, hhi2, hhi⟩ := h.attrHi
  obtain ⟨q, hq, hlower⟩ := h.lower
  obtain ⟨r, hr, hupper⟩ := h.upper
  obtain ⟨hq1, hq2⟩ := llround_of_abs_le hq
  obtain ⟨hr1, hr2⟩ := llround_of_abs_le hr
  have hqmin : roundHalfAway q ≠ pgInt64Min := by
    have := (abs_le.mp hq2).1
    rw [pgInt64Min]
    omega
  have hrmax : roundHalfAway r ≠ pgInt64Max := by
    have := (abs_le.mp hr2).2
    rw [pgInt64Max]
    omega
  rw [rtreeCubeToBox_of_dim h.dim_eq, hlo, hhi, hlower, hupper]
  simp only [Double.isNegInf, Double.isPosInf, wrap32_llround_fin hlo1 hlo2, wrap32_llround_fin hhi1 hhi2,
    Bool.false_eq_true, if_false, Bool.false_or, hq1, hr1]
  exact ⟨rfl, by simp [hqmin, hrmax], ⟨hlo1, hlo2⟩, ⟨hhi1, hhi2⟩, hq2, hr2⟩

/-- **Such a box comes back unchanged from the downlink it is written into.** -/
theorem BoundedBox.roundTrip {b : RTreeTemporalBox} (h : BoundedBox b) :
    rtreeCubeToBox (rtreeBoxToCube b) = b := by
  obtain ⟨hlo1, hlo2⟩ := abs_le.mp h.lower
  obtain ⟨hup1, hup2⟩ := abs_le.mp h.upper
  have hdecoded : DecodedBox b := by
    refine ⟨h.dims_eq, by rw [h.flags_eq], h.attrLo, h.attrHi, ?_, ?_, representable_intCast_of_le h.lower,
      fun _ => representable_intCast_of_le h.upper, ?_, ?_⟩
    · rw [pgInt64Min, pgInt64Max]
      omega
    · rw [pgInt64Min, pgInt64Max]
      omega
    · rw [h.flags_eq, pgInt64Min]
      simp only [Bool.false_eq_true, false_iff]
      omega
    · rw [h.flags_eq, pgInt64Max]
      simp only [Bool.false_eq_true, false_iff]
      omega
  exact hdecoded.roundTrip (by rw [h.flags_eq])

/-! ## Least boxes -/

/-- `b` is the least box over the boxes of `S`: on each side some box of `S` reaches as far, and none further. -/
structure IsLeastBox (S : Set RTreeTemporalBox) (b : RTreeTemporalBox) : Prop where
  dims_eq : b.dims = 2
  flags_eq : b.flags = {}
  lowerUs : IsLeast (RTreeTemporalBox.lowerUs '' S) b.lowerUs
  upperUs : IsGreatest (RTreeTemporalBox.upperUs '' S) b.upperUs
  attrLo : IsLeast (RTreeTemporalBox.attrLo '' S) b.attrLo
  attrHi : IsGreatest (RTreeTemporalBox.attrHi '' S) b.attrHi

theorem IsLeastBox.singleton {b : RTreeTemporalBox} (h : BoundedBox b) : IsLeastBox {b} b := by
  refine ⟨h.dims_eq, h.flags_eq, ?_, ?_, ?_, ?_⟩ <;> simp

/-- `tr_union` joins least boxes. -/
theorem IsLeastBox.union {S T : Set RTreeTemporalBox} {a b : RTreeTemporalBox} (ha : IsLeastBox S a)
    (hb : IsLeastBox T b) : IsLeastBox (S ∪ T) (trUnion a b) := by
  rw [trUnion_of_nonempty (by rw [ha.flags_eq]) (by rw [hb.flags_eq])]
  refine ⟨?_, ?_, ?_, ?_, ?_, ?_⟩
  · simp [ha.dims_eq, hb.dims_eq]
  · simp [ha.flags_eq, hb.flags_eq]
  · rw [Set.image_union]
    exact ha.lowerUs.union hb.lowerUs
  · rw [Set.image_union]
    exact ha.upperUs.union hb.upperUs
  · rw [Set.image_union]
    exact ha.attrLo.union hb.attrLo
  · rw [Set.image_union]
    exact ha.attrHi.union hb.attrHi

/-- A least box over bounded ones is bounded. -/
theorem IsLeastBox.boundedBox {S : Set RTreeTemporalBox} {b : RTreeTemporalBox} (h : IsLeastBox S b)
    (hS : ∀ c ∈ S, BoundedBox c) : BoundedBox b := by
  obtain ⟨c₁, hc₁, h₁⟩ := h.lowerUs.1
  obtain ⟨c₂, hc₂, h₂⟩ := h.upperUs.1
  obtain ⟨c₃, hc₃, h₃⟩ := h.attrLo.1
  obtain ⟨c₄, hc₄, h₄⟩ := h.attrHi.1
  exact ⟨h.dims_eq, h.flags_eq, h₃ ▸ (hS c₃ hc₃).attrLo, h₄ ▸ (hS c₄ hc₄).attrHi, h₁ ▸ (hS c₁ hc₁).lower,
    h₂ ▸ (hS c₂ hc₂).upper⟩

/-- What a box of `S` overlaps, the least box over `S` overlaps: a search may skip the pages whose boxes do not. -/
theorem IsLeastBox.overlaps {S : Set RTreeTemporalBox} {b c query : RTreeTemporalBox} (h : IsLeastBox S b)
    (hc : c ∈ S) (hover : rtreeBoxOverlaps c query = true) : rtreeBoxOverlaps b query = true := by
  have h1 := h.lowerUs.2 ⟨c, hc, rfl⟩
  have h2 := h.upperUs.2 ⟨c, hc, rfl⟩
  have h3 := h.attrLo.2 ⟨c, hc, rfl⟩
  have h4 := h.attrHi.2 ⟨c, hc, rfl⟩
  obtain ⟨-, hquery, g1, g2, g3, g4⟩ := rtreeBoxOverlaps_iff.mp hover
  rw [rtreeBoxOverlaps_iff, h.flags_eq]
  exact ⟨rfl, hquery, g1.trans h4, h3.trans g2, g3.trans h2, h1.trans g4⟩

section Nested
variable {α β ι : Type*} [Preorder β] {f : α → β} {S : Set α} {I : Set ι} {T : ι → Set α} {a : β}

/-- The least of the least. -/
theorem isLeast_image_biUnion (h : IsLeast (f '' S) a) (hS : ∀ c ∈ S, ∃ i ∈ I, IsLeast (f '' T i) (f c))
    (hI : ∀ i ∈ I, ∃ c ∈ S, IsLeast (f '' T i) (f c)) : IsLeast (f '' ⋃ i ∈ I, T i) a := by
  obtain ⟨⟨c, hc, rfl⟩, hle⟩ := h
  constructor
  · obtain ⟨i, hi, hleast⟩ := hS c hc
    obtain ⟨u, hu, hfu⟩ := hleast.1
    exact ⟨u, Set.mem_biUnion hi hu, hfu⟩
  · rintro _ ⟨u, hu, rfl⟩
    obtain ⟨i, hi, hu⟩ := Set.mem_iUnion₂.mp hu
    obtain ⟨c', hc', hleast⟩ := hI i hi
    exact (hle ⟨c', hc', rfl⟩).trans (hleast.2 ⟨u, hu, rfl⟩)

theorem isGreatest_image_biUnion (h : IsGreatest (f '' S) a)
    (hS : ∀ c ∈ S, ∃ i ∈ I, IsGreatest (f '' T i) (f c))
    (hI : ∀ i ∈ I, ∃ c ∈ S, IsGreatest (f '' T i) (f c)) : IsGreatest (f '' ⋃ i ∈ I, T i) a :=
  isLeast_image_biUnion (β := βᵒᵈ) h hS hI

/-- The least box over least boxes. -/
theorem IsLeastBox.biUnion {S : Set RTreeTemporalBox} {T : ι → Set RTreeTemporalBox} {b : RTreeTemporalBox}
    (h : IsLeastBox S b) (hS : ∀ c ∈ S, ∃ i ∈ I, IsLeastBox (T i) c)
    (hI : ∀ i ∈ I, ∃ c ∈ S, IsLeastBox (T i) c) : IsLeastBox (⋃ i ∈ I, T i) b := by
  have hS' : ∀ {P : ι → RTreeTemporalBox → Prop}, (∀ i c, IsLeastBox (T i) c → P i c) →
      ∀ c ∈ S, ∃ i ∈ I, P i c := by
    intro P hP c hc
    obtain ⟨i, hi, hleast⟩ := hS c hc
    exact ⟨i, hi, hP i c hleast⟩
  have hI' : ∀ {P : ι → RTreeTemporalBox → Prop}, (∀ i c, IsLeastBox (T i) c → P i c) →
      ∀ i ∈ I, ∃ c ∈ S, P i c := by
    intro P hP i hi
    obtain ⟨c, hc, hleast⟩ := hI i hi
    exact ⟨c, hc, hP i c hleast⟩
  exact ⟨h.dims_eq, h.flags_eq,
    isLeast_image_biUnion h.lowerUs (hS' fun _ _ h => h.lowerUs) (hI' fun _ _ h => h.lowerUs),
    isGreatest_image_biUnion h.upperUs (hS' fun _ _ h => h.upperUs) (hI' fun _ _ h => h.upperUs),
    isLeast_image_biUnion h.attrLo (hS' fun _ _ h => h.attrLo) (hI' fun _ _ h => h.attrLo),
    isGreatest_image_biUnion h.attrHi (hS' fun _ _ h => h.attrHi) (hI' fun _ _ h => h.attrHi)⟩

end Nested

/-! ## The box of a page -/

/-- The boxes the tuples of a page decode to. -/
def itemBoxes (items : List IndexTuple) : Set RTreeTemporalBox :=
  {c | ∃ t ∈ items, rtreeIndexTupleBox t = some c}

/-- A tuple that decodes to a bounded box. -/
def BoundedTuple (t : IndexTuple) : Prop := ∃ box, rtreeIndexTupleBox t = some box ∧ BoundedBox box

theorem itemBoxes_cons {t : IndexTuple} {rest : List IndexTuple} {box : RTreeTemporalBox}
    (h : rtreeIndexTupleBox t = some box) : itemBoxes (t :: rest) = {box} ∪ itemBoxes rest := by
  ext c
  simp [itemBoxes, h, eq_comm]

theorem itemBoxes_bounded {items : List IndexTuple} (h : ∀ t ∈ items, BoundedTuple t) :
    ∀ c ∈ itemBoxes items, BoundedBox c := by
  rintro c ⟨t, ht, hc⟩
  obtain ⟨box, hbox, hb⟩ := h t ht
  rw [hbox] at hc
  exact Option.some.inj hc ▸ hb

/-- The loop of `rtree_page_mbr` after the first tuple. -/
theorem foldl_mbrStep {items : List IndexTuple} {m : RTreeTemporalBox} {S : Set RTreeTemporalBox}
    (hitems : ∀ t ∈ items, BoundedTuple t) (hm : IsLeastBox S m) :
    ∃ m', items.foldl mbrStep (some m) = some m' ∧ IsLeastBox (S ∪ itemBoxes items) m' := by
  induction items generalizing m S with
  | nil => exact ⟨m, rfl, by simpa [itemBoxes] using hm⟩
  | cons t rest ih =>
      obtain ⟨box, hbox, hb⟩ := hitems t List.mem_cons_self
      obtain ⟨m', hfold, hleast⟩ := ih (fun t ht => hitems t (List.mem_cons_of_mem _ ht))
        (hm.union (IsLeastBox.singleton hb))
      refine ⟨m', ?_, ?_⟩
      · rw [List.foldl_cons, ← hfold, mbrStep, hbox]
      · rwa [itemBoxes_cons hbox, ← Set.union_assoc]

/-- **`rtree_page_mbr` gives the least box over the tuples of a page.** -/
theorem rtreePageMbr_isLeastBox {page : DataPage} (hne : page.items ≠ [])
    (hitems : ∀ t ∈ page.items, BoundedTuple t) : IsLeastBox (itemBoxes page.items) (rtreePageMbr page) := by
  unfold rtreePageMbr
  cases hpage : page.items with
  | nil => exact absurd hpage hne
  | cons t rest =>
      rw [hpage] at hitems
      obtain ⟨box, hbox, hb⟩ := hitems t List.mem_cons_self
      obtain ⟨m', hfold, hleast⟩ := foldl_mbrStep (fun t ht => hitems t (List.mem_cons_of_mem _ ht))
        (IsLeastBox.singleton hb)
      rw [List.foldl_cons, show mbrStep none t = some box by rw [mbrStep, hbox], hfold, itemBoxes_cons hbox]
      exact hleast

theorem rtreePageMbr_congr {page page' : DataPage} (h : page'.items = page.items) :
    rtreePageMbr page' = rtreePageMbr page := by
  rw [rtreePageMbr, rtreePageMbr, h]

/-- The box a walk reports for a page is the box of the page it leaves. -/
theorem aggregateBox_eq_mbr {kept : List (IndexTuple × RTreeTemporalBox)} {page : DataPage}
    (hitems : page.items = kept.map Prod.fst) (hkept : ∀ p ∈ kept, rtreeIndexTupleBox p.1 = some p.2) :
    aggregateBox kept = rtreePageMbr page := by
  have hboxes : pageBoxes page = kept.map Prod.snd := by
    rw [pageBoxes, hitems, List.filterMap_map, ← List.filterMap_eq_map]
    exact List.filterMap_congr fun p hp => hkept p hp
  rw [aggregateBox, ← hboxes, foldl_aggregateStep, rtreePageMbr_eq_sup]

/-! ## Exact trees -/

/-- The leaf tuples have bounded boxes, and every downlink decodes to the box of the page it leads to, which has
    a tuple. -/
def Exact (st : BlockNumber → DataPage) : Nat → BlockNumber → Prop
  | 0, b => ∀ t ∈ (st b).items, BoundedTuple t
  | l + 1, b => ∀ t ∈ (st b).items, Exact st l t.tTid.blkno ∧ (st t.tTid.blkno).items ≠ [] ∧
      rtreeIndexTupleBox t = some (rtreePageMbr (st t.tTid.blkno))

/-- The tree at `c` is exact, and `box` is its box. -/
def Boxed (st : BlockNumber → DataPage) (l : Nat) (c : BlockNumber) (box : RTreeTemporalBox) : Prop :=
  Exact st l c ∧ (st c).items ≠ [] ∧ box = rtreePageMbr (st c)

/-- `t` is a downlink that decodes to the box of an exact tree. -/
def Links (st : BlockNumber → DataPage) (l : Nat) (t : IndexTuple) : Prop :=
  ∃ box, rtreeIndexTupleBox t = some box ∧ Boxed st l t.tTid.blkno box

section Exact
variable {st st' : BlockNumber → DataPage} {l : Nat} {b : BlockNumber} {box : RTreeTemporalBox}

theorem exact_succ : Exact st (l + 1) b ↔ ∀ t ∈ (st b).items, Links st l t := by
  refine forall₂_congr fun t _ => ?_
  constructor
  · rintro ⟨hexact, hne, hbox⟩
    exact ⟨_, hbox, hexact, hne, rfl⟩
  · rintro ⟨box, hbox, hexact, hne, rfl⟩
    exact ⟨hexact, hne, hbox⟩

/-- Only the tuples on the tree's own pages matter. -/
theorem Exact.congr : ∀ {l : Nat} {b : BlockNumber}, Exact st l b →
    (∀ x ∈ nodes.blocks st l b, (st' x).items = (st x).items) → Exact st' l b
  | 0, b, h, hst => by
      rw [Exact, hst b self_mem_blocks]
      exact h
  | l + 1, b, h, hst => by
      rw [Exact, hst b self_mem_blocks]
      intro t ht
      obtain ⟨hexact, hne, hbox⟩ := h t ht
      have hsub : ∀ x ∈ nodes.blocks st l t.tTid.blkno, (st' x).items = (st x).items := fun x hx =>
        hst x (List.mem_cons_of_mem _ (blocks_subset_forest (List.mem_map_of_mem ht) hx))
      have hself := hsub _ self_mem_blocks
      rw [hself, rtreePageMbr_congr hself]
      exact ⟨hexact.congr hsub, hne, hbox⟩

theorem Boxed.congr (h : Boxed st l b box)
    (hst : ∀ x ∈ nodes.blocks st l b, (st' x).items = (st x).items) : Boxed st' l b box := by
  obtain ⟨hexact, hne, hbox⟩ := h
  have hself := hst b self_mem_blocks
  refine ⟨hexact.congr hst, by rwa [hself], ?_⟩
  rw [hbox, rtreePageMbr_congr hself]

/-- **The boxes of an exact tree are least.** -/
theorem Boxed.isLeastBox : ∀ {l : Nat} {b : BlockNumber} {box : RTreeTemporalBox}, Boxed st l b box →
    IsLeastBox (itemBoxes (nodes.leaves st l b)) box ∧ BoundedBox box
  | 0, b, box, ⟨hexact, hne, hbox⟩ => by
      have hleast := rtreePageMbr_isLeastBox hne hexact
      rw [hbox]
      exact ⟨hleast, hleast.boundedBox (itemBoxes_bounded hexact)⟩
  | l + 1, b, box, ⟨hexact, hne, hbox⟩ => by
      have hlinks := exact_succ.mp hexact
      have hkids : ∀ t ∈ (st b).items, ∃ c, rtreeIndexTupleBox t = some c ∧
          IsLeastBox (itemBoxes (nodes.leaves st l t.tTid.blkno)) c ∧ BoundedBox c := by
        intro t ht
        obtain ⟨c, hc, hboxed⟩ := hlinks t ht
        exact ⟨c, hc, hboxed.isLeastBox⟩
      have hbounded : ∀ t ∈ (st b).items, BoundedTuple t := by
        intro t ht
        obtain ⟨c, hc, -, hb⟩ := hkids t ht
        exact ⟨c, hc, hb⟩
      have hleast := rtreePageMbr_isLeastBox hne hbounded
      rw [hbox]
      refine ⟨?_, hleast.boundedBox (itemBoxes_bounded hbounded)⟩
      have hunion : itemBoxes (nodes.leaves st (l + 1) b) =
          ⋃ t ∈ {t | t ∈ (st b).items}, itemBoxes (nodes.leaves st l t.tTid.blkno) := by
        ext c
        simp [itemBoxes, leaves_succ, forestLeaves, nodes]
        grind
      rw [hunion]
      refine hleast.biUnion ?_ ?_
      · rintro c ⟨t, ht, hc⟩
        obtain ⟨c', hc', hleast', -⟩ := hkids t ht
        rw [hc'] at hc
        exact ⟨t, ht, Option.some.inj hc ▸ hleast'⟩
      · intro t ht
        obtain ⟨c, hc, hleast', -⟩ := hkids t ht
        exact ⟨c, ⟨t, ht, hc⟩, hleast'⟩

theorem Boxed.boundedBox (h : Boxed st l b box) : BoundedBox box := h.isLeastBox.2

/-- A downlink formed with the box of an exact tree. -/
theorem Boxed.links {tid : ItemPointerData} (h : Boxed st l tid.blkno box) :
    Links st l (rtreeFormTuple box tid) :=
  ⟨box, congrArg some h.boundedBox.roundTrip, h⟩

theorem Links.congr {t : IndexTuple} (h : Links st l t)
    (hst : ∀ x ∈ nodes.blocks st l t.tTid.blkno, (st' x).items = (st x).items) : Links st' l t := by
  obtain ⟨box, hbox, hboxed⟩ := h
  exact ⟨box, hbox, hboxed.congr hst⟩

/-- The trees inside an exact tree. -/
theorem Exact.below {m : Nat} {c : BlockNumber} (h : Exact st l b) (hbel : nodes.Below st m c l b) :
    Exact st m c := by
  induction hbel with
  | here => exact h
  | down hk _ ih =>
      obtain ⟨t, ht, rfl⟩ := List.mem_map.mp hk
      exact ih (h t ht).1

/-- The leaf tuples of an exact tree. -/
theorem Exact.leaves : ∀ {l : Nat} {b : BlockNumber}, Exact st l b → ∀ t ∈ nodes.leaves st l b, BoundedTuple t
  | 0, _, h => h
  | l + 1, b, h => by
      intro u hu
      obtain ⟨c, hc, hu⟩ := List.mem_flatMap.mp hu
      obtain ⟨t, ht, rfl⟩ := List.mem_map.mp hc
      exact (h t ht).1.leaves u hu

end Exact

/-- What `Exact` asks of a tuple on a page of level `l`. -/
def ItemExact (st : BlockNumber → DataPage) : Nat → IndexTuple → Prop
  | 0, t => BoundedTuple t
  | l + 1, t => Links st l t

theorem exact_iff {st : BlockNumber → DataPage} {l : Nat} {b : BlockNumber} :
    Exact st l b ↔ ∀ t ∈ (st b).items, ItemExact st l t := by
  cases l with
  | zero => exact Iff.rfl
  | succ l => exact exact_succ

/-! ## Insertion -/

section Insert
variable {env : Env} {itup : IndexTuple} {box : RTreeTemporalBox} {pages pages₁ pages' : List Page}
  {blk : BlockNumber} {level : Nat} {res : RTreeInsertResult} {evs : List Event}

/-- A page that is written in place. -/
theorem boxed_set {page : DataPage} (hblk : blk < pages.length) (hne : page.items ≠ [])
    (hitems : ∀ t ∈ page.items, ItemExact (pageAt (pages.set blk (.data page))) level t) :
    Boxed (pageAt (pages.set blk (.data page))) level blk (rtreePageMbr page) := by
  have hself : pageAt (pages.set blk (.data page)) blk = page := pageAt_set_self hblk
  refine ⟨exact_iff.mpr ?_, ?_, by rw [hself]⟩
  · rw [hself]
    exact hitems
  · rw [hself]
    exact hne

/-- Both halves of a split page. -/
theorem boxed_splitPages {newitup : IndexTuple} {newbox : RTreeTemporalBox} {l : Nat} {flags : PageFlags}
    (hblk : blk < pages.length) (hne : (pageAt pages blk).items ≠ [])
    (hitems : ∀ t ∈ (pageAt pages blk).items ++ [newitup],
      ItemExact (pageAt (splitPages pages blk newitup newbox l flags)) level t) :
    Boxed (pageAt (splitPages pages blk newitup newbox l flags)) level blk
        (splitResult pages blk newitup newbox l flags).leftBox ∧
      ∀ right ∈ (splitResult pages blk newitup newbox l flags).split,
        Boxed (pageAt (splitPages pages blk newitup newbox l flags)) level right.rightBlkno right.rightBox := by
  have hspec := split_spec (pageAt pages blk) newitup newbox l flags pages.length
  have hleft : pageAt (splitPages pages blk newitup newbox l flags) blk = _ := pageAt_splitPages_left hblk
  have hright : pageAt (splitPages pages blk newitup newbox l flags) pages.length = _ := pageAt_splitPages_right
  refine ⟨⟨exact_iff.mpr ?_, ?_, ?_⟩, ?_⟩
  · rw [hleft]
    exact fun t ht => hitems t (hspec.items_le.subset (List.mem_append_left _ ht))
  · rw [hleft]
    exact hspec.left_ne hne
  · rw [hleft]
    rfl
  · rintro right hr
    obtain rfl := Option.some.inj hr
    refine ⟨exact_iff.mpr ?_, ?_, ?_⟩
    · rw [hright]
      exact fun t ht => hitems t (hspec.items_le.subset (List.mem_append_right _ ht))
    · rw [hright]
      exact hspec.right_ne hne
    · rw [hright]

/-- The downlinks of an inner page after the recursive call, when only the page itself is written after it. -/
theorem ChoosesChild.links {pos : Nat} {childitup : IndexTuple} {new : List BlockNumber}
    (hchild : ChoosesChild (pageAt pages blk) box pos childitup)
    (hf : nodes.Forest NodeOk (pageAt pages) (level + 1) [blk])
    (halloc : ∀ x ∈ nodes.forestBlocks (pageAt pages) (level + 1) [blk], x ∈ allocated pages)
    (hspec : InsertSpec itup pages childitup.tTid.blkno level (childitup.tTid.blkno :: new) pages₁ evs)
    (hst : ∀ x < pages₁.length, x ≠ blk → pageAt pages' x = pageAt pages₁ x)
    (hexact : Exact (pageAt pages) (level + 1) blk) :
    (∀ t ∈ (pageAt pages blk).items.eraseIdx pos, Links (pageAt pages') level t) ∧
      ∀ c ∈ childitup.tTid.blkno :: new, ∀ {b}, Boxed (pageAt pages₁) level c b →
        Boxed (pageAt pages') level c b := by
  obtain ⟨hpos, hget⟩ := List.getElem?_eq_some_iff.mp hchild.item
  have hrest : (childitup.tTid.blkno :: ((pageAt pages blk).items.eraseIdx pos).map fun t => t.tTid.blkno).Perm
      (nodes.kids (pageAt pages blk)) := by
    have hperm := (List.getElem_cons_eraseIdx_perm hpos).map fun t => t.tTid.blkno
    rwa [hget] at hperm
  obtain ⟨hf', hin, hupd⟩ := hspec.siblings hf halloc hrest
  have hblk : blk ∈ allocated pages := halloc blk (by simp [self_mem_blocks])
  -- the page itself is none of the blocks below it, and the others are as the call left them
  have hframe : ∀ x ∈ nodes.forestBlocks (pageAt pages₁) level ((childitup.tTid.blkno :: new) ++
      ((pageAt pages blk).items.eraseIdx pos).map fun t => t.tTid.blkno),
      (pageAt pages' x).items = (pageAt pages₁ x).items := by
    intro x hx
    have hlt : x < pages₁.length := by
      rcases hupd.mem x hx with hx | hx
      · refine hupd.alloc_le (halloc x ?_)
        simpa [blocks_succ] using Or.inr hx
      · exact hx.1
    rw [hst x hlt]
    rintro rfl
    exact hupd.top_notMem hf hblk hx
  refine ⟨fun t ht => ?_, fun c hc b hb => ?_⟩
  · have hmem : t.tTid.blkno ∈ ((pageAt pages blk).items.eraseIdx pos).map fun t => t.tTid.blkno :=
      List.mem_map_of_mem ht
    have hlinks : Links (pageAt pages₁) level t :=
      (exact_succ.mp hexact t (List.mem_of_mem_eraseIdx ht)).congr fun x hx => by
        rw [hspec.update.frame_rest hf' hin x (blocks_subset_forest hmem hx)]
    exact hlinks.congr fun x hx => hframe x (blocks_subset_forest (List.mem_append_right _ hmem) hx)
  · exact hb.congr fun x hx => hframe x (blocks_subset_forest (List.mem_append_left _ hc) hx)

/-- The followed child of an exact tree. -/
theorem ChoosesChild.exact {st : BlockNumber → DataPage} {pos : Nat} {childitup : IndexTuple}
    (h : ChoosesChild (st blk) box pos childitup) (hexact : Exact st (level + 1) blk) :
    Exact st level childitup.tTid.blkno :=
  (hexact childitup (List.mem_of_getElem? h.item)).1

/-- The tuples of a page whose followed downlink was refreshed. -/
theorem ChoosesChild.mem_replace {page page₂ : DataPage} {pos : Nat} {childitup newitup t : IndexTuple}
    (h : ChoosesChild page box pos childitup) (hrep : rtreeReplaceTuple page (pos + 1) newitup = some page₂)
    (ht : t ∈ page₂.items) : t = newitup ∨ t ∈ page.items.eraseIdx pos := by
  obtain ⟨hpos, -⟩ := List.getElem?_eq_some_iff.mp h.item
  rw [(rtreeReplaceTuple_items hpos hrep).1] at ht
  exact List.mem_cons.mp ((List.set_perm_cons_eraseIdx hpos newitup).mem_iff.mp ht)

/-- The downlinks of an inner page whose followed one was refreshed. -/
theorem ChoosesChild.replace_links {pos : Nat} {childitup : IndexTuple} {new : List BlockNumber}
    {childBox : RTreeTemporalBox} {page₂ : DataPage}
    (hchild : ChoosesChild (pageAt pages blk) box pos childitup)
    (hf : nodes.Forest NodeOk (pageAt pages) (level + 1) [blk])
    (halloc : ∀ x ∈ nodes.forestBlocks (pageAt pages) (level + 1) [blk], x ∈ allocated pages)
    (hspec : InsertSpec itup pages childitup.tTid.blkno level (childitup.tTid.blkno :: new) pages₁ evs)
    (hst : ∀ x < pages₁.length, x ≠ blk → pageAt pages' x = pageAt pages₁ x)
    (hexact : Exact (pageAt pages) (level + 1) blk)
    (hrep : rtreeReplaceTuple (pageAt pages blk) (pos + 1) (rtreeFormTuple childBox childitup.tTid) = some page₂)
    (hbox : Boxed (pageAt pages₁) level childitup.tTid.blkno childBox) :
    ∀ t ∈ page₂.items, Links (pageAt pages') level t := by
  obtain ⟨hothers, hnew⟩ := hchild.links hf halloc hspec hst hexact
  intro t ht
  rcases hchild.mem_replace hrep ht with rfl | ht
  · exact (hnew _ List.mem_cons_self hbox).links
  · exact hothers t ht

/-- The same with the downlink to the child's other half. -/
theorem ChoosesChild.split_links {pos : Nat} {childitup : IndexTuple} {right : SplitRight}
    {childBox : RTreeTemporalBox} {page₂ : DataPage}
    (hchild : ChoosesChild (pageAt pages blk) box pos childitup)
    (hf : nodes.Forest NodeOk (pageAt pages) (level + 1) [blk])
    (halloc : ∀ x ∈ nodes.forestBlocks (pageAt pages) (level + 1) [blk], x ∈ allocated pages)
    (hspec : InsertSpec itup pages childitup.tTid.blkno level [childitup.tTid.blkno, right.rightBlkno] pages₁ evs)
    (hst : ∀ x < pages₁.length, x ≠ blk → pageAt pages' x = pageAt pages₁ x)
    (hexact : Exact (pageAt pages) (level + 1) blk)
    (hrep : rtreeReplaceTuple (pageAt pages blk) (pos + 1) (rtreeFormTuple childBox childitup.tTid) = some page₂)
    (hbox : Boxed (pageAt pages₁) level childitup.tTid.blkno childBox)
    (hright : Boxed (pageAt pages₁) level right.rightBlkno right.rightBox) :
    ∀ t ∈ page₂.items ++ [rightTuple right], Links (pageAt pages') level t := by
  intro t ht
  rcases List.mem_append.mp ht with ht | ht
  · exact hchild.replace_links hf halloc hspec hst hexact hrep hbox t ht
  · rw [List.mem_singleton.mp ht]
    exact ((hchild.links hf halloc hspec hst hexact).2 _ (by simp) hright).links

/-- **A descent keeps the trees exact and returns their boxes.** -/
theorem Inserts.boxed (h : Inserts env itup box pages blk level res pages' evs)
    (hkey : itup.key.isSome = true) (hitup : BoundedTuple itup)
    (hf : nodes.Forest NodeOk (pageAt pages) level [blk])
    (halloc : ∀ x ∈ nodes.forestBlocks (pageAt pages) level [blk], x ∈ allocated pages)
    (hexact : Exact (pageAt pages) level blk) :
    Boxed (pageAt pages') level blk res.leftBox ∧
      ∀ right ∈ res.split, Boxed (pageAt pages') level right.rightBlkno right.rightBox := by
  have hleaf : ∀ {b}, Exact (pageAt pages) 0 b → ∀ t ∈ (pageAt pages b).items ++ [itup], BoundedTuple t := by
    intro b hexact t ht
    rcases List.mem_append.mp ht with ht | ht
    · exact hexact t ht
    · exact List.mem_singleton.mp ht ▸ hitup
  induction h with
  | @leafAdd blk level page' hblk hl hroom hadd =>
      obtain rfl := level_eq_zero_of_leaf hf hl
      refine ⟨boxed_set hblk (pageAddItem_ne_nil hadd).1 ?_, by simp⟩
      rw [(pageAddItem_items hadd).1]
      exact hleaf hexact
  | @leafSplit blk level hblk hl hfull hext =>
      obtain rfl := level_eq_zero_of_leaf hf hl
      exact boxed_splitPages hblk (items_ne_nil_of_full hfull) (hleaf hexact)
  | @innerKeep pages₁ blk level pos childitup childBox page₂ evs hblk hchild hrec hrep ih =>
      obtain ⟨hspec, hsame⟩ := hchild.descend hf halloc (hrec.spec hkey)
      obtain ⟨hf', halloc'⟩ := hchild.forest hf halloc
      obtain ⟨hbox, -⟩ := ih hf' halloc' (hchild.exact hexact)
      rw [hsame] at hrep
      refine ⟨boxed_set (Nat.lt_of_lt_of_le hblk hrec.length_le) (rtreeReplaceTuple_ne_nil hrep).1 ?_, by simp⟩
      exact hchild.replace_links hf halloc hspec (fun x _ hx => pageAt_set_ne hx) hexact hrep hbox
  | @innerAdd pages₁ blk level pos childitup childBox right page₂ page₃ evs hblk hchild hrec hrep hroom hadd
      ih =>
      obtain ⟨hspec, hsame⟩ := hchild.descend hf halloc (hrec.spec hkey)
      obtain ⟨hf', halloc'⟩ := hchild.forest hf halloc
      obtain ⟨hbox, hright⟩ := ih hf' halloc' (hchild.exact hexact)
      rw [hsame] at hrep
      refine ⟨boxed_set (Nat.lt_of_lt_of_le hblk hrec.length_le) (pageAddItem_ne_nil hadd).1 ?_, by simp⟩
      rw [(pageAddItem_items hadd).1]
      exact hchild.split_links hf halloc hspec (fun x _ hx => pageAt_set_ne hx) hexact hrep hbox
        (hright right rfl)
  | @innerSplit pages₁ blk level pos childitup childBox right page₂ evs hblk hchild hrec hrep hfull hext ih =>
      obtain ⟨hspec, hsame⟩ := hchild.descend hf halloc (hrec.spec hkey)
      obtain ⟨hf', halloc'⟩ := hchild.forest hf halloc
      obtain ⟨hbox, hright⟩ := ih hf' halloc' (hchild.exact hexact)
      rw [hsame] at hrep
      have hblk₁ : blk < pages₁.length := Nat.lt_of_lt_of_le hblk hrec.length_le
      have hself : pageAt (pages₁.set blk (.data page₂)) blk = page₂ := pageAt_set_self hblk₁
      have hst : ∀ x < pages₁.length, x ≠ blk → pageAt (splitPages (pages₁.set blk (.data page₂)) blk
          (rightTuple right) right.rightBox (level + 1) page₂.special.flags) x = pageAt pages₁ x := by
        intro x hx hne
        rw [pageAt_splitPages_of_ne hne (by rw [List.length_set]; exact Nat.ne_of_lt hx), pageAt_set_ne hne]
      refine boxed_splitPages (by rwa [List.length_set]) ?_ ?_
      · rw [hself]
        exact (rtreeReplaceTuple_ne_nil hrep).1
      · rw [hself]
        exact hchild.split_links hf halloc hspec hst hexact hrep hbox (hright right rfl)

end Insert

/-- The tree of the index is exact. -/
def ExactIndex (pages : List Page) : Prop :=
  Exact (pageAt pages) (metaAt pages).rootLevel (metaAt pages).root

/-- A tree apart from the meta page that the meta page comes to name. -/
theorem ExactIndex.ofMeta {pages : List Page} {root : BlockNumber} {level : Nat}
    (hrange : ∀ x ∈ nodes.blocks (pageAt pages) level root, 0 < x ∧ x < pages.length)
    (h : Exact (pageAt pages) level root) : ExactIndex (metaPages pages root level) := by
  have hpos : 0 < pages.length := Nat.lt_of_le_of_lt (Nat.zero_le _) (hrange root self_mem_blocks).2
  have hmeta : metaAt (metaPages pages root level) =
      { metaAt pages with root := root, rootLevel := level } := metaAt_set_zero hpos
  rw [ExactIndex, hmeta]
  refine h.congr fun x hx => ?_
  rw [metaPages, pageAt_set_ne (Nat.pos_iff_ne_zero.mp (hrange x hx).1)]

/-- **An insert.** -/
theorem InsertsTuple.exactIndex {env : Env} {itup : IndexTuple} {box : RTreeTemporalBox}
    {pages pages' : List Page} {evs : List Event} (h : InsertsTuple env itup box pages pages' evs)
    (hkey : itup.key.isSome = true) (hitup : BoundedTuple itup) (hwf : WF pages) (hexact : ExactIndex pages) :
    ExactIndex pages' := by
  cases h with
  | keep hlen hmagic hins =>
      obtain ⟨⟨hroot, -⟩, -⟩ := hins.boxed hkey hitup hwf.tree hwf.halloc hexact
      rw [ExactIndex, hins.metaAt_eq hwf.zero_notMem]
      exact hroot
  | @promote pages₁ leftBox right evs hlen hmagic hins hext =>
      obtain ⟨hleft, hright⟩ := hins.boxed hkey hitup hwf.tree hwf.halloc hexact
      obtain ⟨-, -, -, -, hrange₁, hrange⟩ := hins.promoted hkey hwf
      have hblk : (metaAt pages).root < pages₁.length := Nat.lt_of_lt_of_le hins.lt_length hins.length_le
      -- the halves keep their tuples
      have hitems : ∀ x ∈ nodes.forestBlocks (pageAt pages₁) (metaAt pages).rootLevel
          [(metaAt pages).root, right.rightBlkno],
          (pageAt (promotedPages pages₁ (metaAt pages).root leftBox right (metaAt pages).rootLevel) x).items =
            (pageAt pages₁ x).items := by
        intro x hx
        rw [promotedPages, pageAt_append_of_lt (by rw [List.length_set]; exact (hrange₁ x hx).2),
          items_clearRootFlag hblk]
      refine ExactIndex.ofMeta hrange (exact_succ.mpr ?_)
      obtain ⟨added, hsub, hadded, -, -⟩ := addItems_items
        (rtreeInitDatapage { root := true } ((metaAt pages).rootLevel + 1))
        [rtreeFormTuple leftBox (childTid (metaAt pages).root), rightTuple right]
      rw [pageAt_promotedPages_self, promotedRoot, hadded]
      intro t ht
      have ht := hsub.subset ht
      rw [List.mem_pair] at ht
      rcases ht with rfl | rfl
      · refine Boxed.links (hleft.congr fun x hx => hitems x ?_)
        exact blocks_subset_forest List.mem_cons_self hx
      · refine Boxed.links ((hright right rfl).congr fun x hx => hitems x ?_)
        exact blocks_subset_forest (by simp) hx

/-! ## Bulk deletion -/

section Delete
variable {env : Env} {callback : IndexBulkDeleteCallback} {pages pages₁ pages' : List Page}
  {walked : List (BlockNumber × RTreeTemporalBox)} {evs evs' : List Event}

/-- A walk from the root of a tree of bounded tuples, whatever the boxes in its downlinks. -/
theorem Vacuums.exactIndex_of_bounded (h : Vacuums env callback pages [(metaAt pages).root] walked pages' evs)
    (hwf : WF pages)
    (hleaves : ∀ t ∈ nodes.leaves (pageAt pages) (metaAt pages).rootLevel (metaAt pages).root, BoundedTuple t)
    (hmeta : metaAt pages' = metaAt pages) : ExactIndex pages' := by
  rw [ExactIndex, hmeta]
  rcases h.single with ⟨-, hitems⟩ | ⟨box, rfl⟩
  · exact exact_iff.mpr fun t ht => absurd ht (by simp [hitems])
  · have hboxed : Boxed (pageAt pages') (metaAt pages).rootLevel (metaAt pages).root box := by
      refine h.trees (G := BoundedTuple) (T := Boxed) (fun hcongr hT => hT.congr fun x hx => by rw [hcongr x hx])
        ?_ ?_ hwf.tree hwf.halloc ?_ _ (List.mem_singleton.mpr rfl)
      · intro st b kept hne hitems hkept
        refine ⟨?_, ?_, aggregateBox_eq_mbr hitems fun p hp => (hkept p hp).1⟩
        · rw [Exact, hitems]
          intro t ht
          obtain ⟨p, hp, rfl⟩ := List.mem_map.mp ht
          exact (hkept p hp).2
        · rw [hitems]
          simpa using hne
      · intro st l b kids hne hitems hkids
        have hne' : downlinksTo kids ≠ [] := by simpa [downlinksTo] using hne
        have hlinks : ∀ p ∈ downlinksTo kids, rtreeIndexTupleBox p.1 = some p.2 ∧ Links st l p.1 := by
          intro p hp
          obtain ⟨w, hw, rfl⟩ := List.mem_map.mp hp
          exact ⟨congrArg some (hkids w hw).boundedBox.roundTrip, Boxed.links (hkids w hw)⟩
        refine ⟨exact_succ.mpr ?_, ?_, aggregateBox_eq_mbr hitems fun p hp => (hlinks p hp).1⟩
        · rw [hitems]
          intro t ht
          obtain ⟨p, hp, rfl⟩ := List.mem_map.mp ht
          exact (hlinks p hp).2
        · rw [hitems]
          simpa using hne'
      · intro t ht
        exact hleaves t (by simpa using ht)
    exact hboxed.1

/-- A walk from the root. -/
theorem Vacuums.exactIndex (h : Vacuums env callback pages [(metaAt pages).root] walked pages' evs)
    (hwf : WF pages) (hexact : ExactIndex pages) (hmeta : metaAt pages' = metaAt pages) :
    ExactIndex pages' :=
  h.exactIndex_of_bounded hwf (Exact.leaves hexact) hmeta

/-- The tuples of an only child, once they are on the root's page. -/
theorem WF.hoist_items {l : Nat} {childitup : IndexTuple} (hwf : WF pages)
    (hl : (metaAt pages).rootLevel = l + 1)
    (hitems : (pageAt pages (metaAt pages).root).items = [childitup])
    (hexact : Exact (pageAt pages) (l + 1) (metaAt pages).root) :
    ∀ t ∈ (pageAt pages childitup.tTid.blkno).items, ItemExact (pageAt (pages.set (metaAt pages).root
      (.data (collapsedRoot (pageAt pages childitup.tTid.blkno))))) l t := by
  have hf := hwf.tree
  rw [hl] at hf
  have hchild : Exact (pageAt pages) l childitup.tTid.blkno := (hexact childitup (by simp [hitems])).1
  intro t ht
  have hitem := exact_iff.mp hchild t ht
  cases l with
  | zero => exact hitem
  | succ l =>
      refine Links.congr hitem fun x hx => ?_
      rw [pageAt_set_ne]
      rintro rfl
      refine hf.kids.2.2 (blocks_subset_forest (List.mem_map_of_mem (by rw [hitems]; exact List.mem_cons_self)) ?_)
      exact List.mem_cons_of_mem _ (blocks_subset_forest (List.mem_map_of_mem ht) hx)

/-- **A bulk deletion.** -/
theorem ShrinksRoot.exactIndex (hexact : ExactIndex pages) (hv : WF pages ∨ Emptied pages)
    (h : ShrinksRoot env pages pages' evs') : ExactIndex pages' := by
  cases h with
  | stay => exact hexact
  | emptied hl hitems =>
      obtain ⟨h0, hlt⟩ : 0 < (metaAt pages).root ∧ (metaAt pages).root < pages.length := by
        rcases hv with hv | hv
        · exact hv.root_range
        · exact ⟨hv.root_pos, hv.root_lt⟩
      refine ExactIndex.ofMeta (by simpa using ⟨h0, hlt⟩) ?_
      rw [Exact, pageAt_set_self hlt]
      simp [rtreeInitDatapage]
  | @collapsed l childitup hl hitems =>
      have hwf : WF pages := hv.resolve_right fun hv => by simp [hv.items] at hitems
      obtain ⟨hlevel, hself, -, -, hblocks⟩ := hwf.hoist hl hitems
      have hrange := hwf.range
      rw [ExactIndex] at hexact
      rw [hl] at hrange hexact
      rw [collapsedPages, hlevel]
      refine ExactIndex.ofMeta ?_ (exact_iff.mpr ?_)
      · intro x hx
        rw [List.length_set]
        exact hrange x (hblocks hx)
      · rw [hself]
        exact hwf.hoist_items hl hitems hexact

end Delete

/-! ## Whole runs -/

/-- Exact boxes are an invariant of the operations on bounded keys. -/
theorem exactIndex_opInvariant (env : Env) : OpInvariant env BoundedTuple ExactIndex where
  init := by
    show ∀ t ∈ ([] : List IndexTuple), BoundedTuple t
    simp
  insert hwf hexact hkey hitup hins := hins.exactIndex hkey hitup hwf hexact
  delete hwf hexact hvac hv hmeta hshrinks := hshrinks.exactIndex (hvac.exactIndex hwf hexact hmeta) hv

/-- `u` is a tuple of a leaf page below `b`. -/
inductive LeafBelow (pages : List Page) (u : IndexTuple) : BlockNumber → Prop where
  | leaf {b : BlockNumber} (hleaf : (pageAt pages b).special.flags.leaf = true)
      (hu : u ∈ (pageAt pages b).items) : LeafBelow pages u b
  | down {b : BlockNumber} {t : IndexTuple} (hinner : (pageAt pages b).special.flags.leaf = false)
      (ht : t ∈ (pageAt pages b).items) (h : LeafBelow pages u t.tTid.blkno) : LeafBelow pages u b

theorem leafBelow_iff {pages : List Page} {u : IndexTuple} : ∀ {l : Nat} {b : BlockNumber},
    nodes.Holds NodeOk (pageAt pages) l b → (LeafBelow pages u b ↔ u ∈ nodes.leaves (pageAt pages) l b)
  | 0, b, h => by
      have hleaf : (pageAt pages b).special.flags.leaf = true := h.leaf_iff.mpr rfl
      constructor
      · rintro (⟨-, hu⟩ | ⟨hinner, -, -⟩)
        · exact hu
        · simp [hleaf] at hinner
      · exact fun hu => .leaf hleaf hu
  | l + 1, b, h => by
      have hinner : (pageAt pages b).special.flags.leaf = false := by
        cases hf : (pageAt pages b).special.flags.leaf with
        | true => exact absurd (h.1.leaf_iff.mp hf) (Nat.succ_ne_zero l)
        | false => rfl
      constructor
      · rintro (⟨hleaf, -⟩ | ⟨-, ht, hu⟩)
        · simp [hinner] at hleaf
        · have hkid : _ ∈ nodes.kids (pageAt pages b) := List.mem_map_of_mem ht
          exact List.mem_flatMap.mpr ⟨_, hkid, (leafBelow_iff (h.2 _ hkid)).mp hu⟩
      · intro hu
        obtain ⟨c, hc, hu⟩ := List.mem_flatMap.mp hu
        obtain ⟨t, ht, rfl⟩ := List.mem_map.mp hc
        exact .down hinner ht ((leafBelow_iff (h.2 _ hc)).mpr hu)

/-- **Exact bounding boxes.** After every run of operations that brings in bounded keys only, every downlink
    reachable from the root decodes to the least box over the boxes of the leaf tuples below it; what one of these
    overlaps, the downlink's box overlaps. -/
theorem runOps_exactBoxes {env : Env} {ops : List Op} {s : Rel}
    (hkeys : ∀ op ∈ ops, ∀ row ∈ op.rows, ∀ cube ∈ row.key, BoundedKey cube)
    (hrun : runOps env ops { pages := [] } = .ok () s) {d : Nat} {b : BlockNumber} {t : IndexTuple}
    (hb : Reachable s.pages d b) (hinner : (pageAt s.pages b).special.flags.leaf = false)
    (ht : t ∈ (pageAt s.pages b).items) :
    ∃ box, rtreeIndexTupleBox t = some box ∧
      IsLeastBox {c | ∃ u, LeafBelow s.pages u t.tTid.blkno ∧ rtreeIndexTupleBox u = some c} box ∧
      ∀ {u c query}, LeafBelow s.pages u t.tTid.blkno → rtreeIndexTupleBox u = some c →
        rtreeBoxOverlaps c query = true → rtreeBoxOverlaps box query = true := by
  have hmeets : Meets ExactIndex s.pages := by
    refine (exactIndex_opInvariant env).runOps (fun op hop row hrow hsome => ?_) (Or.inl rfl) hrun
    obtain ⟨cube, hcube⟩ := Option.isSome_iff_exists.mp hsome
    refine ⟨rtreeCubeToBox cube, ?_, (hkeys op hop row hrow cube hcube).boundedBox⟩
    simp [rtreeIndexTupleBox, HeapRow.tuple, hcube]
  rcases hmeets with hnil | ⟨hwf, hexact⟩
  · simp [hnil, pageAt, Page.asData] at ht
  · obtain ⟨m, -, hbel⟩ := hb.below_root hwf
    have hholds := hbel.holds (hwf.tree.holds _ (List.mem_singleton.mpr rfl))
    obtain ⟨l, rfl⟩ := hholds.node.level_of_inner hinner
    obtain ⟨box, hbox, hboxed⟩ := exact_succ.mp (hexact.below hbel) t ht
    have hset : {c | ∃ u, LeafBelow s.pages u t.tTid.blkno ∧ rtreeIndexTupleBox u = some c} =
        itemBoxes (nodes.leaves (pageAt s.pages) l t.tTid.blkno) := by
      ext c
      simp only [leafBelow_iff (hholds.2 _ (List.mem_map_of_mem ht))]
      rfl
    have hleast := hboxed.isLeastBox.1
    rw [← hset] at hleast
    exact ⟨box, hbox, hleast, fun hu hc hover => hleast.overlaps ⟨_, hu, hc⟩ hover⟩

/-- A row of the period from `10 * i` to `10 * i + 5`. -/
def periodRow (i : Nat) : HeapRow where
  tid := { blkno := 0, offnum := i + 1 }
  key := rowCube 5 (10 * i) (.fin (10 * i + 5))

theorem periodRow_bounded {i : Nat} (hi : i < 157) : ∀ cube ∈ (periodRow i).key, BoundedKey cube := by
  intro cube hcube
  obtain rfl := Option.some.inj hcube
  have hi' : (i : ℚ) < 157 := by exact_mod_cast hi
  have hi0 : (0 : ℚ) ≤ i := Nat.cast_nonneg i
  refine ⟨rfl, ⟨5, by decide, by decide, rfl⟩, ⟨5, by decide, by decide, rfl⟩, ⟨10 * i, ?_, rfl⟩,
    ⟨10 * i + 5, ?_, rfl⟩⟩
  · rw [abs_of_nonneg (by linarith)]
    linarith
  · rw [abs_of_nonneg (by linarith)]
    linarith

/-- One row more than a page holds, so that the root is split. -/
theorem runOps_exactBoxes_split_root :
    ∃ s, runOps roomyEnv [.build ((List.range 157).map periodRow)] { pages := [] } = .ok () s ∧
      (metaAt s.pages).rootLevel = 1 ∧ (pageAt s.pages (metaAt s.pages).root).items ≠ [] ∧
      ∀ t ∈ (pageAt s.pages (metaAt s.pages).root).items, ∃ box, rtreeIndexTupleBox t = some box ∧
        IsLeastBox {c | ∃ u, LeafBelow s.pages u t.tTid.blkno ∧ rtreeIndexTupleBox u = some c} box := by
  have hok : okWith (fun _ s => decide (s.pages.length ≠ 0 ∧ (metaAt s.pages).rootLevel = 1))
      (runOps roomyEnv [.build ((List.range 157).map periodRow)] { pages := [] }) = true := by decide +kernel
  obtain ⟨u, s, hrun, hs⟩ := exists_of_okWith hok
  obtain ⟨hlen, hlevel⟩ := of_decide_eq_true hs
  have hwf : WF s.pages := (runOps_valid (Or.inl rfl) hrun).resolve_left fun hnil => by simp [hnil] at hlen
  have hp := (hwf.tree.holds _ (List.mem_singleton.mpr rfl)).node
  rw [hlevel] at hp
  have hinner : (pageAt s.pages (metaAt s.pages).root).special.flags.leaf = false := by
    simpa using hp.leaf_iff
  refine ⟨s, hrun, hlevel, hp.inner_ne Nat.one_ne_zero, fun t ht => ?_⟩
  obtain ⟨box, hbox, hleast, -⟩ := runOps_exactBoxes (fun op hop row hrow => by
    obtain rfl := List.mem_singleton.mp hop
    obtain ⟨i, hi, rfl⟩ := List.mem_map.mp hrow
    exact periodRow_bounded (List.mem_range.mp hi)) hrun .root hinner ht
  exact ⟨box, hbox, hleast⟩

end TemporalRTree
