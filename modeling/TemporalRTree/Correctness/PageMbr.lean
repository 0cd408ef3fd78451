import TemporalRTree.Model.Vacuum
import Mathlib.Data.Multiset.Lattice

/-!
# `Correctness.PageMbr` — the bounding box of a page is a join

`tr_union` takes the smaller and the larger bounds, the union of the infinity flags and the larger `dims`, and
passes over a box that is `EMPTY`. With the box the folds start from as the only `EMPTY` one, that is a join
with a least element (`JoinBox`): what order and grouping do not change is then a fact about suprema of
multisets.

The two folds of the source differ in how they start. `rtree_page_mbr` keeps a flag `first`, `rtree_vacuum_page`
tests the accumulator for `EMPTY`; both give the supremum of the boxes (`rtreePageMbr_eq_sup`,
`foldl_aggregateStep`).
-/

namespace TemporalRTree

/-! ## `tr_union` -/

section Union
variable {a b c : RTreeTemporalBox}

@[simp] theorem trUnion_empty : (trUnion a b).flags.empty = (a.flags.empty && b.flags.empty) := by
  cases ha : a.flags.empty with
  | true => rw [trUnion_of_empty ha, Bool.true_and]
  | false =>
      cases hb : b.flags.empty with
      | true => rw [trUnion_of_empty_right ha hb, ha, Bool.false_and]
      | false => rw [trUnion_of_nonempty ha hb, Bool.false_and]

theorem trUnion_self (a : RTreeTemporalBox) : trUnion a a = a := by
  cases h : a.flags.empty with
  | true => exact trUnion_of_empty h
  | false =>
      obtain ⟨lowerUs, upperUs, attrLo, attrHi, dims, empty, lowerInf, upperInf⟩ := a
      obtain rfl : empty = false := h
      simp [trUnion]

theorem trUnion_comm (ha : a.flags.empty = false) (hb : b.flags.empty = false) : trUnion a b = trUnion b a := by
  rw [trUnion_of_nonempty ha hb, trUnion_of_nonempty hb ha]
  simp only [max_comm, min_comm, Bool.or_comm]

theorem trUnion_assoc (a b c : RTreeTemporalBox) : trUnion (trUnion a b) c = trUnion a (trUnion b c) := by
  cases ha : a.flags.empty with
  | true => rw [trUnion_of_empty ha, trUnion_of_empty ha]
  | false =>
      cases hb : b.flags.empty with
      | true => rw [trUnion_of_empty_right ha hb, trUnion_of_empty hb]
      | false =>
          have hab : (trUnion a b).flags.empty = false := by simp [ha]
          cases hc : c.flags.empty with
          | true => rw [trUnion_of_empty_right hab hc, trUnion_of_empty_right hb hc]
          | false =>
              have hbc : (trUnion b c).flags.empty = false := by simp [hb]
              rw [trUnion_of_nonempty hab hc, trUnion_of_nonempty ha hbc, trUnion_of_nonempty ha hb,
                trUnion_of_nonempty hb hc]
              simp only [max_assoc, min_assoc, Bool.or_assoc]

/-- A box contains itself and what it was before a union. -/
theorem rtreeBoxContains_trUnion (ha : a.flags.empty = false) : rtreeBoxContains (trUnion a b) a = true := by
  rw [rtreeBoxContains_iff]
  cases hb : b.flags.empty with
  | true =>
      rw [trUnion_of_empty_right ha hb]
      exact ⟨ha, ha, le_rfl, le_rfl, le_rfl, le_rfl⟩
  | false =>
      rw [trUnion_of_nonempty ha hb]
      exact ⟨rfl, ha, min_le_left _ _, le_max_left _ _, min_le_left _ _, le_max_left _ _⟩

theorem rtreeBoxContains_trans (hab : rtreeBoxContains a b = true) (hbc : rtreeBoxContains b c = true) :
    rtreeBoxContains a c = true := by
  obtain ⟨ha, -, h1, h2, h3, h4⟩ := rtreeBoxContains_iff.mp hab
  obtain ⟨-, hc, g1, g2, g3, g4⟩ := rtreeBoxContains_iff.mp hbc
  exact rtreeBoxContains_iff.mpr ⟨ha, hc, h1.trans g1, g2.trans h2, h3.trans g3, g4.trans h4⟩

/-- What contains two boxes contains their union. -/
theorem rtreeBoxContains_trUnion_of (ha : rtreeBoxContains c a = true) (hb : rtreeBoxContains c b = true) :
    rtreeBoxContains c (trUnion a b) = true := by
  obtain ⟨hc, hea, ha1, ha2, ha3, ha4⟩ := rtreeBoxContains_iff.mp ha
  obtain ⟨-, heb, hb1, hb2, hb3, hb4⟩ := rtreeBoxContains_iff.mp hb
  rw [trUnion_of_nonempty hea heb, rtreeBoxContains_iff]
  exact ⟨hc, rfl, le_min ha1 hb1, max_le ha2 hb2, le_min ha3 hb3, max_le ha4 hb4⟩

end Union

/-! ## The join -/

/-- A box that is not `EMPTY`, or the one the folds start from. -/
@[ext] structure JoinBox where
  box : RTreeTemporalBox
  eq_emptyBox : box.flags.empty = true → box = emptyBox

namespace JoinBox

instance : Max JoinBox where
  max a b :=
    { box := trUnion a.box b.box
      eq_emptyBox := by
        intro h
        rw [trUnion_empty, Bool.and_eq_true] at h
        rw [trUnion_of_empty h.1, b.eq_emptyBox h.2] }

/-- Two boxes are both the least element, or one of them is not `EMPTY`. -/
theorem box_comm (a b : JoinBox) : trUnion a.box b.box = trUnion b.box a.box := by
  cases ha : a.box.flags.empty with
  | true =>
      cases hb : b.box.flags.empty with
      | true => rw [a.eq_emptyBox ha, b.eq_emptyBox hb]
      | false => rw [trUnion_of_empty ha, trUnion_of_empty_right hb ha]
  | false =>
      cases hb : b.box.flags.empty with
      | true => rw [trUnion_of_empty hb, trUnion_of_empty_right ha hb]
      | false => exact trUnion_comm ha hb

/-- `tr_union` is the join of an order. -/
instance : SemilatticeSup JoinBox :=
  SemilatticeSup.mk' (fun a b => JoinBox.ext (box_comm a b))
    (fun a b c => JoinBox.ext (trUnion_assoc a.box b.box c.box)) (fun a => JoinBox.ext (trUnion_self a.box))

@[simp] theorem box_sup (a b : JoinBox) : (a ⊔ b).box = trUnion a.box b.box := rfl

/-- The box the folds start from is below every box. -/
instance : OrderBot JoinBox where
  bot := { box := emptyBox, eq_emptyBox := fun _ => rfl }
  bot_le a := by
    apply sup_eq_right.mp
    apply JoinBox.ext
    show trUnion emptyBox a.box = a.box
    exact trUnion_of_empty rfl

@[simp] theorem box_bot : (⊥ : JoinBox).box = emptyBox := rfl

/-- Unions from left to right are a supremum. -/
theorem foldl_trUnion (boxes : List JoinBox) (acc : JoinBox) :
    (boxes.map box).foldl trUnion acc.box = (acc ⊔ (boxes : Multiset JoinBox).sup).box := by
  induction boxes generalizing acc with
  | nil => exact congrArg box (sup_bot_eq acc).symm
  | cons b rest ih =>
      rw [List.map_cons, List.foldl_cons, ← Multiset.cons_coe, Multiset.sup_cons, ← sup_assoc]
      exact ih (acc ⊔ b)

end JoinBox

/-! ## The boxes of a page -/

/-- A tuple with a key as an element of the join; a decoded box is never `EMPTY`. -/
def tupleJoinBox (itup : IndexTuple) : Option JoinBox :=
  itup.key.map fun cube => { box := rtreeCubeToBox cube, eq_emptyBox := fun h => nomatch h }

/-- The boxes on a page, in the order of the offsets. -/
def pageBoxes (page : DataPage) : List RTreeTemporalBox := page.items.filterMap rtreeIndexTupleBox

/-- The same boxes as elements of the join. -/
def pageJoinBoxes (page : DataPage) : List JoinBox := page.items.filterMap tupleJoinBox

section Page
variable {page page' : DataPage}

theorem map_box_pageJoinBoxes (page : DataPage) : (pageJoinBoxes page).map JoinBox.box = pageBoxes page := by
  unfold pageJoinBoxes pageBoxes
  rw [List.map_filterMap]
  apply List.filterMap_congr
  intro t _
  unfold tupleJoinBox rtreeIndexTupleBox
  rw [Option.map_map]
  rfl

theorem pageJoinBoxes_nonempty {b : JoinBox} (h : b ∈ pageJoinBoxes page) : b.box.flags.empty = false := by
  obtain ⟨t, -, ht⟩ := List.mem_filterMap.mp h
  obtain ⟨cube, -, rfl⟩ := Option.map_eq_some_iff.mp ht
  rfl

/-- One turn of the loop of `rtree_page_mbr`: the join, where `first` stands for the least element. -/
theorem mbrStep_map_box (acc : Option JoinBox) (t : IndexTuple) :
    mbrStep (acc.map JoinBox.box) t =
      (match tupleJoinBox t with
        | none => acc
        | some b => some (acc.getD ⊥ ⊔ b)).map JoinBox.box := by
  unfold mbrStep tupleJoinBox rtreeIndexTupleBox
  cases t.key with
  | none => rfl
  | some cube => cases acc <;> rfl

theorem foldl_mbrStep_map_box (items : List IndexTuple) (acc : Option JoinBox) :
    (items.foldl mbrStep (acc.map JoinBox.box)).getD emptyBox =
      (acc.getD ⊥ ⊔ (items.filterMap tupleJoinBox : Multiset JoinBox).sup).box := by
  induction items generalizing acc with
  | nil =>
      rw [List.filterMap_nil, Multiset.coe_nil, Multiset.sup_zero, sup_bot_eq]
      cases acc <;> rfl
  | cons t rest ih =>
      rw [List.foldl_cons, mbrStep_map_box]
      cases ht : tupleJoinBox t with
      | none =>
          rw [List.filterMap_cons_none ht]
          exact ih acc
      | some b =>
          rw [List.filterMap_cons_some ht, ← Multiset.cons_coe, Multiset.sup_cons, ← sup_assoc]
          exact ih (some (acc.getD ⊥ ⊔ b))

/-- **`rtree_page_mbr` is the supremum of the boxes on the page.** -/
theorem rtreePageMbr_eq_sup (page : DataPage) :
    rtreePageMbr page = ((pageJoinBoxes page : Multiset JoinBox).sup).box := by
  unfold rtreePageMbr pageJoinBoxes
  have h := foldl_mbrStep_map_box page.items none
  rwa [Option.getD_none, bot_sup_eq] at h

/-- **So is the aggregate of `rtree_vacuum_page`**, which tests its accumulator for `EMPTY` as `tr_union` does. -/
theorem foldl_aggregateStep (page : DataPage) :
    (pageBoxes page).foldl aggregateStep emptyBox = ((pageJoinBoxes page : Multiset JoinBox).sup).box := by
  have hstep : aggregateStep = trUnion := by
    funext a b
    unfold aggregateStep
    split
    next h => rw [trUnion_of_empty h]
    next => rfl
  rw [hstep, ← map_box_pageJoinBoxes, ← JoinBox.box_bot, JoinBox.foldl_trUnion, bot_sup_eq]

end Page

/-! ## Least upper bounds -/

/-- `mbr` is the least box over `boxes`, with their flags and dimensions; over no boxes it is the `EMPTY` box the
    folds start from. -/
structure BoundingBox (boxes : List RTreeTemporalBox) (mbr : RTreeTemporalBox) : Prop where
  contains : ∀ b ∈ boxes, rtreeBoxContains mbr b = true
  least : boxes ≠ [] → ∀ c, (∀ b ∈ boxes, rtreeBoxContains c b = true) → rtreeBoxContains c mbr = true
  empty : boxes = [] → mbr = emptyBox
  nonempty : boxes ≠ [] → mbr.flags.empty = false
  lowerInf : mbr.flags.lowerInf = boxes.any (·.flags.lowerInf)
  upperInf : mbr.flags.upperInf = boxes.any (·.flags.upperInf)
  dims : mbr.dims = (boxes.map RTreeTemporalBox.dims).foldr max 0

/-- One box more. -/
theorem BoundingBox.cons {boxes : List RTreeTemporalBox} {b mbr : RTreeTemporalBox} (h : BoundingBox boxes mbr)
    (hb : b.flags.empty = false) : BoundingBox (b :: boxes) (trUnion b mbr) := by
  rcases eq_or_ne boxes [] with hnil | hne
  · -- the first box is taken as it is
    subst hnil
    rw [h.empty rfl, trUnion_of_empty_right hb rfl]
    have hself : rtreeBoxContains b b = true := by
      have h := rtreeBoxContains_trUnion (b := b) hb
      rwa [trUnion_self] at h
    refine ⟨?_, ?_, ?_, fun _ => hb, ?_, ?_, ?_⟩
    · simpa using hself
    · intro _ c hc
      exact hc b List.mem_cons_self
    · exact fun h => absurd h (List.cons_ne_nil _ _)
    · simp
    · simp
    · simp
  · have hmbr := h.nonempty hne
    refine ⟨?_, ?_, fun h => absurd h (List.cons_ne_nil _ _), fun _ => by simp [hb], ?_, ?_, ?_⟩
    · intro a ha
      rcases List.mem_cons.mp ha with rfl | ha
      · exact rtreeBoxContains_trUnion hb
      · rw [trUnion_comm hb hmbr]
        exact rtreeBoxContains_trans (rtreeBoxContains_trUnion hmbr) (h.contains a ha)
    · intro _ c hc
      apply rtreeBoxContains_trUnion_of (hc b List.mem_cons_self)
      exact h.least hne c fun a ha => hc a (List.mem_cons_of_mem _ ha)
    · rw [trUnion_of_nonempty hb hmbr, List.any_cons, ← h.lowerInf]
    · rw [trUnion_of_nonempty hb hmbr, List.any_cons, ← h.upperInf]
    · rw [trUnion_of_nonempty hb hmbr, List.map_cons, List.foldr_cons, ← h.dims]

theorem JoinBox.sup_boundingBox (boxes : List JoinBox) (h : ∀ b ∈ boxes, b.box.flags.empty = false) :
    BoundingBox (boxes.map JoinBox.box) ((boxes : Multiset JoinBox).sup).box := by
  induction boxes with
  | nil =>
      refine ⟨?_, ?_, fun _ => rfl, ?_, rfl, rfl, rfl⟩
      · simp
      · simp
      · simp
  | cons b rest ih =>
      rw [List.map_cons, ← Multiset.cons_coe, Multiset.sup_cons, JoinBox.box_sup]
      exact (ih fun a ha => h a (List.mem_cons_of_mem _ ha)).cons (h b List.mem_cons_self)

/-- The boxes of several pages joined page by page. -/
theorem foldl_trUnion_mbrs (parts : List DataPage) :
    (parts.map rtreePageMbr).foldl trUnion emptyBox =
      ((parts.flatMap pageJoinBoxes : Multiset JoinBox).sup).box := by
  have hsup : ((parts.map fun page => (pageJoinBoxes page : Multiset JoinBox).sup : List JoinBox) :
      Multiset JoinBox).sup = (parts.flatMap pageJoinBoxes : Multiset JoinBox).sup := by
    induction parts with
    | nil => rfl
    | cons page rest ih =>
        rw [List.map_cons, ← Multiset.cons_coe, Multiset.sup_cons, List.flatMap_cons, ← Multiset.coe_add,
          Multiset.sup_add, ih]
  have hmap : parts.map rtreePageMbr =
      (parts.map fun page => (pageJoinBoxes page : Multiset JoinBox).sup).map JoinBox.box := by
    rw [List.map_map]
    exact List.map_congr_left fun page _ => rtreePageMbr_eq_sup page
  rw [hmap, ← JoinBox.box_bot, JoinBox.foldl_trUnion, bot_sup_eq, hsup]

/-- **`rtree_page_mbr` gives the least box over the boxes of a page, whatever their order and grouping, and the
    aggregate of `rtree_vacuum_page` is the same box.** -/
theorem rtreePageMbr_least_upper_bound (page : DataPage) :
    BoundingBox (pageBoxes page) (rtreePageMbr page) ∧
      (∀ page', (pageBoxes page').Perm (pageBoxes page) → rtreePageMbr page' = rtreePageMbr page) ∧
      (∀ parts : List DataPage, (parts.flatMap pageBoxes).Perm (pageBoxes page) →
        (parts.map rtreePageMbr).foldl trUnion emptyBox = rtreePageMbr page) ∧
      (pageBoxes page).foldl aggregateStep emptyBox = rtreePageMbr page ∧
      (∀ a b c, trUnion (trUnion a b) c = trUnion a (trUnion b c)) ∧
      (∀ a b, a.flags.empty = false → b.flags.empty = false → trUnion a b = trUnion b a) ∧
      (∀ a, trUnion a a = a) ∧
      ∀ a, a.flags.empty = false → trUnion emptyBox a = a ∧ trUnion a emptyBox = a := by
  have hinj : Function.Injective JoinBox.box := fun a b => JoinBox.ext
  have hparts : ∀ parts : List DataPage, (parts.flatMap pageBoxes).Perm (pageBoxes page) →
      (parts.map rtreePageMbr).foldl trUnion emptyBox = rtreePageMbr page := by
    intro parts hperm
    have hmap : parts.flatMap pageBoxes = (parts.flatMap pageJoinBoxes).map JoinBox.box := by
      simp only [List.map_flatMap, map_box_pageJoinBoxes]
    rw [hmap, ← map_box_pageJoinBoxes, List.map_perm_map_iff hinj] at hperm
    rw [foldl_trUnion_mbrs, rtreePageMbr_eq_sup, Multiset.coe_eq_coe.mpr hperm]
  refine ⟨?_, ?_, hparts, ?_, trUnion_assoc, fun a b => trUnion_comm, trUnion_self, ?_⟩
  · rw [← map_box_pageJoinBoxes, rtreePageMbr_eq_sup]
    exact JoinBox.sup_boundingBox _ fun b hb => pageJoinBoxes_nonempty hb
  · intro page' hperm
    -- a page is a grouping of itself
    have h := hparts [page'] (by simpa using hperm)
    rwa [List.map_singleton, List.foldl_cons, List.foldl_nil, trUnion_of_empty rfl] at h
  · rw [foldl_aggregateStep, rtreePageMbr_eq_sup]
  · exact fun a ha => ⟨trUnion_of_empty rfl, trUnion_of_empty_right ha rfl⟩

/-- The root of a new index has no boxes: every box contains all of them, and none contains the box
    `rtree_page_mbr` gives, which is `EMPTY`. -/
theorem empty_page_mbr_not_contained :
    let page := rtreeInitDatapage { leaf := true, root := true } 0
    let c : RTreeTemporalBox :=
      { lowerUs := 0, upperUs := 10, attrLo := 0, attrHi := 10, dims := 2, flags := {} }
    (∀ b ∈ pageBoxes page, rtreeBoxContains c b = true) ∧ rtreeBoxContains c (rtreePageMbr page) = false := by
  decide

end TemporalRTree
