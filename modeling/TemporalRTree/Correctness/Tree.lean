import TemporalRTree.Lib.StoreTree
import TemporalRTree.Correctness.Picksplit
import TemporalRTree.Correctness.InsertCases

/-!
# `Correctness.Tree` — the pages of the index as trees

The blocks of the relation are a store in the sense of `Lib.StoreTree`: the downlinks of a page are its
kids, the tuples of a leaf its values. `NodeOk` is the condition every page of the tree meets at its level,
`WF` the invariant of an initialised index, and `contents` what the index holds.
-/

namespace TemporalRTree

/-- Downlinks lead to kids; a leaf holds its tuples. -/
def nodes : Layout BlockNumber DataPage IndexTuple where
  kids page := page.items.map (fun t => t.tTid.blkno)
  vals page := page.items

/-- The downlinks of some pages, from their tuples. -/
theorem flatMap_kids (ts : List BlockNumber) (st : BlockNumber → DataPage) :
    (ts.flatMap fun t => nodes.kids (st t)) =
      (ts.flatMap fun t => (st t).items).map fun t => t.tTid.blkno := by
  simp [nodes, List.map_flatMap]

/-- The blocks the relation has. -/
def allocated (pages : List Page) : Set BlockNumber := {x | x < pages.length}

@[simp] theorem mem_allocated {pages : List Page} {x : BlockNumber} :
    x ∈ allocated pages ↔ x < pages.length := Iff.rfl

/-- A page fit for its level: it is tagged with it, is flagged a leaf at level 0 only, holds no NULL key,
    and has a downlink if it is an inner page. -/
structure NodeOk (level : Nat) (page : DataPage) : Prop where
  level_eq : page.special.level = level
  leaf_iff : page.special.flags.leaf = true ↔ level = 0
  keys : ∀ t ∈ page.items, t.key.isSome = true
  inner_ne : level ≠ 0 → page.items ≠ []

/-- An initialised index: a meta page, and a tree at the root it names. -/
structure WF (pages : List Page) : Prop where
  magic : (metaAt pages).magic = trtreeMetaMagic
  nblocks_le : pages.length ≤ invalidBlockNumber
  tree : nodes.Forest NodeOk (pageAt pages) (metaAt pages).rootLevel [(metaAt pages).root]
  range : ∀ x ∈ nodes.blocks (pageAt pages) (metaAt pages).rootLevel (metaAt pages).root,
    0 < x ∧ x < pages.length

section Root
variable {pages : List Page} (h : WF pages)
include h

theorem WF.root_range : 0 < (metaAt pages).root ∧ (metaAt pages).root < pages.length :=
  h.range _ Layout.self_mem_blocks

theorem WF.two_le_length : 2 ≤ pages.length := by
  obtain ⟨hpos, hlt⟩ := h.root_range
  exact Nat.lt_of_le_of_lt hpos hlt

theorem WF.root_ne_invalid : (metaAt pages).root ≠ invalidBlockNumber :=
  Nat.ne_of_lt (Nat.lt_of_lt_of_le h.root_range.2 h.nblocks_le)

end Root

/-! ### Indexes with empty inner pages

In the middle of a bulk deletion an inner page may be empty, until its parent drops it. -/

/-- A page without a NULL key. -/
def Keyed (page : DataPage) : Prop := ∀ t ∈ page.items, t.key.isSome = true

/-- A page fit for its level but for having a downlink. -/
structure NodeFits (level : Nat) (page : DataPage) : Prop where
  level_eq : page.special.level = level
  leaf_iff : page.special.flags.leaf = true ↔ level = 0
  keys : Keyed page

/-- An initialised index whose inner pages may be empty. -/
structure Fits (pages : List Page) : Prop where
  magic : (metaAt pages).magic = trtreeMetaMagic
  nblocks_le : pages.length ≤ invalidBlockNumber
  tree : nodes.Forest NodeFits (pageAt pages) (metaAt pages).rootLevel [(metaAt pages).root]
  range : ∀ x ∈ nodes.blocks (pageAt pages) (metaAt pages).rootLevel (metaAt pages).root,
    0 < x ∧ x < pages.length

theorem WF.fits {pages : List Page} (h : WF pages) : Fits pages where
  magic := h.magic
  nblocks_le := h.nblocks_le
  tree := ⟨fun c hc => (h.tree.holds c hc).mono fun _ _ hp => ⟨hp.level_eq, hp.leaf_iff, hp.keys⟩, h.tree.nodup⟩
  range := h.range

section FitsRoot
variable {pages : List Page} (h : Fits pages)
include h

theorem Fits.root_range : 0 < (metaAt pages).root ∧ (metaAt pages).root < pages.length :=
  h.range _ Layout.self_mem_blocks

theorem Fits.root_ne_invalid : (metaAt pages).root ≠ invalidBlockNumber :=
  Nat.ne_of_lt (Nat.lt_of_lt_of_le h.root_range.2 h.nblocks_le)

theorem Fits.holds : nodes.Holds NodeFits (pageAt pages) (metaAt pages).rootLevel (metaAt pages).root :=
  h.tree.holds _ (List.mem_singleton.mpr rfl)

theorem Fits.keyed :
    nodes.Holds (fun _ => Keyed) (pageAt pages) (metaAt pages).rootLevel (metaAt pages).root :=
  h.holds.mono fun _ _ hp => hp.keys

end FitsRoot

/-- The leaf tuples reachable from the root that the meta page names. -/
def contents (pages : List Page) : Multiset IndexTuple :=
  nodes.leaves (pageAt pages) (metaAt pages).rootLevel (metaAt pages).root

/-- Every `PageAddItem` recorded returned a valid offset. -/
def AddsOk (evs : List Event) : Prop := Event.addItem false ∉ evs

instance (evs : List Event) : Decidable (AddsOk evs) := inferInstanceAs (Decidable (_ ∉ _))

@[simp] theorem addsOk_append {evs evs' : List Event} :
    AddsOk (evs ++ evs') ↔ AddsOk evs ∧ AddsOk evs' := by
  simp [AddsOk]

@[simp] theorem addsOk_nil : AddsOk [] := by simp [AddsOk]

@[simp] theorem addsOk_cons {e : Event} {evs : List Event} :
    AddsOk (e :: evs) ↔ e ≠ .addItem false ∧ AddsOk evs := by
  simp [AddsOk, eq_comm]

theorem addsOk_map_addItem {results : List Bool} :
    AddsOk (results.map .addItem) ↔ ∀ ok ∈ results, ok = true := by
  simp [AddsOk]

/-! ## Reading pages back -/

theorem pageAt_append_of_ne {pages : List Page} {q : Page} {x : BlockNumber} (h : x ≠ pages.length) :
    pageAt (pages ++ [q]) x = pageAt pages x := by
  rcases Nat.lt_or_gt_of_ne h with hlt | hgt
  · exact pageAt_append_of_lt hlt
  · have h1 : (pages ++ [q])[x]? = none := List.getElem?_eq_none (by simp; omega)
    have h2 : pages[x]? = none := List.getElem?_eq_none (by omega)
    simp [pageAt, List.getD_eq_getElem?_getD, h1, h2]

section SplitPages
variable {pages : List Page} {blk x : BlockNumber} {itup : IndexTuple} {box : RTreeTemporalBox}
  {level : Nat} {flags : PageFlags}

theorem pageAt_splitPages_left (h : blk < pages.length) :
    pageAt (splitPages pages blk itup box level flags) blk =
      (splitLeft (pageAt pages blk) itup box level flags pages.length).1 := by
  rw [splitPages, pageAt_append_of_lt (by simpa using h), pageAt_set_self h]

theorem pageAt_splitPages_right :
    pageAt (splitPages pages blk itup box level flags) pages.length =
      (splitRight (pageAt pages blk) itup box level flags).1 := by
  simp [splitPages, pageAt, List.getD_eq_getElem?_getD, Page.asData]

theorem pageAt_splitPages_of_ne (h : x ≠ blk) (h' : x ≠ pages.length) :
    pageAt (splitPages pages blk itup box level flags) x = pageAt pages x := by
  rw [splitPages, pageAt_append_of_ne (by simpa using h'), pageAt_set_ne h]

end SplitPages

/-! ## Splitting a page keeps its tuples -/

theorem pickItems_append (items : List IndexTuple) (I J : List Nat) :
    pickItems items (I ++ J) = pickItems items I ++ pickItems items J := by
  simp [pickItems]

theorem pickItems_range (items : List IndexTuple) : pickItems items (List.range items.length) = items := by
  induction items using List.reverseRecOn with
  | nil => rfl
  | append_singleton items t ih =>
      rw [List.length_append, List.length_singleton, List.range_succ, pickItems_append]
      have h : pickItems (items ++ [t]) (List.range items.length) = items := by
        conv_rhs => rw [← ih]
        refine List.filterMap_congr fun i hi => ?_
        exact List.getElem?_append_left (List.mem_range.mp hi)
      rw [h]
      simp [pickItems]

section SplitItems
variable (page : DataPage) (newitup : IndexTuple) (newbox : RTreeTemporalBox)

/-- The two sides of `tr_picksplit` share out the tuples. -/
theorem splitIdxs_perm :
    (pickItems (splitItems page newitup) (splitIdxs page newbox).1 ++
      pickItems (splitItems page newitup) (splitIdxs page newbox).2).Perm (splitItems page newitup) := by
  have h := trPicksplit_perm (page.items.map rtreePageTupleBox ++ [newbox])
  have hlen : (page.items.map rtreePageTupleBox ++ [newbox]).length = (splitItems page newitup).length := by
    simp [splitItems]
  rw [hlen] at h
  rw [← pickItems_append]
  refine (h.filterMap _).trans ?_
  exact List.Perm.of_eq (pickItems_range _)

/-- Neither side is empty when the page held a tuple. -/
theorem splitIdxs_ne_nil (h : page.items ≠ []) :
    pickItems (splitItems page newitup) (splitIdxs page newbox).1 ≠ [] ∧
      pickItems (splitItems page newitup) (splitIdxs page newbox).2 ≠ [] := by
  have hlen : 2 ≤ (page.items.map rtreePageTupleBox ++ [newbox]).length := by
    have := List.length_pos_iff.mpr h
    simp only [List.length_append, List.length_map, List.length_singleton]
    omega
  have hperm := trPicksplit_perm (page.items.map rtreePageTupleBox ++ [newbox])
  have hpick : ∀ I : List Nat, I ≠ [] → (∀ i ∈ I, i < (splitItems page newitup).length) →
      pickItems (splitItems page newitup) I ≠ [] := by
    intro I hne hin
    cases I with
    | nil => exact absurd rfl hne
    | cons i I =>
        simp [pickItems, List.getElem?_eq_getElem (hin i (by simp))]
  have hin : ∀ i ∈ (splitIdxs page newbox).1 ++ (splitIdxs page newbox).2,
      i < (splitItems page newitup).length := by
    intro i hi
    have := List.mem_range.mp (hperm.subset hi)
    simpa [splitItems] using this
  obtain ⟨h1, h2⟩ := trPicksplit_ne_nil hlen
  exact ⟨hpick _ h1 fun i hi => hin i (List.mem_append_left _ hi),
    hpick _ h2 fun i hi => hin i (List.mem_append_right _ hi)⟩

end SplitItems

/-- No index tuple is larger than a 100-dimensional box makes it. -/
theorem indexTupleSize_le (t : IndexTuple) : maxalign (indexTupleSize t) ≤ 1616 := by
  obtain ⟨tid, key⟩ := t
  cases key with
  | none =>
      simp only [indexTupleSize, maxalign]
      omega
  | some c =>
      have h1 := c.dim_le
      have h2 := c.x_length
      have h3 : c.x.length ≤ 200 := by
        simp only [cubeMaxDim] at h1
        split at h2 <;> omega
      simp only [indexTupleSize, NDBOX.varsize, maxalign]
      omega

/-- A page with that much room takes any tuple. -/
theorem pageAddItem_of_le (page : DataPage) (t : IndexTuple)
    (h : pdLower page.items + tupleBytes page.items + 1620 ≤ pdSpecial) :
    ∃ page', pageAddItem page t invalidOffsetNumber = some page' := by
  have := indexTupleSize_le t
  simp only [pageAddItem, if_true]
  rw [dif_pos]
  · exact ⟨_, rfl⟩
  · exact ⟨Nat.le_refl _, by omega⟩

/-- The first tuple always fits on an empty page. -/
theorem addItems_ne_nil {page : DataPage} {itups : List IndexTuple} (hp : page.items = [])
    (h : itups ≠ []) : (addItems page itups).1.items ≠ [] := by
  cases itups with
  | nil => exact absurd rfl h
  | cons t rest =>
      obtain ⟨page', hadd⟩ := pageAddItem_of_le page t (by rw [hp]; decide)
      obtain ⟨added, -, hitems, -, -⟩ := addItems_items page' rest
      simp [addItems, hadd, hitems, (pageAddItem_items hadd).1]

/-- What `rtree_split_page` leaves on its two pages. -/
structure SplitSpec (page : DataPage) (newitup : IndexTuple) (level : Nat) (leaf : Bool)
    (left right : DataPage) (results : List Bool) : Prop where
  level_left : left.special.level = level
  level_right : right.special.level = level
  leaf_left : left.special.flags.leaf = leaf
  leaf_right : right.special.flags.leaf = leaf
  items_le : (left.items ++ right.items).Subperm (page.items ++ [newitup])
  items_perm : (∀ ok ∈ results, ok = true) → (left.items ++ right.items).Perm (page.items ++ [newitup])
  left_ne : page.items ≠ [] → left.items ≠ []
  right_ne : page.items ≠ [] → right.items ≠ []

theorem split_spec (page : DataPage) (newitup : IndexTuple) (newbox : RTreeTemporalBox) (level : Nat)
    (flags : PageFlags) (rightblk : BlockNumber) :
    SplitSpec page newitup level flags.leaf (splitLeft page newitup newbox level flags rightblk).1
      (splitRight page newitup newbox level flags).1
      ((splitLeft page newitup newbox level flags rightblk).2 ++
        (splitRight page newitup newbox level flags).2) := by
  obtain ⟨added, hsub, hitems, hspec, hall⟩ := addItems_items
    (linkedDatapage { flags with root := false } level rightblk)
    (pickItems (splitItems page newitup) (splitIdxs page newbox).1)
  obtain ⟨added', hsub', hitems', hspec', hall'⟩ := addItems_items
    (linkedDatapage { flags with root := false } level page.special.rightlink)
    (pickItems (splitItems page newitup) (splitIdxs page newbox).2)
  have hperm := splitIdxs_perm page newitup newbox
  have hnil : ∀ r, (linkedDatapage { flags with root := false } level r).items = [] := fun _ => rfl
  rw [hnil, List.nil_append] at hitems hitems'
  refine ⟨by rw [splitLeft, hspec]; rfl, by rw [splitRight, hspec']; rfl, by rw [splitLeft, hspec]; rfl,
    by rw [splitRight, hspec']; rfl, ?_, ?_, ?_, ?_⟩
  · rw [splitLeft, splitRight, hitems, hitems']
    exact (hsub.append hsub').subperm.trans hperm.subperm
  · intro hok
    rw [splitLeft, splitRight, hitems, hitems',
      hall fun ok h => hok ok (List.mem_append_left _ h),
      hall' fun ok h => hok ok (List.mem_append_right _ h)]
    exact hperm
  · exact fun h => addItems_ne_nil (hnil _) (splitIdxs_ne_nil page newitup newbox h).1
  · exact fun h => addItems_ne_nil (hnil _) (splitIdxs_ne_nil page newitup newbox h).2

/-- Every tuple is on one of the two pages exactly if no `PageAddItem` failed. -/
theorem split_perm_iff (page : DataPage) (newitup : IndexTuple) (newbox : RTreeTemporalBox) (level : Nat)
    (flags : PageFlags) (rightblk : BlockNumber) :
    ((splitLeft page newitup newbox level flags rightblk).1.items ++
        (splitRight page newitup newbox level flags).1.items).Perm (page.items ++ [newitup]) ↔
      ∀ ok ∈ (splitLeft page newitup newbox level flags rightblk).2 ++
        (splitRight page newitup newbox level flags).2, ok = true := by
  constructor
  · intro hperm
    -- as many tuples as before, so no call failed
    have hlen := hperm.length_eq
    have hpicked := (splitIdxs_perm page newitup newbox).length_eq
    have hl := addItems_length (linkedDatapage { flags with root := false } level rightblk)
      (pickItems (splitItems page newitup) (splitIdxs page newbox).1)
    have hr := addItems_length (linkedDatapage { flags with root := false } level page.special.rightlink)
      (pickItems (splitItems page newitup) (splitIdxs page newbox).2)
    simp only [List.length_append, splitItems] at hlen hpicked hl hr
    have hnil : ∀ r, (linkedDatapage { flags with root := false } level r).items.length = 0 := fun _ => rfl
    rw [hnil] at hl hr
    intro ok hok
    by_contra hfalse
    rw [Bool.not_eq_true] at hfalse
    subst hfalse
    have hcount : 0 < ((splitLeft page newitup newbox level flags rightblk).2 ++
        (splitRight page newitup newbox level flags).2).count false := List.count_pos_iff.mpr hok
    rw [List.count_append] at hcount
    simp only [splitLeft, splitRight, splitItems] at hlen hcount
    omega
  · exact (split_spec page newitup newbox level flags rightblk).items_perm

end TemporalRTree
