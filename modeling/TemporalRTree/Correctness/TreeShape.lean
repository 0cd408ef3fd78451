import TemporalRTree.Correctness.Operations

/-!
# `Correctness.TreeShape` — the shape of the tree after any run of operations

`WF` says that the pages reachable from the root are a tree of uniform depth, tagged with their levels. `Shaped`
adds what the operations keep besides: the ROOT flag is on the root alone, and no page but the root is empty.
Inserts leave every page they write with a tuple and set the flag on a new root only (`Touched`); a walk drops
the pages it empties. `TreeShape` puts both in terms of pages and downlinks.
-/

namespace TemporalRTree
open EStateM Layout

/-! ## Pages and downlinks -/

/-- `b` is reached from the root through `depth` downlinks. -/
inductive Reachable (pages : List Page) : Nat → BlockNumber → Prop where
  | root : Reachable pages 0 (metaAt pages).root
  | down {depth : Nat} {b : BlockNumber} {t : IndexTuple} (h : Reachable pages depth b)
      (hinner : (pageAt pages b).special.flags.leaf = false) (ht : t ∈ (pageAt pages b).items) :
      Reachable pages (depth + 1) t.tTid.blkno

/-- The `i`-th tuple of the inner page `b` is a downlink to `c`. -/
def Downlink (pages : List Page) (b : BlockNumber) (i : Nat) (c : BlockNumber) : Prop :=
  (pageAt pages b).special.flags.leaf = false ∧
    (pageAt pages b).items[i]?.map (fun t => t.tTid.blkno) = some c

/-- The shape of an index. -/
structure TreeShape (pages : List Page) : Prop where
  /-- A page other than the root is the target of a downlink, -/
  downlink : ∀ {d : Nat} {c : BlockNumber}, Reachable pages d c → c ≠ (metaAt pages).root →
    ∃ d' b i, Reachable pages d' b ∧ Downlink pages b i c
  /-- and of one only; -/
  one_downlink : ∀ {d d' i i' : Nat} {b b' c : BlockNumber}, Reachable pages d b → Reachable pages d' b' →
    Downlink pages b i c → Downlink pages b' i' c → b = b' ∧ i = i'
  /-- the root is the target of none. -/
  root_top : ∀ {d i : Nat} {b : BlockNumber}, Reachable pages d b → ¬ Downlink pages b i (metaAt pages).root
  level : ∀ {d : Nat} {b : BlockNumber}, Reachable pages d b →
    (pageAt pages b).special.level + d = (metaAt pages).rootLevel
  leaf_iff : ∀ {d : Nat} {b : BlockNumber}, Reachable pages d b →
    ((pageAt pages b).special.flags.leaf = true ↔ (pageAt pages b).special.level = 0)
  root_iff : ∀ {d : Nat} {b : BlockNumber}, Reachable pages d b →
    ((pageAt pages b).special.flags.root = true ↔ b = (metaAt pages).root)
  nonempty : ∀ {d : Nat} {b : BlockNumber}, Reachable pages d b → b ≠ (metaAt pages).root →
    (pageAt pages b).items ≠ []

/-- What the operations keep besides `WF`: flag and tuples of the root and of the other pages of its tree. -/
structure Shaped (pages : List Page) : Prop where
  root : (pageAt pages (metaAt pages).root).special.flags.root = true
  others : ∀ x ∈ nodes.blocks (pageAt pages) (metaAt pages).rootLevel (metaAt pages).root,
    x ≠ (metaAt pages).root → (pageAt pages x).items ≠ [] ∧ (pageAt pages x).special.flags.root = false

section Shape
variable {pages : List Page} (hwf : WF pages)
include hwf

/-- A page at depth `d` is the top of a tree `d` levels below the root. -/
theorem Reachable.below_root {d : Nat} {b : BlockNumber} (h : Reachable pages d b) :
    ∃ m, m + d = (metaAt pages).rootLevel ∧
      nodes.Below (pageAt pages) m b (metaAt pages).rootLevel (metaAt pages).root := by
  induction h with
  | root => exact ⟨_, rfl, .here⟩
  | @down d b t h hinner ht ih =>
      obtain ⟨m, hm, hbel⟩ := ih
      have hp := (hbel.holds (hwf.tree.holds _ (List.mem_singleton.mpr rfl))).node
      obtain ⟨l, rfl⟩ := hp.level_of_inner hinner
      refine ⟨l, by omega, Below.trans (.down ?_ .here) hbel⟩
      exact List.mem_map_of_mem ht

theorem Downlink.below {d i : Nat} {b c : BlockNumber} (hb : Reachable pages d b) (h : Downlink pages b i c) :
    ∃ m, nodes.Below (pageAt pages) (m + 1) b (metaAt pages).rootLevel (metaAt pages).root ∧
      (nodes.kids (pageAt pages b))[i]? = some c := by
  obtain ⟨m, -, hbel⟩ := hb.below_root hwf
  have hp := (hbel.holds (hwf.tree.holds _ (List.mem_singleton.mpr rfl))).node
  obtain ⟨l, rfl⟩ := hp.level_of_inner h.1
  exact ⟨l, hbel, by simpa [nodes] using h.2⟩

/-- **The invariants are the shape.** -/
theorem Shaped.treeShape (hs : Shaped pages) : TreeShape pages where
  downlink hc hne := by
    cases hc with
    | root => exact absurd rfl hne
    | @down _ b t hb hinner ht =>
        obtain ⟨i, hi⟩ := List.getElem?_of_mem ht
        exact ⟨_, b, i, hb, hinner, by rw [hi]; rfl⟩
  one_downlink hb hb' h h' := by
    obtain ⟨m, hbel, hk⟩ := h.below hwf hb
    obtain ⟨m', hbel', hk'⟩ := h'.below hwf hb'
    exact hbel.parent_unique hwf.tree hbel' hk hk'
  root_top hb h := by
    obtain ⟨m, hbel, hk⟩ := h.below hwf hb
    exact hbel.kid_ne_top hwf.tree (List.mem_of_getElem? hk) rfl
  level hb := by
    obtain ⟨m, hm, hbel⟩ := hb.below_root hwf
    rw [(hbel.holds (hwf.tree.holds _ (List.mem_singleton.mpr rfl))).node.level_eq, hm]
  leaf_iff hb := by
    obtain ⟨m, -, hbel⟩ := hb.below_root hwf
    have hp := (hbel.holds (hwf.tree.holds _ (List.mem_singleton.mpr rfl))).node
    rw [hp.level_eq, hp.leaf_iff]
  root_iff {d b} hb := by
    obtain ⟨m, -, hbel⟩ := hb.below_root hwf
    constructor
    · intro hflag
      by_contra hne
      have := (hs.others b (hbel.blocks_subperm.subset self_mem_blocks) hne).2
      simp [hflag] at this
    · rintro rfl
      exact hs.root
  nonempty hb hne := by
    obtain ⟨m, -, hbel⟩ := hb.below_root hwf
    exact (hs.others _ (hbel.blocks_subperm.subset self_mem_blocks) hne).1

end Shape

/-! ## Insertion -/

/-- Every page written has a tuple, and no page got the ROOT flag. -/
structure Touched (pages pages' : List Page) : Prop where
  nonempty : ∀ x < pages'.length, (x < pages.length ∧ pageAt pages' x = pageAt pages x) ∨
    (pageAt pages' x).items ≠ []
  root : ∀ x, (pageAt pages' x).special.flags.root = true → (pageAt pages x).special.flags.root = true

section Touched
variable {pages pages₁ pages' : List Page} {blk : BlockNumber} {page' : DataPage}

theorem Touched.trans (h : Touched pages pages₁) (h' : Touched pages₁ pages') : Touched pages pages' where
  nonempty x hx := by
    rcases h'.nonempty x hx with ⟨hx₁, hsame⟩ | hne
    · rw [hsame]
      exact h.nonempty x hx₁
    · exact Or.inr hne
  root x hx := h.root x (h'.root x hx)

/-- A page of no block has no flag. -/
theorem pageAt_of_le {x : BlockNumber} (h : pages.length ≤ x) :
    (pageAt pages x).special.flags.root = false := by
  rw [pageAt, List.getD_eq_getElem?_getD, List.getElem?_eq_none h]
  rfl

theorem Touched.set (hblk : blk < pages.length) (hne : page'.items ≠ [])
    (hroot : page'.special.flags.root = true → (pageAt pages blk).special.flags.root = true) :
    Touched pages (pages.set blk (.data page')) where
  nonempty x hx := by
    rw [List.length_set] at hx
    by_cases he : x = blk
    · rw [he, pageAt_set_self hblk]
      exact Or.inr hne
    · exact Or.inl ⟨hx, pageAt_set_ne he⟩
  root x hx := by
    by_cases he : x = blk
    · rw [he, pageAt_set_self hblk] at hx
      exact he ▸ hroot hx
    · rwa [pageAt_set_ne he] at hx

theorem splitLeft_root (page : DataPage) (itup : IndexTuple) (box : RTreeTemporalBox) (level : Nat)
    (flags : PageFlags) (rightblk : BlockNumber) :
    (splitLeft page itup box level flags rightblk).1.special.flags.root = false := by
  obtain ⟨-, -, -, hspecial, -⟩ := addItems_items (linkedDatapage { flags with root := false } level rightblk)
    (pickItems (splitItems page itup) (splitIdxs page box).1)
  rw [splitLeft, hspecial]
  rfl

theorem splitRight_root (page : DataPage) (itup : IndexTuple) (box : RTreeTemporalBox) (level : Nat)
    (flags : PageFlags) : (splitRight page itup box level flags).1.special.flags.root = false := by
  obtain ⟨-, -, -, hspecial, -⟩ := addItems_items
    (linkedDatapage { flags with root := false } level page.special.rightlink)
    (pickItems (splitItems page itup) (splitIdxs page box).2)
  rw [splitRight, hspecial]
  rfl

theorem Touched.split {itup : IndexTuple} {box : RTreeTemporalBox} {level : Nat} {flags : PageFlags}
    (hblk : blk < pages.length) (hne : (pageAt pages blk).items ≠ []) :
    Touched pages (splitPages pages blk itup box level flags) := by
  have hspec := split_spec (pageAt pages blk) itup box level flags pages.length
  have hl : pageAt (splitPages pages blk itup box level flags) blk = _ := pageAt_splitPages_left hblk
  have hr : pageAt (splitPages pages blk itup box level flags) pages.length = _ := pageAt_splitPages_right
  refine ⟨fun x hx => ?_, fun x hx => ?_⟩
  · rw [splitPages_length] at hx
    by_cases h1 : x = blk
    · rw [h1, hl]
      exact Or.inr (hspec.left_ne hne)
    · by_cases h2 : x = pages.length
      · rw [h2, hr]
        exact Or.inr (hspec.right_ne hne)
      · exact Or.inl ⟨Nat.lt_of_le_of_ne (Nat.le_of_lt_succ hx) h2, pageAt_splitPages_of_ne h1 h2⟩
  · by_cases h1 : x = blk
    · rw [h1, hl, splitLeft_root] at hx
      exact absurd hx (by simp)
    · by_cases h2 : x = pages.length
      · rw [h2, hr, splitRight_root] at hx
        exact absurd hx (by simp)
      · rwa [pageAt_splitPages_of_ne h1 h2] at hx

end Touched

/-- `PageAddItem` leaves a tuple on the page, and its special space alone. -/
theorem pageAddItem_ne_nil {page page' : DataPage} {itup : IndexTuple} {offnum : OffsetNumber}
    (h : pageAddItem page itup offnum = some page') : page'.items ≠ [] ∧ page'.special = page.special := by
  unfold pageAddItem at h
  obtain ⟨hfits, h⟩ := Option.dite_none_right_eq_some.mp h
  obtain rfl := Option.some.inj h
  refine ⟨?_, rfl⟩
  rw [← List.length_pos_iff, List.length_insertIdx_of_le_length hfits.1]
  exact Nat.succ_pos _

theorem rtreeReplaceTuple_ne_nil {page page' : DataPage} {itup : IndexTuple} {offnum : OffsetNumber}
    (h : rtreeReplaceTuple page offnum itup = some page') : page'.items ≠ [] ∧ page'.special = page.special := by
  obtain ⟨hne, hspecial⟩ := pageAddItem_ne_nil h
  exact ⟨hne, hspecial⟩

/-- An empty page has room for any tuple. -/
theorem items_ne_nil_of_full {page : DataPage} {itup : IndexTuple} (h : hasRoom page itup = false) :
    page.items ≠ [] := by
  intro hnil
  have hsize := indexTupleSize_le itup
  simp only [hasRoom, pageGetFreeSpace, hnil, pdSpecial, pdLower, tupleBytes, ge_iff_le,
    decide_eq_false_iff_not, List.map_nil, List.sum_nil, List.length_nil] at h
  rw [if_neg (by decide)] at h
  omega

section Insert
variable {env : Env} {itup : IndexTuple} {box : RTreeTemporalBox} {pages pages' : List Page}
  {blk : BlockNumber} {level : Nat} {res : RTreeInsertResult} {evs : List Event}

/-- A descent. -/
theorem Inserts.touched (h : Inserts env itup box pages blk level res pages' evs) : Touched pages pages' := by
  induction h with
  | leafAdd hblk _ _ hadd =>
      obtain ⟨hne, hspecial⟩ := pageAddItem_ne_nil hadd
      exact Touched.set hblk hne fun h => hspecial ▸ h
  | leafSplit hblk _ hfull _ => exact Touched.split hblk (items_ne_nil_of_full hfull)
  | innerKeep hblk _ hrec hrep ih =>
      obtain ⟨hne, hspecial⟩ := rtreeReplaceTuple_ne_nil hrep
      exact ih.trans (Touched.set (Nat.lt_of_lt_of_le hblk hrec.length_le) hne fun h => hspecial ▸ h)
  | innerAdd hblk _ hrec hrep _ hadd ih =>
      obtain ⟨-, hspecial⟩ := rtreeReplaceTuple_ne_nil hrep
      obtain ⟨hne, hspecial'⟩ := pageAddItem_ne_nil hadd
      exact ih.trans (Touched.set (Nat.lt_of_lt_of_le hblk hrec.length_le) hne
        fun h => hspecial ▸ hspecial' ▸ h)
  | innerSplit hblk _ hrec hrep _ _ ih =>
      obtain ⟨hne, hspecial⟩ := rtreeReplaceTuple_ne_nil hrep
      have hblk₁ := Nat.lt_of_lt_of_le hblk hrec.length_le
      refine (ih.trans (Touched.set hblk₁ hne fun h => hspecial ▸ h)).trans (Touched.split ?_ ?_)
      · rwa [List.length_set]
      · rwa [pageAt_set_self hblk₁]

/-- The page a descent was started at has a tuple. -/
theorem Inserts.start_ne (h : Inserts env itup box pages blk level res pages' evs) :
    (pageAt pages' blk).items ≠ [] := by
  cases h with
  | leafAdd hblk _ _ hadd =>
      rw [pageAt_set_self hblk]
      exact (pageAddItem_ne_nil hadd).1
  | leafSplit hblk _ hfull _ =>
      rw [pageAt_splitPages_left hblk]
      exact (split_spec _ _ _ _ _ _).left_ne (items_ne_nil_of_full hfull)
  | innerKeep hblk _ hrec hrep =>
      rw [pageAt_set_self (Nat.lt_of_lt_of_le hblk hrec.length_le)]
      exact (rtreeReplaceTuple_ne_nil hrep).1
  | innerAdd hblk _ hrec _ _ hadd =>
      rw [pageAt_set_self (Nat.lt_of_lt_of_le hblk hrec.length_le)]
      exact (pageAddItem_ne_nil hadd).1
  | innerSplit hblk _ hrec hrep _ _ =>
      have hblk₁ := Nat.lt_of_lt_of_le hblk hrec.length_le
      rw [pageAt_splitPages_left (by rwa [List.length_set])]
      refine (split_spec _ _ _ _ _ _).left_ne ?_
      rw [pageAt_set_self hblk₁]
      exact (rtreeReplaceTuple_ne_nil hrep).1

variable (hkey : itup.key.isSome = true)
include hkey

/-- A descent without a split keeps the special space of the page it was started at. -/
theorem Inserts.start_special {leftBox : RTreeTemporalBox}
    (h : Inserts env itup box pages blk level { leftBox := leftBox, split := none } pages' evs)
    (hf : nodes.Forest NodeOk (pageAt pages) level [blk])
    (halloc : ∀ x ∈ nodes.forestBlocks (pageAt pages) level [blk], x ∈ allocated pages) :
    (pageAt pages' blk).special = (pageAt pages blk).special := by
  cases h with
  | leafAdd hblk _ _ hadd =>
      rw [pageAt_set_self hblk]
      exact (pageAddItem_ne_nil hadd).2
  | innerKeep hblk hchild hrec hrep =>
      obtain ⟨-, hsame⟩ := hchild.descend hf halloc (hrec.spec hkey)
      rw [pageAt_set_self (Nat.lt_of_lt_of_le hblk hrec.length_le), (rtreeReplaceTuple_ne_nil hrep).2, hsame]
  | innerAdd hblk hchild hrec hrep _ hadd =>
      obtain ⟨-, hsame⟩ := hchild.descend hf halloc (hrec.spec hkey)
      rw [pageAt_set_self (Nat.lt_of_lt_of_le hblk hrec.length_le), (pageAddItem_ne_nil hadd).2,
        (rtreeReplaceTuple_ne_nil hrep).2, hsame]

/-- The pages other than the root after a descent from it. -/
theorem Inserts.others (hwf : WF pages) (hs : Shaped pages)
    (h : Inserts env itup box pages (metaAt pages).root (metaAt pages).rootLevel res pages' evs) :
    ∀ x ∈ nodes.forestBlocks (pageAt pages') (metaAt pages).rootLevel (resultBlocks (metaAt pages).root res),
      x ≠ (metaAt pages).root → (pageAt pages' x).items ≠ [] ∧ (pageAt pages' x).special.flags.root = false := by
  intro x hx hne
  have hspec := h.spec hkey hwf.tree hwf.halloc
  have hlt := (hspec.range hwf.range x hx).2
  have hold : x < pages.length →
      (pageAt pages x).items ≠ [] ∧ (pageAt pages x).special.flags.root = false := by
    intro hx'
    rcases hspec.update.mem x hx with hmem | hnew
    · exact hs.others x (by simpa using hmem) hne
    · exact absurd hx' hnew.2
  constructor
  · rcases h.touched.nonempty x hlt with ⟨hx', hsame⟩ | hitems
    · rw [hsame]
      exact (hold hx').1
    · exact hitems
  · by_contra hflag
    have hbefore := h.touched.root x (by simpa using hflag)
    rcases Nat.lt_or_ge x pages.length with hx' | hx'
    · simp [(hold hx').2] at hbefore
    · simp [pageAt_of_le hx'] at hbefore

end Insert

/-- The shape of a tree apart from the meta page that the meta page comes to name. -/
theorem Shaped.ofMeta {pages : List Page} {root : BlockNumber} {level : Nat}
    (hrange : ∀ x ∈ nodes.blocks (pageAt pages) level root, 0 < x ∧ x < pages.length)
    (hroot : (pageAt pages root).special.flags.root = true)
    (hothers : ∀ x ∈ nodes.blocks (pageAt pages) level root, x ≠ root →
      (pageAt pages x).items ≠ [] ∧ (pageAt pages x).special.flags.root = false) :
    Shaped (metaPages pages root level) := by
  have hpos : 0 < pages.length := Nat.lt_of_le_of_lt (Nat.zero_le _) (hrange root self_mem_blocks).2
  have hmeta : metaAt (metaPages pages root level) =
      { metaAt pages with root := root, rootLevel := level } := metaAt_set_zero hpos
  have hcongr : ∀ x ∈ nodes.blocks (pageAt pages) level root,
      pageAt (metaPages pages root level) x = pageAt pages x := fun x hx =>
    pageAt_set_ne (Nat.pos_iff_ne_zero.mp (hrange x hx).1)
  refine ⟨?_, ?_⟩
  · rw [hmeta, hcongr root self_mem_blocks]
    exact hroot
  · rw [hmeta]
    intro x hx hne
    rw [blocks_congr hcongr] at hx
    rw [hcongr x hx]
    exact hothers x hx hne

theorem promotedRoot_root (leftblk : BlockNumber) (leftBox : RTreeTemporalBox) (right : SplitRight)
    (level : Nat) : (promotedRoot leftblk leftBox right level).1.special.flags.root = true := by
  obtain ⟨-, -, -, hspecial, -⟩ := addItems_items (rtreeInitDatapage { root := true } (level + 1))
    [rtreeFormTuple leftBox (childTid leftblk), rtreeFormTuple right.rightBox (childTid right.rightBlkno)]
  rw [promotedRoot, hspecial]
  rfl

/-- **An insert.** -/
theorem InsertsTuple.shaped {env : Env} {itup : IndexTuple} {box : RTreeTemporalBox} {pages pages' : List Page}
    {evs : List Event} (h : InsertsTuple env itup box pages pages' evs) (hkey : itup.key.isSome = true)
    (hwf : WF pages) (hs : Shaped pages) : Shaped pages' := by
  cases h with
  | keep hlen hmagic hins =>
      have hmeta := hins.metaAt_eq hwf.zero_notMem
      have hothers := hins.others hkey hwf hs
      refine ⟨?_, ?_⟩
      · rw [hmeta, hins.start_special hkey hwf.tree hwf.halloc]
        exact hs.root
      · rw [hmeta]
        intro x hx
        refine hothers x ?_
        simpa [resultBlocks] using hx
  | @promote pages₁ leftBox right evs hlen hmagic hins hext =>
      obtain ⟨-, -, -, hblocks, hrange₁, hrange⟩ := hins.promoted hkey hwf
      have hothers : ∀ x ∈ nodes.forestBlocks (pageAt pages₁) (metaAt pages).rootLevel
          [(metaAt pages).root, right.rightBlkno], _ := hins.others hkey hwf hs
      have hblk : (metaAt pages).root < pages₁.length := Nat.lt_of_lt_of_le hins.lt_length hins.length_le
      refine Shaped.ofMeta hrange ?_ ?_
      · -- the new root has the flag from its initialisation
        rw [pageAt_promotedPages_self]
        exact promotedRoot_root _ _ _ _
      · intro x hx hne
        rw [hblocks, List.mem_cons] at hx
        have hx := hx.resolve_left hne
        rw [promotedPages, pageAt_append_of_lt (by rw [List.length_set]; exact (hrange₁ x hx).2),
          pageAt_clearRootFlag hblk]
        split
        · exact ⟨hins.start_ne, rfl⟩
        · next hx' => exact hothers x hx hx'

/-! ## Bulk deletion -/

section Delete
variable {env : Env} {callback : IndexBulkDeleteCallback} {pages pages' : List Page} {cs : List BlockNumber}
  {walked : List (BlockNumber × RTreeTemporalBox)} {evs : List Event}

/-- A walk leaves the special spaces alone. -/
theorem Vacuums.special (h : Vacuums env callback pages cs walked pages' evs) (x : BlockNumber) :
    (pageAt pages' x).special = (pageAt pages x).special := by
  have hset : ∀ {pages pages₁ : List Page} {blk : BlockNumber} {page' : DataPage}, blk < pages₁.length →
      page'.special = (pageAt pages blk).special →
      (pageAt pages₁ x).special = (pageAt pages x).special →
      (pageAt (pages₁.set blk (.data page')) x).special = (pageAt pages x).special := by
    intro pages pages₁ blk page' hblk hspecial hsame
    by_cases he : x = blk
    · rw [he, pageAt_set_self hblk, hspecial]
    · rw [pageAt_set_ne he, hsame]
  induction h with
  | nil => rfl
  | leaf hblk _ hpage _ ih => rw [ih, hset hblk hpage.page.2 rfl]
  | inner hblk _ hkids hpage _ ihkids ih =>
      rw [ih, hset (hkids.length_eq.symm ▸ hblk) hpage.page.2 ihkids]

/-- The one tree of a walk from one page is reported, unless the page became empty. -/
theorem Vacuums.single {blk : BlockNumber} (h : Vacuums env callback pages [blk] walked pages' evs) :
    (walked = [] ∧ (pageAt pages' blk).items = []) ∨ ∃ box, walked = [(blk, box)] := by
  have hreported : ∀ kept : List (IndexTuple × RTreeTemporalBox),
      reported blk kept = [] ∧ kept = [] ∨ ∃ box, reported blk kept = [(blk, box)] := by
    intro kept
    by_cases hkept : kept = []
    · exact Or.inl ⟨if_pos hkept, hkept⟩
    · exact Or.inr ⟨_, if_neg hkept⟩
  cases h with
  | leaf hblk _ hpage hrest =>
      cases hrest
      rw [List.append_nil, pageAt_set_self hblk, hpage.page.1]
      rcases hreported (leafKept callback (pageAt pages blk).items) with ⟨hw, hkept⟩ | hw
      · exact Or.inl ⟨hw, by rw [hkept]; rfl⟩
      · exact Or.inr hw
  | @inner _ _ _ _ _ _ kids _ _ _ hblk _ hkids hpage hrest =>
      cases hrest
      rw [List.append_nil, pageAt_set_self (hkids.length_eq.symm ▸ hblk), hpage.page.1]
      rcases hreported (downlinksTo kids) with ⟨hw, hkept⟩ | hw
      · exact Or.inl ⟨hw, by rw [hkept]; rfl⟩
      · exact Or.inr hw

/-- A walk from the root. -/
theorem Vacuums.others (hwf : WF pages) (hs : Shaped pages)
    (h : Vacuums env callback pages [(metaAt pages).root] walked pages' evs)
    (hmeta : metaAt pages' = metaAt pages) (hroot : (pageAt pages' (metaAt pages).root).items ≠ []) :
    Shaped pages' := by
  have hforest := h.forest hwf.tree hwf.halloc
  obtain ⟨-, hitems⟩ | ⟨box, rfl⟩ := h.single
  · exact absurd hitems hroot
  have htree : nodes.Holds (fun _ page => page.items ≠ []) (pageAt pages') (metaAt pages).rootLevel
      (metaAt pages).root :=
    h.trees (G := fun _ => True)
      (T := fun st l b _ => nodes.Holds (fun _ page => page.items ≠ []) st l b)
      (fun hcongr hT => holds_congr hcongr hT)
      (fun hne hitems _ => by
        show _ ≠ []
        simpa [hitems] using hne)
      (fun hne hitems hkids => by
        refine ⟨by simpa [hitems, downlinksTo] using hne, fun c hc => ?_⟩
        rw [show nodes.kids _ = _ from congrArg (List.map _) hitems] at hc
        simp [downlinksTo, rtreeFormTuple, childTid] at hc
        obtain ⟨box, hc⟩ := hc
        exact hkids _ hc)
      hwf.tree hwf.halloc (fun _ _ => trivial) _ (List.mem_singleton.mpr rfl)
  refine ⟨?_, ?_⟩
  · rw [hmeta, h.special]
    exact hs.root
  · rw [hmeta]
    intro x hx hne
    refine ⟨htree.of_mem hx, ?_⟩
    rw [h.special]
    rcases hforest.update.mem x (by simpa using hx) with hx | hx
    · exact (hs.others x (by simpa using hx) hne).2
    · exact absurd hx.1 hx.2

/-- **A bulk deletion.** -/
theorem ShrinksRoot.shaped {evs' : List Event} {pages₁ : List Page} (hwf : WF pages) (hs : Shaped pages)
    (hvac : Vacuums env callback pages [(metaAt pages).root] walked pages₁ evs)
    (hv : WF pages₁ ∨ Emptied pages₁) (hmeta : metaAt pages₁ = metaAt pages)
    (h : ShrinksRoot env pages₁ pages' evs') : Shaped pages' := by
  have hwalked : (pageAt pages₁ (metaAt pages₁).root).items ≠ [] → Shaped pages₁ := fun hroot =>
    hvac.others hwf hs hmeta (hmeta ▸ hroot)
  cases h with
  | stay hstay =>
      rcases hstay with hl | htwo
      · -- a leaf root is the whole tree
        refine ⟨?_, ?_⟩
        · rw [hmeta, hvac.special]
          exact hs.root
        · rw [hl]
          exact fun x hx hne => absurd (List.mem_singleton.mp hx) hne
      · exact hwalked fun hnil => by simp [hnil] at htwo
  | emptied hl hitems =>
      obtain ⟨h0, hlt⟩ : 0 < (metaAt pages₁).root ∧ (metaAt pages₁).root < pages₁.length := by
        rcases hv with hv | hv
        · exact hv.root_range
        · exact ⟨hv.root_pos, hv.root_lt⟩
      refine Shaped.ofMeta ?_ ?_ ?_
      · simpa using ⟨h0, hlt⟩
      · rw [pageAt_set_self hlt]
        rfl
      · exact fun x hx hne => absurd (List.mem_singleton.mp hx) hne
  | @collapsed l childitup hl hitems =>
      have hs₁ := hwalked (by simp [hitems])
      have hwf₁ : WF pages₁ := hv.resolve_right fun hv => by simp [hv.items] at hitems
      have hothers := hs₁.others
      have hrange := hwf₁.range
      rw [hl] at hothers hrange
      obtain ⟨hlevel, hself, -, -, hblocks⟩ := hwf₁.hoist hl hitems
      rw [collapsedPages, hlevel]
      refine Shaped.ofMeta ?_ ?_ ?_
      · intro x hx
        rw [List.length_set]
        exact hrange x (hblocks hx)
      · rw [hself]
        rfl
      · intro x hx hne
        rw [pageAt_set_ne hne]
        exact hothers x (hblocks hx) hne

end Delete

/-! ## Whole runs -/

/-- The shape is an invariant of the operations. -/
theorem shaped_opInvariant (env : Env) : OpInvariant env (fun _ => True) Shaped where
  init := ⟨rfl, fun _ hx hne => absurd (List.mem_singleton.mp hx) hne⟩
  insert hwf hs hkey _ hins := hins.shaped hkey hwf hs
  delete hwf hs hvac hv hmeta hshrinks := hshrinks.shaped hwf hs hvac hv hmeta

/-- **Tree shape.** After every run of operations on an index that starts without blocks, the pages reachable
    from the root are a tree of uniform depth with its levels, flags and tuples in order; an operation that fails
    although every `PageAddItem` succeeded could not extend the relation. Pages with more tuples than the work arrays
    hold are treated like any other here. -/
theorem runOps_treeShape (env : Env) (ops : List Op) :
    (∀ s, runOps env ops { pages := [] } = .ok () s → s.pages = [] ∨ TreeShape s.pages) ∧
    (∀ e s, runOps env ops { pages := [] } = .error e s → AddsOk s.trace → e = .couldNotExtend) := by
  refine ⟨fun s hrun => ?_, fun e s hrun hok => ?_⟩
  · have hmeets : Meets Shaped s.pages :=
      (shaped_opInvariant env).runOps (fun _ _ _ _ _ => trivial) (Or.inl rfl) hrun
    exact hmeets.imp_right fun h => h.2.treeShape h.1
  · have hrefines : Refines { pages := [] } Valid (applyOps ops) (runOps env ops { pages := [] }) :=
      runOps_refines ops (Or.inl rfl)
    rw [hrun] at hrefines
    obtain ⟨evs, htrace, he⟩ := hrefines
    exact he (by rwa [htrace, List.nil_append] at hok)

/-- A build that splits the root, and a bulk deletion. -/
theorem runOps_treeShape_build_delete :
    let ops : List Op := [.build ((List.range 6).map fun i => ⟨(stair i).tTid, (stair i).key⟩),
      .bulkdelete none (some fun tid => tid == (stair 1).tTid)]
    ∃ s, runOps roomyEnv ops { pages := [] } = .ok () s ∧ (metaAt s.pages).rootLevel = 1 ∧
      TreeShape s.pages := by
  intro ops
  have hok : okWith (fun _ s => decide (s.pages.length ≠ 0 ∧ (metaAt s.pages).rootLevel = 1))
      (runOps roomyEnv ops { pages := [] }) = true := by decide +kernel
  obtain ⟨u, s, hrun, hs⟩ := exists_of_okWith hok
  obtain ⟨hne, hlevel⟩ := of_decide_eq_true hs
  refine ⟨s, hrun, hlevel, ((runOps_treeShape roomyEnv ops).1 s hrun).resolve_left fun hnil => ?_⟩
  exact hne (by rw [hnil]; rfl)

/-- After a promotion that found no room on the disk, the page the meta page names has lost the ROOT flag, and no later
    call gives it back. -/
theorem failed_extension_loses_root_flag :
    ∃ s₁ e s₂ s₃, runOps roomyEnv [.build (stairRows 5)] { pages := [] } = .ok () s₁ ∧
      runOp (diskOf 3) (.insert ⟨(stair 5).tTid, (stair 5).key⟩) s₁ = .error e s₂ ∧
      runOp roomyEnv (.insert ⟨(stair 6).tTid, (stair 6).key⟩) s₂ = .ok () s₃ ∧ AddsOk s₃.trace ∧
      ¬ TreeShape s₂.pages ∧ ¬ TreeShape s₃.pages := by
  have hcheck : failedPromotion (fun _ s₂ s₃ => decide (AddsOk s₃.trace ∧
      (pageAt s₂.pages (metaAt s₂.pages).root).special.flags.root = false ∧
      (pageAt s₃.pages (metaAt s₃.pages).root).special.flags.root = false)) = true := by decide +kernel
  obtain ⟨s₁, e, s₂, s₃, h₁, h₂, h₃, h⟩ := exists_of_failedPromotion hcheck
  obtain ⟨hok, hflag₂, hflag₃⟩ := of_decide_eq_true h
  have hnot : ∀ {pages : List Page}, (pageAt pages (metaAt pages).root).special.flags.root = false →
      ¬ TreeShape pages := by
    intro pages hflag hshape
    rw [(hshape.root_iff .root).mpr rfl] at hflag
    cases hflag
  exact ⟨s₁, e, s₂, s₃, h₁, h₂, h₃, hok, hnot hflag₂, hnot hflag₃⟩

end TemporalRTree
