import TemporalRTree.Correctness.InsertTree

/-!
# `Correctness.InsertForesight` — what an insert will do, read off the pages before it

`rtree_insert_page` changes pages on its way up from the leaf, but what it does to a page of the descent path depends
on the pages before the call alone: whether the page has room for what comes to it from below, how `tr_picksplit`
divides it if not, whether the downlink of the child can be replaced, and whether the relation can be extended.
`foresee` computes this from the leaf up with the functions that the code decides by, without changing a page.

On a tree it is what happens: a completed call leaves the pages that are foreseen (`Inserts.foreseen`) and splits those
that are foreseen to be split (`Inserts.split_mem_iff`). On any pages it splits one exactly if the leaf it comes to has
no room (`Inserts.unsplit_iff`).
-/

namespace TemporalRTree
open Layout

/-- What an insert makes of a page: the page as the call leaves it (the left half, if it is split) with the tuples below
    it, the right half with those below that, and whether every `PageAddItem` on the way succeeds. -/
structure Foreseen where
  page : DataPage
  below : List IndexTuple
  right : Option (DataPage × List IndexTuple) := none
  ok : Bool := true

/-- Where an insert fails. -/
inductive FailurePoint where
  /-- The leaf cannot be split: no page has been changed. -/
  | leaf
  /-- The call for `child` has completed, and its downlink cannot be replaced in the parent. -/
  | replacing (level : Nat) (child : BlockNumber)
  /-- `child` has been split, and no page can be allocated above it; `left` are the tuples below its left half. -/
  | extending (level : Nat) (child : BlockNumber) (left : List IndexTuple)
  deriving DecidableEq

/-- The two halves of a page that has no room for an entry; `n` is the block of the right one, and `under` are the
    tuples that an entry leads to. -/
def foreseenSplit (n level : Nat) (page : DataPage) (entry : IndexTuple) (box : RTreeTemporalBox)
    (under : IndexTuple → List IndexTuple) : Foreseen :=
  let left := splitLeft page entry box level page.special.flags n
  let right := splitRight page entry box level page.special.flags
  { page := left.1
    below := left.1.items.flatMap under
    right := some (right.1, right.1.items.flatMap under)
    ok := (left.2 ++ right.2).all id }

/-- A page that takes an entry, or is split for it; `none` if the new block cannot be allocated. -/
def foreseeAdd (env : Env) (n level : Nat) (page : DataPage) (entry : IndexTuple) (box : RTreeTemporalBox)
    (under : IndexTuple → List IndexTuple) : Option Foreseen :=
  if hasRoom page entry then
    (pageAddItem page entry invalidOffsetNumber).map fun page => { page := page, below := page.items.flatMap under }
  else if canExtend env n then some (foreseenSplit n level page entry box under)
  else none

/-- The tuples that an entry above `child` leads to after the call for `child`. Every page below has been split when
    this one is, so that the right half of `child` has the block after those of the lower levels. -/
def Foreseen.under (c : Foreseen) (pages : List Page) (level : Nat) (child : BlockNumber) (t : IndexTuple) :
    List IndexTuple :=
  if t.tTid.blkno = child then c.below
  else if t.tTid.blkno = pages.length + level then (c.right.map Prod.snd).getD []
  else nodes.leaves (pageAt pages) level t.tTid.blkno

/-- The parent after the call for a child; the downlink to the child is at `pos` and has the TID `tid`. -/
def foreseeParent (env : Env) (pages : List Page) (level : Nat) (page : DataPage) (pos : Nat) (tid : ItemPointerData)
    (c : Foreseen) : Except FailurePoint Foreseen :=
  match rtreeReplaceTuple page (pos + 1) (rtreeFormTuple (rtreePageMbr c.page) tid) with
  | none => .error (.replacing level tid.blkno)
  | some page =>
      let under := c.under pages level tid.blkno
      match c.right with
      | none => .ok { page := page, below := page.items.flatMap under, ok := c.ok }
      | some (right, _) =>
          let box := rtreePageMbr right
          let entry := rtreeFormTuple box (childTid (pages.length + level))
          (foreseeAdd env (pages.length + level + 1) (level + 1) page entry box under).elim
            (.error (.extending level tid.blkno c.below)) fun f => .ok { f with ok := c.ok && f.ok }

/-- What an insert will do on its way from `blk` down and back up, or where it will fail. -/
def foresee (env : Env) (pages : List Page) (itup : IndexTuple) (box : RTreeTemporalBox) :
    Nat → BlockNumber → Except FailurePoint Foreseen
  | 0, blk =>
      (foreseeAdd env pages.length 0 (pageAt pages blk) itup box fun t => [t]).elim (.error .leaf) .ok
  | level + 1, blk =>
      let page := pageAt pages blk
      let child := chooseSubtreeInsert page box
      let pos := (page.items.findIdx? fun t => t.tTid.blkno = child).getD 0
      let tid := ((page.items[pos]?).map IndexTuple.tTid).getD (childTid child)
      (foresee env pages itup box level child).bind (foreseeParent env pages level page pos tid)

section Descent
variable {env : Env} {itup : IndexTuple} {box : RTreeTemporalBox} {pages pages₁ pages' : List Page}
  {blk : BlockNumber} {level : Nat} {evs : List Event}

/-- What the descent into the child changes is in the child's tree. -/
theorem ChoosesChild.spec {pos : Nat} {childitup : IndexTuple} {childres : RTreeInsertResult}
    (hchild : ChoosesChild (pageAt pages blk) box pos childitup)
    (hrec : Inserts env itup box pages childitup.tTid.blkno level childres pages₁ evs)
    (hkey : itup.key.isSome = true) (hf : nodes.Forest NodeOk (pageAt pages) (level + 1) [blk])
    (halloc : ∀ x ∈ nodes.forestBlocks (pageAt pages) (level + 1) [blk], x ∈ allocated pages) :
    pageAt pages₁ blk = pageAt pages blk ∧
      (∀ x ∈ allocated pages, x ∉ nodes.blocks (pageAt pages) level childitup.tTid.blkno →
        pageAt pages₁ x = pageAt pages x) ∧
      ∀ x ∈ nodes.forestBlocks (pageAt pages₁) level (resultBlocks childitup.tTid.blkno childres),
        x ≠ blk ∧ x < pages₁.length := by
  obtain ⟨hf', halloc'⟩ := hchild.forest hf halloc
  have hspec := hrec.spec hkey hf' halloc'
  have hblk : blk ∈ allocated pages := halloc blk (by simp [self_mem_blocks])
  have hnot : blk ∉ nodes.blocks (pageAt pages) level childitup.tTid.blkno := fun hx =>
    hf.kids.2.2 (blocks_subset_forest hchild.mem_kids hx)
  have hframe : ∀ x ∈ allocated pages, x ∉ nodes.blocks (pageAt pages) level childitup.tTid.blkno →
      pageAt pages₁ x = pageAt pages x := fun x hx hn =>
    hspec.update.frame x hx (by rwa [forestBlocks_singleton])
  refine ⟨hframe blk hblk hnot, hframe, fun x hx => ?_⟩
  rcases hspec.update.mem x hx with hold | hnew
  · exact ⟨fun he => hnot (by rwa [forestBlocks_singleton, he] at hold),
      Nat.lt_of_lt_of_le (halloc' x hold) hrec.length_le⟩
  · exact ⟨fun he => hnew.2 (he ▸ hblk), hnew.1⟩

theorem foresee_succ {pos : Nat} {childitup : IndexTuple}
    (hchild : ChoosesChild (pageAt pages blk) box pos childitup) :
    foresee env pages itup box (level + 1) blk = (foresee env pages itup box level childitup.tTid.blkno).bind
      (foreseeParent env pages level (pageAt pages blk) pos childitup.tTid) := by
  simp only [foresee, hchild.first, Option.getD_some, hchild.item, Option.map_some]
  rw [hchild.blkno]

section Add
variable {n : Nat} {page page' : DataPage} {entry : IndexTuple} {under : IndexTuple → List IndexTuple}

theorem foreseeAdd_of_room (hroom : hasRoom page entry = true)
    (hadd : pageAddItem page entry invalidOffsetNumber = some page') :
    foreseeAdd env n level page entry box under = some { page := page', below := page'.items.flatMap under } := by
  rw [foreseeAdd, if_pos hroom, hadd]
  rfl

theorem foreseeAdd_of_full (hfull : hasRoom page entry = false) (hext : canExtend env n) :
    foreseeAdd env n level page entry box under = some (foreseenSplit n level page entry box under) := by
  rw [foreseeAdd, if_neg (Bool.eq_false_iff.mp hfull), if_pos hext]

theorem foreseeAdd_of_cannot (hfull : hasRoom page entry = false) (hext : ¬ canExtend env n) :
    foreseeAdd env n level page entry box under = none := by
  rw [foreseeAdd, if_neg (Bool.eq_false_iff.mp hfull), if_neg hext]

theorem foreseeAdd_below {f : Foreseen} (h : foreseeAdd env n level page entry box under = some f) :
    f.below = f.page.items.flatMap under := by
  rw [foreseeAdd] at h
  split at h
  · obtain ⟨page', -, rfl⟩ := Option.map_eq_some_iff.mp h
    rfl
  · obtain ⟨-, h⟩ := Option.ite_none_right_eq_some.mp h
    obtain rfl := Option.some.inj h
    rfl

end Add

/-- The tuples below a page are those its entries lead to. -/
theorem foreseeParent_below {page : DataPage} {pos : Nat} {tid : ItemPointerData} {c f : Foreseen}
    (h : foreseeParent env pages level page pos tid c = .ok f) :
    f.below = f.page.items.flatMap (c.under pages level tid.blkno) := by
  rw [foreseeParent] at h
  split at h
  · exact absurd h (by simp)
  · dsimp only at h
    split at h
    · obtain rfl := Except.ok.inj h
      rfl
    · cases hadd : foreseeAdd env (pages.length + level + 1) (level + 1) _ _ _ (c.under pages level tid.blkno) with
      | none =>
          rw [hadd, Option.elim_none] at h
          exact absurd h (by simp)
      | some g =>
          rw [hadd, Option.elim_some] at h
          obtain rfl := Except.ok.inj h
          have hbelow := foreseeAdd_below hadd
          exact hbelow

/-! ## Completed calls -/

/-- A completed call has done what was foreseen. -/
structure Foresees (f : Foreseen) (pages : List Page) (level : Nat) (blk : BlockNumber) (res : RTreeInsertResult)
    (pages' : List Page) (evs : List Event) : Prop where
  page : pageAt pages' blk = f.page
  below : nodes.leaves (pageAt pages') level blk = f.below
  leftBox : res.leftBox = rtreePageMbr f.page
  ok : AddsOk evs ↔ f.ok = true
  unsplit : res.split = none → f.right = none
  split : ∀ right, res.split = some right → right.rightBlkno = pages.length + level ∧
    pages'.length = pages.length + level + 1 ∧ right.rightBox = rtreePageMbr (pageAt pages' right.rightBlkno) ∧
    f.right = some (pageAt pages' right.rightBlkno, nodes.leaves (pageAt pages') level right.rightBlkno)

/-- The tuples of a leaf. -/
theorem leaves_leaf : nodes.leaves (pageAt pages) 0 blk = (pageAt pages blk).items.flatMap fun t => [t] :=
  (List.flatMap_singleton' _).symm

/-- The tuples below an inner page, entry by entry. -/
theorem leaves_inner {under : IndexTuple → List IndexTuple}
    (h : ∀ t ∈ (pageAt pages blk).items, nodes.leaves (pageAt pages) level t.tTid.blkno = under t) :
    nodes.leaves (pageAt pages) (level + 1) blk = (pageAt pages blk).items.flatMap under := by
  rw [leaves_succ, forestLeaves]
  show ((pageAt pages blk).items.map _).flatMap _ = _
  rw [List.flatMap_map]
  exact List.flatMap_congr h

section Inner
variable {pos : Nat} {childitup : IndexTuple} {childres : RTreeInsertResult} {c : Foreseen} {pages'' : List Page}
  (hchild : ChoosesChild (pageAt pages blk) box pos childitup)
  (hrec : Inserts env itup box pages childitup.tTid.blkno level childres pages₁ evs)
  (hc : Foresees c pages level childitup.tTid.blkno childres pages₁ evs)
  (hkey : itup.key.isSome = true) (hf : nodes.Forest NodeOk (pageAt pages) (level + 1) [blk])
  (halloc : ∀ x ∈ nodes.forestBlocks (pageAt pages) (level + 1) [blk], x ∈ allocated pages)
include hchild hrec hc hkey hf halloc

/-- The tuples below the entries of the page, once the call for the child has completed. -/
theorem Foresees.under_eq (hframe : ∀ x, x ≠ blk → x < pages₁.length → pageAt pages'' x = pageAt pages₁ x)
    {t : IndexTuple} (ht : t.tTid.blkno ∈ nodes.kids (pageAt pages blk) ∨
      ∃ right, childres.split = some right ∧ t.tTid.blkno = right.rightBlkno) :
    nodes.leaves (pageAt pages'') level t.tTid.blkno = c.under pages level childitup.tTid.blkno t := by
  obtain ⟨-, hsame, hblocks⟩ := hchild.spec hrec hkey hf halloc
  -- the trees that the call made of the child's are not touched any more
  have hmade : ∀ b ∈ resultBlocks childitup.tTid.blkno childres,
      nodes.leaves (pageAt pages'') level b = nodes.leaves (pageAt pages₁) level b := fun b hb =>
    leaves_congr fun x hx => by
      obtain ⟨hne, hlt⟩ := hblocks x (blocks_subset_forest hb hx)
      exact hframe x hne hlt
  have hold : ∀ b ∈ nodes.kids (pageAt pages blk), ∀ x ∈ nodes.blocks (pageAt pages) level b,
      x < pages.length := fun b hb x hx => by
    refine halloc x ?_
    rw [forestBlocks_singleton, blocks_succ]
    exact List.mem_cons_of_mem _ (blocks_subset_forest hb hx)
  rw [Foreseen.under]
  split
  · next he => rw [he, hmade _ (by simp [resultBlocks]), hc.below]
  next hne =>
    rcases ht with hkid | ⟨right, hsplit, he⟩
    · -- another child: the descent did not come near it
      have hlt : t.tTid.blkno < pages.length := hold _ hkid _ self_mem_blocks
      rw [if_neg (Nat.ne_of_lt (Nat.lt_of_lt_of_le hlt (Nat.le_add_right _ _)))]
      refine leaves_congr fun x hx => ?_
      have hx' := hold _ hkid x hx
      rw [hframe x (fun he => hf.kids.2.2 (he ▸ blocks_subset_forest hkid hx))
        (Nat.lt_of_lt_of_le hx' hrec.length_le)]
      exact hsame x hx' fun hin => hne (hf.kids.2.1.eq_of_mem hkid hchild.mem_kids hx hin)
    · -- the right half of the child, which no old downlink leads to
      obtain ⟨hblkno, -, -, hright⟩ := hc.split right hsplit
      rw [if_pos (he.trans hblkno), hright, he, hmade _ (by simp [resultBlocks, hsplit])]
      rfl

/-- The page with the downlink of the child replaced. -/
theorem Foresees.replaced {page₂ : DataPage}
    (hrep : rtreeReplaceTuple (pageAt pages₁ blk) (pos + 1) (rtreeFormTuple childres.leftBox childitup.tTid) =
      some page₂) :
    rtreeReplaceTuple (pageAt pages blk) (pos + 1) (rtreeFormTuple (rtreePageMbr c.page) childitup.tTid) =
        some page₂ ∧ ∀ t ∈ page₂.items, t.tTid.blkno ∈ nodes.kids (pageAt pages blk) := by
  obtain ⟨hself, -, -⟩ := hchild.spec hrec hkey hf halloc
  rw [hself] at hrep
  obtain ⟨-, hkids, -⟩ := hchild.replace (hf.holds blk (by simp)).node hrep
  refine ⟨by rw [← hc.leftBox, hrep], fun t ht => ?_⟩
  rw [← hkids]
  exact List.mem_map_of_mem ht

end Inner

/-- The parent of a child that has been split. -/
theorem Foresees.parent_split {c : Foreseen} {childres : RTreeInsertResult} {right : SplitRight} {pos : Nat}
    {page page₂ : DataPage} {tid : ItemPointerData} (hc : Foresees c pages level tid.blkno childres pages₁ evs)
    (hs : childres.split = some right)
    (hrep : rtreeReplaceTuple page (pos + 1) (rtreeFormTuple (rtreePageMbr c.page) tid) = some page₂) :
    foreseeParent env pages level page pos tid c =
      (foreseeAdd env pages₁.length (level + 1) page₂ (rightTuple right) right.rightBox
        (c.under pages level tid.blkno)).elim (.error (.extending level tid.blkno c.below))
          fun f => .ok { f with ok := c.ok && f.ok } := by
  obtain ⟨hblkno, hlen, hbox, hright⟩ := hc.split right hs
  simp only [foreseeParent, hrep, hright]
  rw [← hbox, hlen, ← hblkno]

/-- A page that has been written in place. -/
theorem Foresees.of_set {page' : DataPage} {under : IndexTuple → List IndexTuple} {ok : Bool}
    (hblk : blk < pages₁.length)
    (hunder : ∀ t ∈ page'.items, nodes.leaves (pageAt (pages₁.set blk (.data page'))) level t.tTid.blkno = under t)
    (hok : AddsOk evs ↔ ok = true) :
    Foresees { page := page', below := page'.items.flatMap under, ok := ok } pages (level + 1) blk
      { leftBox := rtreePageMbr page', split := none } (pages₁.set blk (.data page')) evs := by
  have hself : pageAt (pages₁.set blk (.data page')) blk = page' := pageAt_set_self hblk
  refine ⟨hself, ?_, rfl, hok, fun _ => rfl, fun _ h => absurd h (by simp)⟩
  rw [leaves_inner fun t ht => hunder t (hself ▸ ht), hself]

/-- A page that has been split; `under` are the tuples its entries lead to. -/
theorem Foresees.of_halves (env : Env) {pages₂ : List Page} (entry : IndexTuple) (ebox : RTreeTemporalBox)
    {under : IndexTuple → List IndexTuple} (hblk : blk < pages₂.length) (hlen : pages₂.length = pages.length + level)
    (hpages : pages' = splitPages pages₂ blk entry ebox level (pageAt pages₂ blk).special.flags)
    (hunder : ∀ b ∈ [blk, pages₂.length],
      nodes.leaves (pageAt pages') level b = (pageAt pages' b).items.flatMap under) :
    Foresees (foreseenSplit pages₂.length level (pageAt pages₂ blk) entry ebox under) pages level blk
      (splitResult pages₂ blk entry ebox level (pageAt pages₂ blk).special.flags) pages'
      (splitTrace env pages₂ blk entry ebox level (pageAt pages₂ blk).special.flags) := by
  have hleft : pageAt pages' blk = _ := hpages ▸ pageAt_splitPages_left hblk
  have hright : pageAt pages' pages₂.length = _ := hpages ▸ pageAt_splitPages_right
  refine ⟨hleft, ?_, rfl, ?_, fun h => absurd h (by simp [splitResult]), fun right h => ?_⟩
  · rw [hunder blk (by simp), hleft]
    rfl
  · rw [addsOk_splitTrace_iff]
    simp [foreseenSplit]
  · obtain rfl := Option.some.inj h
    refine ⟨hlen, by simp [hpages, hlen], by rw [hright], ?_⟩
    show some _ = some (pageAt pages' pages₂.length, nodes.leaves (pageAt pages') level pages₂.length)
    rw [hunder _ (by simp), hright]

/-- An inner page that has been split for an entry. -/
theorem Foresees.of_split (env : Env) {pages₂ : List Page} (entry : IndexTuple) (ebox : RTreeTemporalBox)
    {under : IndexTuple → List IndexTuple} (hblk : blk < pages₂.length)
    (hlen : pages₂.length = pages.length + (level + 1))
    (hunder : ∀ t ∈ (pageAt pages₂ blk).items ++ [entry], nodes.leaves (pageAt (splitPages pages₂ blk entry ebox
      (level + 1) (pageAt pages₂ blk).special.flags)) level t.tTid.blkno = under t) :
    Foresees (foreseenSplit pages₂.length (level + 1) (pageAt pages₂ blk) entry ebox under) pages (level + 1) blk
      (splitResult pages₂ blk entry ebox (level + 1) (pageAt pages₂ blk).special.flags)
      (splitPages pages₂ blk entry ebox (level + 1) (pageAt pages₂ blk).special.flags)
      (splitTrace env pages₂ blk entry ebox (level + 1) (pageAt pages₂ blk).special.flags) := by
  have hitems := (split_spec (pageAt pages₂ blk) entry ebox (level + 1) (pageAt pages₂ blk).special.flags
    pages₂.length).items_le.subset
  refine Foresees.of_halves env entry ebox hblk hlen rfl fun b hb => leaves_inner fun t ht => hunder t (hitems ?_)
  rcases List.mem_cons.mp hb with rfl | hb
  · rw [pageAt_splitPages_left hblk] at ht
    exact List.mem_append_left _ ht
  · rw [List.mem_singleton.mp hb, pageAt_splitPages_right] at ht
    exact List.mem_append_right _ ht

/-- A page whose trace has other parts as well, with `PageAddItem` calls of their own. -/
theorem Foresees.and_ok {f : Foreseen} {res : RTreeInsertResult} {ok : Bool} {evs' evs'' : List Event}
    (h : Foresees f pages level blk res pages' evs) (hevs : AddsOk evs'' ↔ AddsOk evs' ∧ AddsOk evs)
    (hok : AddsOk evs' ↔ ok = true) :
    Foresees { f with ok := ok && f.ok } pages level blk res pages' evs'' :=
  ⟨h.page, h.below, h.leftBox, by rw [hevs, hok, h.ok, Bool.and_eq_true], h.unsplit, h.split⟩

/-- **A completed call on a tree has done what was foreseen.** -/
theorem Inserts.foreseen {res : RTreeInsertResult} (h : Inserts env itup box pages blk level res pages' evs)
    (hkey : itup.key.isSome = true) (hf : nodes.Forest NodeOk (pageAt pages) level [blk])
    (halloc : ∀ x ∈ nodes.forestBlocks (pageAt pages) level [blk], x ∈ allocated pages) :
    ∃ f, foresee env pages itup box level blk = .ok f ∧ Foresees f pages level blk res pages' evs := by
  -- from the leaf up, as the code returns; the page itself is still the old one when its child has returned
  induction h with
  | @leafAdd blk level page' hblk hleaf hroom hadd =>
      obtain rfl := level_eq_zero_of_leaf hf hleaf
      refine ⟨_, by rw [foresee, foreseeAdd_of_room hroom hadd, Option.elim_some], ?_⟩
      have hself : pageAt (pages.set blk (.data page')) blk = page' := pageAt_set_self hblk
      refine ⟨hself, ?_, rfl, by simp [changeTrace], fun _ => rfl, fun _ h => absurd h (by simp)⟩
      rw [leaves_leaf, hself]
  | @leafSplit blk level hblk hleaf hfull hext =>
      have hnode := (hf.holds blk (by simp)).node
      obtain rfl := level_eq_zero_of_leaf hf hleaf
      rw [hnode.level_eq]
      have hsplit : Foresees _ pages 0 blk _ _ _ :=
        Foresees.of_halves env itup box hblk rfl rfl fun _ _ => leaves_leaf
      have hnone : AddsOk [] ↔ true = true := by simp
      refine ⟨_, ?_, hsplit.and_ok (by simp) hnone⟩
      rw [foresee, foreseeAdd_of_full hfull hext, Option.elim_some, Bool.true_and]
  | @innerKeep pages₁ blk level pos childitup childBox page₂ evs hblk hchild hrec hrep ih =>
      obtain ⟨hf', halloc'⟩ := hchild.forest hf halloc
      obtain ⟨c, hforesee, hc⟩ := ih hf' halloc'
      obtain ⟨hrep', hitems⟩ := hc.replaced hchild hrec hkey hf halloc hrep
      refine ⟨_, ?_, Foresees.of_set (Nat.lt_of_lt_of_le hblk hrec.length_le) (fun t ht => hc.under_eq hchild hrec hkey
        hf halloc (fun x hx _ => pageAt_set_ne hx) (Or.inl (hitems t ht))) (by simpa [changeTrace] using hc.ok)⟩
      rw [foresee_succ hchild, hforesee, Except.bind, foreseeParent, hrep']
      simp only [hc.unsplit rfl]
  | @innerAdd pages₁ blk level pos childitup childBox right page₂ page₃ evs hblk hchild hrec hrep hroom hadd ih =>
      obtain ⟨hf', halloc'⟩ := hchild.forest hf halloc
      obtain ⟨c, hforesee, hc⟩ := ih hf' halloc'
      obtain ⟨hrep', hitems⟩ := hc.replaced hchild hrec hkey hf halloc hrep
      have hlinks : ∀ t ∈ page₃.items, t.tTid.blkno ∈ nodes.kids (pageAt pages blk) ∨
          ∃ r, some right = some r ∧ t.tTid.blkno = r.rightBlkno := by
        intro t ht
        rw [(pageAddItem_items hadd).1, List.mem_append, List.mem_singleton] at ht
        exact ht.imp (hitems t) fun he => ⟨right, rfl, by rw [he]; rfl⟩
      refine ⟨_, ?_, Foresees.of_set (Nat.lt_of_lt_of_le hblk hrec.length_le) (fun t ht => hc.under_eq hchild hrec hkey
        hf halloc (fun x hx _ => pageAt_set_ne hx) (hlinks t ht)) (by simpa [changeTrace] using hc.ok)⟩
      rw [foresee_succ hchild, hforesee, Except.bind, hc.parent_split rfl hrep', foreseeAdd_of_room hroom hadd,
        Option.elim_some, Bool.and_true]
  | @innerSplit pages₁ blk level pos childitup childBox right page₂ evs hblk hchild hrec hrep hfull hext ih =>
      obtain ⟨hf', halloc'⟩ := hchild.forest hf halloc
      obtain ⟨c, hforesee, hc⟩ := ih hf' halloc'
      obtain ⟨hrep', hitems⟩ := hc.replaced hchild hrec hkey hf halloc hrep
      have hself : pageAt (pages₁.set blk (.data page₂)) blk = page₂ :=
        pageAt_set_self (Nat.lt_of_lt_of_le hblk hrec.length_le)
      have hlen : (pages₁.set blk (.data page₂)).length = pages₁.length := List.length_set
      have hframe : ∀ flags x, x ≠ blk → x < pages₁.length → pageAt (splitPages (pages₁.set blk (.data page₂)) blk
          (rightTuple right) right.rightBox (level + 1) flags) x = pageAt pages₁ x := by
        intro flags x hne hlt
        rw [pageAt_splitPages_of_ne hne (by rw [hlen]; exact Nat.ne_of_lt hlt), pageAt_set_ne hne]
      -- what the halves hold was on the page, or is the downlink of the child's right half
      have hlinks : ∀ t ∈ page₂.items ++ [rightTuple right], t.tTid.blkno ∈ nodes.kids (pageAt pages blk) ∨
          ∃ r, some right = some r ∧ t.tTid.blkno = r.rightBlkno := by
        intro t ht
        rw [List.mem_append, List.mem_singleton] at ht
        exact ht.imp (hitems t) fun he => ⟨right, rfl, by rw [he]; rfl⟩
      have hblk₂ : blk < (pages₁.set blk (.data page₂)).length := by
        rw [hlen]
        exact Nat.lt_of_lt_of_le hblk hrec.length_le
      have hsplit : Foresees _ pages (level + 1) blk _ _ _ :=
        Foresees.of_split env (rightTuple right) right.rightBox hblk₂ (hlen.trans (hc.split right rfl).2.1)
          fun t ht => hc.under_eq hchild hrec hkey hf halloc (hframe _) (hlinks t (hself ▸ ht))
      rw [hself] at hsplit
      refine ⟨_, ?_, hsplit.and_ok (by simp) hc.ok⟩
      rw [foresee_succ hchild, hforesee, Except.bind, hc.parent_split rfl hrep', foreseeAdd_of_full hfull hext,
        Option.elim_some, hlen]

/-! ## Splits on the way -/

/-- An insert will split this page. -/
def splitsPage (env : Env) (pages : List Page) (itup : IndexTuple) (box : RTreeTemporalBox) (level : Nat)
    (blk : BlockNumber) : Bool :=
  match foresee env pages itup box level blk with
  | .ok f => f.right.isSome
  | .error _ => false

/-- The pages that an insert will split. -/
def splitBlocks (env : Env) (pages : List Page) (itup : IndexTuple) (box : RTreeTemporalBox) :
    Nat → BlockNumber → List BlockNumber
  | 0, blk => if splitsPage env pages itup box 0 blk then [blk] else []
  | level + 1, blk => (if splitsPage env pages itup box (level + 1) blk then [blk] else []) ++
      splitBlocks env pages itup box level (chooseSubtreeInsert (pageAt pages blk) box)

theorem Foresees.right_isSome {f : Foreseen} {res : RTreeInsertResult}
    (h : Foresees f pages level blk res pages' evs) : f.right.isSome = res.split.isSome := by
  cases hs : res.split with
  | none => rw [h.unsplit hs]; rfl
  | some right => rw [(h.split right hs).2.2.2]; rfl

/-- A completed call splits its start page if that is foreseen. -/
theorem Inserts.splitsPage_eq {res : RTreeInsertResult} (h : Inserts env itup box pages blk level res pages' evs)
    (hkey : itup.key.isSome = true) (hf : nodes.Forest NodeOk (pageAt pages) level [blk])
    (halloc : ∀ x ∈ nodes.forestBlocks (pageAt pages) level [blk], x ∈ allocated pages) :
    splitsPage env pages itup box level blk = res.split.isSome := by
  obtain ⟨f, hforesee, hf'⟩ := h.foreseen hkey hf halloc
  rw [splitsPage, hforesee]
  exact hf'.right_isSome

@[simp] theorem split_notMem_changeTrace {l r : BlockNumber} {page : DataPage} :
    Event.split l r ∉ changeTrace env blk page := by
  simp [changeTrace, walRecord]

@[simp] theorem split_mem_splitTrace {l r : BlockNumber} {newitup : IndexTuple} {newbox : RTreeTemporalBox}
    {flags : PageFlags} :
    Event.split l r ∈ splitTrace env pages blk newitup newbox level flags ↔ l = blk ∧ r = pages.length := by
  simp [splitTrace, walRecord]

/-- **A completed call splits the pages that are foreseen.** -/
theorem Inserts.split_mem_iff {res : RTreeInsertResult} {l : BlockNumber}
    (h : Inserts env itup box pages blk level res pages' evs) (hkey : itup.key.isSome = true)
    (hf : nodes.Forest NodeOk (pageAt pages) level [blk])
    (halloc : ∀ x ∈ nodes.forestBlocks (pageAt pages) level [blk], x ∈ allocated pages) :
    (∃ r, Event.split l r ∈ evs) ↔ l ∈ splitBlocks env pages itup box level blk := by
  have hown := h.splitsPage_eq hkey hf halloc
  induction h with
  | @leafAdd blk level page' hblk hleaf hroom hadd =>
      obtain rfl := level_eq_zero_of_leaf hf hleaf
      simp [splitBlocks, hown]
  | @leafSplit blk level hblk hleaf hfull hext =>
      obtain rfl := level_eq_zero_of_leaf hf hleaf
      simp [splitBlocks, hown, splitResult]
  | @innerKeep pages₁ blk level pos childitup childBox page₂ evs hblk hchild hrec hrep ih =>
      obtain ⟨hf', halloc'⟩ := hchild.forest hf halloc
      have hbelow := ih hf' halloc' (hrec.splitsPage_eq hkey hf' halloc')
      simp [splitBlocks, hown, ← hchild.blkno, ← hbelow]
  | @innerAdd pages₁ blk level pos childitup childBox right page₂ page₃ evs hblk hchild hrec hrep hroom hadd ih =>
      obtain ⟨hf', halloc'⟩ := hchild.forest hf halloc
      have hbelow := ih hf' halloc' (hrec.splitsPage_eq hkey hf' halloc')
      simp [splitBlocks, hown, ← hchild.blkno, ← hbelow]
  | @innerSplit pages₁ blk level pos childitup childBox right page₂ evs hblk hchild hrec hrep hfull hext ih =>
      obtain ⟨hf', halloc'⟩ := hchild.forest hf halloc
      have hbelow := ih hf' halloc' (hrec.splitsPage_eq hkey hf' halloc')
      simp [splitBlocks, hown, ← hchild.blkno, ← hbelow, splitResult, exists_or, or_comm]

/-- The leaf that a descent ends at. -/
def descentLeaf (pages : List Page) (box : RTreeTemporalBox) : Nat → BlockNumber → BlockNumber
  | 0, blk => blk
  | level + 1, blk =>
      let page := pageAt pages blk
      if page.special.flags.leaf then blk else descentLeaf pages box level (chooseSubtreeInsert page box)

theorem descentLeaf_of_leaf (h : level = 0 ∨ (pageAt pages blk).special.flags.leaf = true) :
    descentLeaf pages box level blk = blk := by
  cases level with
  | zero => rfl
  | succ level => exact if_pos (h.resolve_left (Nat.succ_ne_zero level))

theorem ChoosesChild.descentLeaf {pos : Nat} {childitup : IndexTuple}
    (h : ChoosesChild (pageAt pages blk) box pos childitup) :
    descentLeaf pages box (level + 1) blk = descentLeaf pages box level childitup.tTid.blkno := by
  rw [TemporalRTree.descentLeaf, h.blkno]
  exact if_neg (by simp [h.inner])

/-- **A completed call splits no page exactly if the leaf it ends at has room**, whatever the pages are. -/
theorem Inserts.unsplit_iff {res : RTreeInsertResult} (h : Inserts env itup box pages blk level res pages' evs) :
    (∀ l r, Event.split l r ∉ evs) ↔ hasRoom (pageAt pages (descentLeaf pages box level blk)) itup = true := by
  induction h with
  | leafAdd hblk hleaf hroom hadd => simp [descentLeaf_of_leaf hleaf, hroom]
  | @leafSplit blk level hblk hleaf hfull hext =>
      rw [descentLeaf_of_leaf hleaf, hfull]
      exact iff_of_false (fun h => h blk pages.length (by simp)) (by simp)
  | innerKeep hblk hchild hrec hrep ih =>
      rw [hchild.descentLeaf, ← ih]
      simp
  | innerAdd hblk hchild hrec hrep hroom hadd ih =>
      rw [hchild.descentLeaf, ← ih]
      simp
  | @innerSplit pages₁ blk level pos childitup childBox right page₂ evs hblk hchild hrec hrep hfull hext ih =>
      -- the page is split because its child was
      rw [hchild.descentLeaf, ← ih]
      exact iff_of_false (fun h => h blk pages₁.length (by simp)) fun h => h _ _ (hrec.split_mem rfl)

end Descent

end TemporalRTree
