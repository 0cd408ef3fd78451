import TemporalRTree.Correctness.PageCapacity

/-!
# `Correctness.LockRanks` — a rank of every block, above the ranks of its children

Content locks are taken from a page to its children. That this is an order, whatever has happened to the tree, is what
the ranks here say: every block has one, above those of the blocks its downlinks name (`Ranked`).

The rank of a block is not its level. Inserts that started from an outdated root, and bulk deletions that shrink the
root under them, leave pages whose level says nothing about their parents; still a new right half can take the rank
of the page it came from (`Ranked.split`) and a new root one more (`Ranked.append`). A rank changes only when a root
swallows its only child, and then it falls (`Ranked.lower`).
-/

namespace TemporalRTree
open EStateM

/-! ## Ranks of pages -/

/-- A block of a relation of `n` blocks other than the meta page. -/
abbrev DataBlock (n : Nat) (b : BlockNumber) : Prop := 0 < b ∧ b < n

theorem DataBlock.mono {n n' : Nat} {b : BlockNumber} (h : DataBlock n b) (hn : n ≤ n') : DataBlock n' b :=
  ⟨h.1, Nat.lt_of_lt_of_le h.2 hn⟩

/-- A downlink from a page of rank `r`. -/
abbrev Below (rank : BlockNumber → Nat) (n r : Nat) (t : IndexTuple) : Prop :=
  DataBlock n t.tTid.blkno ∧ rank t.tTid.blkno < r

/-- What a page of rank `r` is like: its level is not smaller, and an inner page leads to smaller ranks. -/
structure PageRanked (rank : BlockNumber → Nat) (n r : Nat) (page : DataPage) : Prop where
  level : r ≤ page.special.level
  pos : page.special.flags.leaf = false → 0 < r
  below : page.special.flags.leaf = false → ∀ t ∈ page.items, Below rank n r t

/-- A rank of every block that the downlinks and the meta page agree with. -/
structure Ranked (rank : BlockNumber → Nat) (pages : List Page) : Prop where
  root : DataBlock pages.length (metaAt pages).root
  root_le : rank (metaAt pages).root ≤ (metaAt pages).rootLevel
  page : ∀ b, DataBlock pages.length b → PageRanked rank pages.length (rank b) (pageAt pages b)

/-- `rank'` is at most `rank` on the blocks there are. -/
abbrev Lowers (n : Nat) (rank rank' : BlockNumber → Nat) : Prop := ∀ b, DataBlock n b → rank' b ≤ rank b

section Pages
variable {rank rank' : BlockNumber → Nat} {n n' r : Nat} {pages : List Page} {b : BlockNumber} {p : DataPage}

theorem Below.mono {t : IndexTuple} (h : Below rank n r t) (hle : Lowers n rank rank') (hn : n ≤ n') :
    Below rank' n' r t :=
  ⟨h.1.mono hn, Nat.lt_of_le_of_lt (hle _ h.1) h.2⟩

theorem PageRanked.mono (h : PageRanked rank n r p) (hle : Lowers n rank rank') (hn : n ≤ n') :
    PageRanked rank' n' r p :=
  ⟨h.level, h.pos, fun hleaf t ht => (h.below hleaf t ht).mono hle hn⟩

/-- A page may be rewritten, and its rank may fall. -/
theorem Ranked.lower (h : Ranked rank pages) (hb : DataBlock pages.length b) (hr : r ≤ rank b)
    (hp : PageRanked rank pages.length r p) :
    Ranked (Function.update rank b r) (pages.set b (.data p)) := by
  have hle : Lowers pages.length rank (Function.update rank b r) := by
    intro x _
    by_cases hx : x = b
    · rw [hx, Function.update_self]
      exact hr
    · rw [Function.update_of_ne hx]
  have hmeta : metaAt (pages.set b (.data p)) = metaAt pages := metaAt_set_ne (Nat.pos_iff_ne_zero.mp hb.1)
  refine ⟨?_, ?_, ?_⟩
  · rw [hmeta, List.length_set]
    exact h.root
  · rw [hmeta]
    exact Nat.le_trans (hle _ h.root) h.root_le
  · intro x hx
    rw [List.length_set] at hx ⊢
    by_cases hxb : x = b
    · subst hxb
      rw [Function.update_self, pageAt_set_self hx.2]
      exact hp.mono hle (Nat.le_refl _)
    · rw [Function.update_of_ne hxb, pageAt_set_ne hxb]
      exact (h.page x hx).mono hle (Nat.le_refl _)

theorem Ranked.set (h : Ranked rank pages) (hb : DataBlock pages.length b)
    (hp : PageRanked rank pages.length (rank b) p) : Ranked rank (pages.set b (.data p)) := by
  have hset := h.lower hb (Nat.le_refl _) hp
  rwa [Function.update_eq_self] at hset

/-- A new block does not touch what is known of the others. -/
theorem lowers_update_length : Lowers n rank (Function.update rank n r) := by
  intro x hx
  rw [Function.update_of_ne (Nat.ne_of_lt hx.2)]

theorem Ranked.append (h : Ranked rank pages) (hp : PageRanked rank pages.length r p) :
    Ranked (Function.update rank pages.length r) (pages ++ [.data p]) := by
  have hpos : 0 < pages.length := Nat.lt_trans h.root.1 h.root.2
  have hlen : (pages ++ [Page.data p]).length = pages.length + 1 := by simp
  refine ⟨?_, ?_, ?_⟩
  · rw [metaAt_append hpos, hlen]
    exact h.root.mono (Nat.le_succ _)
  · rw [metaAt_append hpos]
    exact Nat.le_trans (lowers_update_length _ h.root) h.root_le
  · intro x hx
    rw [hlen] at hx ⊢
    by_cases hxn : x = pages.length
    · subst hxn
      rw [Function.update_self, pageAt_append_self]
      exact hp.mono lowers_update_length (Nat.le_succ _)
    · have hx : DataBlock pages.length x := ⟨hx.1, Nat.lt_of_le_of_ne (Nat.lt_succ_iff.mp hx.2) hxn⟩
      rw [Function.update_of_ne hxn, pageAt_append_of_lt hx.2]
      exact (h.page x hx).mono lowers_update_length (Nat.le_succ _)

/-- The meta page may name another block and level that fit. -/
theorem Ranked.setMeta {m : RTreeMetaPageData} (h : Ranked rank pages) (hroot : DataBlock pages.length m.root)
    (hle : rank m.root ≤ m.rootLevel) : Ranked rank (pages.set 0 (.metapage m)) := by
  have hpos : 0 < pages.length := Nat.lt_trans h.root.1 h.root.2
  refine ⟨?_, ?_, ?_⟩
  · rw [metaAt_set_zero hpos, List.length_set]
    exact hroot
  · rw [metaAt_set_zero hpos]
    exact hle
  · intro x hx
    rw [List.length_set] at hx ⊢
    rw [pageAt_set_ne (Nat.pos_iff_ne_zero.mp hx.1)]
    exact h.page x hx

end Pages

/-! ### Page writes -/

section Writes
variable {rank : BlockNumber → Nat} {n r : Nat} {page page' : DataPage} {itup : IndexTuple}

/-- A page with other tuples, none of them a downlink upwards. -/
theorem PageRanked.of_items (h : PageRanked rank n r page) (hspecial : page'.special = page.special)
    (hitems : page.special.flags.leaf = false → ∀ t ∈ page'.items, Below rank n r t) : PageRanked rank n r page' := by
  refine ⟨?_, ?_, ?_⟩
  · rw [hspecial]
    exact h.level
  · rw [hspecial]
    exact h.pos
  · rw [hspecial]
    exact hitems

theorem PageRanked.addItem (h : PageRanked rank n r page)
    (hadd : pageAddItem page itup invalidOffsetNumber = some page')
    (hitup : page.special.flags.leaf = false → Below rank n r itup) : PageRanked rank n r page' :=
  h.of_items (pageAddItem_items hadd).2 fun hleaf => pageAddItem_all (h.below hleaf) (hitup hleaf) hadd

theorem pageIndexTupleDelete_subset (offnum : OffsetNumber) :
    (pageIndexTupleDelete page offnum).items ⊆ page.items :=
  (List.eraseIdx_sublist page.items (offnum - 1)).subset

theorem PageRanked.delete (h : PageRanked rank n r page) (offnum : OffsetNumber) :
    PageRanked rank n r (pageIndexTupleDelete page offnum) :=
  h.of_items rfl fun hleaf t ht => h.below hleaf t (pageIndexTupleDelete_subset offnum ht)

/-- A tuple added at an offset is the only new one. -/
theorem pageAddItem_mem {offnum : OffsetNumber} (h : pageAddItem page itup offnum = some page') :
    page'.special = page.special ∧ ∀ t ∈ page'.items, t = itup ∨ t ∈ page.items := by
  obtain ⟨hpos, h⟩ := Option.dite_none_right_eq_some.mp h
  obtain rfl := Option.some.inj h
  exact ⟨rfl, fun t ht => (List.mem_insertIdx hpos.1).mp ht⟩

theorem PageRanked.replace {offnum : OffsetNumber} (h : PageRanked rank n r page)
    (hrep : rtreeReplaceTuple page offnum itup = some page')
    (hitup : page.special.flags.leaf = false → Below rank n r itup) : PageRanked rank n r page' := by
  obtain ⟨hspecial, hmem⟩ := pageAddItem_mem hrep
  refine h.of_items hspecial fun hleaf t ht => ?_
  rcases hmem t ht with rfl | ht
  · exact hitup hleaf
  · exact (h.delete offnum).below hleaf t ht

variable {newbox : RTreeTemporalBox} {level : Nat}

/-- Either half of a split page has the rank of the page. -/
theorem PageRanked.half (h : PageRanked rank n r page)
    (hitup : page.special.flags.leaf = false → Below rank n r itup) (hlevel : r ≤ level) (rightlink : BlockNumber)
    (idxs : List Nat) : PageRanked rank n r
      (addItems (linkedDatapage { page.special.flags with root := false } level rightlink)
        (pickItems (splitItems page itup) idxs)).1 := by
  obtain ⟨-, -, -, hspecial, -⟩ := addItems_items
    (linkedDatapage { page.special.flags with root := false } level rightlink) (pickItems (splitItems page itup) idxs)
  refine ⟨?_, ?_, ?_⟩
  · rw [hspecial]
    exact hlevel
  · rw [hspecial]
    exact h.pos
  · rw [hspecial]
    intro hleaf
    refine addItems_all (fun t ht => absurd ht List.not_mem_nil) ?_
    exact pickItems_all (splitItems_all (h.below hleaf) (hitup hleaf))

/-- **The right half of a split page gets the rank of the page.** -/
theorem Ranked.split {pages : List Page} {blk : BlockNumber} (h : Ranked rank pages)
    (hblk : DataBlock pages.length blk) (hlevel : rank blk ≤ level)
    (hitup : (pageAt pages blk).special.flags.leaf = false → Below rank pages.length (rank blk) itup) :
    Ranked (Function.update rank pages.length (rank blk))
      (splitPages pages blk itup newbox level (pageAt pages blk).special.flags) := by
  have hpage := h.page blk hblk
  have hleft := h.set hblk (hpage.half hitup hlevel pages.length (splitIdxs (pageAt pages blk) newbox).1)
  have hright := hpage.half hitup hlevel (pageAt pages blk).special.rightlink
    (splitIdxs (pageAt pages blk) newbox).2
  rw [← List.length_set] at hright
  have happend := hleft.append hright
  rwa [List.length_set] at happend

end Writes

/-! ## Rewriting one page -/

/-- Block `blk` has been rewritten, and possibly split into itself and a new block of the same rank. -/
structure Rewrites (rank : BlockNumber → Nat) (pages : List Page) (blk : BlockNumber) (rank' : BlockNumber → Nat)
    (pages' : List Page) (split : Option SplitRight) : Prop where
  ranked : Ranked rank' pages'
  length_le : pages.length ≤ pages'.length
  same : ∀ b, DataBlock pages.length b → rank' b = rank b
  frame : ∀ b, b < pages.length → b ≠ blk → pages'[b]? = pages[b]?
  right : ∀ right ∈ split, DataBlock pages'.length right.rightBlkno ∧ rank' right.rightBlkno = rank blk

section Rewrites
variable {env : Env} {rank rank' : BlockNumber → Nat} {pages pages' : List Page} {blk : BlockNumber}
  {split : Option SplitRight}

theorem Rewrites.lowers (h : Rewrites rank pages blk rank' pages' split) : Lowers pages.length rank rank' :=
  fun b hb => Nat.le_of_eq (h.same b hb)

theorem Rewrites.refl (h : Ranked rank pages) : Rewrites rank pages blk rank pages none where
  ranked := h
  length_le := Nat.le_refl _
  same _ _ := rfl
  frame _ _ _ := rfl
  right _ hr := absurd hr (by simp)

theorem Rewrites.of_set {p : DataPage} (h : Ranked rank pages) (hblk : DataBlock pages.length blk)
    (hp : PageRanked rank pages.length (rank blk) p) : Rewrites rank pages blk rank (pages.set blk (.data p)) none where
  ranked := h.set hblk hp
  length_le := Nat.le_of_eq List.length_set.symm
  same _ _ := rfl
  frame _ _ hne := List.getElem?_set_ne (Ne.symm hne)
  right _ hr := absurd hr (by simp)

theorem Rewrites.of_split {itup : IndexTuple} {newbox : RTreeTemporalBox} {level : Nat} (h : Ranked rank pages)
    (hblk : DataBlock pages.length blk) (hlevel : rank blk ≤ level)
    (hitup : (pageAt pages blk).special.flags.leaf = false → Below rank pages.length (rank blk) itup) :
    Rewrites rank pages blk (Function.update rank pages.length (rank blk))
      (splitPages pages blk itup newbox level (pageAt pages blk).special.flags)
      (splitResult pages blk itup newbox level (pageAt pages blk).special.flags).split where
  ranked := h.split hblk hlevel hitup
  length_le := by simp
  same b hb := Function.update_of_ne (Nat.ne_of_lt hb.2) _ _
  frame b hb hne := by
    rw [splitPages, List.getElem?_append_left (by simpa using hb), List.getElem?_set_ne (Ne.symm hne)]
  right right hr := by
    obtain rfl := Option.some.inj hr
    refine ⟨⟨Nat.lt_trans h.root.1 h.root.2, by simp⟩, Function.update_self _ _ _⟩

/-- Rewriting a page again. -/
theorem Rewrites.trans {pages₁ : List Page} (h : Rewrites rank pages blk rank pages₁ none)
    (h' : Rewrites rank pages₁ blk rank' pages' split) (hlen : pages₁.length = pages.length) :
    Rewrites rank pages blk rank' pages' split where
  ranked := h'.ranked
  length_le := hlen ▸ h'.length_le
  same b hb := h'.same b (hlen ▸ hb)
  frame b hb hne := (h'.frame b (hlen ▸ hb) hne).trans (h.frame b hb hne)
  right := h'.right

/-- The leaf branch of `rtree_insert_page` rewrites the leaf. -/
theorem insertAtLeaf_rewrites {itup : IndexTuple} {box : RTreeTemporalBox} {s : Rel} (h : Ranked rank s.pages)
    (hblk : DataBlock s.pages.length blk) (hleaf : (pageAt s.pages blk).special.flags.leaf = true) :
    Ends (fun res s' => ∃ rank', Rewrites rank s.pages blk rank' s'.pages res.split)
      (fun s' => ∃ rank', Rewrites rank s.pages blk rank' s'.pages none) (insertAtLeaf env blk itup box s) := by
  have hinner : ∀ {P : Prop}, (pageAt s.pages blk).special.flags.leaf = false → P := fun hf =>
    absurd (hf.symm.trans hleaf) (by simp)
  cases hrun : insertAtLeaf env blk itup box s with
  | error e s' =>
      obtain ⟨-, -, -, rfl⟩ := insertAtLeaf_eq_error hrun hblk.2
      exact ⟨rank, .refl h⟩
  | ok res s' =>
      obtain ⟨evs, hins, -⟩ := insertAtLeaf_inserts hrun hblk.2 0 (Or.inl rfl)
      show ∃ rank', Rewrites rank s.pages blk rank' s'.pages res.split
      generalize s'.pages = pages' at hins ⊢
      cases hins with
      | leafAdd _ _ _ hadd => exact ⟨_, .of_set h hblk ((h.page blk hblk).addItem hadd hinner)⟩
      | leafSplit => exact ⟨_, .of_split h hblk (h.page blk hblk).level hinner⟩

/-- The end of a call on an inner page rewrites that page. -/
theorem updateDownlinks_rewrites {level : Nat} {bestoff : OffsetNumber} {tid : ItemPointerData}
    {childres : RTreeInsertResult} {s : Rel} (h : Ranked rank s.pages) (hblk : DataBlock s.pages.length blk)
    (hlevel : rank blk ≤ level) (hoff : 0 < bestoff) (htid : DataBlock s.pages.length tid.blkno)
    (hbelow : rank tid.blkno < rank blk)
    (hright : ∀ right ∈ childres.split,
      DataBlock s.pages.length right.rightBlkno ∧ rank right.rightBlkno < rank blk) :
    Ends (fun res s' => ∃ rank', Rewrites rank s.pages blk rank' s'.pages res.split)
      (fun s' => ∃ rank', Rewrites rank s.pages blk rank' s'.pages none)
      (updateDownlinks env blk level bestoff tid childres s) := by
  obtain ⟨pos, rfl⟩ := Nat.exists_eq_add_one_of_ne_zero (Nat.pos_iff_ne_zero.mp hoff)
  have hpage := h.page blk hblk
  have hleft : ∀ {box : RTreeTemporalBox},
      Below rank s.pages.length (rank blk) (rtreeFormTuple box tid) := fun {_} => ⟨htid, hbelow⟩
  have hrighttuple : ∀ right ∈ childres.split, Below rank s.pages.length (rank blk) (rightTuple right) := hright
  cases hrun : updateDownlinks env blk level (pos + 1) tid childres s with
  | error e s' =>
      rcases updateDownlinks_eq_error hblk.2 hrun with ⟨-, -, rfl⟩ | ⟨right, page₂, -, hrep, -, -, -, rfl⟩
      · exact ⟨_, .of_set h hblk (hpage.delete _)⟩
      · exact ⟨_, .of_set h hblk (hpage.replace hrep fun _ => hleft)⟩
  | ok res s' =>
      obtain ⟨page₂, hrep, hcase⟩ := updateDownlinks_eq_ok hblk.2 hrun
      have hpage₂ := hpage.replace hrep fun _ => hleft
      rcases hcase with ⟨-, rfl, rfl⟩ | ⟨right, page₃, hs, -, hadd, rfl, rfl⟩ | ⟨right, hs, -, -, rfl, rfl⟩
      · exact ⟨_, .of_set h hblk hpage₂⟩
      · exact ⟨_, .of_set h hblk (hpage₂.addItem hadd fun _ => hrighttuple right hs)⟩
      · -- the page takes the refreshed downlink, then is split for the new one
        have hset : Rewrites rank s.pages blk rank (s.pages.set blk (.data page₂)) none :=
          .of_set h hblk hpage₂
        have hlen : (s.pages.set blk (.data page₂)).length = s.pages.length := List.length_set
        refine ⟨Function.update rank (s.pages.set blk (.data page₂)).length (rank blk), hset.trans ?_ hlen⟩
        have hflags : page₂.special.flags = (pageAt (s.pages.set blk (.data page₂)) blk).special.flags := by
          rw [pageAt_set_self hblk.2]
        rw [hflags]
        refine Rewrites.of_split hset.ranked (hlen ▸ hblk) hlevel fun _ => ?_
        rw [hlen]
        exact hrighttuple right hs

theorem addTupleCopies_special (page : DataPage) (itups : List IndexTuple) :
    (addTupleCopies page itups).1.special = page.special := by
  induction itups generalizing page with
  | nil => rfl
  | cons itup rest ih =>
      unfold addTupleCopies
      cases hadd : pageAddItem page itup invalidOffsetNumber with
      | none => rfl
      | some page' => exact (ih page').trans (pageAddItem_items hadd).2

/-- Rebuilding a page from tuples that lead down rewrites it, also when not all of them fit. -/
theorem rebuildPage_rewrites {page : DataPage} {kept : VacuumItems} {s : Rel} (h : Ranked rank s.pages)
    (hblk : DataBlock s.pages.length blk) (hpage : PageRanked rank s.pages.length (rank blk) page)
    (hkept : page.special.flags.leaf = false → ∀ t ∈ kept.tuples, Below rank s.pages.length (rank blk) t) :
    Ends (fun _ s' => Rewrites rank s.pages blk rank s'.pages none)
      (fun s' => Rewrites rank s.pages blk rank s'.pages none) (rebuildPage env blk page kept s) := by
  have hnew : PageRanked rank s.pages.length (rank blk) (addTupleCopies (emptiedPage page) kept.tuples).1 := by
    refine hpage.of_items (addTupleCopies_special _ _) fun hleaf => ?_
    exact addTupleCopies_all (fun _ ht => absurd ht List.not_mem_nil) (hkept hleaf)
  cases hcopies : (addTupleCopies (emptiedPage page) kept.tuples).2 with
  | true =>
      rw [rebuildPage_run_of_ok hblk.2 hcopies]
      exact Rewrites.of_set h hblk hnew
  | false =>
      rw [rebuildPage_run_of_fail hcopies]
      exact Rewrites.of_set h hblk hnew

end Rewrites

end TemporalRTree
