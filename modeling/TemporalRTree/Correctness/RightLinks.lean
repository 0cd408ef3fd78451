import TemporalRTree.Lib.Chain
import TemporalRTree.Correctness.Levels

/-!
# `Correctness.RightLinks` — the right links of a level form one chain

`rtree_split_page` initialises both halves anew and then sets two right links: the left page's to the new page,
the new page's to what the left page's was. That puts the new page behind the left one in the chain of their
level (`LinkedLevels.split`); nothing else an insert does touches a right link, and a promoted root begins the
chain of a level that had no page (`LinkedLevels.promote`).

As with `Leveled`, the condition is on all data pages, reachable or not. So it also holds where an insert failed
half-way and left a page behind that no downlink leads to: such a page is still in the chain of its level.
-/

namespace TemporalRTree
open EStateM Layout Chain

/-- `opaque->rightlink` of the page in a block. -/
def rightlinkAt (pages : List Page) (b : BlockNumber) : BlockNumber := (pageAt pages b).special.rightlink

/-- A data page of level `l`. -/
def OnLevel (pages : List Page) (l : Nat) (b : BlockNumber) : Prop :=
  0 < b ∧ b < pages.length ∧ (pageAt pages b).special.level = l

/-- From `start` the right links lead through the pages of level `l`, each once. -/
structure LevelChain (pages : List Page) (l : Nat) (start : BlockNumber) (path : List BlockNumber) : Prop where
  follows : Follows (rightlinkAt pages) invalidBlockNumber start path
  start_mem : start ∈ path
  nodup : path.Nodup
  mem_iff : ∀ b, b ∈ path ↔ OnLevel pages l b

/-- Every level up to `top` is a chain, and no page is above. -/
structure LinkedLevels (pages : List Page) (top : Nat) : Prop where
  length_le : pages.length ≤ invalidBlockNumber
  level_le : ∀ {l : Nat} {b : BlockNumber}, OnLevel pages l b → l ≤ top
  chain : ∀ l ≤ top, ∃ start path, LevelChain pages l start path

/-! ## The changes of a page -/

section Pages
variable {pages pages' : List Page} {top l : Nat} {blk start : BlockNumber} {path : List BlockNumber}
  {page' : DataPage}

/-- The chain of a level that neither gets a page nor has one whose link changes. -/
theorem LevelChain.congr (h : LevelChain pages l start path) (hon : ∀ b, OnLevel pages' l b ↔ OnLevel pages l b)
    (hlinks : ∀ b ∈ path, rightlinkAt pages' b = rightlinkAt pages b) : LevelChain pages' l start path := by
  refine ⟨h.follows.congr hlinks, h.start_mem, h.nodup, fun b => ?_⟩
  rw [h.mem_iff, hon]

/-- A change that touches neither levels nor right links. -/
theorem LinkedLevels.congr (h : LinkedLevels pages top) (hlen : pages'.length = pages.length)
    (hpage : ∀ b, 0 < b → b < pages.length →
      (pageAt pages' b).special.level = (pageAt pages b).special.level ∧
        (pageAt pages' b).special.rightlink = (pageAt pages b).special.rightlink) :
    LinkedLevels pages' top := by
  have hon : ∀ l b, OnLevel pages' l b ↔ OnLevel pages l b := by
    intro l b
    unfold OnLevel
    rw [hlen]
    refine and_congr_right fun h0 => and_congr_right fun hb => ?_
    rw [(hpage b h0 hb).1]
  refine ⟨by rw [hlen]; exact h.length_le, fun hb => h.level_le ((hon _ _).mp hb), fun l hl => ?_⟩
  obtain ⟨start, path, hchain⟩ := h.chain l hl
  refine ⟨start, path, hchain.congr (hon l) fun b hb => ?_⟩
  obtain ⟨h0, hlt, -⟩ := (hchain.mem_iff b).mp hb
  exact (hpage b h0 hlt).2

/-- A page is rewritten with its special space. -/
theorem LinkedLevels.set (h : LinkedLevels pages top) (hblk : blk < pages.length)
    (hspecial : page'.special.level = (pageAt pages blk).special.level ∧
      page'.special.rightlink = (pageAt pages blk).special.rightlink) :
    LinkedLevels (pages.set blk (.data page')) top := by
  apply h.congr List.length_set
  intro b _ _
  by_cases he : b = blk
  · rw [he, pageAt_set_self hblk]
    exact hspecial
  · rw [pageAt_set_ne he]
    exact ⟨rfl, rfl⟩

/-- One page is added; the others keep their levels. -/
theorem onLevel_of_added (hpos : 0 < pages.length) (hlen : pages'.length = pages.length + 1)
    (hlevel : ∀ b < pages.length, (pageAt pages' b).special.level = (pageAt pages b).special.level)
    (hnew : (pageAt pages' pages.length).special.level = l) (l' : Nat) (b : BlockNumber) :
    OnLevel pages' l' b ↔ OnLevel pages l' b ∨ (b = pages.length ∧ l' = l) := by
  unfold OnLevel
  rw [hlen]
  rcases eq_or_ne b pages.length with rfl | hne
  · rw [hnew]
    constructor
    · rintro ⟨-, -, rfl⟩
      exact Or.inr ⟨rfl, rfl⟩
    · rintro (⟨-, hlt, -⟩ | ⟨-, rfl⟩)
      · exact absurd hlt (Nat.lt_irrefl _)
      · exact ⟨hpos, Nat.lt_succ_self _, rfl⟩
  · constructor
    · rintro ⟨h0, hb, hl⟩
      have hb : b < pages.length := Nat.lt_of_le_of_ne (Nat.le_of_lt_succ hb) hne
      rw [hlevel b hb] at hl
      exact Or.inl ⟨h0, hb, hl⟩
    · rintro (⟨h0, hb, hl⟩ | ⟨he, -⟩)
      · rw [hlevel b hb]
        exact ⟨h0, Nat.lt_succ_of_lt hb, hl⟩
      · exact absurd he hne

/-- The special spaces of the halves of a split. -/
theorem split_special (page : DataPage) (newitup : IndexTuple) (newbox : RTreeTemporalBox) (level : Nat)
    (flags : PageFlags) (rightblk : BlockNumber) :
    (splitLeft page newitup newbox level flags rightblk).1.special =
        { rightlink := rightblk, flags := { flags with root := false }, level := level, nsn := 0 } ∧
      (splitRight page newitup newbox level flags).1.special =
        { rightlink := page.special.rightlink, flags := { flags with root := false }, level := level,
          nsn := 0 } := by
  unfold splitLeft splitRight
  obtain ⟨-, -, -, hleft, -⟩ := addItems_items (linkedDatapage { flags with root := false } level rightblk)
    (pickItems (splitItems page newitup) (splitIdxs page newbox).1)
  obtain ⟨-, -, -, hright, -⟩ := addItems_items
    (linkedDatapage { flags with root := false } level page.special.rightlink)
    (pickItems (splitItems page newitup) (splitIdxs page newbox).2)
  exact ⟨hleft, hright⟩

/-- **A split puts the new page behind the one it was split from.** -/
theorem LinkedLevels.split {newitup : IndexTuple} {newbox : RTreeTemporalBox} {level : Nat} {flags : PageFlags}
    (h : LinkedLevels pages top) (h0 : 0 < blk) (hblk : blk < pages.length)
    (hext : pages.length < invalidBlockNumber) (hlevel : level = (pageAt pages blk).special.level) :
    LinkedLevels (splitPages pages blk newitup newbox level flags) top := by
  obtain ⟨hleft, hright⟩ := split_special (pageAt pages blk) newitup newbox level flags pages.length
  rw [← pageAt_splitPages_left hblk] at hleft
  rw [← pageAt_splitPages_right] at hright
  have hon : ∀ l' b, OnLevel (splitPages pages blk newitup newbox level flags) l' b ↔
      OnLevel pages l' b ∨ (b = pages.length ∧ l' = level) := by
    apply onLevel_of_added (Nat.zero_lt_of_lt hblk) splitPages_length
    · intro b hb
      rcases eq_or_ne b blk with rfl | hne
      · rw [hleft, hlevel]
      · rw [pageAt_splitPages_of_ne hne (Nat.ne_of_lt hb)]
    · rw [hright]
  refine ⟨by rw [splitPages_length]; exact hext, ?_, ?_⟩
  · intro l b hb
    rcases (hon l b).mp hb with hb | ⟨-, rfl⟩
    · exact h.level_le hb
    · exact h.level_le ⟨h0, hblk, hlevel.symm⟩
  · intro l hl
    obtain ⟨start, path, hchain⟩ := h.chain l hl
    have hlt : ∀ b ∈ path, b < pages.length := fun b hb => ((hchain.mem_iff b).mp hb).2.1
    -- the links of the other pages are as they were
    have hrest : ∀ b ∈ path, b ≠ blk →
        rightlinkAt (splitPages pages blk newitup newbox level flags) b = rightlinkAt pages b := by
      intro b hb hne
      unfold rightlinkAt
      rw [pageAt_splitPages_of_ne hne (Nat.ne_of_lt (hlt b hb))]
    rcases eq_or_ne l level with rfl | hne
    · have hmem : blk ∈ path := (hchain.mem_iff blk).mpr ⟨h0, hblk, hlevel.symm⟩
      obtain ⟨path', hperm, hfollows⟩ := hchain.follows.insertAfter hchain.nodup hmem
        (Nat.ne_of_lt hext) (congrArg (·.rightlink) hleft) (congrArg (·.rightlink) hright) hrest
      refine ⟨start, path', hfollows, ?_, ?_, fun b => ?_⟩
      · exact hperm.mem_iff.mpr (List.mem_cons_of_mem _ hchain.start_mem)
      · rw [hperm.nodup_iff, List.nodup_cons]
        exact ⟨fun hb => Nat.lt_irrefl _ (hlt _ hb), hchain.nodup⟩
      · rw [hperm.mem_iff, List.mem_cons, hchain.mem_iff, hon]
        simp [or_comm]
    · -- a chain of another level does not pass the page
      refine ⟨start, path, hchain.congr (fun b => ?_) fun b hb => hrest b hb ?_⟩
      · rw [hon]
        simp [hne]
      · rintro rfl
        exact hne (((hchain.mem_iff b).mp hb).2.2.symm.trans hlevel.symm)

/-- Promotion leaves the right links and levels of the pages there were. -/
theorem promotedPages_special {leftBox : RTreeTemporalBox} {right : SplitRight} (hblk : blk < pages.length)
    {b : BlockNumber} (hb : b < pages.length) :
    (pageAt (promotedPages pages blk leftBox right l) b).special.level = (pageAt pages b).special.level ∧
      rightlinkAt (promotedPages pages blk leftBox right l) b = rightlinkAt pages b := by
  unfold rightlinkAt promotedPages
  rw [pageAt_append_of_lt (by rwa [List.length_set]), pageAt_clearRootFlag hblk]
  split
  next he =>
    rw [he]
    exact ⟨rfl, rfl⟩
  next => exact ⟨rfl, rfl⟩

/-- **A promoted root is the chain of its level.** -/
theorem LinkedLevels.promote {leftBox : RTreeTemporalBox} {right : SplitRight} (h : LinkedLevels pages top)
    (hblk : blk < pages.length) (hext : pages.length < invalidBlockNumber) :
    LinkedLevels (promotedPages pages blk leftBox right top) (top + 1) := by
  have hroot : (pageAt (promotedPages pages blk leftBox right top) pages.length).special =
      { rightlink := invalidBlockNumber, flags := { root := true }, level := top + 1, nsn := 0 } := by
    rw [pageAt_promotedPages_self, promotedRoot]
    obtain ⟨-, -, -, hspecial, -⟩ := addItems_items (rtreeInitDatapage { root := true } (top + 1))
      [rtreeFormTuple leftBox (childTid blk), rtreeFormTuple right.rightBox (childTid right.rightBlkno)]
    exact hspecial
  have hon : ∀ l' b, OnLevel (promotedPages pages blk leftBox right top) l' b ↔
      OnLevel pages l' b ∨ (b = pages.length ∧ l' = top + 1) :=
    onLevel_of_added (Nat.zero_lt_of_lt hblk) length_promotedPages
      (fun b hb => (promotedPages_special hblk hb).1) (by rw [hroot])
  refine ⟨by rw [length_promotedPages]; exact hext, ?_, ?_⟩
  · intro l b hb
    rcases (hon l b).mp hb with hb | ⟨-, rfl⟩
    · exact Nat.le_succ_of_le (h.level_le hb)
    · exact Nat.le_refl _
  · intro l hl
    rcases Nat.le_succ_iff.mp hl with hl | rfl
    · obtain ⟨start, path, hchain⟩ := h.chain l hl
      refine ⟨start, path, hchain.congr (fun b => ?_) fun b hb => ?_⟩
      · rw [hon]
        simp [Nat.ne_of_lt (Nat.lt_succ_of_le hl)]
      · exact (promotedPages_special hblk ((hchain.mem_iff b).mp hb).2.1).2
    · -- no page was above the old root
      refine ⟨pages.length, [pages.length], .cons (Nat.ne_of_lt hext) ?_, List.mem_cons_self,
        List.nodup_singleton _, fun b => ?_⟩
      · show Follows _ _ (rightlinkAt _ pages.length) []
        unfold rightlinkAt
        rw [hroot]
        exact .nil
      · rw [List.mem_singleton, hon]
        constructor
        · exact fun he => Or.inr ⟨he, rfl⟩
        · rintro (hb | ⟨he, -⟩)
          · exact absurd (h.level_le hb) (Nat.not_succ_le_self _)
          · exact he

end Pages

/-! ## Inserts -/

section Insert
variable {A : BlockNumber → Prop} {env : Env} {itup : IndexTuple} {box : RTreeTemporalBox}
  {pages pages' : List Page} {blk : BlockNumber} {level top : Nat} {res : RTreeInsertResult} {e : RTreeError}
  {evs : List Event}

/-- The child a descent goes on to is a level lower. -/
theorem ChoosesChild.level_eq {pos : Nat} {childitup : IndexTuple}
    (h : ChoosesChild (pageAt pages blk) box pos childitup) (hl : Leveled A pages) (h0 : 0 < blk)
    (hblk : blk < pages.length) (hlevel : (pageAt pages blk).special.level = level + 1) :
    0 < childitup.tTid.blkno ∧ (pageAt pages childitup.tTid.blkno).special.level = level := by
  obtain ⟨-, hc0, -, hdown⟩ := h.leveled hl h0 hblk
  exact ⟨hc0, Nat.succ.inj (hdown.trans hlevel)⟩

/-- **A descent keeps the chains.** -/
theorem Inserts.linked (h : Inserts env itup box pages blk level res pages' evs) (hl : Leveled A pages)
    (hA : ∀ c, pages.length ≤ c → A c) (h0 : 0 < blk) (hlevel : (pageAt pages blk).special.level = level)
    (hlinks : LinkedLevels pages top) : LinkedLevels pages' top := by
  induction h with
  | leafAdd hblk _ _ hadd =>
      obtain ⟨-, hspecial⟩ := pageAddItem_items hadd
      exact hlinks.set hblk (by rw [hspecial]; exact ⟨rfl, rfl⟩)
  | leafSplit hblk _ _ hext => exact hlinks.split h0 hblk hext.1 rfl
  | innerKeep hblk hchild hrec hrep ih =>
      obtain ⟨hc0, hc⟩ := hchild.level_eq hl h0 hblk hlevel
      have hlinks₁ := ih hc0 hc
      obtain ⟨-, hspecial⟩ := rtreeReplaceTuple_ne_nil hrep
      exact hlinks₁.set (Nat.lt_of_lt_of_le hblk hrec.length_le) (by rw [hspecial]; exact ⟨rfl, rfl⟩)
  | innerAdd hblk hchild hrec hrep _ hadd ih =>
      obtain ⟨hc0, hc⟩ := hchild.level_eq hl h0 hblk hlevel
      have hlinks₁ := ih hc0 hc
      obtain ⟨-, hspecial⟩ := rtreeReplaceTuple_ne_nil hrep
      obtain ⟨-, hspecial'⟩ := pageAddItem_items hadd
      exact hlinks₁.set (Nat.lt_of_lt_of_le hblk hrec.length_le) (by rw [hspecial', hspecial]; exact ⟨rfl, rfl⟩)
  | @innerSplit pages₁ blk level _ _ _ right page₂ evs hblk hchild hrec hrep _ hext ih =>
      obtain ⟨hc0, hc⟩ := hchild.level_eq hl h0 hblk hlevel
      have hlinks₁ := ih hc0 hc
      have hblk₁ := Nat.lt_of_lt_of_le hblk hrec.length_le
      obtain ⟨-, hspecial⟩ := rtreeReplaceTuple_ne_nil hrep
      have hset : LinkedLevels (pages₁.set blk (.data page₂)) top :=
        hlinks₁.set hblk₁ (by rw [hspecial]; exact ⟨rfl, rfl⟩)
      -- the level called with is the level of the page, also after the child was changed
      have hkeeps := (hrec.levels hl hA hc0 hc.le (Or.inl hc)).keeps
      refine hset.split h0 (by rwa [List.length_set]) (by rw [List.length_set]; exact hext.1) ?_
      rw [pageAt_set_self hblk₁, hspecial, hkeeps.level_eq _ hblk, hlevel]

/-- A failed descent keeps the levels. -/
theorem InsertFails.levels (h : InsertFails env itup box pages blk level e pages' evs) (hl : Leveled A pages)
    (hA : ∀ c, pages.length ≤ c → A c) (h0 : 0 < blk) (hlevel : (pageAt pages blk).special.level = level) :
    KeepsLevels A pages pages' := by
  induction h with
  | unreadable => exact .refl hl
  | leafSplit => exact .refl hl
  | noDownlinks => exact .refl hl
  | child hblk hchild hrec ih =>
      obtain ⟨hc0, hc⟩ := hchild.level_eq hl h0 hblk hlevel
      exact ih hc0 hc
  | @replace pages₁ blk _ pos _ _ _ hblk hchild hrec hrep =>
      obtain ⟨hc0, hc⟩ := hchild.level_eq hl h0 hblk hlevel
      have hk := (hrec.levels hl hA hc0 hc.le (Or.inl hc)).keeps
      have hblk₁ := Nat.lt_of_lt_of_le hblk hk.length_le
      -- the page is left without the downlink
      have hpage : PageLeveled A pages₁ (pageIndexTupleDelete (pageAt pages₁ blk) (pos + 1)) :=
        (hk.leveled _ h0 hblk₁).items rfl rfl fun _ t ht => Or.inl (List.mem_of_mem_eraseIdx ht)
      exact hk.trans (hk.leveled.set h0 hblk₁ hpage rfl)
  | innerSplit hblk hchild hrec hrep =>
      obtain ⟨hc0, hc⟩ := hchild.level_eq hl h0 hblk hlevel
      have hk := (hrec.levels hl hA hc0 hc.le (Or.inl hc)).keeps
      obtain ⟨hpage, hspecial⟩ := hchild.replaced hl h0 hblk hk hrep
      exact hk.trans (hk.leveled.set h0 (Nat.lt_of_lt_of_le hblk hk.length_le) hpage (by rw [hspecial]))

/-- So does it keep the chains. -/
theorem InsertFails.linked (h : InsertFails env itup box pages blk level e pages' evs) (hl : Leveled A pages)
    (hA : ∀ c, pages.length ≤ c → A c) (h0 : 0 < blk) (hlevel : (pageAt pages blk).special.level = level)
    (hlinks : LinkedLevels pages top) : LinkedLevels pages' top := by
  induction h with
  | unreadable => exact hlinks
  | leafSplit => exact hlinks
  | noDownlinks => exact hlinks
  | child hblk hchild hrec ih =>
      obtain ⟨hc0, hc⟩ := hchild.level_eq hl h0 hblk hlevel
      exact ih hc0 hc
  | replace hblk hchild hrec hrep =>
      obtain ⟨hc0, hc⟩ := hchild.level_eq hl h0 hblk hlevel
      have hlinks₁ := hrec.linked hl hA hc0 hc hlinks
      exact hlinks₁.set (Nat.lt_of_lt_of_le hblk hrec.length_le) ⟨rfl, rfl⟩
  | innerSplit hblk hchild hrec hrep =>
      obtain ⟨hc0, hc⟩ := hchild.level_eq hl h0 hblk hlevel
      have hlinks₁ := hrec.linked hl hA hc0 hc hlinks
      obtain ⟨-, hspecial⟩ := rtreeReplaceTuple_ne_nil hrep
      exact hlinks₁.set (Nat.lt_of_lt_of_le hblk hrec.length_le) (by rw [hspecial]; exact ⟨rfl, rfl⟩)

end Insert

/-! ## Runs -/

/-- Levels in order, each of them a chain. -/
structure LinkedIndex (pages : List Page) : Prop where
  leveled : LeveledIndex pages
  linked : LinkedLevels pages (metaAt pages).rootLevel

section Calls
variable {env : Env} {itup : IndexTuple} {box : RTreeTemporalBox} {pages pages' : List Page} {e : RTreeError}
  {evs : List Event}

theorem InsertsTuple.linked (h : InsertsTuple env itup box pages pages' evs) (hl : LinkedIndex pages) :
    LinkedIndex pages' := by
  refine ⟨h.leveled hl.leveled, ?_⟩
  obtain ⟨⟨hleveled, hroot⟩, hlinked⟩ := hl
  have hA : ∀ c, pages.length ≤ c → c ≠ (metaAt pages).root := fun c hc =>
    Nat.ne_of_gt (Nat.lt_of_lt_of_le hroot.lt hc)
  cases h with
  | keep _ _ hins =>
      have hk := (hins.levels hleveled hA hroot.pos (Nat.le_of_eq hroot.level_eq) (Or.inl hroot.level_eq)).keeps
      rw [hk.meta_eq]
      exact hins.linked hleveled hA hroot.pos hroot.level_eq hlinked
  | @promote pages₁ leftBox right evs _ _ hins hext =>
      have hlinked₁ := hins.linked hleveled hA hroot.pos hroot.level_eq hlinked
      have hlt := Nat.lt_of_lt_of_le hroot.lt hins.length_le
      have hpromoted : LinkedLevels (promotedPages pages₁ (metaAt pages).root leftBox right
          (metaAt pages).rootLevel) ((metaAt pages).rootLevel + 1) := hlinked₁.promote hlt hext.1
      -- the meta page is no data page
      have hmeta : (metaAt (metaPages (promotedPages pages₁ (metaAt pages).root leftBox right
          (metaAt pages).rootLevel) pages₁.length ((metaAt pages).rootLevel + 1))).rootLevel =
            (metaAt pages).rootLevel + 1 :=
        congrArg (·.rootLevel) (metaAt_set_zero (by rw [length_promotedPages]; exact Nat.succ_pos _))
      rw [hmeta]
      refine hpromoted.congr List.length_set fun b hb0 _ => ?_
      rw [metaPages, pageAt_set_ne (Nat.pos_iff_ne_zero.mp hb0)]
      exact ⟨rfl, rfl⟩

theorem InsertTupleFails.linked (h : InsertTupleFails env itup box pages e pages' evs) (hl : LinkedIndex pages) :
    LinkedIndex pages' := by
  obtain ⟨⟨hleveled, hroot⟩, hlinked⟩ := hl
  have hA : ∀ c, pages.length ≤ c → c ≠ (metaAt pages).root := fun c hc =>
    Nat.ne_of_gt (Nat.lt_of_lt_of_le hroot.lt hc)
  -- a descent that keeps the levels leaves the meta page alone
  have hkept : ∀ {pages' : List Page}, KeepsLevels (· ≠ (metaAt pages).root) pages pages' →
      LinkedLevels pages' (metaAt pages).rootLevel → LinkedIndex pages' := by
    intro pages' hk hlinked'
    refine ⟨⟨?_, hk.rootLevel hroot⟩, ?_⟩
    · rw [hk.meta_eq]
      exact hk.leveled
    · rw [hk.meta_eq]
      exact hlinked'
  cases h with
  | unreadable => exact ⟨⟨hleveled, hroot⟩, hlinked⟩
  | missingMeta => exact ⟨⟨hleveled, hroot⟩, hlinked⟩
  | descent _ _ hfail =>
      exact hkept (hfail.levels hleveled hA hroot.pos hroot.level_eq)
        (hfail.linked hleveled hA hroot.pos hroot.level_eq hlinked)
  | promote _ _ hins _ =>
      exact hkept
        (hins.levels hleveled hA hroot.pos (Nat.le_of_eq hroot.level_eq) (Or.inl hroot.level_eq)).keeps
        (hins.linked hleveled hA hroot.pos hroot.level_eq hlinked)

end Calls

/-- Whether or not an insert succeeds, it keeps the chains. -/
theorem temporalRtreeInsert_linked {s : Rel} (env : Env) (row : HeapRow) (h : LinkedIndex s.pages) :
    LinkedIndex (endState (temporalRtreeInsert env row.key row.tid s)).pages := by
  have hlen : 2 ≤ s.pages.length := Nat.lt_of_le_of_lt h.leveled.2.pos h.leveled.2.lt
  cases hrun : temporalRtreeInsert env row.key row.tid s with
  | ok b s' =>
      rcases temporalRtreeInsert_eq_ok hlen hrun with ⟨-, rfl⟩ | ⟨box, evs, -, -, -, hins⟩
      · exact h
      · exact hins.linked h
  | error e s' =>
      cases hkey : row.key with
      | none =>
          rw [hkey, temporalRtreeInsert_run_of_none hlen] at hrun
          exact absurd hrun (by simp)
      | some cube =>
          rw [hkey, temporalRtreeInsert_run_of_some hlen] at hrun
          obtain ⟨evs, hfail, -⟩ := insertTuple_fails (error_of_bind hrun fun a t => by simp)
          exact hfail.linked h

/-- A run of inserts of one session. A failed insert leaves its changes to the pages; what the surroundings
    decide may be different for each. -/
def runInserts : List (Env × HeapRow) → Rel → Rel
  | [], s => s
  | (env, row) :: rest, s => runInserts rest (endState (temporalRtreeInsert env row.key row.tid s))

theorem initPages_linked : LinkedIndex (initPages 0) := by
  have hon : ∀ l b, OnLevel (initPages 0) l b ↔ l = 0 ∧ b = 1 := by
    intro l b
    unfold OnLevel
    constructor
    · rintro ⟨h0, hb, hl⟩
      obtain rfl : b = 1 := Nat.le_antisymm (Nat.le_of_lt_succ hb) h0
      exact ⟨hl.symm, rfl⟩
    · rintro ⟨rfl, rfl⟩
      exact ⟨Nat.one_pos, Nat.lt_succ_self 1, rfl⟩
  refine ⟨(leveledIndex_opInvariant roomyEnv).init, by decide, ?_, ?_⟩
  · intro l b hb
    exact Nat.le_of_eq ((hon l b).mp hb).1
  · intro l hl
    obtain rfl : l = 0 := Nat.le_zero.mp hl
    refine ⟨1, [1], .cons (by decide) .nil, List.mem_cons_self, List.nodup_singleton _, fun b => ?_⟩
    simp only [hon, List.mem_singleton, true_and]

theorem runInserts_linked (inserts : List (Env × HeapRow)) {s : Rel} (h : LinkedIndex s.pages) :
    LinkedIndex (runInserts inserts s).pages := by
  induction inserts generalizing s with
  | nil => exact h
  | cons insert rest ih => exact ih (temporalRtreeInsert_linked insert.1 insert.2 h)

/-- **After every run of inserts from an empty index the right links chain each level**: from one page they lead
    through every reachable page of the level, each once, and through no page of another. That the work arrays of a
    split hold the tuples of a page is not part of this. -/
theorem rightlinks_chain_levels (inserts : List (Env × HeapRow)) (l : Nat)
    (hl : l ≤ (metaAt (runInserts inserts { pages := initPages 0 }).pages).rootLevel) :
    let pages := (runInserts inserts { pages := initPages 0 }).pages
    ∃ start path, start ∈ path ∧ Follows (rightlinkAt pages) invalidBlockNumber start path ∧ path.Nodup ∧
      (∀ d b, Reachable pages d b → d + l = (metaAt pages).rootLevel → b ∈ path) ∧
      ∀ b ∈ path, (pageAt pages b).special.level = l ∧
        ∀ d, Reachable pages d b → d + l = (metaAt pages).rootLevel := by
  intro pages
  obtain ⟨⟨hleveled, hroot⟩, hlinked⟩ : LinkedIndex pages := runInserts_linked inserts initPages_linked
  obtain ⟨start, path, hchain⟩ := hlinked.chain l hl
  refine ⟨start, path, hchain.start_mem, hchain.follows, hchain.nodup, ?_, ?_⟩
  · intro d b hreach hd
    obtain ⟨h0, hlt, hlevel⟩ := hleveled.reachable hroot hreach
    exact (hchain.mem_iff b).mpr ⟨h0, hlt, by omega⟩
  · intro b hb
    obtain ⟨h0, hlt, hlevel⟩ := (hchain.mem_iff b).mp hb
    refine ⟨hlevel, fun d hreach => ?_⟩
    obtain ⟨-, -, hdepth⟩ := hleveled.reachable hroot hreach
    omega

/-- Six rows of large keys split the leaf, and the two leaves are chained. -/
theorem rightlinks_chain_stair :
    let pages := (runInserts ((stairRows 6).map (roomyEnv, ·)) { pages := initPages 0 }).pages
    (0 : Nat) < (metaAt pages).rootLevel ∧ ∃ start path, start ∈ path ∧
      Follows (rightlinkAt pages) invalidBlockNumber start path ∧ path.Nodup ∧
      (∀ d b, Reachable pages d b → d + 0 = (metaAt pages).rootLevel → b ∈ path) ∧
      ∀ b ∈ path, (pageAt pages b).special.level = 0 ∧
        ∀ d, Reachable pages d b → d + 0 = (metaAt pages).rootLevel :=
  ⟨by decide +kernel, rightlinks_chain_levels ((stairRows 6).map (roomyEnv, ·)) 0 (Nat.zero_le _)⟩

end TemporalRTree
