import TemporalRTree.Correctness.Contents
import TemporalRTree.Correctness.Recovery
import TemporalRTree.Correctness.InsertFailure

/-!
# `Correctness.CrashPrefix` — a crash between two WAL records of an insert

A descent logs one record per level, from the leaf up: the page with its new tuple or downlinks, together with
its right half if it was split. The downlink to the right half comes with the record of the level above. So
after a prefix of the records the pages of some lower levels are new and those above are old, and what the top
page among the new ones has handed to its right half is out of reach.

Whether that is anything old can be told before the insert: `pathKeepsOld` asks each page of the descent path for room,
or that `tr_picksplit` sends only the new entry to the right.
-/

namespace TemporalRTree
open EStateM Layout RedoLog

section Descent
variable {env : Env} {itup : IndexTuple} {box : RTreeTemporalBox} {pages pages₁ pages' : List Page}
  {blk : BlockNumber} {level : Nat} {res childres : RTreeInsertResult} {evs evs' : List Event}

/-! ## The records of a descent -/

/-- Every record names blocks in `S`. -/
def RecordsIn (S : BlockNumber → Prop) (log : List (List (BlockNumber × Page))) : Prop :=
  ∀ images ∈ log, ∀ im ∈ images, S im.1

section RecordsIn
variable {S T : BlockNumber → Prop} {log log' : List (List (BlockNumber × Page))}

@[simp] theorem recordsIn_nil : RecordsIn S [] := List.forall_mem_nil _

@[simp] theorem recordsIn_append : RecordsIn S (log ++ log') ↔ RecordsIn S log ∧ RecordsIn S log' :=
  List.forall_mem_append

@[simp] theorem recordsIn_singleton {images : List (BlockNumber × Page)} :
    RecordsIn S [images] ↔ ∀ im ∈ images, S im.1 :=
  List.forall_mem_singleton

theorem RecordsIn.mono (h : RecordsIn S log) (hST : ∀ x, S x → T x) : RecordsIn T log :=
  fun images him im hm => hST _ (h images him im hm)

end RecordsIn

/-- The blocks of a tree and new ones. -/
abbrev InTree (pages : List Page) (level : Nat) (blk x : BlockNumber) : Prop :=
  x ∈ nodes.blocks (pageAt pages) level blk ∨ pages.length ≤ x

theorem inTree_self : InTree pages level blk blk := Or.inl self_mem_blocks

theorem inTree_new {x : BlockNumber} (h : pages.length ≤ x) : InTree pages level blk x := Or.inr h

/-- What the recursive call logs is in the tree of the whole. -/
theorem ChoosesChild.records {pos : Nat} {childitup : IndexTuple} {log : List (List (BlockNumber × Page))}
    (h : ChoosesChild (pageAt pages blk) box pos childitup)
    (ih : RecordsIn (InTree pages level childitup.tTid.blkno) log) :
    RecordsIn (InTree pages (level + 1) blk) log :=
  ih.mono fun _ hx => hx.imp_left fun hx => h.blocks_subset hx

/-- The records name blocks of the tree and new ones. -/
theorem Inserts.images (hwal : env.needsWal = true) (h : Inserts env itup box pages blk level res pages' evs) :
    RecordsIn (InTree pages level blk) (walLog evs) := by
  induction h with
  | leafAdd => simp [walLog_changeTrace hwal, inTree_self]
  | leafSplit => simp [walLog_splitTrace hwal, inTree_self, inTree_new]
  | innerKeep hblk hchild hrec hrep ih =>
      simp [walLog_changeTrace hwal, inTree_self, hchild.records ih]
  | innerAdd hblk hchild hrec hrep hroom hadd ih =>
      simp [walLog_changeTrace hwal, inTree_self, hchild.records ih]
  | innerSplit hblk hchild hrec hrep hfull hext ih =>
      simp [walLog_splitTrace hwal, inTree_self, hchild.records ih, inTree_new hrec.length_le]

/-- Redoing some of the records leaves the pages outside the tree alone. -/
theorem Inserts.replay_frame (hwal : env.needsWal = true)
    (h : Inserts env itup box pages blk level res pages' evs) (i : Nat) {x : BlockNumber}
    (hx : x < pages.length) (hn : x ∉ nodes.blocks (pageAt pages) level blk) :
    (replay .zero pages ((walLog evs).take i)).getD x .zero = pages.getD x .zero := by
  refine getD_replay_of_notMem fun images him im hm he => ?_
  rcases h.images hwal images (List.mem_of_mem_take him) im hm with hb | hb
  · exact hn (he ▸ hb)
  · exact Nat.lt_irrefl _ (Nat.lt_of_lt_of_le hx (he ▸ hb))

/-! ## What a prefix keeps in reach -/

/-- The call for the page at `blk` leaves below it every tuple that was there. -/
def KeepsBelow (env : Env) (itup : IndexTuple) (box : RTreeTemporalBox) (pages : List Page) (level : Nat)
    (blk : BlockNumber) : Prop :=
  ∀ res pages₁ evs, Inserts env itup box pages blk level res pages₁ evs →
    (nodes.leaves (pageAt pages) level blk : Multiset IndexTuple) ≤ nodes.leaves (pageAt pages₁) level blk

/-- Every page on the way down does. -/
def PathKeepsBelow (env : Env) (itup : IndexTuple) (box : RTreeTemporalBox) (pages : List Page) :
    Nat → BlockNumber → Prop
  | 0, blk => KeepsBelow env itup box pages 0 blk
  | level + 1, blk => PathKeepsBelow env itup box pages level (chooseSubtreeInsert (pageAt pages blk) box) ∧
      KeepsBelow env itup box pages (level + 1) blk

theorem Inserts.keepsBelow_iff (h : Inserts env itup box pages blk level res pages' evs) :
    KeepsBelow env itup box pages level blk ↔
      (nodes.leaves (pageAt pages) level blk : Multiset IndexTuple) ≤ nodes.leaves (pageAt pages') level blk := by
  constructor
  · intro hk
    exact hk res pages' evs h
  · intro hle res₁ pages₁ evs₁ h₁
    rw [h₁.unique h]
    exact hle

/-- The pages after all records are those the descent left. -/
theorem Inserts.pageAt_replay (hwal : env.needsWal = true)
    (h : Inserts env itup box pages blk level res pages' evs) :
    pageAt (replay .zero pages (walLog evs)) = pageAt pages' := by
  funext x
  rw [pageAt, pageAt, h.logged hwal x]

/-- At an inner page: the prefixes are those of the child's records, and the whole. -/
theorem prefix_inner {pos : Nat} {childitup : IndexTuple}
    (hwal : env.needsWal = true) (h : Inserts env itup box pages blk (level + 1) res pages' evs')
    (hchild : ChoosesChild (pageAt pages blk) box pos childitup)
    (hrec : Inserts env itup box pages childitup.tTid.blkno level childres pages₁ evs)
    (hlog : ∃ record, walLog evs' = walLog evs ++ [record])
    (hf : nodes.Forest NodeOk (pageAt pages) (level + 1) [blk])
    (halloc : ∀ x ∈ nodes.forestBlocks (pageAt pages) (level + 1) [blk], x ∈ allocated pages)
    (ih : (∀ i, (nodes.leaves (pageAt pages) level childitup.tTid.blkno : Multiset IndexTuple) ≤
        nodes.leaves (pageAt (replay .zero pages ((walLog evs).take i))) level childitup.tTid.blkno) ↔
      PathKeepsBelow env itup box pages level childitup.tTid.blkno) :
    (∀ i, (nodes.leaves (pageAt pages) (level + 1) blk : Multiset IndexTuple) ≤
        nodes.leaves (pageAt (replay .zero pages ((walLog evs').take i))) (level + 1) blk) ↔
      PathKeepsBelow env itup box pages (level + 1) blk := by
  obtain ⟨record, hlog⟩ := hlog
  obtain ⟨rest, hrest⟩ := hchild.kids_perm
  have hpage : ∀ i x, x < pages.length →
      x ∉ nodes.blocks (pageAt pages) level childitup.tTid.blkno →
      pageAt (replay .zero pages ((walLog evs).take i)) x = pageAt pages x := by
    intro i x hx hn
    rw [pageAt, pageAt, hrec.replay_frame hwal i hx hn]
  -- before its own record the page is the old one, and reads its child as far as that is logged
  have hbefore : ∀ i, (nodes.leaves (pageAt pages) (level + 1) blk : Multiset IndexTuple) ≤
      nodes.leaves (pageAt (replay .zero pages ((walLog evs).take i))) (level + 1) blk ↔
      (nodes.leaves (pageAt pages) level childitup.tTid.blkno : Multiset IndexTuple) ≤
        nodes.leaves (pageAt (replay .zero pages ((walLog evs).take i))) level childitup.tTid.blkno := by
    intro i
    refine hf.leaves_le_iff hrest (fun x hx => hpage i x (rest_blocks hf halloc hrest x hx).1) ?_
    rw [hpage i blk h.lt_length fun hx => hf.kids.2.2 (blocks_subset_forest hchild.mem_kids hx)]
  rw [hlog, forall_take_concat
    (R := fun log => (nodes.leaves (pageAt pages) (level + 1) blk : Multiset IndexTuple) ≤
      nodes.leaves (pageAt (replay .zero pages log)) (level + 1) blk)]
  rw [← hlog, h.pageAt_replay hwal, ← h.keepsBelow_iff, PathKeepsBelow, ← hchild.blkno, ← ih]
  exact and_congr_left fun _ => forall_congr' hbefore

/-- **Every prefix of the records of a descent keeps the tuples of its tree in reach exactly if every page on the
    way down keeps its own below it.** -/
theorem Inserts.prefix_iff (hwal : env.needsWal = true)
    (h : Inserts env itup box pages blk level res pages' evs)
    (hf : nodes.Forest NodeOk (pageAt pages) level [blk])
    (halloc : ∀ x ∈ nodes.forestBlocks (pageAt pages) level [blk], x ∈ allocated pages) :
    (∀ i, (nodes.leaves (pageAt pages) level blk : Multiset IndexTuple) ≤
        nodes.leaves (pageAt (replay .zero pages ((walLog evs).take i))) level blk) ↔
      PathKeepsBelow env itup box pages level blk := by
  -- a leaf writes one record
  have hleaf : ∀ {blk res pages' evs}, Inserts env itup box pages blk 0 res pages' evs →
      (∃ record, walLog evs = [record]) →
      ((∀ i, (nodes.leaves (pageAt pages) 0 blk : Multiset IndexTuple) ≤
          nodes.leaves (pageAt (replay .zero pages ((walLog evs).take i))) 0 blk) ↔
        PathKeepsBelow env itup box pages 0 blk) := by
    rintro blk res pages' evs h ⟨record, hlog⟩
    rw [hlog, ← List.nil_append [record], forall_take_concat
      (R := fun log => (nodes.leaves (pageAt pages) 0 blk : Multiset IndexTuple) ≤
        nodes.leaves (pageAt (replay .zero pages log)) 0 blk)]
    rw [List.nil_append, ← hlog, h.pageAt_replay hwal, ← h.keepsBelow_iff]
    refine and_iff_right fun i => ?_
    rw [List.take_nil]
    exact le_rfl
  induction h with
  | @leafAdd blk level page' hblk hl hroom hadd =>
      obtain rfl := level_eq_zero_of_leaf hf hl
      exact hleaf (.leafAdd hblk hl hroom hadd) ⟨_, by simp [walLog_changeTrace hwal]; rfl⟩
  | @leafSplit blk level hblk hl hfull hext =>
      obtain rfl := level_eq_zero_of_leaf hf hl
      exact hleaf (.leafSplit hblk hl hfull hext) ⟨_, by simp [walLog_splitTrace hwal]; rfl⟩
  | innerKeep hblk hchild hrec hrep ih =>
      obtain ⟨hf', halloc'⟩ := hchild.forest hf halloc
      exact prefix_inner hwal (.innerKeep hblk hchild hrec hrep) hchild hrec
        ⟨_, by simp [walLog_changeTrace hwal]; rfl⟩ hf halloc (ih hf' halloc')
  | innerAdd hblk hchild hrec hrep hroom hadd ih =>
      obtain ⟨hf', halloc'⟩ := hchild.forest hf halloc
      exact prefix_inner hwal (.innerAdd hblk hchild hrec hrep hroom hadd) hchild hrec
        ⟨_, by simp [walLog_changeTrace hwal]; rfl⟩ hf halloc (ih hf' halloc')
  | innerSplit hblk hchild hrec hrep hfull hext ih =>
      obtain ⟨hf', halloc'⟩ := hchild.forest hf halloc
      exact prefix_inner hwal (.innerSplit hblk hchild hrec hrep hfull hext) hchild hrec
        ⟨_, by simp [walLog_splitTrace hwal]; rfl⟩ hf halloc (ih hf' halloc')

/-! ## Entries that stay on the left -/

/-- The tuples that some entries of a page of level `level` led to before the insert; those of a leaf are tuples
    themselves. -/
def oldBelow (pages : List Page) : Nat → List IndexTuple → List IndexTuple
  | 0, items => items
  | level + 1, items => items.flatMap fun t => nodes.leaves (pageAt pages) level t.tTid.blkno

/-- The page has room for what the insert brings to it, or `tr_picksplit` leaves on its left half the entries that led
    to its tuples. -/
def keepsOld (env : Env) (itup : IndexTuple) (box : RTreeTemporalBox) (pages : List Page) (level : Nat)
    (blk : BlockNumber) : Bool :=
  match foresee env pages itup box level blk with
  | .error _ => true
  | .ok f => f.right.isNone ||
      decide ((nodes.leaves (pageAt pages) level blk : Multiset IndexTuple) ≤ oldBelow pages level f.page.items)

/-- Every page on the way down does. -/
def pathKeepsOld (env : Env) (itup : IndexTuple) (box : RTreeTemporalBox) (pages : List Page) :
    Nat → BlockNumber → Bool
  | 0, blk => keepsOld env itup box pages 0 blk
  | level + 1, blk => pathKeepsOld env itup box pages level (chooseSubtreeInsert (pageAt pages blk) box) &&
      keepsOld env itup box pages (level + 1) blk

theorem keepsOld_iff {f : Foreseen} (hf : foresee env pages itup box level blk = .ok f) :
    keepsOld env itup box pages level blk = true ↔ (f.right.isSome = true →
      (nodes.leaves (pageAt pages) level blk : Multiset IndexTuple) ≤ oldBelow pages level f.page.items) := by
  rw [keepsOld, hf]
  cases hright : f.right <;> simp [hright]

theorem PathKeepsBelow.keepsBelow : ∀ {level : Nat} {blk : BlockNumber},
    PathKeepsBelow env itup box pages level blk → KeepsBelow env itup box pages level blk
  | 0, _, h => h
  | _ + 1, _, h => h.2

/-- Entry by entry. -/
theorem flatMap_le {α β : Type} {l : List α} {f g : α → List β}
    (h : ∀ a ∈ l, (f a : Multiset β) ≤ g a) : (l.flatMap f : Multiset β) ≤ l.flatMap g := by
  induction l with
  | nil => exact le_rfl
  | cons a l ih =>
      rw [List.flatMap_cons, List.flatMap_cons, ← Multiset.coe_add, ← Multiset.coe_add]
      exact add_le_add (h a List.mem_cons_self) (ih fun b hb => h b (List.mem_cons_of_mem _ hb))

/-- No tuples are below a block that the relation does not have. -/
theorem leaves_unallocated {b : BlockNumber} (hb : pages.length ≤ b) : nodes.leaves (pageAt pages) level b = [] := by
  have hpage : (pageAt pages b).items = [] := by
    rw [pageAt, List.getD_eq_default _ _ hb]
    rfl
  cases level with
  | zero => exact hpage
  | succ level => rw [leaves_inner fun _ _ => rfl, hpage, List.flatMap_nil]

section Child
variable {c : Foreseen} {child : BlockNumber} {childres : RTreeInsertResult}

/-- What the entries above a child led to, they lead to after the call for it, if its left half has kept its tuples. -/
theorem Foreseen.le_under (hkeeps : (nodes.leaves (pageAt pages) level child : Multiset IndexTuple) ≤ c.below)
    (t : IndexTuple) :
    (nodes.leaves (pageAt pages) level t.tTid.blkno : Multiset IndexTuple) ≤ c.under pages level child t := by
  rw [Foreseen.under]
  split
  · next he =>
    rw [he]
    exact hkeeps
  · split
    · next he =>
      rw [leaves_unallocated (he ▸ Nat.le_add_right _ _)]
      exact Multiset.zero_le _
    · exact le_rfl

variable (hc : Foresees c pages level child childres pages₁ evs)
  (hspec : InsertSpec itup pages child level (resultBlocks child childres) pages₁ evs)
include hc hspec

/-- The halves of a child hold its tuples and the new one at most. -/
theorem Foresees.halves_le : (c.below : Multiset IndexTuple) + ((c.right.map Prod.snd).getD [] : List IndexTuple) ≤
    itup ::ₘ (nodes.leaves (pageAt pages) level child : Multiset IndexTuple) := by
  have hle := hspec.leaves_le
  rw [Multiset.coe_add, Multiset.cons_coe, Multiset.coe_le]
  cases hsplit : childres.split with
  | none =>
      rw [hc.unsplit hsplit]
      simpa [resultBlocks, hsplit, hc.below] using hle
  | some right =>
      rw [(hc.split right hsplit).2.2.2]
      simpa [resultBlocks, hsplit, hc.below] using hle

/-- Apart from the new tuple, the entries above a child whose left half has kept its tuples lead to what they led to. -/
theorem Foresees.under_le (hkeeps : (nodes.leaves (pageAt pages) level child : Multiset IndexTuple) ≤ c.below)
    (t : IndexTuple) :
    (c.under pages level child t : Multiset IndexTuple).filter (· ≠ itup) ≤
      nodes.leaves (pageAt pages) level t.tTid.blkno := by
  have hle := Multiset.filter_le_filter (· ≠ itup) (hc.halves_le hspec)
  have hnew : (itup ::ₘ (nodes.leaves (pageAt pages) level child : Multiset IndexTuple)).filter (· ≠ itup) =
      (nodes.leaves (pageAt pages) level child : Multiset IndexTuple).filter (· ≠ itup) :=
    Multiset.filter_cons_of_neg _ (by simp)
  rw [Multiset.filter_add, hnew] at hle
  rw [Foreseen.under]
  split
  · next he =>
    rw [he]
    exact ((le_add_of_nonneg_right (Multiset.zero_le _)).trans hle).trans (Multiset.filter_le _ _)
  · split
    · -- the left half has all of the child's tuples, so the right one has at most the new one
      have hright := (add_le_iff_nonpos_right _).mp (hle.trans (Multiset.filter_le_filter _ hkeeps))
      exact hright.trans (Multiset.zero_le _)
    · exact Multiset.filter_le _ _

end Child

/-! ### At an inner page -/

theorem oldBelow_succ (items : List IndexTuple) : oldBelow pages (level + 1) items =
    nodes.forestLeaves (pageAt pages) level (items.map fun t => t.tTid.blkno) := by
  rw [oldBelow, forestLeaves, List.flatMap_map]

section Inner
variable {c f : Foreseen} {child : BlockNumber}
  (hbelow : f.below = f.page.items.flatMap (c.under pages level child))
include hbelow

/-- A page that has all of its downlinks leads to all of its tuples. -/
theorem leaves_le_below (hkeeps : (nodes.leaves (pageAt pages) level child : Multiset IndexTuple) ≤ c.below)
    (hold : (nodes.leaves (pageAt pages) (level + 1) blk : Multiset IndexTuple) ≤
      oldBelow pages (level + 1) f.page.items) :
    (nodes.leaves (pageAt pages) (level + 1) blk : Multiset IndexTuple) ≤ f.below := by
  rw [hbelow]
  exact hold.trans (flatMap_le fun t _ => Foreseen.le_under hkeeps t)

/-- And only then, if it did not lead to the new tuple. -/
theorem leaves_le_oldBelow {childres : RTreeInsertResult}
    (hc : Foresees c pages level child childres pages₁ evs)
    (hspec : InsertSpec itup pages child level (resultBlocks child childres) pages₁ evs)
    (hnew : itup ∉ nodes.leaves (pageAt pages) (level + 1) blk)
    (hkeeps : (nodes.leaves (pageAt pages) level child : Multiset IndexTuple) ≤ c.below)
    (hle : (nodes.leaves (pageAt pages) (level + 1) blk : Multiset IndexTuple) ≤ f.below) :
    (nodes.leaves (pageAt pages) (level + 1) blk : Multiset IndexTuple) ≤
      oldBelow pages (level + 1) f.page.items := by
  have hfilter : (nodes.leaves (pageAt pages) (level + 1) blk : Multiset IndexTuple).filter (· ≠ itup) =
      nodes.leaves (pageAt pages) (level + 1) blk :=
    Multiset.filter_eq_self.mpr fun t ht he => hnew (he ▸ Multiset.mem_coe.mp ht)
  rw [← hfilter]
  refine (Multiset.filter_le_filter _ hle).trans ?_
  rw [hbelow, Multiset.filter_coe, List.filter_flatMap]
  refine flatMap_le fun t _ => ?_
  rw [← Multiset.filter_coe]
  exact hc.under_le hspec hkeeps t

end Inner

/-- At an inner page: a page that is not split has all of its downlinks. -/
theorem Inserts.pathKeepsOld_succ {pos : Nat} {childitup : IndexTuple}
    (h : Inserts env itup box pages blk (level + 1) res pages' evs')
    (hchild : ChoosesChild (pageAt pages blk) box pos childitup)
    (hrec : Inserts env itup box pages childitup.tTid.blkno level childres pages₁ evs)
    (hlinks : res.split = none → (nodes.kids (pageAt pages blk)).Subperm (nodes.kids (pageAt pages' blk)))
    (hkey : itup.key.isSome = true) (hf : nodes.Forest NodeOk (pageAt pages) (level + 1) [blk])
    (halloc : ∀ x ∈ nodes.forestBlocks (pageAt pages) (level + 1) [blk], x ∈ allocated pages)
    (ih : (pathKeepsOld env itup box pages level childitup.tTid.blkno = true →
        PathKeepsBelow env itup box pages level childitup.tTid.blkno) ∧
      (itup ∉ nodes.leaves (pageAt pages) level childitup.tTid.blkno →
        PathKeepsBelow env itup box pages level childitup.tTid.blkno →
        pathKeepsOld env itup box pages level childitup.tTid.blkno = true)) :
    (pathKeepsOld env itup box pages (level + 1) blk = true → PathKeepsBelow env itup box pages (level + 1) blk) ∧
      (itup ∉ nodes.leaves (pageAt pages) (level + 1) blk → PathKeepsBelow env itup box pages (level + 1) blk →
        pathKeepsOld env itup box pages (level + 1) blk = true) := by
  obtain ⟨hf', halloc'⟩ := hchild.forest hf halloc
  obtain ⟨c, hforesee, hc⟩ := hrec.foreseen hkey hf' halloc'
  obtain ⟨f, hforesee', hpage⟩ := h.foreseen hkey hf halloc
  have hbelow : f.below = f.page.items.flatMap (c.under pages level childitup.tTid.blkno) := by
    rw [foresee_succ hchild, hforesee] at hforesee'
    exact foreseeParent_below hforesee'
  have hkeeps : PathKeepsBelow env itup box pages level childitup.tTid.blkno →
      (nodes.leaves (pageAt pages) level childitup.tTid.blkno : Multiset IndexTuple) ≤ c.below := fun hpath =>
    hc.below ▸ hrec.keepsBelow_iff.mp hpath.keepsBelow
  rw [pathKeepsOld, PathKeepsBelow, Bool.and_eq_true, ← hchild.blkno, keepsOld_iff hforesee', h.keepsBelow_iff,
    hpage.below]
  constructor
  · rintro ⟨hpath, hold⟩
    have hpath := ih.1 hpath
    refine ⟨hpath, leaves_le_below hbelow (hkeeps hpath) ?_⟩
    cases hsplit : res.split with
    | none =>
        rw [oldBelow_succ, leaves_succ, Multiset.coe_le]
        refine forestLeaves_subperm ?_
        rw [← hpage.page]
        exact hlinks hsplit
    | some right => exact hold (by rw [(hpage.split right hsplit).2.2.2]; rfl)
  · rintro hnew ⟨hpath, hle⟩
    have hnew' : itup ∉ nodes.leaves (pageAt pages) level childitup.tTid.blkno := fun hin =>
      hnew (mem_forestLeaves.mpr ⟨_, hchild.mem_kids, hin⟩)
    refine ⟨ih.2 hnew' hpath, fun _ => ?_⟩
    exact leaves_le_oldBelow hbelow hc (hrec.spec hkey hf' halloc') hnew (hkeeps hpath) hle

/-- **Every page on the way down keeps its tuples below it if those that are split keep on the left the entries that led
    to them**, and for a new tuple only if they do. -/
theorem Inserts.pathKeepsOld_iff (h : Inserts env itup box pages blk level res pages' evs)
    (hkey : itup.key.isSome = true) (hf : nodes.Forest NodeOk (pageAt pages) level [blk])
    (halloc : ∀ x ∈ nodes.forestBlocks (pageAt pages) level [blk], x ∈ allocated pages) :
    (pathKeepsOld env itup box pages level blk = true → PathKeepsBelow env itup box pages level blk) ∧
      (itup ∉ nodes.leaves (pageAt pages) level blk → PathKeepsBelow env itup box pages level blk →
        pathKeepsOld env itup box pages level blk = true) := by
  -- on a leaf the entries are the tuples
  have hleaf : ∀ {blk res pages' evs}, Inserts env itup box pages blk 0 res pages' evs →
      nodes.Forest NodeOk (pageAt pages) 0 [blk] →
      (∀ x ∈ nodes.forestBlocks (pageAt pages) 0 [blk], x ∈ allocated pages) →
      (res.split = none → (pageAt pages blk).items.Subperm (pageAt pages' blk).items) →
      (pathKeepsOld env itup box pages 0 blk = true ↔ PathKeepsBelow env itup box pages 0 blk) := by
    intro blk res pages' evs h hf halloc hitems
    obtain ⟨f, hforesee, hpage⟩ := h.foreseen hkey hf halloc
    have hbelow : KeepsBelow env itup box pages 0 blk ↔
        ((pageAt pages blk).items : Multiset IndexTuple) ≤ f.page.items := by
      rw [h.keepsBelow_iff, ← hpage.page]
      rfl
    rw [pathKeepsOld, PathKeepsBelow, keepsOld_iff hforesee, hbelow]
    refine ⟨fun hold => ?_, fun hle _ => hle⟩
    cases hsplit : res.split with
    | none =>
        rw [Multiset.coe_le, ← hpage.page]
        exact hitems hsplit
    | some right => exact hold (by rw [(hpage.split right hsplit).2.2.2]; rfl)
  induction h with
  | @leafAdd blk level page' hblk hl hroom hadd =>
      obtain rfl := level_eq_zero_of_leaf hf hl
      have hiff := hleaf (.leafAdd hblk hl hroom hadd) hf halloc fun _ => by
        rw [pageAt_set_self hblk, (pageAddItem_items hadd).1]
        exact (List.sublist_append_left _ _).subperm
      exact ⟨hiff.mp, fun _ => hiff.mpr⟩
  | @leafSplit blk level hblk hl hfull hext =>
      obtain rfl := level_eq_zero_of_leaf hf hl
      have hiff := hleaf (.leafSplit hblk hl hfull hext) hf halloc fun h => absurd h (by simp [splitResult])
      exact ⟨hiff.mp, fun _ => hiff.mpr⟩
  | @innerKeep pages₁ blk level pos childitup childBox page₂ evs hblk hchild hrec hrep ih =>
      obtain ⟨hf', halloc'⟩ := hchild.forest hf halloc
      refine Inserts.pathKeepsOld_succ (.innerKeep hblk hchild hrec hrep) hchild hrec (fun _ => ?_) hkey hf halloc
        (ih hf' halloc')
      obtain ⟨-, -, hkids⟩ := hchild.refreshed hf halloc (hrec.spec hkey) hrep
      rw [pageAt_set_self (Nat.lt_of_lt_of_le hblk hrec.length_le), hkids]
  | @innerAdd pages₁ blk level pos childitup childBox right page₂ page₃ evs hblk hchild hrec hrep hroom hadd ih =>
      obtain ⟨hf', halloc'⟩ := hchild.forest hf halloc
      refine Inserts.pathKeepsOld_succ (.innerAdd hblk hchild hrec hrep hroom hadd) hchild hrec (fun _ => ?_) hkey hf
        halloc (ih hf' halloc')
      obtain ⟨-, hp₂, hkids⟩ := hchild.refreshed hf halloc (hrec.spec hkey) hrep
      rw [pageAt_set_self (Nat.lt_of_lt_of_le hblk hrec.length_le), (hp₂.addLink hadd).2, hkids]
      exact (List.sublist_append_left _ _).subperm
  | innerSplit hblk hchild hrec hrep hfull hext ih =>
      obtain ⟨hf', halloc'⟩ := hchild.forest hf halloc
      exact Inserts.pathKeepsOld_succ (.innerSplit hblk hchild hrec hrep hfull hext) hchild hrec
        (fun h => absurd h (by simp [splitResult])) hkey hf halloc (ih hf' halloc')

/-- A descent into a relation that is not logged logs nothing. -/
theorem Inserts.walLog_of_unlogged (hwal : env.needsWal = false)
    (h : Inserts env itup box pages blk level res pages' evs) : walLog evs = [] := by
  have hrecord : ∀ images, walRecord env images = [] := fun images => by simp [walRecord, hwal]
  induction h with
  | leafAdd => simp [changeTrace, hrecord]
  | leafSplit => simp [splitTrace, hrecord]
  | innerKeep hblk hchild hrec hrep ih => simp [changeTrace, hrecord, ih]
  | innerAdd hblk hchild hrec hrep hroom hadd ih => simp [changeTrace, hrecord, ih]
  | innerSplit hblk hchild hrec hrep hfull hext ih => simp [splitTrace, hrecord, ih]

end Descent

/-! ## The whole call -/

/-- An insert that leaves the root where it is has not promoted a new one. -/
theorem InsertsTuple.keep_of_root {env : Env} {itup : IndexTuple} {box : RTreeTemporalBox}
    {pages pages' : List Page} {evs : List Event} (h : InsertsTuple env itup box pages pages' evs)
    (hroot : (metaAt pages').root = (metaAt pages).root) :
    ∃ res evs', Inserts env itup box pages (metaAt pages).root (metaAt pages).rootLevel res pages' evs' ∧
      walLog evs = walLog evs' := by
  cases h with
  | keep hlen hmagic hins => exact ⟨_, _, hins, rfl⟩
  | @promote pages₁ leftBox right evs hlen hmagic hins hext =>
      rw [metaPages, metaAt_set_zero (by simp [promotedPages])] at hroot
      have hlt : (metaAt pages).root < pages₁.length := Nat.lt_of_lt_of_le hins.lt_length hins.length_le
      exact absurd hroot.symm (Nat.ne_of_lt hlt)

/-- **A crash in the middle of an insert that does not split the root.** Every prefix of its records keeps every tuple
    in reach if each page on the way down has room for what comes to it, or keeps on its left half the entries that led
    to its tuples; for a tuple that the index does not hold yet, exactly then. -/
theorem crash_prefix_keeps_iff {env : Env} {key : Option NDBOX} {htCtid : ItemPointerData} {pages : List Page}
    {s' : Rel} {b : Bool} (hwf : WF pages)
    (hrun : temporalRtreeInsert env key htCtid { pages := pages } = .ok b s')
    (hroot : (metaAt s'.pages).root = (metaAt pages).root) :
    ((∀ cube ∈ key, env.needsWal = true → pathKeepsOld env { tTid := htCtid, key := key } (rtreeCubeToBox cube) pages
        (metaAt pages).rootLevel (metaAt pages).root = true) →
      ∀ i, contents pages ≤ contents (replay .zero pages ((walLog s'.trace).take i))) ∧
    ({ tTid := htCtid, key := key } ∉ contents pages →
      ((∀ i, contents pages ≤ contents (replay .zero pages ((walLog s'.trace).take i))) ↔
        ∀ cube ∈ key, env.needsWal = true → pathKeepsOld env { tTid := htCtid, key := key } (rtreeCubeToBox cube) pages
          (metaAt pages).rootLevel (metaAt pages).root = true)) := by
  cases key with
  | none =>
      rw [temporalRtreeInsert_run_of_none hwf.two_le_length] at hrun
      injection hrun with _ hs
      subst hs
      simp [replay]
  | some cube =>
      rw [temporalRtreeInsert_run_of_some hwf.two_le_length, bind_eq_ok] at hrun
      obtain ⟨u, s₁, hins, hs⟩ := hrun
      injection hs with _ hs
      subst hs
      obtain ⟨evs, hins, htrace⟩ := insertTuple_inserts hins
      obtain ⟨res, evs', hins, hlog⟩ := hins.keep_of_root hroot
      rw [htrace, List.nil_append, hlog]
      simp only [Option.mem_def, Option.some.injEq, forall_eq']
      cases hwal : env.needsWal with
      | false => simp [hins.walLog_of_unlogged hwal, replay]
      | true =>
          -- the meta page is in no record
          have hmeta : ∀ i, metaAt (replay .zero pages ((walLog evs').take i)) = metaAt pages := fun i => by
            rw [metaAt, metaAt, hins.replay_frame hwal i (Nat.lt_of_lt_of_le Nat.two_pos hwf.two_le_length)
              hwf.zero_notMem]
          obtain ⟨hold, hnew⟩ := hins.pathKeepsOld_iff rfl hwf.tree hwf.halloc
          simp only [contents, hmeta, true_implies]
          rw [hins.prefix_iff hwal hwf.tree hwf.halloc]
          exact ⟨hold, fun hfresh => ⟨hnew hfresh, hold⟩⟩

/-- Six rows with the same key: a root over a full leaf and one with a single row. -/
def wideRows : List Op := [.build ([1, 2, 3, 4, 5, 6].map fun i => ⟨(wideTuple i).tTid, wideKey⟩)]

/-- The full leaf is split for another row, and only that row moves to the right: a crash between the two records loses
    nothing. -/
theorem crash_prefix_keeps_iff_wide_row :
    ∃ s s', runOps roomyEnv wideRows { pages := [] } = .ok () s ∧ (metaAt s.pages).rootLevel = 1 ∧
      temporalRtreeInsert roomyEnv wideKey (wideTuple 7).tTid { pages := s.pages } = .ok true s' ∧
      (walLog s'.trace).length = 2 ∧
      ∀ i, contents s.pages ≤ contents (replay .zero s.pages ((walLog s'.trace).take i)) := by
  have hrun : okWith (fun _ s => okWith (fun b s' => decide (b = true ∧ (metaAt s.pages).rootLevel = 1 ∧
        (metaAt s'.pages).root = (metaAt s.pages).root ∧ (walLog s'.trace).length = 2) &&
          pathKeepsOld roomyEnv (wideTuple 7) (rtreeCubeToBox wideKey) s.pages (metaAt s.pages).rootLevel
            (metaAt s.pages).root)
      (temporalRtreeInsert roomyEnv wideKey (wideTuple 7).tTid { pages := s.pages }))
    (runOps roomyEnv wideRows { pages := [] }) = true := by decide +kernel
  obtain ⟨u, s, hbuild, hcheck⟩ := exists_of_okWith hrun
  obtain ⟨b, s', hins, hcheck⟩ := exists_of_okWith hcheck
  obtain ⟨hcheck, hold⟩ := Bool.and_eq_true_iff.mp hcheck
  obtain ⟨rfl, hlevel, hroot, hlen⟩ := of_decide_eq_true hcheck
  have hwf : WF s.pages := (runOps_valid (Or.inl rfl) hbuild).resolve_left fun hnil => by
    simp [hnil, metaAt, Page.asMeta] at hlevel
  refine ⟨s, s', hbuild, hlevel, hins, hlen, (crash_prefix_keeps_iff hwf hins hroot).1 fun cube hcube _ => ?_⟩
  obtain rfl := Option.some.inj hcube
  exact hold

/-- Three more rows for `stairs 5`: a root over a full leaf and one with room. -/
def threeRows : List Op := [stair 5, stair 6, stair 7].map fun t => .insert { tid := t.tTid, key := t.key }

/-- The leaf is split: after the first record the tuples of its right half are out of reach. -/
theorem crash_between_records_loses_tuples :
    ∃ s s', runOps roomyEnv threeRows (stairs 5) = .ok () s ∧ WF s.pages ∧
      (metaAt s.pages).rootLevel = 1 ∧
      temporalRtreeInsert roomyEnv (stair 8).key (stair 8).tTid { pages := s.pages } = .ok true s' ∧
      (metaAt s'.pages).root = (metaAt s.pages).root ∧ (walLog s'.trace).length = 2 ∧
      stair 6 ∈ contents s.pages ∧
      stair 6 ∉ contents (replay .zero s.pages ((walLog s'.trace).take 1)) := by
  have hrun : (match runOps roomyEnv threeRows (stairs 5) with
    | .error _ _ => false
    | .ok _ s =>
        okWith (fun b s' => decide (b = true ∧ (metaAt s.pages).rootLevel = 1 ∧
            (metaAt s'.pages).root = (metaAt s.pages).root ∧ (walLog s'.trace).length = 2 ∧
            stair 6 ∈ contents s.pages ∧
            stair 6 ∉ contents (replay .zero s.pages ((walLog s'.trace).take 1))))
          (temporalRtreeInsert roomyEnv (stair 8).key (stair 8).tTid { pages := s.pages })) = true := by
    decide +kernel
  cases h : runOps roomyEnv threeRows (stairs 5) with
  | error e s => simp [h] at hrun
  | ok u s =>
      rw [h] at hrun
      obtain ⟨b, s', hs', hcheck⟩ := exists_of_okWith hrun
      obtain ⟨rfl, hlevel, hroot, hlen, hmem, hnot⟩ := of_decide_eq_true hcheck
      have hwf : WF s.pages := (runOps_valid (Or.inr (stairs_wf 5)) h).resolve_left fun hnil => by
        simp [hnil, contents_nil] at hmem
      exact ⟨s, s', rfl, hwf, hlevel, hs', hroot, hlen, hmem, hnot⟩

end TemporalRTree
