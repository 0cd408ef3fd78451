import TemporalRTree.Model.LockSteps
import TemporalRTree.Correctness.ConcurrentScan
import TemporalRTree.Correctness.LockRanks
import TemporalRTree.Correctness.VacuumRoot

/-!
# `Correctness.LockSessions` — what a session knows about ranks, and what its steps do

A call goes down: what it asks for ranks below everything it has locked (`Activity.Ranked.wants_below`). A rank changes
only while the session that changes it has the block exclusively locked, so what the other sessions know about the
ranks of the pages they have locked stays true (`Activity.Ranked.mono`). Every step of every call keeps the ranks, and
changes only pages that the session has locked itself (`advance_ends`).
-/

namespace TemporalRTree
open EStateM

/-! ## What a session knows about ranks -/

/-- An active call of `rtree_insert_page` on a page of its rank, with a downlink to a smaller one. -/
structure InsertFrame.Ranked (rank : BlockNumber → Nat) (n : Nat) (f : InsertFrame) : Prop where
  block : DataBlock n f.blkno
  level : rank f.blkno ≤ f.level
  offset : 0 < f.bestoff
  tid : DataBlock n f.tid.blkno
  below : rank f.tid.blkno < rank f.blkno

/-- The active calls around a call on a page of rank `bound`, in a descent that started at `level`. -/
structure FramesRanked (rank : BlockNumber → Nat) (n level bound : Nat) (frames : List InsertFrame) : Prop where
  bound_le : bound ≤ level
  above : ∀ f ∈ frames, bound < rank f.blkno ∧ rank f.blkno ≤ level
  sorted : frames.Pairwise fun f g => rank f.blkno < rank g.blkno
  each : ∀ f ∈ frames, f.Ranked rank n

/-- An active call of `rtree_vacuum_page` on an inner page, whose downlinks lead to smaller ranks. -/
structure VacuumFrame.Ranked (rank : BlockNumber → Nat) (n : Nat) (f : VacuumFrame) : Prop where
  block : DataBlock n f.blkno
  page : PageRanked rank n (rank f.blkno) f.page
  inner : f.page.special.flags.leaf = false
  todo : ∀ t ∈ f.todo, Below rank n (rank f.blkno) t
  kept : ∀ t ∈ f.kept.tuples, Below rank n (rank f.blkno) t

/-- A scan that has a page locked is past its start and stands on the page of its top frame. -/
def StandsOnTop (n : Nat) (scan : IndexScanDesc) : Prop :=
  ∀ b ∈ scan.so.curBuf, b < n ∧ scan.so.firstCall = false ∧ scan.so.stack.head?.map (·.blkno) = some b

/-- What a session knows about the ranks of the blocks it has to do with, and about the root that the meta page
    names while it has that locked. -/
def Activity.Ranked (rank : BlockNumber → Nat) (n : Nat) (metaRoot : BlockNumber) : Activity → Prop
  | .descent _ _ root level (.entering blkno l frames) =>
      (DataBlock n root ∧ rank root ≤ level) ∧ DataBlock n blkno ∧ rank blkno ≤ l ∧
        FramesRanked rank n level (rank blkno) frames
  | .descent _ _ root level (.returning res frames) =>
      (DataBlock n root ∧ rank root ≤ level) ∧ ∃ bound, FramesRanked rank n level bound frames ∧
        ∀ right ∈ res.split, DataBlock n right.rightBlkno ∧ rank right.rightBlkno ≤ bound
  | .promote root level _ right =>
      (DataBlock n root ∧ rank root ≤ level) ∧ DataBlock n right.rightBlkno ∧ rank right.rightBlkno ≤ level
  | .metaWrite root level => DataBlock n root ∧ rank root ≤ level
  | .walkRoot _ root _ _ => DataBlock n root
  | .walking _ root _ top below =>
      DataBlock n root ∧ (top :: below).Pairwise (fun f g => rank f.blkno < rank g.blkno) ∧
        ∀ f ∈ top :: below, f.Ranked rank n
  | .shrinkMeta root _ => DataBlock n root
  | .shrinkRoot root _ => DataBlock n root ∧ metaRoot = root
  | .shrinkChild root _ child =>
      (DataBlock n root ∧ metaRoot = root) ∧ DataBlock n child ∧ rank child < rank root
  | .scanning scan => StandsOnTop n scan
  | _ => True

section Knows
variable {rank rank' : BlockNumber → Nat} {n n' level bound : Nat}

theorem InsertFrame.Ranked.mono {f : InsertFrame} (h : f.Ranked rank n) (hle : Lowers n rank rank') (hn : n ≤ n')
    (heq : rank' f.blkno = rank f.blkno) : f.Ranked rank' n' where
  block := h.block.mono hn
  level := heq ▸ h.level
  offset := h.offset
  tid := h.tid.mono hn
  below := heq ▸ Nat.lt_of_le_of_lt (hle _ h.tid) h.below

theorem FramesRanked.mono {frames : List InsertFrame} (h : FramesRanked rank n level bound frames)
    (hle : Lowers n rank rank') (hn : n ≤ n') (heq : ∀ f ∈ frames, rank' f.blkno = rank f.blkno) {bound' : Nat}
    (hbound : bound' ≤ bound) : FramesRanked rank' n' level bound' frames := by
  refine ⟨Nat.le_trans hbound h.bound_le, fun f hf => ?_, ?_, fun f hf => (h.each f hf).mono hle hn (heq f hf)⟩
  · rw [heq f hf]
    exact ⟨Nat.lt_of_le_of_lt hbound (h.above f hf).1, (h.above f hf).2⟩
  · refine h.sorted.imp_of_mem fun {f g} hf hg hlt => ?_
    rw [heq f hf, heq g hg]
    exact hlt

theorem VacuumFrame.Ranked.mono {f : VacuumFrame} (h : f.Ranked rank n) (hle : Lowers n rank rank') (hn : n ≤ n')
    (heq : rank' f.blkno = rank f.blkno) : f.Ranked rank' n' where
  block := h.block.mono hn
  page := heq ▸ h.page.mono hle hn
  inner := h.inner
  todo t ht := heq ▸ (h.todo t ht).mono hle hn
  kept t ht := heq ▸ (h.kept t ht).mono hle hn

/-- **What a session knows stays true** while ranks fall, none of them that of a page it has exclusively locked, and
    the meta page names the same root as long as the session has it locked. -/
theorem Activity.Ranked.mono {act : Activity} {root root' : BlockNumber} (h : act.Ranked rank n root)
    (hle : Lowers n rank rank') (hn : n ≤ n')
    (heq : ∀ b, DataBlock n b → (b, LockMode.exclusive) ∈ act.locked → rank' b = rank b)
    (hroot : (0, LockMode.exclusive) ∈ act.locked → root' = root) : act.Ranked rank' n' root' := by
  cases act with
  | descent itup box start level state =>
      cases state with
      | entering blkno l frames =>
          obtain ⟨⟨hs, hsl⟩, hb, hbl, hf⟩ := h
          have hframes : ∀ f ∈ frames, rank' f.blkno = rank f.blkno := fun f hmem =>
            heq f.blkno (hf.each f hmem).block (List.mem_map_of_mem hmem)
          exact ⟨⟨hs.mono hn, Nat.le_trans (hle _ hs) hsl⟩, hb.mono hn, Nat.le_trans (hle _ hb) hbl,
            hf.mono hle hn hframes (hle _ hb)⟩
      | returning res frames =>
          obtain ⟨⟨hs, hsl⟩, bound, hf, hright⟩ := h
          have hframes : ∀ f ∈ frames, rank' f.blkno = rank f.blkno := fun f hmem =>
            heq f.blkno (hf.each f hmem).block (List.mem_map_of_mem hmem)
          refine ⟨⟨hs.mono hn, Nat.le_trans (hle _ hs) hsl⟩, bound, hf.mono hle hn hframes (Nat.le_refl _), ?_⟩
          intro right hr
          obtain ⟨hblock, hrank⟩ := hright right hr
          exact ⟨hblock.mono hn, Nat.le_trans (hle _ hblock) hrank⟩
  | promote start level leftBox right =>
      obtain ⟨⟨hs, hsl⟩, hr, hrl⟩ := h
      exact ⟨⟨hs.mono hn, Nat.le_trans (hle _ hs) hsl⟩, hr.mono hn, Nat.le_trans (hle _ hr) hrl⟩
  | metaWrite start level => exact ⟨h.1.mono hn, Nat.le_trans (hle _ h.1) h.2⟩
  | walkRoot callback start level stats => exact DataBlock.mono h hn
  | walking callback start level top below =>
      obtain ⟨hs, hsorted, heach⟩ := h
      have hframes : ∀ f ∈ top :: below, rank' f.blkno = rank f.blkno := fun f hmem =>
        heq f.blkno (heach f hmem).block (List.mem_map.mpr ⟨f, hmem, rfl⟩)
      refine ⟨hs.mono hn, ?_, fun f hf => (heach f hf).mono hle hn (hframes f hf)⟩
      refine hsorted.imp_of_mem fun {f g} hf hg hlt => ?_
      rw [hframes f hf, hframes g hg]
      exact hlt
  | shrinkMeta start level => exact DataBlock.mono h hn
  | shrinkRoot start level =>
      obtain ⟨hs, hmeta⟩ := h
      exact ⟨hs.mono hn, (hroot (List.mem_singleton.mpr rfl)).trans hmeta⟩
  | shrinkChild start level child =>
      obtain ⟨⟨hs, hmeta⟩, hc, hlt⟩ := h
      refine ⟨⟨hs.mono hn, (hroot (by simp [Activity.locked])).trans hmeta⟩, hc.mono hn, ?_⟩
      rw [heq start hs (by simp [Activity.locked])]
      exact Nat.lt_of_le_of_lt (hle _ hc) hlt
  | scanning scan => exact fun b hb => ⟨Nat.lt_of_lt_of_le (h b hb).1 hn, (h b hb).2⟩
  | _ => exact True.intro

/-- A session has only blocks locked that there are. -/
theorem Activity.Ranked.locked_lt {act : Activity} {root : BlockNumber} {l : PageLock} (h : act.Ranked rank n root)
    (hn : 0 < n) (hl : l ∈ act.locked) : l.1 < n := by
  cases act with
  | descent itup box start level state =>
      cases state with
      | entering blkno l frames =>
          obtain ⟨-, -, -, hf⟩ := h
          obtain ⟨f, hmem, rfl⟩ := List.mem_map.mp hl
          exact (hf.each f hmem).block.2
      | returning res frames =>
          obtain ⟨-, bound, hf, -⟩ := h
          obtain ⟨f, hmem, rfl⟩ := List.mem_map.mp hl
          exact (hf.each f hmem).block.2
  | walking callback start level top below =>
      obtain ⟨-, -, heach⟩ := h
      obtain ⟨f, hmem, rfl⟩ := List.mem_map.mp hl
      exact (heach f hmem).block.2
  | shrinkRoot start level =>
      obtain rfl := List.mem_singleton.mp hl
      exact hn
  | shrinkChild start level child =>
      obtain ⟨⟨hs, -⟩, -⟩ := h
      rcases List.mem_pair.mp hl with rfl | rfl
      · exact hs.2
      · exact hn
  | scanning scan =>
      obtain ⟨b, hb, rfl⟩ := List.mem_map.mp hl
      exact (h b (Option.mem_toList.mp hb)).1
  | _ => exact absurd hl List.not_mem_nil

/-- The rank of a lock; the meta page is above all blocks. -/
def lockRank (rank : BlockNumber → Nat) (l : PageLock) : WithTop ℕ := if l.1 = 0 then ⊤ else (rank l.1 : WithTop ℕ)

theorem lockRank_of_pos {b : BlockNumber} {mode : LockMode} (h : 0 < b) : lockRank rank (b, mode) = rank b :=
  if_neg (Nat.pos_iff_ne_zero.mp h)

theorem lockRank_lt {b b' : BlockNumber} {mode mode' : LockMode} (hb : 0 < b) (hb' : 0 < b')
    (h : rank b < rank b') : lockRank rank (b, mode) < lockRank rank (b', mode') := by
  rw [lockRank_of_pos hb, lockRank_of_pos hb']
  exact WithTop.coe_lt_coe.mpr h

theorem lockRank_lt_meta {b : BlockNumber} {mode mode' : LockMode} (hb : 0 < b) :
    lockRank rank (b, mode) < lockRank rank (0, mode') := by
  rw [lockRank_of_pos hb]
  exact WithTop.coe_lt_top _

/-- **A call goes down**: what it asks for ranks below everything it has locked. -/
theorem Activity.Ranked.wants_below {act : Activity} {root : BlockNumber} {l l' : PageLock} (h : act.Ranked rank n root)
    (hwants : act.wants = some l) (hlocked : l' ∈ act.locked) : lockRank rank l < lockRank rank l' := by
  cases act with
  | descent itup box start level state =>
      cases state with
      | entering blkno l₀ frames =>
          obtain ⟨-, hb, -, hf⟩ := h
          obtain rfl := Option.some.inj hwants
          obtain ⟨f, hmem, rfl⟩ := List.mem_map.mp hlocked
          exact lockRank_lt hb.1 (hf.each f hmem).block.1 (hf.above f hmem).1
      | returning res frames => exact absurd hwants (by simp [Activity.wants])
  | walking callback start level top below =>
      obtain ⟨-, hsorted, heach⟩ := h
      obtain ⟨b, hb, rfl⟩ := Option.map_eq_some_iff.mp hwants
      obtain ⟨t, ht, rfl⟩ := Option.map_eq_some_iff.mp hb
      -- the next child is below the innermost page, and that below the others
      have htop := heach top List.mem_cons_self
      obtain ⟨hblock, hlt⟩ := htop.todo t (List.mem_of_mem_head? ht)
      obtain ⟨f, hmem, rfl⟩ := List.mem_map.mp hlocked
      refine lockRank_lt hblock.1 (heach f hmem).block.1 ?_
      rcases List.mem_cons.mp hmem with rfl | hmem
      · exact hlt
      · exact Nat.lt_trans hlt ((List.pairwise_cons.mp hsorted).1 f hmem)
  | shrinkRoot start level =>
      obtain ⟨hs, -⟩ := h
      obtain rfl := Option.some.inj hwants
      obtain rfl := List.mem_singleton.mp hlocked
      exact lockRank_lt_meta hs.1
  | shrinkChild start level child =>
      obtain ⟨⟨hs, -⟩, hc, hlt⟩ := h
      obtain rfl := Option.some.inj hwants
      rcases List.mem_pair.mp hlocked with rfl | rfl
      · exact lockRank_lt hc.1 hs.1 hlt
      · exact lockRank_lt_meta hc.1
  | scanning scan =>
      -- a scan that has a page locked asks for none
      obtain ⟨b, hb, rfl⟩ := List.mem_map.mp hlocked
      have hb : scan.so.curBuf = some b := Option.mem_toList.mp hb
      obtain ⟨-, hfirst, htop⟩ := h b hb
      obtain ⟨frame, hhead, rfl⟩ := Option.map_eq_some_iff.mp htop
      have hwants : scanWants scan = some l := hwants
      unfold scanWants at hwants
      rw [if_neg (by simp [hfirst])] at hwants
      cases hstack : scan.so.stack with
      | nil =>
          rw [hstack] at hhead
          exact absurd hhead (by simp)
      | cons top below =>
          rw [hstack] at hhead hwants
          obtain rfl := Option.some.inj hhead
          dsimp only at hwants
          rw [if_pos hb] at hwants
          exact absurd hwants (by simp)
  | _ => exact absurd hlocked List.not_mem_nil

end Knows

/-! ## One step of a session -/

/-- The session has block `b` exclusively locked, or its next step locks it. -/
def Activity.Owns (act : Activity) (b : BlockNumber) : Prop :=
  (b, LockMode.exclusive) ∈ act.locked ∨ act.wants = some (b, LockMode.exclusive)

/-- A step from `act` on `pages` to `act'` on `pages'`: the pages have ranks again, and what has changed of pages and
    ranks is the session's own. -/
structure Advances (rank : BlockNumber → Nat) (pages : List Page) (act : Activity) (rank' : BlockNumber → Nat)
    (pages' : List Page) (act' : Activity) : Prop where
  ranked : Ranked rank' pages'
  next : act'.Ranked rank' pages'.length (metaAt pages').root
  length_le : pages.length ≤ pages'.length
  lowers : Lowers pages.length rank rank'
  same : ∀ b, DataBlock pages.length b → ¬ act.Owns b → rank' b = rank b
  frame : ∀ b, b < pages.length → ¬ act.Owns b → pages'[b]? = pages[b]?
  locks : ∀ l ∈ act'.locked, l ∈ act.locked ∨ act.wants = some l

/-- However the next step of a session ends, it is one of these, for some ranks; an error ends the call. -/
def StepEnds (rank : BlockNumber → Nat) (pages : List Page) (act : Activity) : Result RTreeError Rel Activity → Prop :=
  Ends (fun act' s' => ∃ rank', Advances rank pages act rank' s'.pages act')
    (fun s' => ∃ rank', Advances rank pages act rank' s'.pages .idle)

section Advances
variable {env : Env} {rank rank' : BlockNumber → Nat} {pages pages' : List Page} {act act' : Activity}
  {blk : BlockNumber} {split : Option SplitRight} {s : Rel}

/-- A step that changes no page. -/
theorem Advances.keep (h : Ranked rank pages) (hnext : act'.Ranked rank pages.length (metaAt pages).root)
    (hlocks : ∀ l ∈ act'.locked, l ∈ act.locked ∨ act.wants = some l) : Advances rank pages act rank pages act' where
  ranked := h
  next := hnext
  length_le := Nat.le_refl _
  lowers _ _ := Nat.le_refl _
  same _ _ _ := rfl
  frame _ _ _ := rfl
  locks := hlocks

theorem Advances.idle (h : Ranked rank pages) : Advances rank pages act rank pages .idle :=
  .keep h True.intro fun _ hl => absurd hl List.not_mem_nil

/-- A step that rewrites a page of its own. -/
theorem Advances.rewrite (h : Rewrites rank pages blk rank' pages' split) (hown : act.Owns blk)
    (hnext : act'.Ranked rank' pages'.length (metaAt pages').root)
    (hlocks : ∀ l ∈ act'.locked, l ∈ act.locked ∨ act.wants = some l) :
    Advances rank pages act rank' pages' act' where
  ranked := h.ranked
  next := hnext
  length_le := h.length_le
  lowers := h.lowers
  same b hb _ := h.same b hb
  frame b hb hnot := h.frame b hb fun heq => hnot (heq ▸ hown)
  locks := hlocks

/-- An error after that. -/
theorem Advances.rewrite_idle (h : Rewrites rank pages blk rank' pages' split) (hown : act.Owns blk) :
    Advances rank pages act rank' pages' .idle :=
  .rewrite h hown True.intro fun _ hl => absurd hl List.not_mem_nil

theorem insertMeta_step {itup : IndexTuple} {box : RTreeTemporalBox} (h : Ranked rank s.pages) :
    StepEnds rank s.pages (.insertMeta itup box) ((Activity.insertMeta itup box).advance env s) := by
  rw [Activity.advance]
  rcases readMetaRoot_cases s with ⟨-, hrun⟩ | ⟨-, -, hrun⟩ | ⟨-, -, hrun⟩
  · rw [bind_of_error hrun]
    exact ⟨rank, .idle h⟩
  · rw [bind_of_error hrun]
    exact ⟨rank, .idle h⟩
  · rw [bind_of_ok hrun]
    refine ⟨rank, .keep h ?_ fun _ hl => absurd hl List.not_mem_nil⟩
    refine ⟨⟨h.root, h.root_le⟩, h.root, h.root_le, h.root_le, ?_, .nil, ?_⟩
    · exact fun f hf => absurd hf List.not_mem_nil
    · exact fun f hf => absurd hf List.not_mem_nil

/-! ### The descent -/

section Descent
variable {itup : IndexTuple} {box : RTreeTemporalBox} {root : BlockNumber} {level l : Nat}
  {frames below : List InsertFrame} {res : RTreeInsertResult} {top : InsertFrame}

/-- The state of a descent after a step from `act`. -/
abbrev DescentEnds (rank : BlockNumber → Nat) (pages : List Page) (act : Activity) (itup : IndexTuple)
    (box : RTreeTemporalBox) (root : BlockNumber) (level : Nat) : Result RTreeError Rel DescentState → Prop :=
  Ends (fun state s' => ∃ rank', Advances rank pages act rank' s'.pages (.descent itup box root level state))
    (fun s' => ∃ rank', Advances rank pages act rank' s'.pages .idle)

/-- A call that has rewritten its page returns to the calls around it. -/
theorem Rewrites.returning {act : Activity} (h : Rewrites rank pages blk rank' pages' res.split) (hown : act.Owns blk)
    (hroot : DataBlock pages.length root ∧ rank root ≤ level)
    (hframes : FramesRanked rank pages.length level (rank blk) frames)
    (hlocks : ∀ f ∈ frames, (f.blkno, LockMode.exclusive) ∈ act.locked) :
    Advances rank pages act rank' pages' (.descent itup box root level (.returning res frames)) := by
  refine .rewrite h hown ?_ fun x hx => ?_
  · have heq : ∀ f ∈ frames, rank' f.blkno = rank f.blkno := fun f hmem => h.same _ (hframes.each f hmem).block
    refine ⟨⟨hroot.1.mono h.length_le, Nat.le_trans (h.lowers _ hroot.1) hroot.2⟩, rank blk,
      hframes.mono h.lowers h.length_le heq (Nat.le_refl _), fun right hr => ?_⟩
    obtain ⟨hblock, hrank⟩ := h.right right hr
    exact ⟨hblock, Nat.le_of_eq hrank⟩
  · obtain ⟨f, hmem, rfl⟩ := List.mem_map.mp hx
    exact Or.inl (hlocks f hmem)

theorem enterLeaf_ends (h : Ranked rank s.pages)
    (ha : (Activity.descent itup box root level (.entering blk l frames)).Ranked rank s.pages.length
      (metaAt s.pages).root)
    (hleaf : (pageAt s.pages blk).special.flags.leaf = true) :
    DescentEnds rank s.pages (.descent itup box root level (.entering blk l frames)) itup box root level
      ((insertAtLeaf env blk itup box >>= fun res => pure (.returning res frames)) s) := by
  obtain ⟨hroot, hb, -, hf⟩ := ha
  have hown : (Activity.descent itup box root level (.entering blk l frames)).Owns blk := Or.inr rfl
  refine Ends.bind ((insertAtLeaf_rewrites h hb hleaf).mono (fun _ _ hrw => hrw) fun s' hrw => ?_) fun res s' hrw => ?_
  · obtain ⟨rank', hrw⟩ := hrw
    exact ⟨rank', .rewrite_idle hrw hown⟩
  · obtain ⟨rank', hrw⟩ := hrw
    exact ⟨rank', hrw.returning hown hroot hf fun f hmem => List.mem_map.mpr ⟨f, hmem, rfl⟩⟩

/-- A call of `rtree_insert_page` locks its page and does its work, or goes on to a child of smaller rank. -/
theorem insertEnter_ends (h : Ranked rank s.pages)
    (ha : (Activity.descent itup box root level (.entering blk l frames)).Ranked rank s.pages.length
      (metaAt s.pages).root) :
    DescentEnds rank s.pages (.descent itup box root level (.entering blk l frames)) itup box root level
      (insertEnter env itup box blk l frames s) := by
  obtain ⟨hroot, hb, hbl, hf⟩ := ha
  have hpage := h.page blk hb
  rw [insertEnter, bind_of_ok (readBuffer_run_of_lt hb.2), bind_of_ok (lockBuffer_run _ _ _),
    bind_of_ok (bufferGetPage_run _ _)]
  cases l with
  | zero =>
      -- the level says leaf, and the page is one: an inner page has a positive rank
      refine enterLeaf_ends (s := { s with trace := s.trace ++ [Event.lock blk .exclusive] }) h
        ⟨hroot, hb, hbl, hf⟩ ?_
      by_contra hinner
      exact Nat.lt_irrefl 0 (Nat.lt_of_lt_of_le (hpage.pos (by simpa using hinner)) hbl)
  | succ l =>
      dsimp only
      split
      · next hleaf =>
        exact enterLeaf_ends (s := { s with trace := s.trace ++ [Event.lock blk .exclusive] }) h
          ⟨hroot, hb, hbl, hf⟩ hleaf
      · next hinner =>
        have hinner : (pageAt s.pages blk).special.flags.leaf = false := by simpa using hinner
        split
        · exact ⟨rank, .idle h⟩
        · next hvalid =>
          cases hpos : (pageAt s.pages blk).items.findIdx?
              (fun t => t.tTid.blkno = chooseSubtreeInsert (pageAt s.pages blk) box) with
          | none => exact ⟨rank, .idle h⟩
          | some pos =>
            obtain ⟨childitup, hchild⟩ := choosesChild_of_findIdx hinner hvalid hpos
            obtain ⟨hblock, hlt⟩ := hpage.below hinner childitup (List.mem_of_getElem? hchild.item)
            rw [hchild.blkno] at hblock hlt
            refine ⟨rank, .keep h ⟨hroot, hblock, ?_, ?_⟩ fun x hx => ?_⟩
            · exact Nat.le_of_lt_succ (Nat.lt_of_lt_of_le hlt hbl)
            · refine ⟨Nat.le_trans (Nat.le_of_lt hlt) hf.bound_le, ?_, ?_, ?_⟩
              · intro f hmem
                rcases List.mem_cons.mp hmem with rfl | hmem
                · exact ⟨hlt, hf.bound_le⟩
                · exact ⟨Nat.lt_trans hlt (hf.above f hmem).1, (hf.above f hmem).2⟩
              · exact List.pairwise_cons.mpr ⟨fun f hmem => (hf.above f hmem).1, hf.sorted⟩
              · intro f hmem
                rcases List.mem_cons.mp hmem with rfl | hmem
                · refine ⟨hb, hbl, Nat.succ_pos _, ?_, ?_⟩
                  · simpa [hchild.item, hchild.blkno] using hblock
                  · simpa [hchild.item, hchild.blkno] using hlt
                · exact hf.each f hmem
            · obtain ⟨f, hmem, rfl⟩ := List.mem_map.mp hx
              rcases List.mem_cons.mp hmem with rfl | hmem
              · exact Or.inr rfl
              · exact Or.inl (List.mem_map.mpr ⟨f, hmem, rfl⟩)

/-- The innermost call refreshes its downlinks and returns. -/
theorem insertLeave_ends (h : Ranked rank s.pages)
    (ha : (Activity.descent itup box root level (.returning res (top :: below))).Ranked rank s.pages.length
      (metaAt s.pages).root) :
    DescentEnds rank s.pages (.descent itup box root level (.returning res (top :: below))) itup box root level
      (insertLeave env res top below s) := by
  obtain ⟨hroot, bound, hf, hright⟩ := ha
  have htop := hf.each top List.mem_cons_self
  obtain ⟨habove, hle⟩ := hf.above top List.mem_cons_self
  have hown : (Activity.descent itup box root level (.returning res (top :: below))).Owns top.blkno :=
    Or.inl (List.mem_map.mpr ⟨top, List.mem_cons_self, rfl⟩)
  have hbelow : FramesRanked rank s.pages.length level (rank top.blkno) below := by
    refine ⟨hle, fun f hmem => ?_, (List.pairwise_cons.mp hf.sorted).2, fun f hmem => ?_⟩
    · exact ⟨(List.pairwise_cons.mp hf.sorted).1 f hmem, (hf.above f (List.mem_cons_of_mem _ hmem)).2⟩
    · exact hf.each f (List.mem_cons_of_mem _ hmem)
  have hrun : Ends _ _ (updateDownlinks env top.blkno top.level top.bestoff top.tid res s) :=
    updateDownlinks_rewrites h htop.block htop.level htop.offset htop.tid htop.below fun right hr =>
      ⟨(hright right hr).1, Nat.lt_of_le_of_lt (hright right hr).2 habove⟩
  refine Ends.bind (hrun.mono (fun _ _ hrw => hrw) fun s' hrw => ?_) fun res' s' hrw => ?_
  · obtain ⟨rank', hrw⟩ := hrw
    exact ⟨rank', .rewrite_idle hrw hown⟩
  · obtain ⟨rank', hrw⟩ := hrw
    exact ⟨rank', hrw.returning hown hroot hbelow fun f hmem =>
      List.mem_map.mpr ⟨f, List.mem_cons_of_mem _ hmem, rfl⟩⟩

end Descent

/-! ### A new root -/

/-- The rank of a new root is its level. -/
theorem promotedRoot_ranked {n level : Nat} {leftblk : BlockNumber} (leftBox : RTreeTemporalBox) {right : SplitRight}
    (hleft : DataBlock n leftblk ∧ rank leftblk ≤ level)
    (hright : DataBlock n right.rightBlkno ∧ rank right.rightBlkno ≤ level) :
    PageRanked rank n (level + 1) (promotedRoot leftblk leftBox right level).1 := by
  obtain ⟨hok, hkids, -⟩ := promotedRoot_spec leftblk leftBox right level
  refine ⟨Nat.le_of_eq hok.level_eq.symm, fun _ => Nat.succ_pos _, fun _ t ht => ?_⟩
  have hmem : t.tTid.blkno ∈ [leftblk, right.rightBlkno] := hkids ▸ List.mem_map.mpr ⟨t, ht, rfl⟩
  show DataBlock n t.tTid.blkno ∧ rank t.tTid.blkno < level + 1
  rcases List.mem_pair.mp hmem with heq | heq
  · rw [heq]
    exact ⟨hleft.1, Nat.lt_succ_of_le hleft.2⟩
  · rw [heq]
    exact ⟨hright.1, Nat.lt_succ_of_le hright.2⟩

theorem promote_step {root : BlockNumber} {level : Nat} {leftBox : RTreeTemporalBox} {right : SplitRight}
    (h : Ranked rank s.pages)
    (ha : (Activity.promote root level leftBox right).Ranked rank s.pages.length (metaAt s.pages).root) :
    StepEnds rank s.pages (.promote root level leftBox right)
      ((Activity.promote root level leftBox right).advance env s) := by
  obtain ⟨hroot, hright⟩ := ha
  have hpos : 0 < s.pages.length := Nat.lt_trans hroot.1.1 hroot.1.2
  rw [Activity.advance]
  by_cases hext : canExtend env s.pages.length
  · rw [bind_of_ok (rtreeRootPromote_run_of_can hroot.1.2 hext)]
    have hclear : PageRanked rank s.pages.length (rank root) (clearRootFlag (pageAt s.pages root)) :=
      ⟨(h.page root hroot.1).level, (h.page root hroot.1).pos, (h.page root hroot.1).below⟩
    have hlen : (s.pages.set root (.data (clearRootFlag (pageAt s.pages root)))).length = s.pages.length :=
      List.length_set
    have hranked := (h.set hroot.1 hclear).append (hlen.symm ▸ promotedRoot_ranked leftBox hroot hright)
    rw [hlen] at hranked
    refine ⟨Function.update rank s.pages.length (level + 1), hranked, ?_, ?_, lowers_update_length, ?_, ?_, ?_⟩
    · refine ⟨⟨hpos, by simp [promotedPages]⟩, ?_⟩
      rw [Function.update_self]
    · simp [promotedPages]
    · exact fun b hb _ => Function.update_of_ne (Nat.ne_of_lt hb.2) _ _
    · intro b hb hnot
      have hne : root ≠ b := fun heq => hnot (Or.inr (heq ▸ rfl))
      rw [promotedPages, List.getElem?_append_left (by simpa using hb), List.getElem?_set_ne hne]
    · exact fun l hl => absurd hl List.not_mem_nil
  · rw [bind_of_error (rtreeRootPromote_run_of_cannot hroot.1.2 hext)]
    exact ⟨rank, .idle h⟩

theorem metaWrite_step {root : BlockNumber} {level : Nat} (h : Ranked rank s.pages)
    (ha : (Activity.metaWrite root level).Ranked rank s.pages.length (metaAt s.pages).root) :
    StepEnds rank s.pages (.metaWrite root level) ((Activity.metaWrite root level).advance env s) := by
  rw [Activity.advance, bind_of_ok (writeMetaRoot_run (Nat.lt_trans h.root.1 h.root.2))]
  refine ⟨rank, h.setMeta ha.1 ha.2, True.intro, Nat.le_of_eq List.length_set.symm, fun _ _ => Nat.le_refl _,
    fun _ _ _ => rfl, ?_, fun l hl => absurd hl List.not_mem_nil⟩
  intro b hb hnot
  have hne : 0 ≠ b := fun heq => hnot (Or.inr (heq ▸ rfl))
  exact List.getElem?_set_ne hne

/-! ### The walk of a bulk deletion -/

theorem deleteMeta_step {callback : IndexBulkDeleteCallback} {stats : Option IndexBulkDeleteResult}
    (h : Ranked rank s.pages) :
    StepEnds rank s.pages (.deleteMeta callback stats) ((Activity.deleteMeta callback stats).advance env s) := by
  have hpos : 0 < s.pages.length := Nat.lt_trans h.root.1 h.root.2
  rw [Activity.advance, bind_of_ok (get_apply s)]
  by_cases hblocks : s.pages.length < 2
  · rw [if_pos hblocks]
    exact ⟨rank, .idle h⟩
  · rw [if_neg hblocks, bind_of_ok (readMeta_run hpos)]
    split
    · exact ⟨rank, .idle h⟩
    · split
      · exact ⟨rank, .idle h⟩
      · exact ⟨rank, .keep h h.root fun l hl => absurd hl List.not_mem_nil⟩

section Walk
variable {callback : IndexBulkDeleteCallback} {root : BlockNumber} {level n : Nat} {frames : List VacuumFrame}
  {stats : IndexBulkDeleteResult}

theorem VacuumFrame.receive_blkno (f : VacuumFrame) (res : Option RTreeTemporalBox × IndexBulkDeleteResult) :
    (f.receive res).blkno = f.blkno := by
  unfold VacuumFrame.receive
  split
  · rfl
  · dsimp only
    split <;> rfl

/-- The downlink of a child that is left leads where the old one led. -/
theorem VacuumFrame.Ranked.receive {f : VacuumFrame} (h : f.Ranked rank n)
    (res : Option RTreeTemporalBox × IndexBulkDeleteResult) : (f.receive res).Ranked rank n := by
  unfold VacuumFrame.receive
  split
  · exact h
  · next itup rest htodo =>
    have hrest : ∀ t ∈ rest, Below rank n (rank f.blkno) t := fun t ht =>
      h.todo t (htodo ▸ List.mem_cons_of_mem _ ht)
    dsimp only
    split
    · exact ⟨h.block, h.page, h.inner, hrest, h.kept⟩
    · refine ⟨h.block, h.page, h.inner, hrest, fun t ht => ?_⟩
      rcases List.mem_append.mp ht with ht | ht
      · exact h.kept t ht
      · obtain rfl := List.mem_singleton.mp ht
        exact h.todo itup (htodo ▸ List.mem_cons_self)

/-- The active calls of a walk from `root`, the innermost first. -/
structure WalkRanked (rank : BlockNumber → Nat) (n : Nat) (root : BlockNumber) (frames : List VacuumFrame) : Prop where
  root : DataBlock n root
  sorted : frames.Pairwise fun f g => rank f.blkno < rank g.blkno
  each : ∀ f ∈ frames, f.Ranked rank n

/-- A call returns to the one around it, or the walk is done. -/
theorem WalkRanked.deliver {metaRoot : BlockNumber} (h : WalkRanked rank n root frames)
    (res : Option RTreeTemporalBox × IndexBulkDeleteResult) :
    (Activity.ofWalk callback root level (.deliver frames res)).Ranked rank n metaRoot := by
  cases frames with
  | nil => exact h.root
  | cons f below =>
      refine ⟨h.root, ?_, ?_⟩
      · refine List.pairwise_cons.mpr ⟨fun g hg => ?_, (List.pairwise_cons.mp h.sorted).2⟩
        rw [VacuumFrame.receive_blkno]
        exact (List.pairwise_cons.mp h.sorted).1 g hg
      · intro g hg
        rcases List.mem_cons.mp hg with rfl | hg
        · exact (h.each f List.mem_cons_self).receive res
        · exact h.each g (List.mem_cons_of_mem _ hg)

theorem locked_deliver (res : Option RTreeTemporalBox × IndexBulkDeleteResult) :
    (Activity.ofWalk callback root level (.deliver frames res)).locked =
      frames.map fun f => (f.blkno, LockMode.exclusive) := by
  cases frames with
  | nil => rfl
  | cons f below =>
      show ((f.receive res).blkno, LockMode.exclusive) :: _ = _
      rw [VacuumFrame.receive_blkno]
      rfl

/-- The state of a walk after a step from `act`. -/
abbrev WalkEnds (rank : BlockNumber → Nat) (pages : List Page) (act : Activity) (callback : IndexBulkDeleteCallback)
    (root : BlockNumber) (level : Nat) : Result RTreeError Rel WalkState → Prop :=
  Ends (fun state s' => ∃ rank', Advances rank pages act rank' s'.pages (.ofWalk callback root level state))
    (fun s' => ∃ rank', Advances rank pages act rank' s'.pages .idle)

/-- A rebuilt page is released, and its call returns. -/
theorem rebuild_ends {page : DataPage} {kept : VacuumItems} (h : Ranked rank s.pages)
    (hblk : DataBlock s.pages.length blk) (hpage : PageRanked rank s.pages.length (rank blk) page)
    (hkept : page.special.flags.leaf = false → ∀ t ∈ kept.tuples, Below rank s.pages.length (rank blk) t)
    (hframes : WalkRanked rank s.pages.length root frames) (hown : act.Owns blk)
    (hlocks : ∀ f ∈ frames, (f.blkno, LockMode.exclusive) ∈ act.locked) :
    WalkEnds rank s.pages act callback root level
      ((rebuildPage env blk page kept >>= fun res => pure (.deliver frames res)) s) := by
  refine Ends.bind ((rebuildPage_rewrites h hblk hpage hkept).mono (fun _ _ hrw => hrw) fun s' hrw => ?_)
    fun res s' hrw => ?_
  · exact ⟨rank, .rewrite_idle hrw hown⟩
  · refine ⟨rank, .rewrite hrw hown (WalkRanked.deliver ⟨?_, hframes.sorted, fun f hf => ?_⟩ res) fun l hl => ?_⟩
    · exact hframes.root.mono hrw.length_le
    · exact (hframes.each f hf).mono (fun _ _ => Nat.le_refl _) hrw.length_le rfl
    · rw [locked_deliver] at hl
      obtain ⟨f, hf, rfl⟩ := List.mem_map.mp hl
      exact Or.inl (hlocks f hf)

/-- A call of `rtree_vacuum_page` locks its page and rebuilds it, or goes on to the children. -/
theorem vacuumEnter_ends (h : Ranked rank s.pages) (hblk : DataBlock s.pages.length blk)
    (hwants : act.wants = some (blk, .exclusive)) (hframes : WalkRanked rank s.pages.length root frames)
    (hbelow : ∀ f ∈ frames, rank blk < rank f.blkno)
    (hlocks : ∀ f ∈ frames, (f.blkno, LockMode.exclusive) ∈ act.locked) :
    WalkEnds rank s.pages act callback root level (vacuumEnter env callback blk stats frames s) := by
  have hpage := h.page blk hblk
  rw [vacuumEnter, bind_of_ok (readBuffer_run_of_lt hblk.2), bind_of_ok (lockBuffer_run _ _ _),
    bind_of_ok (bufferGetPage_run _ _)]
  dsimp only
  split
  · next hleaf =>
    exact rebuild_ends (s := { s with trace := s.trace ++ [Event.lock blk .exclusive] }) h hblk hpage
      (fun hf => absurd (hf.symm.trans hleaf) (by simp)) hframes (Or.inr hwants) hlocks
  · next hinner =>
    have hinner : (pageAt s.pages blk).special.flags.leaf = false := by simpa using hinner
    refine ⟨rank, .keep h ⟨hframes.root, ?_, ?_⟩ fun l hl => ?_⟩
    · exact List.pairwise_cons.mpr ⟨hbelow, hframes.sorted⟩
    · intro f hf
      rcases List.mem_cons.mp hf with rfl | hf
      · exact ⟨hblk, hpage, hinner, hpage.below hinner, fun t ht => absurd ht List.not_mem_nil⟩
      · exact hframes.each f hf
    · obtain ⟨f, hf, rfl⟩ := List.mem_map.mp hl
      rcases List.mem_cons.mp hf with rfl | hf
      · exact Or.inr hwants
      · exact Or.inl (hlocks f hf)

theorem vacuumAdvance_ends {top : VacuumFrame} {below : List VacuumFrame} (h : Ranked rank s.pages)
    (ha : (Activity.walking callback root level top below).Ranked rank s.pages.length (metaAt s.pages).root) :
    WalkEnds rank s.pages (.walking callback root level top below) callback root level
      (vacuumAdvance env callback top below s) := by
  obtain ⟨hroot, hsorted, heach⟩ := ha
  have htop := heach top List.mem_cons_self
  have hlocks : ∀ f ∈ top :: below, (f.blkno, LockMode.exclusive) ∈
      (Activity.walking callback root level top below).locked := fun f hf => List.mem_map.mpr ⟨f, hf, rfl⟩
  unfold vacuumAdvance
  cases htodo : top.todo with
  | cons itup rest =>
    -- into the next child
    obtain ⟨hblock, hlt⟩ := htop.todo itup (htodo ▸ List.mem_cons_self)
    have hwants : (Activity.walking callback root level top below).wants = some (itup.tTid.blkno, .exclusive) := by
      simp [Activity.wants, VacuumFrame.nextBlock, htodo]
    refine vacuumEnter_ends h hblock hwants ⟨hroot, hsorted, heach⟩ (fun f hf => ?_) hlocks
    rcases List.mem_cons.mp hf with rfl | hf
    · exact hlt
    · exact Nat.lt_trans hlt ((List.pairwise_cons.mp hsorted).1 f hf)
  | nil =>
    -- all children are done
    refine rebuild_ends h htop.block htop.page (fun _ => htop.kept) ⟨hroot, (List.pairwise_cons.mp hsorted).2, ?_⟩
      (Or.inl (hlocks top List.mem_cons_self)) fun f hf => hlocks f (List.mem_cons_of_mem _ hf)
    exact fun f hf => heach f (List.mem_cons_of_mem _ hf)

end Walk

/-! ### The root swallows its only child -/

section Shrink
variable {root child : BlockNumber} {level : Nat}

theorem onlyChild_eq_some {page : DataPage} (h : onlyChild page level = some child) :
    page.special.flags.leaf = false ∧ ∃ t ∈ page.items, t.tTid.blkno = child := by
  unfold onlyChild at h
  by_cases hinner : page.special.flags.leaf = true ∨ level = 0
  · rw [if_pos hinner] at h
    exact absurd h (by simp)
  · rw [if_neg hinner] at h
    refine ⟨Bool.eq_false_iff.mpr fun hleaf => hinner (Or.inl hleaf), ?_⟩
    split at h
    · next t hitems => exact ⟨t, hitems ▸ List.mem_singleton_self t, Option.some.inj h⟩
    · exact absurd h (by simp)

/-- With the downlinks in range `rtree_vacuum_shrink_root` raises no error. -/
theorem shrinkLockedRoot_completes (h : Ranked rank s.pages) (hroot : DataBlock s.pages.length root)
    (hmeta : (metaAt s.pages).root = root) :
    ∃ b s', shrinkLockedRoot env root level s = .ok b s' ∧ RootShrinks s.pages root level s'.pages := by
  have h0 : root ≠ 0 := Nat.pos_iff_ne_zero.mp hroot.1
  have hruns : ∃ b s', shrinkLockedRoot env root level s = .ok b s' := by
    by_cases hinner : (pageAt s.pages root).special.flags.leaf = true ∨ level = 0
    · exact ⟨_, _, shrinkLockedRoot_run_leaf hinner⟩
    · have hleaf : (pageAt s.pages root).special.flags.leaf = false :=
        Bool.eq_false_iff.mpr fun hleaf => hinner (Or.inl hleaf)
      cases hitems : (pageAt s.pages root).items with
      | nil => exact ⟨_, _, shrinkLockedRoot_run_empty hinner hmeta h0 hitems⟩
      | cons t rest =>
          have ht : t ∈ (pageAt s.pages root).items := hitems ▸ List.mem_cons_self
          cases rest with
          | nil =>
              exact ⟨_, _, shrinkLockedRoot_run_single hinner hmeta h0 hitems
                ((h.page root hroot).below hleaf t ht).1.2⟩
          | cons u rest => exact ⟨_, _, shrinkLockedRoot_run_many hinner (by simp [hitems])⟩
  obtain ⟨b, s', hrun⟩ := hruns
  exact ⟨b, s', hrun, shrinkLockedRoot_eq_ok hrun hmeta h0⟩

/-- The root page and the meta page are rewritten, and the rank of the root falls to `r`. -/
theorem Advances.shrink {r : Nat} {p : DataPage} (h : Ranked rank pages) (hroot : DataBlock pages.length root)
    (hr : r ≤ rank root) (hp : PageRanked rank pages.length r p) (hlevel : r ≤ level) (hown : act.Owns root)
    (hmeta : act.Owns 0) :
    Advances rank pages act (Function.update rank root r) (metaPages (pages.set root (.data p)) root level) .idle := by
  have hlower := h.lower hroot hr hp
  have hlen : (pages.set root (Page.data p)).length = pages.length := List.length_set
  refine ⟨hlower.setMeta (hlen.symm ▸ hroot) ?_, True.intro, ?_, ?_, ?_, ?_, ?_⟩
  · show Function.update rank root r root ≤ level
    rw [Function.update_self]
    exact hlevel
  · rw [metaPages, List.length_set, hlen]
  · intro b _
    by_cases hb : b = root
    · rw [hb, Function.update_self]
      exact hr
    · rw [Function.update_of_ne hb]
  · intro b _ hnot
    have hbr : b ≠ root := fun hb => hnot (hb ▸ hown)
    exact Function.update_of_ne hbr _ _
  · intro b _ hnot
    have hb0 : 0 ≠ b := fun hb => hnot (hb ▸ hmeta)
    have hbr : root ≠ b := fun hb => hnot (hb ▸ hown)
    rw [metaPages, List.getElem?_set_ne hb0, List.getElem?_set_ne hbr]
  · exact fun l hl => absurd hl List.not_mem_nil

/-- However the root is shrunk, its rank falls and no other changes. -/
theorem RootShrinks.advances (hs : RootShrinks pages root level pages') (h : Ranked rank pages)
    (hroot : DataBlock pages.length root) (hown : act.Owns root) (hmeta : act.Owns 0) :
    ∃ rank', Advances rank pages act rank' pages' .idle := by
  cases hs with
  | stay => exact ⟨rank, .idle h⟩
  | emptied _ _ _ =>
      refine ⟨_, .shrink h hroot (Nat.zero_le _) ⟨Nat.zero_le _, ?_, ?_⟩ (Nat.zero_le _) hown hmeta⟩
      · exact fun hleaf => absurd hleaf (by simp [rtreeInitDatapage])
      · exact fun hleaf => absurd hleaf (by simp [rtreeInitDatapage])
  | @collapsed t _ hinner hitems _ =>
      have hleaf : (pageAt pages root).special.flags.leaf = false :=
        Bool.eq_false_iff.mpr fun hleaf => hinner (Or.inl hleaf)
      obtain ⟨hblock, hlt⟩ := (h.page root hroot).below hleaf t (hitems ▸ List.mem_singleton_self t)
      have hchild := h.page _ hblock
      exact ⟨_, .shrink h hroot (Nat.le_of_lt hlt) ⟨hchild.level, hchild.pos, hchild.below⟩ hchild.level hown hmeta⟩

theorem finishShrink_step (h : Ranked rank s.pages) (hroot : DataBlock s.pages.length root)
    (hmetaroot : (metaAt s.pages).root = root) (hown : act.Owns root) (hmeta : act.Owns 0) :
    StepEnds rank s.pages act ((finishShrink env root level >>= fun _ => pure Activity.idle) s) := by
  obtain ⟨b, s', hrun, hshrinks⟩ := shrinkLockedRoot_completes h hroot hmetaroot
  have hfinish : finishShrink env root level s =
      .ok () { s' with trace := s'.trace ++ [Event.unlock root] ++ [Event.unlock 0] } := by
    rw [finishShrink, bind_of_ok hrun, bind_of_ok (unlockBuffer_run _ _), unlockBuffer_run]
  rw [bind_of_ok hfinish]
  exact hshrinks.advances h hroot hown hmeta

theorem shrinkMeta_step (h : Ranked rank s.pages)
    (ha : (Activity.shrinkMeta root level).Ranked rank s.pages.length (metaAt s.pages).root) :
    StepEnds rank s.pages (.shrinkMeta root level) ((Activity.shrinkMeta root level).advance env s) := by
  rw [Activity.advance, bind_of_ok (readBuffer_run_of_lt (Nat.lt_trans h.root.1 h.root.2)),
    bind_of_ok (lockBuffer_run _ _ _), bind_of_ok (get_apply _)]
  by_cases hmoved : (metaAt s.pages).magic ≠ trtreeMetaMagic ∨ (metaAt s.pages).root ≠ root
  · rw [if_pos hmoved, bind_of_ok (unlockBuffer_run _ _)]
    exact ⟨rank, .idle h⟩
  · rw [if_neg hmoved]
    obtain ⟨-, hroot⟩ := not_or.mp hmoved
    refine ⟨rank, .keep h ⟨ha, not_not.mp hroot⟩ fun l hl => ?_⟩
    obtain rfl := List.mem_singleton.mp hl
    exact Or.inr rfl

theorem shrinkRoot_step (h : Ranked rank s.pages)
    (ha : (Activity.shrinkRoot root level).Ranked rank s.pages.length (metaAt s.pages).root) :
    StepEnds rank s.pages (.shrinkRoot root level) ((Activity.shrinkRoot root level).advance env s) := by
  obtain ⟨hroot, hmeta⟩ := ha
  rw [Activity.advance, bind_of_ok (readBuffer_run_of_lt hroot.2), bind_of_ok (lockBuffer_run _ _ _),
    bind_of_ok (bufferGetPage_run _ _)]
  cases hchild : onlyChild (pageAt s.pages root) level with
  | none =>
      exact finishShrink_step (s := { s with trace := s.trace ++ [Event.lock root .exclusive] }) h hroot hmeta
        (Or.inr rfl) (Or.inl (List.mem_singleton_self _))
  | some child =>
      obtain ⟨hleaf, t, ht, rfl⟩ := onlyChild_eq_some hchild
      refine ⟨rank, .keep h ⟨⟨hroot, hmeta⟩, (h.page root hroot).below hleaf t ht⟩ fun l hl => ?_⟩
      rcases List.mem_pair.mp hl with rfl | rfl
      · exact Or.inr rfl
      · exact Or.inl (List.mem_singleton_self _)

theorem shrinkChild_step (h : Ranked rank s.pages)
    (ha : (Activity.shrinkChild root level child).Ranked rank s.pages.length (metaAt s.pages).root) :
    StepEnds rank s.pages (.shrinkChild root level child) ((Activity.shrinkChild root level child).advance env s) := by
  obtain ⟨⟨hroot, hmeta⟩, -⟩ := ha
  rw [Activity.advance]
  exact finishShrink_step h hroot hmeta (Or.inl List.mem_cons_self)
    (Or.inl (List.mem_cons_of_mem _ (List.mem_singleton_self _)))

end Shrink

/-! ### Scans -/

section Scans
variable {scan : IndexScanDesc}

theorem temporalRtreeEndscan_run (scan : IndexScanDesc) (s : Rel) :
    ∃ evs, temporalRtreeEndscan scan s = .ok () { s with trace := s.trace ++ evs } := by
  obtain ⟨evs, hrel⟩ := rtreeReleaseCurrentPage_run (s := s) scan.so
  exact ⟨evs, by rw [temporalRtreeEndscan, bind_of_ok hrel, pure_apply]⟩

theorem standOnFrame_run_of_not_lt (so : RTreeScanOpaqueData) {b : BlockNumber} (hb : ¬ b < s.pages.length)
    (hcur : so.curBuf ≠ some b) :
    ∃ evs, standOnFrame so b s = .error .couldNotReadBlock { s with trace := s.trace ++ evs } := by
  obtain ⟨evs, hrel⟩ := rtreeReleaseCurrentPage_run (s := s) so
  refine ⟨evs, ?_⟩
  rw [standOnFrame, if_neg hcur, bind_of_ok hrel, manager_readBuffer, bind_of_error (readBuffer_run_of_not_lt hb)]

/-- A step of a scan to a scan that stands where the step went, or on no page. -/
theorem Advances.scanning {scan' : IndexScanDesc} (h : Ranked rank pages)
    (hbuf : ∀ b ∈ scan'.so.curBuf, (b, LockMode.share) ∈ act.locked ∨ act.wants = some (b, .share))
    (htop : StandsOnTop pages.length scan') : Advances rank pages act rank pages (.scanning scan') := by
  refine .keep h htop fun l hl => ?_
  obtain ⟨b, hb, rfl⟩ := List.mem_map.mp hl
  exact hbuf b (Option.mem_toList.mp hb)

/-- A scan that ends gives up its page. -/
theorem endscan_step (h : Ranked rank s.pages) :
    StepEnds rank s.pages act ((temporalRtreeEndscan scan >>= fun _ => pure Activity.idle) s) := by
  obtain ⟨evs, hend⟩ := temporalRtreeEndscan_run scan s
  rw [bind_of_ok hend]
  exact ⟨rank, .idle h⟩

theorem rtreeInitializeScan_cases (scan : IndexScanDesc) (hpos : 0 < s.pages.length) :
    ∃ started scan' evs, rtreeInitializeScan scan s = .ok (started, scan') { s with trace := s.trace ++ evs } ∧
      (started = true → scan'.so.curBuf = none) := by
  rw [rtreeInitializeScan]
  cases hquery : rtreeEnsureQuery scan with
  | none =>
      refine ⟨false, scan, [], ?_, fun h => absurd h (by simp)⟩
      rw [List.append_nil]
      rfl
  | some scan' =>
      dsimp only
      rw [rtreeReadMeta_eq, bind_of_ok (readMeta_run hpos)]
      split
      · exact ⟨false, scan', _, rfl, fun h => absurd h (by simp)⟩
      · obtain ⟨evs, hrel⟩ := rtreeReleaseCurrentPage_run
          (s := { s with trace := s.trace ++ [Event.lock 0 .share, Event.unlock 0] }) { scan'.so with stack := [] }
        rw [bind_of_ok hrel, List.append_assoc]
        split
        · exact ⟨false, _, _, rfl, fun h => absurd h (by simp)⟩
        · exact ⟨true, _, _, rfl, fun _ => rfl⟩

/-- A turn of a scan leaves it on the page of its frame, or on none. -/
theorem turnOutcome_stands {n : Nat} {frame : RTreeScanFrameData} (below : List RTreeScanFrameData) (hit : OffsetHit)
    (hlt : frame.blkno < n) (hfirst : scan.so.firstCall = false) :
    StandsOnTop n (turnOutcome scan frame below hit).2 ∧
      ∀ b ∈ (turnOutcome scan frame below hit).2.so.curBuf, b = frame.blkno := by
  cases hit with
  | returns offset itup =>
      refine ⟨fun b hb => ⟨?_, hfirst, hb⟩, fun b hb => (Option.some.inj hb).symm⟩
      rwa [← Option.some.inj hb]
  | descends offset childblk =>
      have hnone : ∀ b, b ∉ (turnOutcome scan frame below (.descends offset childblk)).2.so.curBuf := fun b => by
        simp [turnOutcome]
      exact ⟨fun b hb => absurd hb (hnone b), fun b hb => absurd hb (hnone b)⟩
  | exhausted =>
      have hnone : ∀ b, b ∉ (turnOutcome scan frame below .exhausted).2.so.curBuf := fun b => by simp [turnOutcome]
      exact ⟨fun b hb => absurd hb (hnone b), fun b hb => absurd hb (hnone b)⟩

/-- A scan changes no page, and stands on one page at most. -/
theorem scanning_step (h : Ranked rank s.pages) (ha : StandsOnTop s.pages.length scan) :
    StepEnds rank s.pages (.scanning scan) ((Activity.scanning scan).advance env s) := by
  have hpos : 0 < s.pages.length := Nat.lt_trans h.root.1 h.root.2
  rw [Activity.advance]
  by_cases hfirst : scan.so.firstCall = true
  · obtain ⟨started, scan', evs, hrun, hbuf⟩ := rtreeInitializeScan_cases scan hpos
    rw [if_pos hfirst, bind_of_ok hrun]
    cases started with
    | false => exact endscan_step (s := { s with trace := s.trace ++ evs }) h
    | true =>
        refine ⟨rank, .scanning h ?_ ?_⟩
        · exact fun b hb => absurd hb (by simp [hbuf rfl])
        · exact fun b hb => absurd hb (by simp [hbuf rfl])
  · rw [if_neg hfirst]
    cases hs : scan.so.stack with
    | nil =>
        have hrun : rtreeScanTurn scan s = .ok (.finished, scan) s := by simp [rtreeScanTurn, hs]
        rw [bind_of_ok hrun]
        exact endscan_step h
    | cons frame below =>
        by_cases hlt : frame.blkno < s.pages.length
        · obtain ⟨evs, hstand⟩ := standOnFrame_run scan.so hlt
          obtain ⟨evs', hrun⟩ := rtreeScanTurn_run hs hstand
          rw [bind_of_ok hrun]
          generalize scanOffsets frame.level scan.so.queryBox scan.so.strategy
            ((pageAt s.pages frame.blkno).items.drop (frame.nextOffset - 1)) frame.nextOffset = hit
          obtain ⟨hstands, hbuf⟩ := turnOutcome_stands below hit hlt (Bool.eq_false_iff.mpr hfirst)
          have hnext : Advances rank s.pages (.scanning scan) rank s.pages
              (.scanning (turnOutcome scan frame below hit).2) := by
            refine .scanning h (fun b hb => ?_) hstands
            rw [hbuf b hb]
            by_cases hcur : scan.so.curBuf = some frame.blkno
            · exact Or.inl (by simp [Activity.locked, hcur])
            · exact Or.inr (by simp [Activity.wants, scanWants, hfirst, hs, hcur])
          cases hit with
          | returns offset itup => exact ⟨rank, hnext⟩
          | descends offset childblk => exact ⟨rank, hnext⟩
          | exhausted => exact ⟨rank, hnext⟩
        · -- a scan may come to a block that there is not, but has it not locked
          obtain ⟨evs, hstand⟩ := standOnFrame_run_of_not_lt scan.so hlt fun hcur => hlt (ha _ hcur).1
          have hrun : rtreeScanTurn scan s = .error .couldNotReadBlock { s with trace := s.trace ++ evs } := by
            rw [rtreeScanTurn, hs]
            exact bind_of_error hstand
          rw [bind_of_error hrun]
          exact ⟨rank, .idle h⟩

end Scans

/-- **One step of any call**: it keeps the ranks and what the session knows of them, and touches only what the session
    has locked. -/
theorem advance_ends (h : Ranked rank s.pages) (ha : act.Ranked rank s.pages.length (metaAt s.pages).root) :
    StepEnds rank s.pages act (act.advance env s) := by
  cases act with
  | idle => exact ⟨rank, .idle h⟩
  | insertMeta itup box => exact insertMeta_step h
  | descent itup box root level state =>
      cases state with
      | entering blkno l frames =>
          rw [Activity.advance]
          exact Ends.bind (insertEnter_ends h ha) fun state s' hstate => hstate
      | returning res frames =>
          cases frames with
          | cons top below =>
              rw [Activity.advance]
              exact Ends.bind (insertLeave_ends h ha) fun state s' hstate => hstate
          | nil =>
              obtain ⟨hroot, bound, hf, hright⟩ := ha
              rw [Activity.advance, Activity.afterDescent]
              cases hsplit : res.split with
              | none => exact ⟨rank, .idle h⟩
              | some right =>
                  obtain ⟨hblock, hle⟩ := hright right hsplit
                  refine ⟨rank, .keep h ⟨hroot, hblock, Nat.le_trans hle hf.bound_le⟩ ?_⟩
                  exact fun l hl => absurd hl List.not_mem_nil
  | promote root level leftBox right => exact promote_step h ha
  | metaWrite root level => exact metaWrite_step h ha
  | deleteMeta callback stats => exact deleteMeta_step h
  | walkRoot callback root level stats =>
      rw [Activity.advance]
      refine Ends.bind (vacuumEnter_ends h ha rfl ⟨ha, .nil, ?_⟩ ?_ ?_) fun state s' hstate => hstate
      · exact fun f hf => absurd hf List.not_mem_nil
      · exact fun f hf => absurd hf List.not_mem_nil
      · exact fun f hf => absurd hf List.not_mem_nil
  | walking callback root level top below =>
      rw [Activity.advance]
      exact Ends.bind (vacuumAdvance_ends h ha) fun state s' hstate => hstate
  | shrinkMeta root level => exact shrinkMeta_step h ha
  | shrinkRoot root level => exact shrinkRoot_step h ha
  | shrinkChild root level child => exact shrinkChild_step h ha
  | scanning scan => exact scanning_step h ha

end Advances

end TemporalRTree
