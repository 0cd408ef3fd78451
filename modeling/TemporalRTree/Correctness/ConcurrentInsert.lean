import TemporalRTree.Lib.Transition
import TemporalRTree.Model.Sessions
import TemporalRTree.Correctness.InsertRun
import TemporalRTree.Correctness.InsertForesight

/-!
# `Correctness.ConcurrentInsert` — inserts of several sessions beside each other

A root that was read may be an inner page of the tree by the time the descent starts at it: that is
harmless as long as the start block is not split, for the tree is then rewritten in place below its parent.
It is a split of the start block that goes wrong when another session has split the root meanwhile, whether
that split is in the meta page already or not: the new root is built over the two halves only.

`insertGuard` excludes exactly that. Under it the pages stay a forest that holds every tuple indexed so far
(`Shape`); its trees are the root, or, while one session is between its split and its write to the meta
page, the halves of the root or the root that session has promoted (`Pending`).
-/

namespace TemporalRTree
open EStateM Layout Transition

/-! ## What a step can do -/

/-- A step of `stepInsert`, in terms of the pages. -/
inductive InsertStep (env : Env) (w : InsertWorld) : InsertAction → InsertWorld → Prop where
  | read {i : Nat} {itup : IndexTuple} {box : RTreeTemporalBox} {evs : List Event}
      (hs : w.sessions[i]? = some .idle) (hbox : rtreeIndexTupleBox itup = some box) :
      InsertStep env w (.read i itup)
        { rel := { pages := w.rel.pages, trace := w.rel.trace ++ evs }
          sessions := w.sessions.set i
            (.located itup box (metaAt w.rel.pages).root (metaAt w.rel.pages).rootLevel)
          indexed := w.indexed }
  | insert {i : Nat} {itup : IndexTuple} {box : RTreeTemporalBox} {root : BlockNumber} {level : Nat}
      {res : RTreeInsertResult} {pages' : List Page} {evs : List Event}
      (hs : w.sessions[i]? = some (.located itup box root level))
      (hins : Inserts env itup box w.rel.pages root level res pages' evs) :
      InsertStep env w (.insert i)
        { rel := { pages := pages', trace := w.rel.trace ++ evs }
          sessions := w.sessions.set i (.afterDescent root level res)
          indexed := itup ::ₘ w.indexed }
  | promote {i : Nat} {root : BlockNumber} {level : Nat} {leftBox : RTreeTemporalBox} {right : SplitRight}
      {evs : List Event}
      (hs : w.sessions[i]? = some (.split root level leftBox right))
      (hext : canExtend env w.rel.pages.length) :
      InsertStep env w (.promote i)
        { rel := { pages := promotedPages w.rel.pages root leftBox right level, trace := w.rel.trace ++ evs }
          sessions := w.sessions.set i (.promoted w.rel.pages.length (level + 1))
          indexed := w.indexed }
  | writeMeta {i : Nat} {root : BlockNumber} {level : Nat} {evs : List Event}
      (hs : w.sessions[i]? = some (.promoted root level)) :
      InsertStep env w (.writeMeta i)
        { rel := { pages := metaPages w.rel.pages root level, trace := w.rel.trace ++ evs }
          sessions := w.sessions.set i .idle
          indexed := w.indexed }

/-- `rtree_root_promote` on a block that is not there fails. -/
theorem rtreeRootPromote_cases (env : Env) (s : Rel) (leftblk : BlockNumber) (leftBox : RTreeTemporalBox)
    (right : SplitRight) (oldLevel : Nat) :
    (∃ e s', rtreeRootPromote env leftblk leftBox right oldLevel s = .error e s') ∨
      (canExtend env s.pages.length ∧ rtreeRootPromote env leftblk leftBox right oldLevel s =
        .ok s.pages.length
          { pages := promotedPages s.pages leftblk leftBox right oldLevel
            trace := s.trace ++ promoteTrace s.pages leftblk leftBox right oldLevel }) := by
  by_cases hblk : leftblk < s.pages.length
  · by_cases hext : canExtend env s.pages.length
    · exact Or.inr ⟨hext, rtreeRootPromote_run_of_can hblk hext⟩
    · exact Or.inl ⟨_, _, rtreeRootPromote_run_of_cannot hblk hext⟩
  · refine Or.inl ⟨.couldNotReadBlock, s, ?_⟩
    rw [rtreeRootPromote, bind_of_error (readBuffer_run_of_not_lt hblk)]

/-- **Every step is one of these.** -/
theorem stepInsert_cases {env : Env} {w w' : InsertWorld} {act : InsertAction}
    (h : stepInsert env w act = some w') : InsertStep env w act w' := by
  cases act with
  | read i itup =>
      simp only [stepInsert] at h
      split at h
      · next hs hbox hmeta =>
        obtain rfl := Option.some.inj h
        rcases readMetaRoot_cases w.rel with ⟨-, hm⟩ | ⟨-, -, hm⟩ | ⟨-, -, hm⟩
        · simp [hm] at hmeta
        · simp [hm] at hmeta
        · rw [hm] at hmeta
          injection hmeta with hroot hrel
          subst hroot; subst hrel
          exact .read hs hbox
      · exact absurd h (by simp)
  | insert i =>
      simp only [stepInsert] at h
      split at h
      · next hs =>
        split at h
        · next res rel hrun =>
          obtain rfl := Option.some.inj h
          obtain ⟨evs, hins, htrace⟩ := rtreeInsertPage_inserts hrun
          obtain ⟨pages', trace⟩ := rel
          obtain rfl : trace = w.rel.trace ++ evs := htrace
          exact .insert hs hins
        · exact absurd h (by simp)
      · exact absurd h (by simp)
  | promote i =>
      simp only [stepInsert] at h
      split at h
      · next root level leftBox right hs =>
        rcases rtreeRootPromote_cases env w.rel root leftBox right level with ⟨e, s', hp⟩ | ⟨hext, hp⟩
        · simp [hp] at h
        · simp only [hp] at h
          obtain rfl := Option.some.inj h
          exact .promote hs hext
      · exact absurd h (by simp)
  | writeMeta i =>
      simp only [stepInsert] at h
      split at h
      · next root level hs =>
        by_cases hlen : 0 < w.rel.pages.length
        · simp only [writeMetaRoot_run hlen] at h
          obtain rfl := Option.some.inj h
          exact .writeMeta hs
        · simp only [writeMetaRoot, bind_of_error (readBuffer_run_of_not_lt hlen)] at h
          exact absurd h (by simp)
      · exact absurd h (by simp)

/-- A whole insert into an initialised index: a NULL key changes nothing, any other is stored. -/
theorem wholeInsert_cases {env : Env} {key : Option NDBOX} {htCtid : ItemPointerData} {rel : Rel}
    {inserted : Multiset IndexTuple} {res : Rel × Multiset IndexTuple} (hlen : 2 ≤ rel.pages.length)
    (h : wholeInsert env key htCtid rel inserted = some res) :
    res = (rel, inserted) ∨
      ∃ box evs, key.isSome = true ∧ key.map rtreeCubeToBox = some box ∧ res.1.trace = rel.trace ++ evs ∧
        InsertsTuple env { tTid := htCtid, key := key } box rel.pages res.1.pages evs ∧
        res.2 = { tTid := htCtid, key := key } ::ₘ inserted := by
  rw [wholeInsert] at h
  cases hrun : temporalRtreeInsert env key htCtid rel with
  | error e rel' => simp [hrun] at h
  | ok b rel' =>
      simp only [hrun, Option.some.injEq] at h
      subst h
      rcases temporalRtreeInsert_eq_ok hlen hrun with ⟨rfl, rfl⟩ | ⟨box, evs, hsome, hbox, htrace, hins⟩
      · exact Or.inl rfl
      · exact Or.inr ⟨box, evs, hsome, hbox, htrace, hins, if_pos hsome⟩

/-! ## The invariant -/

/-- Block `root` of the forest is tagged with the level a session remembers for it. -/
def Located (pages : List Page) (L : Nat) (tops : List BlockNumber) (root : BlockNumber) (level : Nat) : Prop :=
  root ∈ nodes.forestBlocks (pageAt pages) L tops ∧ (pageAt pages root).special.level = level

/-- The pages are a forest that holds every tuple indexed so far, and every root a session may start from
    is in it. -/
structure Shape (w : InsertWorld) (L : Nat) (tops : List BlockNumber) : Prop where
  magic : (metaAt w.rel.pages).magic = trtreeMetaMagic
  nblocks_le : w.rel.pages.length ≤ invalidBlockNumber
  forest : nodes.Forest NodeOk (pageAt w.rel.pages) L tops
  range : ∀ x ∈ nodes.forestBlocks (pageAt w.rel.pages) L tops, 0 < x ∧ x < w.rel.pages.length
  leaves : (nodes.forestLeaves (pageAt w.rel.pages) L tops : Multiset IndexTuple) = w.indexed
  root : Located w.rel.pages L tops (metaAt w.rel.pages).root (metaAt w.rel.pages).rootLevel
  sessions : ∀ itup box root level, InsertPhase.located itup box root level ∈ w.sessions →
    itup.key.isSome = true ∧ Located w.rel.pages L tops root level

/-- The trees of the forest, by the session that has a split pending. -/
inductive Pending (w : InsertWorld) : Nat → List BlockNumber → Prop where
  | none {root : BlockNumber} {level : Nat} (hroot : (metaAt w.rel.pages).root = root)
      (hlevel : (metaAt w.rel.pages).rootLevel = level) (hall : ∀ p ∈ w.sessions, p.pending = false) :
      Pending w level [root]
  | split {i : Nat} {root : BlockNumber} {level : Nat} {leftBox : RTreeTemporalBox} {right : SplitRight}
      (hroot : (metaAt w.rel.pages).root = root) (hlevel : (metaAt w.rel.pages).rootLevel = level)
      (hs : w.sessions[i]? = some (.split root level leftBox right))
      (hothers : ∀ j p, j ≠ i → w.sessions[j]? = some p → p.pending = false) :
      Pending w level [root, right.rightBlkno]
  | promoted {i : Nat} {root : BlockNumber} {level : Nat}
      (hlevel : (metaAt w.rel.pages).rootLevel = level)
      (hs : w.sessions[i]? = some (.promoted root (level + 1)))
      (hothers : ∀ j p, j ≠ i → w.sessions[j]? = some p → p.pending = false) :
      Pending w (level + 1) [root]

section Invariant
variable {env : Env} {w w' : InsertWorld} {L L' : Nat} {tops tops' : List BlockNumber}

theorem Located.mono {pages pages' : List Page} {root : BlockNumber} {level : Nat}
    (h : Located pages L tops root level)
    (hsub : nodes.forestBlocks (pageAt pages) L tops ⊆ nodes.forestBlocks (pageAt pages') L' tops')
    (hlevel : ∀ x ∈ nodes.forestBlocks (pageAt pages) L tops,
      (pageAt pages' x).special.level = (pageAt pages x).special.level) :
    Located pages' L' tops' root level :=
  ⟨hsub h.1, (hlevel root h.1).trans h.2⟩

/-- A top of the forest is tagged with the forest's level. -/
theorem Shape.located_top (h : Shape w L tops) {t : BlockNumber} (ht : t ∈ tops) :
    Located w.rel.pages L tops t L :=
  ⟨blocks_subset_forest ht self_mem_blocks, (h.forest.holds t ht).node.level_eq⟩

/-- Sessions in other phases do not matter for what is pending. -/
theorem Pending.set_quiet {i : Nat} {p q : InsertPhase} (h : Pending w L tops)
    (hp : w.sessions[i]? = some p) (hpq : p.pending = false) (hq : q.pending = false)
    (hmeta : metaAt w'.rel.pages = metaAt w.rel.pages) (hset : w'.sessions = w.sessions.set i q) :
    Pending w' L tops := by
  have hne : ∀ {k : Nat} {r : InsertPhase}, w.sessions[k]? = some r → r.pending = true → k ≠ i := by
    rintro k r hr hpend rfl
    rw [hp] at hr
    rw [← Option.some.inj hr, hpq] at hpend
    exact absurd hpend (by simp)
  have hkeep : ∀ {k : Nat} {r : InsertPhase}, w.sessions[k]? = some r → r.pending = true →
      w'.sessions[k]? = some r := fun hr hpend => by
    rw [hset, List.getElem?_set_ne (hne hr hpend).symm, hr]
  have hquiet : ∀ {k : Nat}, (∀ j r, j ≠ k → w.sessions[j]? = some r → r.pending = false) →
      ∀ j r, j ≠ k → w'.sessions[j]? = some r → r.pending = false := by
    intro k ho j r hj hr
    rw [hset, List.getElem?_set] at hr
    split at hr
    · split at hr
      · rw [← Option.some.inj hr]
        exact hq
      · exact absurd hr (by simp)
    · exact ho j r hj hr
  cases h with
  | none hroot hlevel hall =>
      refine .none (hmeta ▸ hroot) (hmeta ▸ hlevel) fun r hr => ?_
      rcases List.mem_or_eq_of_mem_set (hset ▸ hr) with hr | rfl
      · exact hall r hr
      · exact hq
  | split hroot hlevel hs ho => exact .split (hmeta ▸ hroot) (hmeta ▸ hlevel) (hkeep hs rfl) (hquiet ho)
  | promoted hlevel hs ho => exact .promoted (hmeta ▸ hlevel) (hkeep hs rfl) (hquiet ho)

theorem sessions_set_self {i : Nat} {p q : InsertPhase} (h : w.sessions[i]? = some p) :
    (w.sessions.set i q)[i]? = some q :=
  List.getElem?_set_self (List.getElem?_eq_some_iff.mp h).1

/-- Only one session can have a split pending. -/
theorem pending_unique {i k : Nat} {p q : InsertPhase} (hp : w.sessions[i]? = some p)
    (hq : w.sessions[k]? = some q) (hpend : p.pending = true)
    (hothers : ∀ j r, j ≠ k → w.sessions[j]? = some r → r.pending = false) : i = k ∧ p = q := by
  obtain rfl : i = k := by
    by_contra hne
    rw [hothers i p hne hp] at hpend
    exact absurd hpend (by simp)
  exact ⟨rfl, Option.some.inj (hp.symm.trans hq)⟩

/-- A session that has split the root owns the forest of its halves. -/
theorem Pending.of_split {i : Nat} {root : BlockNumber} {level : Nat} {leftBox : RTreeTemporalBox}
    {right : SplitRight} (h : Pending w L tops)
    (hs : w.sessions[i]? = some (.split root level leftBox right)) :
    L = level ∧ tops = [root, right.rightBlkno] ∧ (metaAt w.rel.pages).rootLevel = level ∧
      ∀ j p, j ≠ i → w.sessions[j]? = some p → p.pending = false := by
  cases h with
  | none _ _ hall => exact absurd (hall _ (List.mem_of_getElem? hs)) (by simp [InsertPhase.pending])
  | split _ hlevel hs' ho =>
      obtain ⟨rfl, he⟩ := pending_unique hs hs' rfl ho
      injection he with hroot hl _ hright
      subst hroot; subst hl; subst hright
      exact ⟨rfl, rfl, hlevel, ho⟩
  | promoted _ hs' ho => exact absurd (pending_unique hs hs' rfl ho).2 (by simp)

/-- A session that has promoted a root owns the forest of that root. -/
theorem Pending.of_promoted {i : Nat} {root : BlockNumber} {level : Nat} (h : Pending w L tops)
    (hs : w.sessions[i]? = some (.promoted root level)) :
    L = level ∧ tops = [root] ∧ ∀ j p, j ≠ i → w.sessions[j]? = some p → p.pending = false := by
  cases h with
  | none _ _ hall => exact absurd (hall _ (List.mem_of_getElem? hs)) (by simp [InsertPhase.pending])
  | split _ _ hs' ho => exact absurd (pending_unique hs hs' rfl ho).2 (by simp)
  | promoted _ hs' ho =>
      obtain ⟨rfl, he⟩ := pending_unique hs hs' rfl ho
      injection he with hroot hlevel
      subst hroot; subst hlevel
      exact ⟨rfl, rfl, ho⟩

/-- Without a pending split the forest is the tree at the root. -/
theorem Pending.of_none (h : Pending w L tops) (hall : ∀ p ∈ w.sessions, p.pending = false) :
    L = (metaAt w.rel.pages).rootLevel ∧ tops = [(metaAt w.rel.pages).root] := by
  cases h with
  | none hroot hlevel => exact ⟨hlevel.symm, by rw [hroot]⟩
  | split _ _ hs => exact absurd (hall _ (List.mem_of_getElem? hs)) (by simp [InsertPhase.pending])
  | promoted _ hs => exact absurd (hall _ (List.mem_of_getElem? hs)) (by simp [InsertPhase.pending])

/-- The located sessions after session `i` went on to another phase. -/
theorem located_of_set {i : Nat} {p : InsertPhase} {itup : IndexTuple} {box : RTreeTemporalBox}
    {root : BlockNumber} {level : Nat} (hp : ∀ t b r l, p ≠ .located t b r l)
    (h : InsertPhase.located itup box root level ∈ w.sessions.set i p) :
    InsertPhase.located itup box root level ∈ w.sessions :=
  (List.mem_or_eq_of_mem_set h).resolve_right fun he => hp _ _ _ _ he.symm

theorem Shape.halloc (h : Shape w L tops) :
    ∀ x ∈ nodes.forestBlocks (pageAt w.rel.pages) L tops, x ∈ allocated w.rel.pages :=
  fun x hx => (h.range x hx).2

/-- A located root is the top of a tree of its level inside the forest. -/
theorem Shape.below (h : Shape w L tops) {root : BlockNumber} {level : Nat}
    (hloc : Located w.rel.pages L tops root level) :
    ∃ t ∈ tops, nodes.Below (pageAt w.rel.pages) level root L t ∧
      nodes.Forest NodeOk (pageAt w.rel.pages) level [root] ∧
      nodes.blocks (pageAt w.rel.pages) level root ⊆ nodes.forestBlocks (pageAt w.rel.pages) L tops := by
  obtain ⟨t, ht, hx⟩ := mem_forestBlocks.mp hloc.1
  obtain ⟨m, hbel⟩ := exists_below hx
  have hf := hbel.forest (h.forest.subperm (List.singleton_subperm_iff.mpr ht))
  obtain rfl : m = level := (hf.holds root (by simp)).node.level_eq.symm.trans hloc.2
  exact ⟨t, ht, hbel, hf, fun _ hx => blocks_subset_forest ht (hbel.blocks_subperm.subset hx)⟩

/-- The blocks of the forest after an update are proper blocks. -/
theorem Shape.range_update (h : Shape w L tops) {pages' : List Page} (hpos : 0 < w.rel.pages.length)
    (hu : nodes.Update NodeOk (allocated w.rel.pages) (allocated pages') (pageAt w.rel.pages)
      (pageAt pages') L tops tops') :
    ∀ x ∈ nodes.forestBlocks (pageAt pages') L tops', 0 < x ∧ x < pages'.length := by
  intro x hx
  rcases hu.mem x hx with hx | ⟨hx, hn⟩
  · exact ⟨(h.range x hx).1, hu.alloc_le (h.range x hx).2⟩
  · exact ⟨Nat.lt_of_lt_of_le hpos (Nat.not_lt.mp hn), hx⟩

/-! ## Steps -/

section Descent
variable {i : Nat} {itup : IndexTuple} {box leftBox : RTreeTemporalBox} {root : BlockNumber} {level : Nat}
  {pages' : List Page} {evs trace' : List Event}

/-- **A descent that does not split its start block keeps the forest.** -/
theorem Shape.insert_keep (h : Shape w L tops)
    (hs : w.sessions[i]? = some (.located itup box root level))
    (hins : Inserts env itup box w.rel.pages root level { leftBox := leftBox, split := none } pages' evs)
    (hok : AddsOk evs) :
    metaAt pages' = metaAt w.rel.pages ∧
      Shape { rel := { pages := pages', trace := trace' }, sessions := w.sessions.set i .idle,
              indexed := itup ::ₘ w.indexed } L tops := by
  obtain ⟨hkey, hloc⟩ := h.sessions _ _ _ _ (List.mem_of_getElem? hs)
  obtain ⟨t, ht, hbel, hf, hsub⟩ := h.below hloc
  have hspec : InsertSpec itup w.rel.pages root level [root] pages' evs :=
    hins.spec hkey hf fun x hx => h.halloc x (hsub (by simpa using hx))
  obtain ⟨hu, hleaves, hblocks⟩ := hspec.update.inside ht hbel h.forest h.halloc
  have hmeta := hins.metaAt_eq fun h0 => Nat.lt_irrefl 0 (h.range 0 (hsub h0)).1
  have hblocks := hblocks (by simpa using hspec.blocks_subset hok)
  have hlevels := fun x hx => hspec.levels x (h.halloc x hx)
  refine ⟨hmeta, ⟨?_, hins.nblocks_le h.nblocks_le, hu.forest,
    h.range_update (Nat.zero_lt_of_lt (h.range root hloc.1).2) hu, ?_, ?_, ?_⟩⟩
  · rw [hmeta]
    exact h.magic
  · rw [← h.leaves, Multiset.cons_coe, Multiset.coe_eq_coe]
    -- the tree below the start block gained the tuple, and so did the forest
    have hgain : (nodes.leaves (pageAt pages') level root).Perm
        (itup :: nodes.leaves (pageAt w.rel.pages) level root) := by
      simpa using hspec.leaves_perm hok
    refine (List.perm_append_right_iff (nodes.leaves (pageAt w.rel.pages) level root)).mp ?_
    exact (hleaves.trans (hgain.append_left _)).trans List.perm_middle
  · rw [hmeta]
    exact h.root.mono hblocks hlevels
  · intro t b r l hmem
    obtain ⟨hk, hl⟩ := h.sessions t b r l (located_of_set (by simp) hmem)
    exact ⟨hk, hl.mono hblocks hlevels⟩

/-- **A descent from the current root that splits it leaves a forest of its two halves.** -/
theorem Shape.insert_split {right : SplitRight} (h : Shape w L [root])
    (hs : w.sessions[i]? = some (.located itup box root level))
    (hins : Inserts env itup box w.rel.pages root level { leftBox := leftBox, split := some right } pages'
      evs) (hok : AddsOk evs) :
    level = L ∧ metaAt pages' = metaAt w.rel.pages ∧
      Shape { rel := { pages := pages', trace := trace' },
              sessions := w.sessions.set i (.split root level leftBox right),
              indexed := itup ::ₘ w.indexed } L [root, right.rightBlkno] := by
  obtain ⟨hkey, hloc⟩ := h.sessions _ _ _ _ (List.mem_of_getElem? hs)
  obtain rfl : level = L := hloc.2.symm.trans (h.forest.holds root (by simp)).node.level_eq
  have hspec : InsertSpec itup w.rel.pages root level [root, right.rightBlkno] pages' evs :=
    hins.spec hkey h.forest h.halloc
  have hmeta := hins.metaAt_eq fun h0 => Nat.lt_irrefl 0 (h.range 0 (by simpa using h0)).1
  have hblocks : nodes.forestBlocks (pageAt w.rel.pages) level [root] ⊆
      nodes.forestBlocks (pageAt pages') level [root, right.rightBlkno] := by
    rw [forestBlocks_singleton]
    exact hspec.blocks_subset hok
  have hlevels := fun x hx => hspec.levels x (h.halloc x hx)
  refine ⟨rfl, hmeta, ⟨?_, hins.nblocks_le h.nblocks_le, hspec.update.forest,
    h.range_update (Nat.zero_lt_of_lt (h.range root hloc.1).2) hspec.update, ?_, ?_, ?_⟩⟩
  · rw [hmeta]
    exact h.magic
  · rw [← h.leaves, Multiset.cons_coe, Multiset.coe_eq_coe]
    simpa using hspec.leaves_perm hok
  · rw [hmeta]
    exact h.root.mono hblocks hlevels
  · intro t b r l hmem
    obtain ⟨hk, hl⟩ := h.sessions t b r l (located_of_set (by simp) hmem)
    exact ⟨hk, hl.mono hblocks hlevels⟩

end Descent

/-- **Promotion joins the two halves under a new top.** -/
theorem Shape.promote {i : Nat} {root : BlockNumber} {leftBox : RTreeTemporalBox} {right : SplitRight}
    {trace' : List Event} (h : Shape w L [root, right.rightBlkno]) (hext : canExtend env w.rel.pages.length) :
    metaAt (promotedPages w.rel.pages root leftBox right L) = metaAt w.rel.pages ∧
      Shape { rel := { pages := promotedPages w.rel.pages root leftBox right L, trace := trace' },
              sessions := w.sessions.set i (.promoted w.rel.pages.length (L + 1)),
              indexed := w.indexed } (L + 1) [w.rel.pages.length] := by
  obtain ⟨hf, hleaves, hblocks⟩ := promotedPages_spec leftBox h.forest h.halloc
  have hroot := h.range root (h.located_top (by simp)).1
  have hmeta : metaAt (promotedPages w.rel.pages root leftBox right L) = metaAt w.rel.pages :=
    metaAt_promotedPages hroot.2 hroot.1
  have hsub : nodes.forestBlocks (pageAt w.rel.pages) L [root, right.rightBlkno] ⊆
      nodes.forestBlocks (pageAt (promotedPages w.rel.pages root leftBox right L)) (L + 1)
        [w.rel.pages.length] := by
    rw [forestBlocks_singleton, hblocks]
    exact List.subset_cons_self _ _
  have hlevels : ∀ x ∈ nodes.forestBlocks (pageAt w.rel.pages) L [root, right.rightBlkno],
      (pageAt (promotedPages w.rel.pages root leftBox right L) x).special.level =
        (pageAt w.rel.pages x).special.level := fun x hx => level_promotedPages hroot.2 (h.range x hx).2
  refine ⟨hmeta, ⟨?_, ?_, hf, ?_, ?_, ?_, ?_⟩⟩
  · rw [hmeta]
    exact h.magic
  · rw [length_promotedPages]
    exact hext.1
  · intro x hx
    rw [forestBlocks_singleton, hblocks, List.mem_cons] at hx
    rw [length_promotedPages]
    rcases hx with rfl | hx
    · exact ⟨Nat.zero_lt_of_lt hroot.2, Nat.lt_succ_self _⟩
    · exact ⟨(h.range x hx).1, Nat.lt_succ_of_lt (h.range x hx).2⟩
  · rw [forestLeaves_singleton, hleaves]
    exact h.leaves
  · rw [hmeta]
    exact h.root.mono hsub hlevels
  · intro t b r l hmem
    obtain ⟨hk, hl⟩ := h.sessions t b r l (located_of_set (by simp) hmem)
    exact ⟨hk, hl.mono hsub hlevels⟩

/-- **The meta page is no page of the forest.** -/
theorem Shape.writeMeta {i : Nat} {root : BlockNumber} {trace' : List Event} (h : Shape w L [root]) :
    metaAt (metaPages w.rel.pages root L) = { metaAt w.rel.pages with root := root, rootLevel := L } ∧
      Shape { rel := { pages := metaPages w.rel.pages root L, trace := trace' },
              sessions := w.sessions.set i .idle,
              indexed := w.indexed } L [root] := by
  have htop := h.located_top (List.mem_singleton.mpr rfl)
  have hmeta : metaAt (metaPages w.rel.pages root L) =
      { metaAt w.rel.pages with root := root, rootLevel := L } :=
    metaAt_set_zero (Nat.zero_lt_of_lt (h.range root htop.1).2)
  have hsame : ∀ x ∈ nodes.forestBlocks (pageAt w.rel.pages) L [root],
      pageAt (metaPages w.rel.pages root L) x = pageAt w.rel.pages x := fun x hx =>
    pageAt_set_ne (Nat.pos_iff_ne_zero.mp (h.range x hx).1)
  have hblocks := forestBlocks_congr hsame
  have hmove : ∀ {r l}, Located w.rel.pages L [root] r l →
      Located (metaPages w.rel.pages root L) L [root] r l := fun hl =>
    hl.mono (by rw [hblocks]; exact List.Subset.refl _) fun x hx => by rw [hsame x hx]
  refine ⟨hmeta, ⟨?_, ?_, h.forest.congr hsame, ?_, ?_, ?_, ?_⟩⟩
  · rw [hmeta]
    exact h.magic
  · rw [metaPages, List.length_set]
    exact h.nblocks_le
  · rw [hblocks, metaPages, List.length_set]
    exact h.range
  · rw [forestLeaves_congr hsame]
    exact h.leaves
  · rw [hmeta]
    exact hmove htop
  · intro t b r l hmem
    obtain ⟨hk, hl⟩ := h.sessions t b r l (located_of_set (by simp) hmem)
    exact ⟨hk, hmove hl⟩

end Invariant

/-! ## Runs -/

/-- A descent must not fail a `PageAddItem`, and it may split its start block only if that is the root the
    meta page names and no session has a split of it pending: as the pages before it foresee it. -/
def insertGuard (env : Env) (w : InsertWorld) : InsertAction → Bool
  | .insert i =>
      match w.sessions[i]? with
      | some (.located itup box root level) =>
          match foresee env w.rel.pages itup box level root with
          | .ok f => f.ok && (f.right.isNone ||
              (decide (root = (metaAt w.rel.pages).root) && w.sessions.all fun p => !p.pending))
          | .error _ => true
      | _ => true
  | _ => true

/-- What the guard says about a completed descent. -/
theorem insertGuard_insert {env : Env} {w : InsertWorld} {i : Nat} {itup : IndexTuple}
    {box : RTreeTemporalBox} {root : BlockNumber} {level : Nat} {res : RTreeInsertResult} {pages' : List Page}
    {evs : List Event} {L : Nat} {tops : List BlockNumber} (hsh : Shape w L tops)
    (hs : w.sessions[i]? = some (.located itup box root level))
    (hins : Inserts env itup box w.rel.pages root level res pages' evs)
    (hg : insertGuard env w (.insert i) = true) :
    AddsOk evs ∧ (res.split = none ∨
      (root = (metaAt w.rel.pages).root ∧ ∀ p ∈ w.sessions, p.pending = false)) := by
  obtain ⟨hkey, hloc⟩ := hsh.sessions _ _ _ _ (List.mem_of_getElem? hs)
  obtain ⟨-, -, -, hf, hsub⟩ := hsh.below hloc
  obtain ⟨f, hforesee, hfore⟩ := hins.foreseen hkey hf fun x hx => hsh.halloc x (hsub (by simpa using hx))
  simp only [insertGuard, hs, hforesee, Bool.and_eq_true, Bool.or_eq_true, decide_eq_true_eq, List.all_eq_true,
    Bool.not_eq_true'] at hg
  refine ⟨hfore.ok.mpr hg.1, hg.2.imp_left fun hnone => ?_⟩
  rw [← Option.not_isSome, hfore.right_isSome, Option.not_isSome] at hnone
  exact Option.isNone_iff_eq_none.mp hnone

/-- What holds between the steps. -/
def InsertInv (w : InsertWorld) : Prop := ∃ L tops, Shape w L tops ∧ Pending w L tops

/-- **Every guarded step keeps the invariant.** -/
theorem InsertInv.step {env : Env} {w w' : InsertWorld} {act : InsertAction} (h : InsertInv w)
    (hg : insertGuard env w act = true) (hstep : stepInsert env w act = some w') : InsertInv w' := by
  obtain ⟨L, tops, hsh, hpend⟩ := h
  cases stepInsert_cases hstep with
  | @read i itup box evs hs hbox =>
      refine ⟨L, tops, ⟨hsh.magic, hsh.nblocks_le, hsh.forest, hsh.range, hsh.leaves, hsh.root, ?_⟩,
        hpend.set_quiet hs rfl rfl rfl rfl⟩
      intro t b r l hmem
      rcases List.mem_or_eq_of_mem_set hmem with hmem | he
      · exact hsh.sessions t b r l hmem
      · injection he with ht _ hr hl
        subst ht; subst hr; subst hl
        refine ⟨?_, hsh.root⟩
        rw [rtreeIndexTupleBox, Option.map_eq_some_iff] at hbox
        obtain ⟨c, hc, -⟩ := hbox
        rw [hc]
        rfl
  | @insert i itup box root level res pages' evs hs hins =>
      obtain ⟨hok, hsplit⟩ := insertGuard_insert hsh hs hins hg
      obtain ⟨leftBox, split⟩ := res
      cases split with
      | none =>
          obtain ⟨hmeta, hsh'⟩ := hsh.insert_keep hs hins hok
          exact ⟨L, tops, hsh', hpend.set_quiet hs rfl rfl hmeta rfl⟩
      | some right =>
          obtain ⟨rfl, hall⟩ := hsplit.resolve_left (by simp)
          obtain ⟨rfl, rfl⟩ := hpend.of_none hall
          obtain ⟨rfl, hmeta, hsh'⟩ := hsh.insert_split hs hins hok
          exact ⟨_, _, hsh', .split (congrArg _ hmeta) (congrArg _ hmeta) (sessions_set_self hs)
            fun j p hj hp => hall p (List.mem_of_getElem? (List.getElem?_set_ne hj.symm ▸ hp))⟩
  | @promote i root level leftBox right evs hs hext =>
      obtain ⟨rfl, rfl, hlevel, hothers⟩ := hpend.of_split hs
      obtain ⟨hmeta, hsh'⟩ := hsh.promote hext
      exact ⟨_, _, hsh', .promoted (hmeta ▸ hlevel) (sessions_set_self hs) fun j p hj hp =>
        hothers j p hj (List.getElem?_set_ne hj.symm ▸ hp)⟩
  | @writeMeta i root level evs hs =>
      obtain ⟨rfl, rfl, hothers⟩ := hpend.of_promoted hs
      obtain ⟨hmeta, hsh'⟩ := hsh.writeMeta
      refine ⟨_, _, hsh', .none (congrArg _ hmeta) (congrArg _ hmeta) fun p hp => ?_⟩
      obtain ⟨j, hj⟩ := List.mem_iff_getElem?.mp hp
      rw [List.getElem?_set] at hj
      split at hj
      · split at hj
        · rw [← Option.some.inj hj]
          rfl
        · exact absurd hj (by simp)
      · next hne => exact hothers j p (fun h => hne h.symm) hj

/-- Sessions that are all out of their calls, over an index that holds what was indexed. -/
theorem InsertInv.init {w : InsertWorld} (hwf : WF w.rel.pages) (hidle : ∀ p ∈ w.sessions, p = .idle)
    (hindexed : contents w.rel.pages = w.indexed) : InsertInv w := by
  refine ⟨_, _, ⟨hwf.magic, hwf.nblocks_le, hwf.tree, ?_, ?_, ?_, ?_⟩, .none rfl rfl ?_⟩
  · rw [forestBlocks_singleton]
    exact hwf.range
  · rw [forestLeaves_singleton]
    exact hindexed
  · rw [Located, forestBlocks_singleton]
    exact ⟨self_mem_blocks, (hwf.tree.holds _ (by simp)).node.level_eq⟩
  · exact fun t b r l hmem => absurd (hidle _ hmem) (by simp)
  · exact fun p hp => by rw [hidle p hp]; rfl

/-- **No insert is lost in a run in which a start block is split only as the current root and by one session
    at a time.** Once all calls have returned, the tuples reachable from the root are those indexed before
    and those inserted. -/
theorem guarded_inserts_contents (env : Env) {w w' : InsertWorld} (hwf : WF w.rel.pages)
    (hidle : ∀ p ∈ w.sessions, p = .idle) (hindexed : contents w.rel.pages = w.indexed)
    (hrun : Guarded (stepInsert env) (fun w act => insertGuard env w act = true) w w')
    (hidle' : ∀ p ∈ w'.sessions, p = .idle) : contents w'.rel.pages = w'.indexed := by
  obtain ⟨L, tops, hsh, hpend⟩ := hrun.invariant InsertInv
    (fun _ _ _ h hg hs => InsertInv.step h hg hs) (InsertInv.init hwf hidle hindexed)
  obtain ⟨rfl, rfl⟩ := hpend.of_none fun p hp => by rw [hidle' p hp]; rfl
  rw [← hsh.leaves, forestLeaves_singleton]
  rfl

/-- Two sessions that read the meta page one after the other; the second fills the leaf, the first splits
    it. -/
theorem guarded_inserts_contents_two_sessions :
    let w : InsertWorld :=
      { rel := { pages := leafIndex ([1, 2, 3, 4].map wideTuple) }
        sessions := [.idle, .idle]
        indexed := contents (leafIndex ([1, 2, 3, 4].map wideTuple)) }
    ∃ w', Guarded (stepInsert roomyEnv) (fun w act => insertGuard roomyEnv w act = true) w w' ∧
      w'.indexed = Multiset.map wideTuple {6, 5, 1, 2, 3, 4} ∧ contents w'.rel.pages = w'.indexed := by
  intro w
  have hrun : (runGuarded (stepInsert roomyEnv) (fun w act => insertGuard roomyEnv w act = true) w
      [.read 0 (wideTuple 5), .read 1 (wideTuple 6), .insert 1, .insert 0, .promote 0, .writeMeta 0]).any
      (fun w' => decide (w'.indexed = Multiset.map wideTuple {6, 5, 1, 2, 3, 4}) &&
        w'.sessions.all (· == .idle)) = true := by decide +kernel
  obtain ⟨w', hw', hcheck⟩ := (Option.any_eq_true _ _).mp hrun
  simp only [Bool.and_eq_true, decide_eq_true_eq, List.all_eq_true, beq_iff_eq] at hcheck
  have hguarded := guarded_of_runGuarded hw'
  exact ⟨w', hguarded, hcheck.1, guarded_inserts_contents roomyEnv (leafIndex_wf (by decide +kernel))
    (by decide) rfl hguarded hcheck.2⟩

/-- Two sessions read the same full root; both split it, both promote a root, and the tuple on the right half
    of the first split is reachable from neither the second root nor any other page below it. -/
theorem concurrent_splits_lose_insert :
    ∃ w', run (stepInsert roomyEnv)
        { rel := { pages := leafIndex ([1, 2, 3, 4, 5].map wideTuple) }
          sessions := [.idle, .idle]
          indexed := contents (leafIndex ([1, 2, 3, 4, 5].map wideTuple)) }
        [.read 0 (wideTuple 6), .read 1 (wideTuple 7), .insert 0, .insert 1, .promote 0, .promote 1,
          .writeMeta 0, .writeMeta 1] = some w' ∧
      (∀ p ∈ w'.sessions, p = .idle) ∧ wideTuple 6 ∈ w'.indexed ∧ wideTuple 6 ∉ contents w'.rel.pages ∧
      AddsOk w'.rel.trace := by
  have hrun : (run (stepInsert roomyEnv)
      { rel := { pages := leafIndex ([1, 2, 3, 4, 5].map wideTuple) }
        sessions := [.idle, .idle]
        indexed := contents (leafIndex ([1, 2, 3, 4, 5].map wideTuple)) }
      [.read 0 (wideTuple 6), .read 1 (wideTuple 7), .insert 0, .insert 1, .promote 0, .promote 1,
        .writeMeta 0, .writeMeta 1]).any
      (fun w' => decide ((∀ p ∈ w'.sessions, p = .idle) ∧ wideTuple 6 ∈ w'.indexed ∧
        wideTuple 6 ∉ contents w'.rel.pages ∧ AddsOk w'.rel.trace)) = true := by decide +kernel
  obtain ⟨w', hw', hcheck⟩ := (Option.any_eq_true _ _).mp hrun
  exact ⟨w', hw', of_decide_eq_true hcheck⟩

end TemporalRTree
