import TemporalRTree.Correctness.ConcurrentInsert
import TemporalRTree.Correctness.ScanKeys

/-!
# `Correctness.ConcurrentScan` — a scan beside inserts of other sessions

Between two page visits the scan holds no lock, only its stack: a walk of the tree in the sense of
`Lib.Cursor`. An insert that splits no page the walk has started with leaves it a walk, and puts its tuple
either ahead of it or behind it (`InsertsTuple.walk`); so every tuple that was there at the start is met
exactly once. A split of such a page moves tuples between what is ahead and what is behind.
-/

namespace TemporalRTree
open EStateM Layout Transition

/-! ## Inserts under a walk -/

section Insert
variable {env : Env} {itup : IndexTuple} {box : RTreeTemporalBox} {pages pages₁ pages' : List Page}
  {blk : BlockNumber} {level : Nat} {res : RTreeInsertResult} {evs : List Event}
  {stack : List (Frame BlockNumber)}

/-- The step at an inner page whose child's tree became the trees `childitup.tTid.blkno :: new`. -/
theorem ChoosesChild.walk {pos : Nat} {childitup : IndexTuple} {new : List BlockNumber} {page₂ : DataPage}
    (hchild : ChoosesChild (pageAt pages blk) box pos childitup)
    (hf : nodes.Forest NodeOk (pageAt pages) (level + 1) [blk])
    (halloc : ∀ x ∈ nodes.forestBlocks (pageAt pages) (level + 1) [blk], x ∈ allocated pages)
    (hspec : InsertSpec itup pages childitup.tTid.blkno level (childitup.tTid.blkno :: new) pages₁ evs)
    (hok : AddsOk evs) (hkids : nodes.kids page₂ = nodes.kids (pageAt pages blk) ++ new)
    (hw : nodes.Walk (pageAt pages) (level + 1) blk stack)
    (hnew : new = [] ∨ childitup.tTid.blkno ∉ nodes.startedBlocks (pageAt pages) stack)
    (ih : ∀ stack₁, nodes.Walk (pageAt pages) level childitup.tTid.blkno stack₁ →
      nodes.startedBlocks (pageAt pages) stack₁ ⊆ nodes.startedBlocks (pageAt pages) stack →
      nodes.Walk (pageAt pages₁) level childitup.tTid.blkno stack₁ ∧
        nodes.Takes (pageAt pages) (pageAt pages₁) itup stack₁) :
    nodes.Walk (pageAt (pages₁.set blk (.data page₂))) (level + 1) blk stack ∧
      nodes.Takes (pageAt pages) (pageAt (pages₁.set blk (.data page₂))) itup stack := by
  have hblk₁ : blk < pages₁.length := hspec.update.alloc_le (halloc blk (by simp [self_mem_blocks]))
  obtain ⟨hlt, hget⟩ := List.getElem?_eq_some_iff.mp (kids_getElem? hchild.item)
  have hsplit : nodes.kids (pageAt pages blk) =
      (nodes.kids (pageAt pages blk)).take pos ++
        childitup.tTid.blkno :: (nodes.kids (pageAt pages blk)).drop (pos + 1) := by
    rw [← hget, List.cons_getElem_drop_succ, List.take_append_drop]
  obtain ⟨hgrows, hsame⟩ := hspec.update.grows (hspec.leaves_perm hok) hf halloc hsplit
    (fun x hx => pageAt_set_ne (q := .data page₂) hx)
  refine hw.grow hgrows hsplit ?_ hnew fun stack₁ hw₁ hsub => ?_
  · rw [pageAt_set_self hblk₁, hkids, ← hsplit]
  · -- the page itself is not in the tree below
    obtain ⟨hw', htakes⟩ := ih stack₁ hw₁ hsub
    have hframe : ∀ x ∈ nodes.blocks (pageAt pages₁) level childitup.tTid.blkno,
        pageAt (pages₁.set blk (.data page₂)) x = pageAt pages₁ x := fun x hx =>
      hsame x (List.mem_append_left _ hx)
    obtain ⟨hw'', hleaves⟩ := hw'.congr hframe
    exact ⟨hw'', by rwa [Takes, hleaves]⟩

/-- **A descent that splits no page of the walk keeps it and puts the tuple ahead or behind.** -/
theorem Inserts.walk (h : Inserts env itup box pages blk level res pages' evs)
    (hkey : itup.key.isSome = true) (hf : nodes.Forest NodeOk (pageAt pages) level [blk])
    (halloc : ∀ x ∈ nodes.forestBlocks (pageAt pages) level [blk], x ∈ allocated pages) (hok : AddsOk evs)
    (hw : nodes.Walk (pageAt pages) level blk stack)
    (hsplit : ∀ l r, Event.split l r ∈ evs → l ∉ nodes.startedBlocks (pageAt pages) stack) :
    res.split = none ∧ nodes.Walk (pageAt pages') level blk stack ∧
      nodes.Takes (pageAt pages) (pageAt pages') itup stack := by
  have hnone : res.split = none := by
    cases hs : res.split with
    | none => rfl
    | some right => exact absurd hw.top_mem (hsplit _ _ (h.split_mem hs))
  refine ⟨hnone, ?_⟩
  induction h generalizing stack with
  | @leafAdd blk level page' hblk hleaf hroom hadd =>
      obtain rfl := level_eq_zero_of_leaf hf hleaf
      obtain ⟨hitems, -⟩ := pageAddItem_items hadd
      cases hw with
      | @leaf _ pos =>
          refine ⟨.leaf, ?_⟩
          have hstack : ∀ pages, nodes.stackLeaves (pageAt pages) [⟨blk, 0, pos⟩] =
              (pageAt pages blk).items.drop pos := fun pages => by simp [restLeaves, nodes]
          rw [Takes, hstack, hstack, pageAt_set_self hblk, hitems]
          rcases Nat.lt_or_ge (pageAt pages blk).items.length pos with hlt | hge
          · refine Or.inl ?_
            rw [List.drop_eq_nil_of_le hlt.le, List.drop_eq_nil_of_le (by simpa using hlt)]
          · rw [List.drop_append_of_le_length hge]
            exact Or.inr (List.perm_append_singleton _ _)
  | leafSplit => simp [splitResult] at hnone
  | @innerKeep pages₁ blk level pos childitup childBox page₂ evs hblk hchild hrec hrep ih =>
      obtain ⟨hspec, -, hkids⟩ := hchild.refreshed hf halloc (hrec.spec hkey) hrep
      obtain ⟨hf', halloc'⟩ := hchild.forest hf halloc
      have hok' : AddsOk evs := by simp_all
      refine hchild.walk hf halloc hspec hok' (by simp [hkids]) hw (Or.inl rfl) fun stack₁ hw₁ hsub => ?_
      exact ih hf' halloc' hok' hw₁ (fun l r hmem hl => hsplit l r (by simp [hmem]) (hsub hl)) rfl
  | @innerAdd pages₁ blk level pos childitup childBox right page₂ page₃ evs hblk hchild hrec hrep hroom hadd
      ih =>
      obtain ⟨hspec, hp₂, hkids⟩ := hchild.refreshed hf halloc (hrec.spec hkey) hrep
      obtain ⟨-, hkids₃⟩ := hp₂.addLink hadd
      rw [hkids] at hkids₃
      have hfresh : childitup.tTid.blkno ∉ nodes.startedBlocks (pageAt pages) stack :=
        hsplit _ right.rightBlkno (by simp [hrec.split_mem rfl])
      -- the child was split, so the walk is not in its tree
      exact hchild.walk hf halloc hspec (by simp_all) hkids₃ hw (Or.inr hfresh) fun stack₁ hw₁ hsub =>
        absurd (hsub hw₁.top_mem) hfresh
  | innerSplit => simp [splitResult] at hnone

end Insert

/-- The frames of a scan: none, or a walk of the tree at the root the meta page names. -/
def Walking (pages : List Page) (stack : List (Frame BlockNumber)) : Prop :=
  stack = [] ∨ nodes.Walk (pageAt pages) (metaAt pages).rootLevel (metaAt pages).root stack

/-- The failed additions and the splits of a whole insert are those of its descent. -/
theorem InsertsTuple.descent {env : Env} {itup : IndexTuple} {box : RTreeTemporalBox} {pages pages' : List Page}
    {evs : List Event} (h : InsertsTuple env itup box pages pages' evs) :
    ∃ res pages₁ evs₁, Inserts env itup box pages (metaAt pages).root (metaAt pages).rootLevel res pages₁ evs₁ ∧
      (AddsOk evs ↔ AddsOk evs₁) ∧ ∀ l r, Event.split l r ∈ evs ↔ Event.split l r ∈ evs₁ := by
  cases h with
  | keep hlen hmagic hins => exact ⟨_, _, _, hins, by simp, by simp⟩
  | promote hlen hmagic hins hext => exact ⟨_, _, _, hins, by simp, by simp [promoteTrace]⟩

/-- **A whole insert that splits no page of the walk.** -/
theorem InsertsTuple.walk {env : Env} {itup : IndexTuple} {box : RTreeTemporalBox} {pages pages' : List Page}
    {evs : List Event} {stack : List (Frame BlockNumber)}
    (h : InsertsTuple env itup box pages pages' evs) (hkey : itup.key.isSome = true) (hwf : WF pages)
    (hok : AddsOk evs) (hw : Walking pages stack)
    (hsplit : ∀ l r, Event.split l r ∈ evs → l ∉ nodes.startedBlocks (pageAt pages) stack) :
    Walking pages' stack ∧ nodes.Takes (pageAt pages) (pageAt pages') itup stack := by
  rcases hw with rfl | hw
  · exact ⟨Or.inl rfl, Or.inl (List.Perm.refl _)⟩
  cases h with
  | keep hlen hmagic hins =>
      obtain ⟨-, hw', htakes⟩ := hins.walk hkey hwf.tree hwf.halloc (by simp_all) hw
        fun l r hmem => hsplit l r (by simp [hmem])
      refine ⟨Or.inr ?_, htakes⟩
      rw [hins.metaAt_eq hwf.zero_notMem]
      exact hw'
  | @promote pages₁ leftBox right evs hlen hmagic hins hext =>
      exact absurd hw.top_mem (hsplit _ right.rightBlkno (by simp [hins.split_mem rfl]))

/-! ## Visits -/

section Visit
variable {pages : List Page} {scan scan' : IndexScanDesc} {turn : Turn}

/-- The frames of the scan's stack. -/
abbrev RTreeScanOpaqueData.frames (so : RTreeScanOpaqueData) : List (Frame BlockNumber) :=
  so.stack.map RTreeScanFrameData.toFrame

/-- A scan stands in trees of the relation. -/
theorem Walking.stackOk {so : RTreeScanOpaqueData} (hw : Walking pages so.frames) (hfits : Fits pages)
    (hoff : ∀ f ∈ so.stack, 1 ≤ f.nextOffset) : StackOk pages so.stack := by
  intro f hf
  rcases hw with hnil | hw
  · rw [List.map_eq_nil_iff] at hnil
    exact absurd hf (hnil ▸ List.not_mem_nil)
  · have hbel := hw.frame_below _ (List.mem_map_of_mem hf)
    exact ⟨hbel.holds hfits.keyed, fun x hx => (hfits.range x (hbel.blocks_subperm.subset hx)).2, hoff f hf⟩

theorem ScanTurn.walking (h : ScanTurn pages scan turn scan') (hok : StackOk pages scan.so.stack)
    (hw : Walking pages scan.so.frames) : Walking pages scan'.so.frames := by
  have hleave : ∀ {frame : RTreeScanFrameData} {below : List RTreeScanFrameData},
      scan.so.stack = frame :: below → Walking pages (below.map RTreeScanFrameData.toFrame) := by
    intro frame below hs
    rw [RTreeScanOpaqueData.frames, hs, List.map_cons] at hw
    exact (hw.resolve_left (List.cons_ne_nil _ _)).leave
  cases h with
  | finished => exact hw
  | @hit frame below i t hs hlevel hitem hfilter =>
      obtain ⟨blkno, level, nextOffset⟩ := frame
      obtain rfl : level = 0 := hlevel
      rw [RTreeScanOpaqueData.frames, hs, List.map_cons] at hw
      exact Or.inr ((hw.resolve_left (List.cons_ne_nil _ _)).skip _)
  | leafEnd hs => exact hleave hs
  | @descend frame below l t hs hlevel hitem =>
      obtain ⟨blkno, level, nextOffset⟩ := frame
      obtain rfl : level = l + 1 := hlevel
      obtain ⟨-, -, hoff⟩ := hok _ (hs ▸ List.mem_cons_self)
      rw [RTreeScanOpaqueData.frames, hs, List.map_cons] at hw
      have hw' := (hw.resolve_left (List.cons_ne_nil _ _)).descend (kids_getElem? hitem)
      refine Or.inr ?_
      show nodes.Walk _ _ _ (⟨_, _, _⟩ :: ⟨_, _, nextOffset + 1 - 1⟩ :: _)
      rw [Nat.sub_add_cancel hoff] at hw'
      exact hw'
  | innerEnd hs => exact hleave hs

/-- What a page visit does: the matches on the page are handed out, in order. -/
structure VisitSpec (pages : List Page) (scan : IndexScanDesc) (tids : List ItemPointerData) (ended : Bool)
    (scan' : IndexScanDesc) : Prop where
  stackOk : StackOk pages scan'.so.stack
  walking : Walking pages scan'.so.frames
  sameQuery : SameQuery scan scan'
  hits : ∃ hits, tids = hits.map IndexTuple.tTid ∧
    remainingHits pages scan.so = hits ++ remainingHits pages scan'.so
  stack_nil : ended = true → scan'.so.stack = []

theorem rtreeScanVisit_spec {fuel : Nat} {s s' : Rel} {res : (List ItemPointerData × Bool) × IndexScanDesc}
    (hok : StackOk s.pages scan.so.stack) (hw : Walking s.pages scan.so.frames)
    (h : rtreeScanVisit fuel scan s = .ok res s') :
    s'.pages = s.pages ∧ VisitSpec s.pages scan res.1.1 res.1.2 res.2 := by
  induction fuel generalizing scan s res with
  | zero => exact absurd h (by simp [rtreeScanVisit])
  | succ fuel ih =>
      obtain ⟨turn, scan₁, evs, hrun, hturn⟩ := rtreeScanTurn_cases hok
      have hok₁ := hturn.stackOk hok
      have hw₁ := hturn.walking hok hw
      have htakes := hturn.hits hok
      rw [rtreeScanVisit, bind_of_ok hrun] at h
      cases turn with
      | again =>
          injection h with h1 h2
          subst h1; subst h2
          exact ⟨rfl, hok₁, hw₁, hturn.sameQuery, ⟨[], rfl, htakes.symm⟩, fun hf => absurd hf (by simp)⟩
      | finished =>
          injection h with h1 h2
          subst h1; subst h2
          obtain ⟨rfl, hnone⟩ := htakes
          refine ⟨rfl, hok₁, hw₁, hturn.sameQuery, ⟨[], rfl, rfl⟩, fun _ => ?_⟩
          cases hturn with
          | finished hs => exact hs
      | returned =>
          obtain ⟨t, ht, htid, -⟩ := htakes
          dsimp only at h
          cases hrest : rtreeScanVisit fuel scan₁ { s with trace := s.trace ++ evs } with
          | error e s₂ => exact absurd h (by rw [bind_of_error hrest]; simp)
          | ok rest s₂ =>
              rw [bind_of_ok hrest] at h
              injection h with h1 h2
              subst h1; subst h2
              obtain ⟨hpages, hspec⟩ := ih (s := { s with trace := s.trace ++ evs }) hok₁ hw₁ hrest
              obtain ⟨hits, htids, hhits⟩ := hspec.hits
              refine ⟨hpages, hspec.stackOk, hspec.walking, hturn.sameQuery.trans hspec.sameQuery,
                ⟨t :: hits, ?_, ?_⟩, hspec.stack_nil⟩
              · show scan₁.xsHeaptid :: rest.1.1 = _
                rw [htids, htid]
                rfl
              · rw [ht, hhits]
                rfl

/-- With enough fuel a visit ends. -/
theorem rtreeScanVisit_ok {fuel : Nat} {s : Rel} (hok : StackOk s.pages scan.so.stack)
    (hfuel : remainingTurns s.pages scan.so < fuel) : ∃ res s', rtreeScanVisit fuel scan s = .ok res s' := by
  induction fuel generalizing scan s with
  | zero => exact absurd hfuel (Nat.not_lt_zero _)
  | succ fuel ih =>
      obtain ⟨turn, scan₁, evs, hrun, hturn⟩ := rtreeScanTurn_cases hok
      rw [rtreeScanVisit, bind_of_ok hrun]
      cases turn with
      | again => exact ⟨_, _, rfl⟩
      | finished => exact ⟨_, _, rfl⟩
      | returned =>
          have hprog := hturn.progress hok (by simp)
          obtain ⟨res, s', hrest⟩ := ih (s := { s with trace := s.trace ++ evs }) (hturn.stackOk hok)
            (show remainingTurns s.pages scan₁.so < fuel by omega)
          exact ⟨_, _, bind_of_ok hrest⟩

end Visit

/-! ## Accounting -/

/-- The matches among `C`, the tuples now indexed, are those returned, those ahead, and at most some of `N`,
    the tuples inserted meanwhile. -/
def Accounted (key : ScanKey) (returned : List ItemPointerData) (ahead : List IndexTuple)
    (C N : Multiset IndexTuple) : Prop :=
  ∃ R : Multiset IndexTuple, (returned : Multiset ItemPointerData) = R.map IndexTuple.tTid ∧
    R + ahead ≤ C.filter (key.satisfied · = true) ∧
    C.filter (key.satisfied · = true) ≤ R + ahead + N.filter (key.satisfied · = true)

section Accounting
variable {key : ScanKey} {returned : List ItemPointerData} {ahead ahead' : List IndexTuple}
  {C N : Multiset IndexTuple}

theorem Accounted.perm (h : Accounted key returned ahead C N) (hp : ahead.Perm ahead') :
    Accounted key returned ahead' C N := by
  rwa [Accounted, ← Multiset.coe_eq_coe.mpr hp]

/-- Matches are returned. -/
theorem Accounted.visit {hits : List IndexTuple} (h : Accounted key returned (hits ++ ahead) C N) :
    Accounted key (returned ++ hits.map IndexTuple.tTid) ahead C N := by
  obtain ⟨R, hret, hle, hge⟩ := h
  rw [← Multiset.coe_add, ← add_assoc] at hle hge
  refine ⟨R + hits, ?_, hle, hge⟩
  rw [← Multiset.coe_add, hret, Multiset.map_add, Multiset.map_coe]

/-- A tuple is inserted behind. -/
theorem Accounted.insert_behind (h : Accounted key returned ahead C N) (t : IndexTuple) :
    Accounted key returned ahead (t ::ₘ C) (t ::ₘ N) := by
  obtain ⟨R, hret, hle, hge⟩ := h
  refine ⟨R, hret, hle.trans (Multiset.filter_le_filter _ (Multiset.le_cons_self _ _)), ?_⟩
  rw [← Multiset.singleton_add, ← Multiset.singleton_add, Multiset.filter_add, Multiset.filter_add,
    add_left_comm]
  exact add_le_add le_rfl hge

/-- A tuple is inserted ahead. -/
theorem Accounted.insert_ahead (h : Accounted key returned ahead C N) (t : IndexTuple)
    (hp : ahead'.Perm ([t].filter key.satisfied ++ ahead)) :
    Accounted key returned ahead' (t ::ₘ C) (t ::ₘ N) := by
  obtain ⟨R, hret, hle, hge⟩ := h
  have hahead : (ahead' : Multiset IndexTuple) =
      ({t} : Multiset IndexTuple).filter (key.satisfied · = true) + ahead := by
    rw [Multiset.coe_eq_coe.mpr hp, ← Multiset.coe_add, ← Multiset.coe_singleton, Multiset.filter_coe]
    simp only [Bool.decide_eq_true]
  have hcons : ∀ M : Multiset IndexTuple, (t ::ₘ M).filter (key.satisfied · = true) =
      ({t} : Multiset IndexTuple).filter (key.satisfied · = true) + M.filter (key.satisfied · = true) :=
    fun M => by rw [← Multiset.singleton_add, Multiset.filter_add]
  refine ⟨R, hret, ?_, ?_⟩
  · rw [hahead, hcons, add_left_comm]
    exact add_le_add le_rfl hle
  · rw [hahead, hcons, hcons, add_left_comm R, add_assoc]
    exact add_le_add le_rfl (hge.trans (add_le_add le_rfl (Multiset.le_add_left _ _)))

end Accounting

/-! ## Runs -/

/-- An insert must not fail a `PageAddItem`, and must not split a page the scan is at or has followed a
    downlink to from one it is at: as the pages before it foresee it. -/
def scanGuard (env : Env) (w : ScanWorld) : ScanAction → Bool
  | .insert (some cube) htCtid =>
      let itup : IndexTuple := { tTid := htCtid, key := some cube }
      let m := metaAt w.rel.pages
      match foresee env w.rel.pages itup (rtreeCubeToBox cube) m.rootLevel m.root with
      | .ok f => f.ok && (splitBlocks env w.rel.pages itup (rtreeCubeToBox cube) m.rootLevel m.root).all fun l =>
          decide (l ∉ nodes.startedBlocks (pageAt w.rel.pages) w.scan.so.frames)
      | .error _ => true
  | _ => true

/-- What the guard says about a completed insert. -/
theorem scanGuard_insert {env : Env} {w : ScanWorld} {key : Option NDBOX} {htCtid : ItemPointerData}
    {box : RTreeTemporalBox} {pages' : List Page} {evs : List Event} (hwf : WF w.rel.pages)
    (hbox : key.map rtreeCubeToBox = some box)
    (hins : InsertsTuple env { tTid := htCtid, key := key } box w.rel.pages pages' evs)
    (hg : scanGuard env w (.insert key htCtid) = true) :
    AddsOk evs ∧ ∀ l r, Event.split l r ∈ evs →
      l ∉ nodes.startedBlocks (pageAt w.rel.pages) w.scan.so.frames := by
  obtain ⟨cube, rfl, rfl⟩ := Option.map_eq_some_iff.mp hbox
  obtain ⟨res, pages₁, evs₁, hdescent, hadds, hsplits⟩ := hins.descent
  obtain ⟨f, hforesee, hfore⟩ := hdescent.foreseen rfl hwf.tree hwf.halloc
  simp only [scanGuard, hforesee, Bool.and_eq_true, List.all_eq_true, decide_eq_true_eq] at hg
  refine ⟨hadds.mpr (hfore.ok.mpr hg.1), fun l r hmem => hg.2 l ?_⟩
  exact (hdescent.split_mem_iff rfl hwf.tree hwf.halloc).mp ⟨r, (hsplits l r).mp hmem⟩

/-- Where a scan with one key stands between the steps. -/
inductive ScanInv (key : ScanKey) (w : ScanWorld) : Prop where
  /-- Before the first call. -/
  | waiting (hfirst : w.scan.so.firstCall = true) (hkeys : w.scan.keyData = [key])
      (hfresh : w.scan.so.haveQuery = false) (hstack : w.scan.so.stack = []) (hended : w.ended = false)
      (hret : w.returned = [])
  /-- The argument is NULL. -/
  | refused (hnull : key.argument = none) (hended : w.ended = true) (hret : w.returned = [])
  /-- After the meta page was read. -/
  | started {cube : NDBOX} (harg : key.argument = some cube) (hfirst : w.scan.so.firstCall = false)
      (hbox : w.scan.so.queryBox = rtreeCubeToBox cube) (hstrategy : w.scan.so.strategy = key.strategy)
      (hwalk : Walking w.rel.pages w.scan.so.frames) (hoff : ∀ f ∈ w.scan.so.stack, 1 ≤ f.nextOffset)
      (hcont : contents w.rel.pages = contents w.startPages + w.inserted)
      (hacc : Accounted key w.returned (remainingHits w.rel.pages w.scan.so) (contents w.rel.pages)
        w.inserted)
      (hended : w.ended = true → w.scan.so.stack = [])

section Steps
variable {env : Env} {key : ScanKey} {w w' : ScanWorld}

theorem ScanKey.tupleMatches_eq {cube : NDBOX} (harg : key.argument = some cube) :
    tupleMatches (rtreeCubeToBox cube) key.strategy = key.satisfied := by
  funext t
  rw [ScanKey.satisfied, harg]

/-- How a scan with one key starts. -/
inductive ScanStarts (key : ScanKey) (w : ScanWorld) : ScanWorld → Prop where
  /-- The argument is NULL: the first call returns false. -/
  | refused (hnull : key.argument = none) :
      ScanStarts key w { w with ended := true, startPages := w.rel.pages, inserted := 0 }
  | started {cube : NDBOX} {evs : List Event} (harg : key.argument = some cube) :
      ScanStarts key w
        { w with
          rel := { w.rel with trace := w.rel.trace ++ evs }
          scan := startedScan w.rel.pages w.scan (rtreeCubeToBox cube, key.strategy)
          ended := false
          startPages := w.rel.pages
          inserted := 0 }

theorem stepScan_start_cases (hkey : key.Supported) (hfits : Fits w.rel.pages) (hkeys : w.scan.keyData = [key])
    (hfresh : w.scan.so.haveQuery = false) (hs : stepScan env w .start = some w') : ScanStarts key w w' := by
  have hquery : rtreeParseQuery w.scan.keyData =
      key.argument.map fun cube => (rtreeCubeToBox cube, key.strategy) := by
    rw [hkeys, rtreeParseQuery, List.findSome?_singleton, parseKey_of_supported hkey]
  simp only [stepScan] at hs
  split at hs
  · cases harg : key.argument with
    | none =>
        rw [harg] at hquery
        rw [rtreeInitializeScan_run_of_none w.scan hfresh hquery] at hs
        obtain rfl := Option.some.inj hs
        exact .refused harg
    | some cube =>
        rw [harg] at hquery
        obtain ⟨evs, hrun⟩ := rtreeInitializeScan_run w.scan hfits hfresh hquery
        rw [hrun] at hs
        obtain rfl := Option.some.inj hs
        exact .started harg
  · exact absurd hs (by simp)

/-- At the start all matches are ahead. -/
theorem startedScan_accounted (s : Rel) (scan : IndexScanDesc) {cube : NDBOX} (harg : key.argument = some cube)
    (N : Multiset IndexTuple) :
    Accounted key [] (remainingHits s.pages
      (startedScan s.pages scan (rtreeCubeToBox cube, key.strategy)).so) (contents s.pages) N := by
  have hahead : (remainingHits s.pages (startedScan s.pages scan (rtreeCubeToBox cube, key.strategy)).so :
      Multiset IndexTuple) = (contents s.pages).filter (key.satisfied · = true) := by
    rw [startedScan_hits, key.tupleMatches_eq harg]
    simp [contents]
  refine ⟨0, rfl, ?_, ?_⟩
  · rw [zero_add]
    exact hahead.le
  · rw [zero_add]
    exact (hahead.symm.le).trans (Multiset.le_add_right _ _)

theorem stepScan_visit_eq_some {fuel : Nat} (hs : stepScan env w (.visit fuel) = some w') :
    w.scan.so.firstCall = false ∧ w.ended = false ∧ ∃ res rel, rtreeScanVisit fuel w.scan w.rel = .ok res rel ∧
      w' = { w with rel := rel, scan := res.2, returned := w.returned ++ res.1.1, ended := res.1.2 } := by
  simp only [stepScan] at hs
  split at hs
  · next hturn =>
    rw [Bool.and_eq_true, Bool.not_eq_true', Bool.not_eq_true'] at hturn
    cases hrun : rtreeScanVisit fuel w.scan w.rel with
    | error e s' => simp [hrun] at hs
    | ok res rel =>
        simp only [hrun] at hs
        exact ⟨hturn.1, hturn.2, res, rel, rfl, (Option.some.inj hs).symm⟩
  · exact absurd hs (by simp)

theorem ScanInv.start (h : ScanInv key w) (hwf : WF w.rel.pages) (hkey : key.Supported)
    (hs : stepScan env w .start = some w') : WF w'.rel.pages ∧ ScanInv key w' := by
  cases h with
  | waiting hfirst hkeys hfresh hstack hended hret =>
      cases stepScan_start_cases hkey hwf.fits hkeys hfresh hs with
      | refused hnull => exact ⟨hwf, .refused hnull rfl hret⟩
      | started harg =>
          refine ⟨hwf, .started harg rfl rfl rfl (Or.inr Walk.start) (fun f hf => ?_) (add_zero _).symm ?_
            fun h => absurd h (by simp)⟩
          · rw [List.mem_singleton.mp hf]
            exact Nat.le_refl _
          · rw [hret]
            exact startedScan_accounted w.rel w.scan harg 0
  | refused hnull hended hret => simp [stepScan, hended] at hs
  | started harg hfirst => simp [stepScan, hfirst] at hs

theorem ScanInv.visit (h : ScanInv key w) (hwf : WF w.rel.pages) {fuel : Nat}
    (hs : stepScan env w (.visit fuel) = some w') : WF w'.rel.pages ∧ ScanInv key w' := by
  obtain ⟨hfirst', hended', res, rel, hrun, rfl⟩ := stepScan_visit_eq_some hs
  cases h with
  | waiting hfirst => simp [hfirst] at hfirst'
  | refused hnull hended hret => simp [hended] at hended'
  | started harg hfirst hbox hstrategy hwalk hoff hcont hacc hended =>
      obtain ⟨hpages, hspec⟩ := rtreeScanVisit_spec (hwalk.stackOk hwf.fits hoff) hwalk hrun
      obtain ⟨hits, htids, hhits⟩ := hspec.hits
      refine ⟨by rwa [hpages], .started harg (hspec.sameQuery.firstCall.trans hfirst)
        (hspec.sameQuery.queryBox.trans hbox) (hspec.sameQuery.strategy.trans hstrategy) ?_
        (fun f hf => (hspec.stackOk f hf).2.2) ?_ ?_ hspec.stack_nil⟩
      · rw [hpages]
        exact hspec.walking
      · rw [hpages]
        exact hcont
      · rw [hhits] at hacc
        rw [hpages, htids]
        exact hacc.visit

theorem ScanInv.insert (h : ScanInv key w) (hwf : WF w.rel.pages) {rowKey : Option NDBOX}
    {htCtid : ItemPointerData} (hg : scanGuard env w (.insert rowKey htCtid) = true)
    (hs : stepScan env w (.insert rowKey htCtid) = some w') : WF w'.rel.pages ∧ ScanInv key w' := by
  obtain ⟨res, hrun, rfl⟩ := Option.map_eq_some_iff.mp hs
  rcases wholeInsert_cases hwf.two_le_length hrun with rfl | ⟨box, evs, hsome, hbox, htrace, hins, hinserted⟩
  · exact ⟨hwf, h⟩
  obtain ⟨hok, hsplit⟩ := scanGuard_insert hwf hbox hins hg
  obtain ⟨hwf', -, hcont'⟩ := hins.wf hsome hwf
  refine ⟨hwf', ?_⟩
  cases h with
  | waiting hfirst hkeys hfresh hstack hended hret =>
      exact .waiting hfirst hkeys hfresh hstack hended hret
  | refused hnull hended hret => exact .refused hnull hended hret
  | started harg hfirst hbox hstrategy hwalk hoff hcont hacc hended =>
      obtain ⟨hwalk', htakes⟩ := hins.walk hsome hwf hok hwalk hsplit
      refine .started harg hfirst hbox hstrategy hwalk' hoff ?_ ?_ hended
      · rw [hcont' hok, hcont, hinserted, Multiset.add_cons]
      · rw [hcont' hok, hinserted]
        rw [remainingHits, hbox, hstrategy, key.tupleMatches_eq harg] at hacc ⊢
        rcases htakes with hp | hp
        · exact (hacc.perm (hp.filter _).symm).insert_behind _
        · refine hacc.insert_ahead _ ((hp.filter _).trans ?_)
          rw [← List.filter_append]
          simp

theorem ScanInv.step {act : ScanAction} (h : ScanInv key w) (hwf : WF w.rel.pages) (hkey : key.Supported)
    (hg : scanGuard env w act = true) (hs : stepScan env w act = some w') :
    WF w'.rel.pages ∧ ScanInv key w' := by
  cases act with
  | start => exact h.start hwf hkey hs
  | visit fuel => exact h.visit hwf hs
  | insert rowKey htCtid => exact h.insert hwf hg hs

/-- What has been returned matches and was indexed; at the end nothing of what was there at the start is
    missing. -/
theorem ScanInv.bounds (h : ScanInv key w) :
    (w.returned : Multiset ItemPointerData) ≤ ((contents w.startPages + w.inserted).filter
        (key.satisfied · = true)).map IndexTuple.tTid ∧
      (w.ended = true → ((contents w.startPages).filter (key.satisfied · = true)).map IndexTuple.tTid ≤
        w.returned) := by
  cases h with
  | waiting hfirst hkeys hfresh hstack hended hret => simp [hret, hended]
  | refused hnull hended hret => simp [hret, ScanKey.satisfied, hnull]
  | started harg hfirst hbox hstrategy hwalk hoff hcont hacc hended =>
      obtain ⟨R, hret, hle, hge⟩ := hacc
      rw [hcont] at hle hge
      rw [hret]
      refine ⟨Multiset.map_le_map ((Multiset.le_add_right _ _).trans hle), fun he => Multiset.map_le_map ?_⟩
      have hnone : remainingHits w.rel.pages w.scan.so = [] := by simp [remainingHits, hended he]
      rw [hnone, Multiset.coe_nil, add_zero, Multiset.filter_add] at hge
      exact (add_le_add_iff_right _).mp hge

/-- A scan that has not started can start. -/
theorem exists_stepScan_start (hfits : Fits w.rel.pages) (hfirst : w.scan.so.firstCall = true)
    (hfresh : w.scan.so.haveQuery = false) (hended : w.ended = false) :
    ∃ w', stepScan env w .start = some w' := by
  refine Option.isSome_iff_exists.mp ?_
  simp only [stepScan, hfirst, hended, Bool.not_false, Bool.and_self, if_true]
  cases hquery : rtreeParseQuery w.scan.keyData with
  | none => simp [rtreeInitializeScan_run_of_none w.scan hfresh hquery]
  | some query =>
      obtain ⟨evs, hrun⟩ := rtreeInitializeScan_run w.scan hfits hfresh hquery
      simp [hrun]

/-- A scan that has started and not ended can visit its next page. -/
theorem exists_stepScan_visit (hok : StackOk w.rel.pages w.scan.so.stack) (hfirst : w.scan.so.firstCall = false)
    (hended : w.ended = false) : ∃ fuel w', stepScan env w (.visit fuel) = some w' := by
  obtain ⟨res, s', hrun⟩ := rtreeScanVisit_ok hok (Nat.lt_succ_self _)
  refine ⟨(remainingTurns w.rel.pages w.scan.so).succ, Option.isSome_iff_exists.mp ?_⟩
  simp [stepScan, hfirst, hended, hrun]

/-- The scan is never stuck: until it has ended it can make its next step. -/
theorem ScanInv.progress (h : ScanInv key w) (hwf : WF w.rel.pages) (hended : w.ended = false) :
    ∃ act w', (act = .start ∨ ∃ fuel, act = .visit fuel) ∧ stepScan env w act = some w' := by
  cases h with
  | waiting hfirst hkeys hfresh =>
      obtain ⟨w', hw'⟩ := exists_stepScan_start hwf.fits hfirst hfresh hended
      exact ⟨.start, w', Or.inl rfl, hw'⟩
  | refused hnull hended' => simp [hended'] at hended
  | started harg hfirst hbox hstrategy hwalk hoff =>
      obtain ⟨fuel, w', hw'⟩ := exists_stepScan_visit (hwalk.stackOk hwf.fits hoff) hfirst hended
      exact ⟨.visit fuel, w', Or.inr ⟨fuel, rfl⟩, hw'⟩

end Steps

/-- **A scan beside inserts that split no page it has started with returns every match that was there at its
    start, and no tuple twice.** -/
theorem guarded_scan_returns_once (env : Env) {s s₀ : Rel} {scan scan₀ : IndexScanDesc} {key : ScanKey}
    {w : ScanWorld} (hwf : WF s.pages) (hkey : key.Supported)
    (hrescan : temporalRtreeRescan scan [key] s = .ok scan₀ s₀)
    (hrun : Guarded (stepScan env) (fun w act => scanGuard env w act = true) { rel := s₀, scan := scan₀ } w) :
    ((w.returned : Multiset ItemPointerData) ≤ ((contents w.startPages + w.inserted).filter
        (key.satisfied · = true)).map IndexTuple.tTid ∧
      (w.ended = true → ((contents w.startPages).filter (key.satisfied · = true)).map IndexTuple.tTid ≤
        w.returned)) ∧
    (((contents w.startPages + w.inserted).map IndexTuple.tTid).Nodup → w.returned.Nodup ∧
      (w.ended = true → ∀ t ∈ contents w.startPages, key.satisfied t = true →
        w.returned.count t.tTid = 1)) ∧
    (w.ended = false → ∃ act w', (act = .start ∨ ∃ fuel, act = .visit fuel) ∧
      stepScan env w act = some w') := by
  have hspace : scan.keySpace ≠ 0 := fun h => by simp [temporalRtreeRescan, h] at hrescan
  obtain ⟨evs, hrescan'⟩ := temporalRtreeRescan_run (s := s) scan (List.cons_ne_nil key []) hspace
  rw [hrescan'] at hrescan
  injection hrescan with h1 h2
  subst h1; subst h2
  have hinit : ScanInv key { rel := { s with trace := s.trace ++ evs }, scan := rescanned scan [key] } :=
    .waiting rfl rfl rfl rfl rfl rfl
  obtain ⟨hwf', hinv⟩ := hrun.invariant (fun w => WF w.rel.pages ∧ ScanInv key w)
    (fun _ _ _ h hg hs => h.2.step h.1 hkey hg hs) ⟨hwf, hinit⟩
  obtain ⟨hle, hge⟩ := hinv.bounds
  refine ⟨⟨hle, hge⟩, fun hnd => ?_, hinv.progress hwf'⟩
  have hnodup : w.returned.Nodup := by
    have hall := Multiset.map_le_map (f := IndexTuple.tTid)
      (Multiset.filter_le (key.satisfied · = true) (contents w.startPages + w.inserted))
    exact Multiset.coe_nodup.mp (Multiset.nodup_of_le (hle.trans hall) hnd)
  refine ⟨hnodup, fun hended t ht hsat => List.count_eq_one_of_mem hnodup ?_⟩
  have hmem : t.tTid ∈ ((contents w.startPages).filter (key.satisfied · = true)).map IndexTuple.tTid :=
    Multiset.mem_map_of_mem _ (Multiset.mem_filter.mpr ⟨ht, hsat⟩)
  exact Multiset.mem_coe.mp (Multiset.mem_of_le (hge hended) hmem)

/-- A query that every tuple of `stairs` matches. -/
def allTimes : ScanKey := ⟨trtreeStrategyOverlap, some (rowCube 0 0 .posInf)⟩

/-- A row is inserted into the leaf the scan is about to visit, and fits. -/
theorem guarded_scan_returns_once_beside_insert :
    ∃ w, Guarded (stepScan roomyEnv) (fun w act => scanGuard roomyEnv w act = true)
        { rel := stairs 2, scan := rescanned (temporalRtreeBeginscan 1) [allTimes] } w ∧
      w.ended = true ∧ w.returned.Nodup ∧
      ∀ t ∈ contents (stairs 2).pages, w.returned.count t.tTid = 1 := by
  have hrun : (runGuarded (stepScan roomyEnv) (fun w act => scanGuard roomyEnv w act = true)
      { rel := stairs 2, scan := rescanned (temporalRtreeBeginscan 1) [allTimes] }
      [.start, .insert (stair 5).key (stair 5).tTid, .visit 9, .visit 9]).any
      (fun w => decide (w.ended = true ∧ contents w.startPages = contents (stairs 2).pages ∧
        ((contents w.startPages + w.inserted).map IndexTuple.tTid).Nodup)) = true := by decide +kernel
  obtain ⟨w, hw, hcheck⟩ := (Option.any_eq_true _ _).mp hrun
  obtain ⟨hended, hstart, hnd⟩ := of_decide_eq_true hcheck
  have hguarded := guarded_of_runGuarded hw
  obtain ⟨-, honce, -⟩ := guarded_scan_returns_once roomyEnv (stairs_wf 2) (by decide)
    (show temporalRtreeRescan (temporalRtreeBeginscan 1) [allTimes] (stairs 2) = _ from rfl) hguarded
  obtain ⟨hnodup, hcount⟩ := honce hnd
  have hmatch : ∀ t ∈ contents (stairs 2).pages, allTimes.satisfied t = true := by decide +kernel
  exact ⟨w, hguarded, hended, hnodup, fun t ht => hcount hended t (by rwa [hstart]) (hmatch t ht)⟩

/-- The root is split between the read of the meta page and the first visit: the tuples that moved to the
    right half are missed. -/
theorem scan_misses_split_root :
    ∃ w, run (stepScan roomyEnv)
        { rel := stairs 5, scan := rescanned (temporalRtreeBeginscan 1) [allTimes] }
        [.start, .insert (stair 5).key (stair 5).tTid, .visit 9, .visit 9] = some w ∧
      w.ended = true ∧ contents w.startPages = contents (stairs 5).pages ∧
      ((contents w.startPages + w.inserted).map IndexTuple.tTid).Nodup ∧ AddsOk w.rel.trace ∧
      stair 4 ∈ contents w.startPages ∧ allTimes.satisfied (stair 4) = true ∧
      (stair 4).tTid ∉ w.returned := by
  have hrun : (run (stepScan roomyEnv)
      { rel := stairs 5, scan := rescanned (temporalRtreeBeginscan 1) [allTimes] }
      [.start, .insert (stair 5).key (stair 5).tTid, .visit 9, .visit 9]).any
      (fun w => decide (w.ended = true ∧ contents w.startPages = contents (stairs 5).pages ∧
        ((contents w.startPages + w.inserted).map IndexTuple.tTid).Nodup ∧ AddsOk w.rel.trace ∧
        stair 4 ∈ contents w.startPages ∧ allTimes.satisfied (stair 4) = true ∧
        (stair 4).tTid ∉ w.returned)) = true := by decide +kernel
  obtain ⟨w, hw, hcheck⟩ := (Option.any_eq_true _ _).mp hrun
  exact ⟨w, hw, of_decide_eq_true hcheck⟩

end TemporalRTree
