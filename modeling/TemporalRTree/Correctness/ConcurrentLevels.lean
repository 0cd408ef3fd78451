import TemporalRTree.Correctness.ConcurrentVacuum
import TemporalRTree.Correctness.Levels

/-!
# `Correctness.ConcurrentLevels` — levels when inserts and bulk deletions interleave

An insert carries the level of the root from its read of the meta page to its write. Meanwhile a bulk deletion can
turn that very page into a lower one or a leaf. `levelGuard` asks for three things: a descent that splits a page
carries the level its start page has, a promotion carries the level the left half has, and a root is shrunk only
while no page has a downlink to it. Under it the pages stay leveled, whatever the interleaving.

Between a split and the write to the meta page a session knows of a block that is in nobody else's hands, the
right half or the new root (`InsertPhase.held`). It is not the root of the meta page, so its level cannot change.
-/

namespace TemporalRTree
open EStateM Layout Transition

/-! ## What a step of a bulk deletion can do -/

/-- A step of a bulk deletion, in terms of the pages. -/
inductive DeletionStep (env : Env) (w : MaintenanceWorld) : MaintenanceAction → MaintenanceWorld → Prop where
  | start {j : Nat} {stats : Option IndexBulkDeleteResult} {phase : VacuumPhase} {trace : List Event}
      (hphase : ∀ root level st, phase = .located root level st → root = (metaAt w.rel.pages).root) :
      DeletionStep env w (.start j stats)
        { w with rel := { pages := w.rel.pages, trace := trace }, deletions := w.deletions.set j phase }
  | walk {j : Nat} {callback : IndexBulkDeleteCallback} {root : BlockNumber} {level : Nat}
      {st st' : IndexBulkDeleteResult} {walked : List (BlockNumber × RTreeTemporalBox)} {pages' : List Page}
      {evs trace : List Event} (hs : w.deletions[j]? = some (.located root level st))
      (hvac : Vacuums env callback w.rel.pages [root] walked pages' evs) :
      DeletionStep env w (.walk j callback)
        { w with rel := { pages := pages', trace := trace }, deletions := w.deletions.set j (.walked root level st') }
  | shrink {j : Nat} {root : BlockNumber} {level : Nat} {st : IndexBulkDeleteResult} {pages' : List Page}
      {trace : List Event} (hs : w.deletions[j]? = some (.walked root level st))
      (hshrinks : RootShrinks w.rel.pages root level pages') :
      DeletionStep env w (.shrink j)
        { w with rel := { pages := pages', trace := trace }, deletions := w.deletions.set j (.returned st) }

section Cases
variable {env : Env} {w w' : MaintenanceWorld} {j : Nat}

theorem stepMaintenance_start {stats : Option IndexBulkDeleteResult}
    (h : stepMaintenance env w (.start j stats) = some w') : DeletionStep env w (.start j stats) w' := by
  simp only [stepMaintenance, stepDeletion] at h
  split at h
  · exact absurd h (by simp)
  · obtain ⟨v, hv, rfl⟩ := Option.map_eq_some_iff.mp h
    obtain ⟨hpages, hphase⟩ := stepVacuum_start_eq_some hv
    obtain ⟨⟨pages, trace⟩, phase, inserted⟩ := v
    obtain rfl : pages = w.rel.pages := hpages
    exact .start hphase

theorem stepMaintenance_walk {callback : IndexBulkDeleteCallback}
    (h : stepMaintenance env w (.walk j callback) = some w') : DeletionStep env w (.walk j callback) w' := by
  simp only [stepMaintenance, stepDeletion] at h
  split at h
  · exact absurd h (by simp)
  · next phase hs =>
    obtain ⟨v, hv, rfl⟩ := Option.map_eq_some_iff.mp h
    simp only [stepVacuum] at hv
    split at hv
    · next root level stats =>
      cases hrun : rtreeVacuumPage env callback w.rel.pages.length root stats w.rel with
      | error e s' => simp [hrun] at hv
      | ok res s' =>
          simp only [hrun] at hv
          obtain rfl := Option.some.inj hv
          obtain ⟨evs, hvac, -⟩ := rtreeVacuumPage_vacuums hrun
          exact .walk hs hvac
    · exact absurd hv (by simp)

theorem stepMaintenance_shrink (h0 : (metaAt w.rel.pages).root ≠ 0)
    (h : stepMaintenance env w (.shrink j) = some w') : DeletionStep env w (.shrink j) w' := by
  simp only [stepMaintenance, stepDeletion] at h
  split at h
  · exact absurd h (by simp)
  · next phase hs =>
    obtain ⟨v, hv, rfl⟩ := Option.map_eq_some_iff.mp h
    simp only [stepVacuum] at hv
    split at hv
    · next root level stats =>
      cases hrun : rtreeVacuumShrinkRoot env root level w.rel with
      | error e s' => simp [hrun] at hv
      | ok res s' =>
          simp only [hrun] at hv
          obtain rfl := Option.some.inj hv
          exact .shrink hs (rtreeVacuumShrinkRoot_eq_ok h0 hrun)
    · exact absurd hv (by simp)

end Cases

/-! ## The guard -/

/-- Some inner page has a downlink to `c`. -/
def HasDownlink (pages : List Page) (c : BlockNumber) : Prop :=
  ∃ b < pages.length, (pageAt pages b).special.flags.leaf = false ∧
    ∃ t ∈ (pageAt pages b).items, t.tTid.blkno = c

instance (pages : List Page) (c : BlockNumber) : Decidable (HasDownlink pages c) :=
  inferInstanceAs (Decidable (∃ b < pages.length, _))

/-- `rtree_vacuum_shrink_root` would change the root. -/
def RootToShrink (pages : List Page) (rootblk : BlockNumber) (level : Nat) : Prop :=
  (metaAt pages).root = rootblk ∧ ¬ ((pageAt pages rootblk).special.flags.leaf = true ∨ level = 0) ∧
    (pageAt pages rootblk).items.length ≤ 1

instance (pages : List Page) (rootblk : BlockNumber) (level : Nat) : Decidable (RootToShrink pages rootblk level) :=
  inferInstanceAs (Decidable (_ ∧ _))

/-- An insert must carry the level of its start page when it promotes and when it splits a page, which it does if the
    leaf it comes to has no room; and a root with a downlink to it must not be shrunk. -/
def levelGuard (w : MaintenanceWorld) : MaintenanceAction → Bool
  | .insert (.insert i) =>
      match w.inserts[i]? with
      | some (.located itup box root level) =>
          decide ((pageAt w.rel.pages root).special.level = level) ||
            hasRoom (pageAt w.rel.pages (descentLeaf w.rel.pages box level root)) itup
      | _ => true
  | .insert (.promote i) =>
      match w.inserts[i]? with
      | some (.split root level _ _) => decide ((pageAt w.rel.pages root).special.level = level)
      | _ => true
  | .shrink j =>
      match w.deletions[j]? with
      | some (.walked root level _) =>
          !(decide (RootToShrink w.rel.pages root level) && decide (HasDownlink w.rel.pages root))
      | _ => true
  | _ => true

section Guard
variable {env : Env} {w : MaintenanceWorld} {i j : Nat} {root : BlockNumber} {level : Nat}

/-- What the guard says about a completed descent. -/
theorem levelGuard_insert {itup : IndexTuple} {box : RTreeTemporalBox} {res : RTreeInsertResult}
    {pages' : List Page} {evs : List Event} (hs : w.inserts[i]? = some (.located itup box root level))
    (hins : Inserts env itup box w.rel.pages root level res pages' evs)
    (hg : levelGuard w (.insert (.insert i)) = true) :
    (pageAt w.rel.pages root).special.level = level ∨ ∀ l r, Event.split l r ∉ evs := by
  simp only [levelGuard, hs, Bool.or_eq_true, decide_eq_true_eq] at hg
  exact hg.imp_right hins.unsplit_iff.mpr

theorem levelGuard_promote {leftBox : RTreeTemporalBox} {right : SplitRight}
    (hs : w.inserts[i]? = some (.split root level leftBox right))
    (hg : levelGuard w (.insert (.promote i)) = true) :
    (pageAt w.rel.pages root).special.level = level := by
  simpa [levelGuard, hs] using hg

/-- What it says about a root to shrink. -/
theorem levelGuard_shrink {st : IndexBulkDeleteResult} {A : BlockNumber → Prop}
    (hs : w.deletions[j]? = some (.walked root level st)) (hg : levelGuard w (.shrink j) = true)
    (hroot : RootToShrink w.rel.pages root level) (hl : Leveled A w.rel.pages) :
    Leveled (· ≠ root) w.rel.pages := by
  have hnone : ¬ HasDownlink w.rel.pages root := by simpa [levelGuard, hs, hroot] using hg
  intro b h0 hb
  refine ⟨(hl b h0 hb).leaf_iff, fun hinner t ht => ⟨fun he => ?_, ((hl b h0 hb).down hinner t ht).2⟩⟩
  exact hnone ⟨b, hb, hinner, t, ht, he⟩

end Guard

/-! ## The invariant -/

/-- The block that only this session knows of. -/
def InsertPhase.held : InsertPhase → Option BlockNumber
  | .split _ _ _ right => some right.rightBlkno
  | .promoted root _ => some root
  | _ => none

/-- What a session remembers about levels: a level that a page has not exceeded since, or the level of the block it
    holds. -/
def PhaseLeveled (pages : List Page) : InsertPhase → Prop
  | .idle => True
  | .located _ _ root level => 0 < root ∧ root < pages.length ∧ (pageAt pages root).special.level ≤ level
  | .split root level _ right => (0 < root ∧ root < pages.length) ∧ 0 < right.rightBlkno ∧
      right.rightBlkno < pages.length ∧ (pageAt pages right.rightBlkno).special.level = level
  | .promoted root level => 0 < root ∧ root < pages.length ∧ (pageAt pages root).special.level = level

/-- What holds of the inserting sessions. -/
structure SessionsLeveled (pages : List Page) (sessions : List InsertPhase) : Prop where
  phase : ∀ p ∈ sessions, PhaseLeveled pages p
  held_ne : ∀ p ∈ sessions, p.held ≠ some (metaAt pages).root
  /-- No two sessions hold the same block. -/
  apart : ∀ {i j : Nat} {p q : InsertPhase} {b : BlockNumber}, sessions[i]? = some p → sessions[j]? = some q →
    p.held = some b → q.held = some b → i = j

/-- What holds in every state of a guarded run. -/
structure LevelsInv (w : MaintenanceWorld) : Prop where
  leveled : Leveled (fun _ => True) w.rel.pages
  root : RootLevel w.rel.pages
  sessions : SessionsLeveled w.rel.pages w.inserts
  deletions : ∀ root level st, VacuumPhase.located root level st ∈ w.deletions → 0 < root

section Sessions
variable {pages pages' : List Page} {sessions : List InsertPhase} {i : Nat} {p : InsertPhase}

/-- Levels of held blocks stay, others may get lower. -/
theorem PhaseLeveled.congr {top : BlockNumber} (h : PhaseLeveled pages p) (hlen : pages.length ≤ pages'.length)
    (hle : ∀ b, 0 < b → b < pages.length → (pageAt pages' b).special.level ≤ (pageAt pages b).special.level)
    (heq : ∀ b, 0 < b → b < pages.length → b ≠ top →
      (pageAt pages' b).special.level = (pageAt pages b).special.level)
    (htop : p.held ≠ some top) : PhaseLeveled pages' p := by
  cases p with
  | idle => trivial
  | located itup box root level =>
      obtain ⟨h0, hlt, hlevel⟩ := h
      exact ⟨h0, Nat.lt_of_lt_of_le hlt hlen, Nat.le_trans (hle root h0 hlt) hlevel⟩
  | split root level leftBox right =>
      obtain ⟨⟨h0, hlt⟩, hr0, hr, hlevel⟩ := h
      refine ⟨⟨h0, Nat.lt_of_lt_of_le hlt hlen⟩, hr0, Nat.lt_of_lt_of_le hr hlen, ?_⟩
      rw [heq _ hr0 hr fun he => htop (congrArg some he), hlevel]
  | promoted root level =>
      obtain ⟨h0, hlt, hlevel⟩ := h
      refine ⟨h0, Nat.lt_of_lt_of_le hlt hlen, ?_⟩
      rw [heq _ h0 hlt fun he => htop (congrArg some he), hlevel]

/-- A held block is a block of the relation. -/
theorem PhaseLeveled.held_lt {b : BlockNumber} (h : PhaseLeveled pages p) (hb : p.held = some b) :
    b < pages.length := by
  cases p with
  | idle => exact absurd hb (by simp [InsertPhase.held])
  | located itup box root level => exact absurd hb (by simp [InsertPhase.held])
  | split root level leftBox right =>
      obtain rfl := Option.some.inj hb
      exact h.2.2.1
  | promoted root level =>
      obtain rfl := Option.some.inj hb
      exact h.2.1

theorem SessionsLeveled.keeps {A : BlockNumber → Prop} (h : SessionsLeveled pages sessions)
    (hk : KeepsLevels A pages pages') : SessionsLeveled pages' sessions where
  phase p hp := (h.phase p hp).congr hk.length_le (fun b _ hb => Nat.le_of_eq (hk.level_eq b hb))
    (fun b _ hb _ => hk.level_eq b hb) (h.held_ne p hp)
  held_ne p hp := by
    rw [hk.meta_eq]
    exact h.held_ne p hp
  apart := h.apart

/-- A session goes on, with no block or with one nobody holds. -/
theorem SessionsLeveled.set (h : SessionsLeveled pages sessions) (hp : PhaseLeveled pages p)
    (hfresh : ∀ b, p.held = some b → b ≠ (metaAt pages).root ∧ ∀ q ∈ sessions, q.held ≠ some b) :
    SessionsLeveled pages (sessions.set i p) where
  phase q hq := by
    rcases List.mem_or_eq_of_mem_set hq with hq | rfl
    · exact h.phase q hq
    · exact hp
  held_ne q hq := by
    rcases List.mem_or_eq_of_mem_set hq with hq | rfl
    · exact h.held_ne q hq
    · exact fun hheld => (hfresh _ hheld).1 rfl
  apart {j k q r b} hj hk hq hr := by
    rw [List.getElem?_set] at hj hk
    split at hj <;> split at hk
    · next hij hik => exact hij.symm.trans hik
    · obtain rfl : p = q := by
        split at hj
        · exact Option.some.inj hj
        · exact absurd hj (by simp)
      exact absurd hr ((hfresh b hq).2 r (List.mem_of_getElem? hk))
    · obtain rfl : p = r := by
        split at hk
        · exact Option.some.inj hk
        · exact absurd hk (by simp)
      exact absurd hq ((hfresh b hr).2 q (List.mem_of_getElem? hj))
    · exact h.apart hj hk hq hr

/-- The meta page names another root, and the root of the meta page before may have become lower. -/
theorem SessionsLeveled.ofMeta {root : BlockNumber} {level : Nat} (h : SessionsLeveled pages sessions)
    (hlen : pages.length = pages'.length) (hlt : root < pages.length)
    (hle : (pageAt pages' (metaAt pages).root).special.level ≤ (pageAt pages (metaAt pages).root).special.level)
    (hothers : ∀ b, b ≠ (metaAt pages).root → pageAt pages' b = pageAt pages b)
    (hroot : ∀ p ∈ sessions, p.held ≠ some root) : SessionsLeveled (metaPages pages' root level) sessions := by
  have hpage : ∀ b, 0 < b → pageAt (metaPages pages' root level) b = pageAt pages' b := fun b hb =>
    pageAt_set_ne (Nat.pos_iff_ne_zero.mp hb)
  refine ⟨fun p hp => ?_, ?_, h.apart⟩
  · refine (h.phase p hp).congr ?_ ?_ ?_ (h.held_ne p hp)
    · rw [metaPages, List.length_set, hlen]
    · intro b h0 _
      rw [hpage b h0]
      by_cases he : b = (metaAt pages).root
      · rw [he]
        exact hle
      · rw [hothers b he]
    · intro b h0 _ hne
      rw [hpage b h0, hothers b hne]
  · rw [show (metaAt (metaPages pages' root level)).root = root from
      congrArg (·.root) (metaAt_set_zero (Nat.zero_lt_of_lt (hlen ▸ hlt)))]
    exact hroot

/-- The session that holds a block lets go of it. -/
theorem SessionsLeveled.held_free {b : BlockNumber} (h : SessionsLeveled pages sessions)
    (hi : sessions[i]? = some p) (hb : p.held = some b) : ∀ q ∈ sessions.set i .idle, q.held ≠ some b := by
  intro q hq hheld
  obtain ⟨k, hk⟩ := List.getElem?_of_mem hq
  rw [List.getElem?_set] at hk
  split at hk
  · split at hk
    · obtain rfl := Option.some.inj hk
      exact absurd hheld (by simp [InsertPhase.held])
    · exact absurd hk (by simp)
  · next hne => exact hne (h.apart hi hk hb hheld)

end Sessions

/-! ## The steps -/

section Steps
variable {env : Env} {w w' : MaintenanceWorld}

/-- The phase a descent leads to. -/
theorem InsertLevels.phase {A : BlockNumber → Prop} {pages pages' : List Page} {sessions : List InsertPhase}
    {root : BlockNumber} {level i : Nat} {res : RTreeInsertResult} (h : InsertLevels A pages root res pages')
    (hsess : SessionsLeveled pages sessions) (hroot : (metaAt pages).root < pages.length) (h0 : 0 < root)
    (hlt : root < pages.length) (hlevel : res.split ≠ none → (pageAt pages root).special.level = level) :
    SessionsLeveled pages' (sessions.set i (.afterDescent root level res)) := by
  refine (hsess.keeps h.keeps).set ?_ ?_
  · rw [InsertPhase.afterDescent]
    cases hs : res.split with
    | none => trivial
    | some right =>
        obtain ⟨hnew, hr, hrlevel⟩ := h.right right hs
        exact ⟨⟨h0, Nat.lt_of_lt_of_le hlt h.keeps.length_le⟩, Nat.lt_of_lt_of_le (Nat.zero_lt_of_lt hlt) hnew,
          hr, hrlevel.trans (hlevel (by simp [hs]))⟩
  · intro b hb
    rw [InsertPhase.afterDescent] at hb
    cases hs : res.split with
    | none => simp [hs, InsertPhase.held] at hb
    | some right =>
        rw [hs] at hb
        obtain rfl := Option.some.inj hb
        -- the right half is past every block there was
        have hnew := (h.right right hs).1
        refine ⟨?_, fun q hq hheld => ?_⟩
        · rw [h.keeps.meta_eq]
          exact Nat.ne_of_gt (Nat.lt_of_lt_of_le hroot hnew)
        · exact Nat.not_lt_of_le hnew ((hsess.phase q hq).held_lt hheld)

/-- **A step of an insert.** -/
theorem LevelsInv.insert {act : InsertAction} (h : LevelsInv w) (hg : levelGuard w (.insert act) = true)
    (hs : stepMaintenance env w (.insert act) = some w') : LevelsInv w' := by
  obtain ⟨v, hv, rfl⟩ := Option.map_eq_some_iff.mp hs
  cases stepInsert_cases hv with
  | read hsess hbox =>
      refine ⟨h.leveled, h.root, h.sessions.set ?_ (by simp [InsertPhase.held]), h.deletions⟩
      exact ⟨h.root.pos, h.root.lt, Nat.le_of_eq h.root.level_eq⟩
  | insert hsess hins =>
      obtain ⟨h0, hlt, hle⟩ := h.sessions.phase _ (List.mem_of_getElem? hsess)
      have hsplit := levelGuard_insert hsess hins hg
      have hlevels := hins.levels h.leveled (fun _ _ => trivial) h0 hle hsplit
      refine ⟨hlevels.keeps.leveled, hlevels.keeps.rootLevel h.root,
        hlevels.phase h.sessions h.root.lt h0 hlt fun hne => ?_, h.deletions⟩
      obtain ⟨right, hright⟩ := Option.ne_none_iff_exists'.mp hne
      exact hsplit.resolve_right fun hnone => hnone _ _ (hins.split_mem hright)
  | @promote i root level leftBox right evs hsess hext =>
      obtain ⟨⟨h0, hlt⟩, hr0, hr, hright⟩ := h.sessions.phase _ (List.mem_of_getElem? hsess)
      obtain ⟨hk, hself⟩ := h.leveled.promote leftBox h0 hlt hr0 hr ⟨trivial, trivial⟩
        (levelGuard_promote hsess hg) hright
      refine ⟨hk.leveled, hk.rootLevel h.root, (h.sessions.keeps hk).set ?_ ?_, h.deletions⟩
      · exact ⟨Nat.zero_lt_of_lt hlt, by simp [promotedPages], hself⟩
      · intro b hb
        obtain rfl := Option.some.inj hb
        refine ⟨?_, fun q hq hheld => ?_⟩
        · rw [hk.meta_eq]
          exact Nat.ne_of_gt h.root.lt
        · exact Nat.lt_irrefl _ ((h.sessions.phase q hq).held_lt hheld)
  | @writeMeta i root level evs hsess =>
      obtain ⟨h0, hlt, hlevel⟩ := h.sessions.phase _ (List.mem_of_getElem? hsess)
      obtain ⟨hl', hroot'⟩ := h.leveled.ofMeta h0 hlt hlevel
      have hfree := h.sessions.held_free hsess rfl
      have hidle := h.sessions.set (i := i) (p := .idle) trivial (by simp [InsertPhase.held])
      exact ⟨hl', hroot', hidle.ofMeta rfl hlt (Nat.le_refl _) (fun _ _ => rfl) hfree, h.deletions⟩

/-- The root is shrunk while no page has a downlink to it. -/
theorem RootShrinks.levels {pages pages' : List Page} {sessions : List InsertPhase} {root : BlockNumber}
    {level : Nat} (h : RootShrinks pages root level pages') (hl : Leveled (fun _ => True) pages)
    (hroot : RootLevel pages) (hsess : SessionsLeveled pages sessions)
    (hfree : RootToShrink pages root level → Leveled (· ≠ root) pages) :
    Leveled (fun _ => True) pages' ∧ RootLevel pages' ∧ SessionsLeveled pages' sessions := by
  cases h with
  | stay => exact ⟨hl, hroot, hsess⟩
  | emptied hmeta hinner hitems =>
      subst hmeta
      obtain ⟨hl', hroot'⟩ := (hfree ⟨rfl, hinner, by simp [hitems]⟩).emptyRoot hroot.pos hroot.lt
      refine ⟨hl'.mono fun _ _ _ => trivial, hroot', hsess.ofMeta List.length_set.symm hroot.lt ?_
        (fun b hb => pageAt_set_ne hb) hsess.held_ne⟩
      rw [pageAt_set_self hroot.lt]
      exact Nat.zero_le _
  | @collapsed childitup hmeta hinner hitems hchild =>
      subst hmeta
      have hpage := hl _ hroot.pos hroot.lt
      obtain ⟨-, hc0, hc, hdown⟩ := hpage.down (by simpa using fun h => hinner (Or.inl h)) childitup
        (by simp [hitems])
      obtain ⟨hl', hroot'⟩ := (hfree ⟨rfl, hinner, by simp [hitems]⟩).collapse hroot.pos hroot.lt hc0 hc
      refine ⟨hl'.mono fun _ _ _ => trivial, hroot', hsess.ofMeta List.length_set.symm hroot.lt ?_
        (fun b hb => pageAt_set_ne hb) hsess.held_ne⟩
      rw [pageAt_set_self hroot.lt, ← hdown]
      exact Nat.le_succ _

/-- **A step of a bulk deletion.** -/
theorem LevelsInv.delete {act : MaintenanceAction} (h : LevelsInv w) (hg : levelGuard w act = true)
    (hs : DeletionStep env w act w') : LevelsInv w' := by
  have hdeletions : ∀ {j : Nat} {phase : VacuumPhase}, (∀ root level st, phase = .located root level st → 0 < root) →
      ∀ root level st, VacuumPhase.located root level st ∈ w.deletions.set j phase → 0 < root := by
    intro j phase hphase root level st hmem
    rcases List.mem_or_eq_of_mem_set hmem with hmem | heq
    · exact h.deletions root level st hmem
    · exact hphase root level st heq.symm
  cases hs with
  | start hphase =>
      exact ⟨h.leveled, h.root, h.sessions,
        hdeletions fun root level st heq => hphase root level st heq ▸ h.root.pos⟩
  | walk hsess hvac =>
      have h0 := h.deletions _ _ _ (List.mem_of_getElem? hsess)
      have hk := hvac.levels h.leveled fun c hc => List.mem_singleton.mp hc ▸ h0
      exact ⟨hk.leveled, hk.rootLevel h.root, h.sessions.keeps hk, hdeletions (by simp)⟩
  | shrink hsess hshrinks =>
      obtain ⟨hl', hroot', hsess'⟩ := hshrinks.levels h.leveled h.root h.sessions
        fun hroot => levelGuard_shrink hsess hg hroot h.leveled
      exact ⟨hl', hroot', hsess', hdeletions (by simp)⟩

theorem LevelsInv.step {act : MaintenanceAction} (h : LevelsInv w) (hg : levelGuard w act = true)
    (hs : stepMaintenance env w act = some w') : LevelsInv w' := by
  cases act with
  | insert act => exact h.insert hg hs
  | start j stats => exact h.delete hg (stepMaintenance_start hs)
  | walk j callback => exact h.delete hg (stepMaintenance_walk hs)
  | shrink j => exact h.delete hg (stepMaintenance_shrink (Nat.pos_iff_ne_zero.mp h.root.pos) hs)

end Steps

/-- `n` sessions about to insert and `m` about to delete. -/
def idleSessions (s : Rel) (n m : Nat) : MaintenanceWorld :=
  { rel := s, inserts := List.replicate n .idle, deletions := List.replicate m .idle }

theorem LevelsInv.initial {s : Rel} (n m : Nat) (h : LeveledIndex s.pages) : LevelsInv (idleSessions s n m) where
  leveled := h.1.mono fun _ _ _ => trivial
  root := h.2
  sessions := by
    have hidle : ∀ p ∈ List.replicate n InsertPhase.idle, p = .idle := fun p hp => List.eq_of_mem_replicate hp
    refine ⟨fun p hp => ?_, fun p hp => ?_, fun hi _ hp _ => ?_⟩
    · rw [hidle p hp]
      trivial
    · rw [hidle p hp]
      exact Option.some_ne_none _ |>.symm
    · rw [hidle _ (List.mem_of_getElem? hi)] at hp
      exact absurd hp (by simp [InsertPhase.held])
  deletions root level st hmem := by
    have := List.eq_of_mem_replicate hmem
    exact absurd this (by simp)

/-- **Inserts and bulk deletions of several sessions keep the levels in order** if inserts carry the levels their
    start pages have and no root with a downlink to it is shrunk: in every state reached, the meta page has the
    level of the root, a child is one level below its parent, and the paths of that many downlinks are those that
    end at leaves. -/
theorem guarded_levels_agree (env : Env) (ops : List Op) (n m : Nat) {s : Rel} {w : MaintenanceWorld}
    (hops : runOps env ops { pages := [] } = .ok () s) (hne : s.pages ≠ [])
    (hrun : Guarded (stepMaintenance env) (fun w act => levelGuard w act = true) (idleSessions s n m) w) :
    LevelsAgree w.rel.pages := by
  have hmeets : Meets LeveledIndex s.pages :=
    (leveledIndex_opInvariant env).runOps (fun _ _ _ _ _ => trivial) (Or.inl rfl) hops
  have hinv := hrun.invariant LevelsInv (fun _ _ _ h hg hs => h.step hg hs)
    (.initial n m (hmeets.resolve_left hne).2)
  exact hinv.leveled.agree hinv.root

/-- An index of two leaves under a root. -/
def twoLeaves : List Op := [.build ((List.range 6).map fun i => ⟨(stair i).tTid, (stair i).key⟩)]

/-- The tuples of the right leaf are dead. -/
def rightLeafDead : IndexBulkDeleteCallback := some fun tid => 4 ≤ tid.offnum ∧ tid.offnum ≤ 6

/-- An insert reads the root's level, the root becomes a leaf, and the tuple fits; then the leaf is split. -/
theorem guarded_levels_agree_split_leaf :
    ∃ s w, runOps roomyEnv twoLeaves { pages := [] } = .ok () s ∧
      Guarded (stepMaintenance roomyEnv) (fun w act => levelGuard w act = true) (idleSessions s 2 1) w ∧
      (metaAt w.rel.pages).rootLevel = 1 ∧ LevelsAgree w.rel.pages := by
  have hok : okWith (fun _ s => decide (s.pages.length ≠ 0) &&
      (runGuarded (stepMaintenance roomyEnv) (fun w act => levelGuard w act = true) (idleSessions s 2 1)
        [.insert (.read 0 (stair 6)), .start 0 none, .walk 0 rightLeafDead, .shrink 0, .insert (.insert 0),
          .insert (.read 1 (stair 7)), .insert (.insert 1), .insert (.read 1 (stair 8)), .insert (.insert 1),
          .insert (.promote 1), .insert (.writeMeta 1)]).any
        fun w => decide ((metaAt w.rel.pages).rootLevel = 1))
      (runOps roomyEnv twoLeaves { pages := [] }) = true := by decide +kernel
  obtain ⟨u, s, hops, hs⟩ := exists_of_okWith hok
  obtain ⟨hlen, hs⟩ := Bool.and_eq_true_iff.mp hs
  obtain ⟨w, hw, hlevel⟩ := (Option.any_eq_true _ _).mp hs
  have hguarded := guarded_of_runGuarded hw
  refine ⟨s, w, hops, hguarded, of_decide_eq_true hlevel,
    guarded_levels_agree roomyEnv twoLeaves 2 1 hops (fun hnil => ?_) hguarded⟩
  exact of_decide_eq_true hlen (by rw [hnil]; rfl)

/-- An insert reads the root's level, the root becomes a leaf and is filled, and the insert splits it: the new
    root is put two levels above the two leaves. -/
theorem promoted_over_shrunk_root :
    ∃ s w, runOps roomyEnv twoLeaves { pages := [] } = .ok () s ∧
      run (stepMaintenance roomyEnv) (idleSessions s 2 1)
        [.insert (.read 0 (stair 6)), .start 0 none, .walk 0 rightLeafDead, .shrink 0,
          .insert (.read 1 (stair 7)), .insert (.insert 1), .insert (.read 1 (stair 8)), .insert (.insert 1),
          .insert (.insert 0), .insert (.promote 0), .insert (.writeMeta 0)] = some w ∧
      (∀ p ∈ w.inserts, p = .idle) ∧ (∀ p ∈ w.deletions, p.isReturned = true) ∧ ¬ LevelsAgree w.rel.pages := by
  have hok : okWith (fun _ s => (run (stepMaintenance roomyEnv) (idleSessions s 2 1)
        [.insert (.read 0 (stair 6)), .start 0 none, .walk 0 rightLeafDead, .shrink 0,
          .insert (.read 1 (stair 7)), .insert (.insert 1), .insert (.read 1 (stair 8)), .insert (.insert 1),
          .insert (.insert 0), .insert (.promote 0), .insert (.writeMeta 0)]).any
        fun w => decide ((∀ p ∈ w.inserts, p = .idle) ∧ (∀ p ∈ w.deletions, p.isReturned = true) ∧
          ((pageAt w.rel.pages (metaAt w.rel.pages).root).special.flags.leaf = false ∧
            (pageAt w.rel.pages (metaAt w.rel.pages).root).items[0]?.map (fun t => t.tTid.blkno) = some 3) ∧
          (pageAt w.rel.pages (metaAt w.rel.pages).root).special.level = 2 ∧
          (pageAt w.rel.pages 3).special.level = 0))
      (runOps roomyEnv twoLeaves { pages := [] }) = true := by decide +kernel
  obtain ⟨u, s, hops, hs⟩ := exists_of_okWith hok
  obtain ⟨w, hw, hcheck⟩ := (Option.any_eq_true _ _).mp hs
  obtain ⟨hidle, hret, hlink, hroot, hleaf⟩ := of_decide_eq_true hcheck
  refine ⟨s, w, hops, hw, hidle, hret, fun hagree => ?_⟩
  have hchild := hagree.child .root hlink
  omega

end TemporalRTree
