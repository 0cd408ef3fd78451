import TemporalRTree.Lib.StateError
import TemporalRTree.Model.Insert

/-!
# `Correctness.BufferRun` — running the buffer-manager steps, and what a page write changes

One equation per primitive of `Model.Buffer`, so that no later proof unfolds them; the effect of a page
write or an extension on the pages read back; and the two facts about `PageAddItem` everything else rests
on: it appends, and it cannot fail right after the free-space test has passed.
-/

namespace TemporalRTree
open EStateM

/-! ## Primitives -/

@[simp] theorem emit_run (e : Event) (s : Rel) :
    emit e s = .ok () { s with trace := s.trace ++ [e] } := rfl

@[simp] theorem lockBuffer_run (b : BlockNumber) (mode : LockMode) (s : Rel) :
    lockBuffer b mode s = .ok () { s with trace := s.trace ++ [.lock b mode] } := rfl

@[simp] theorem unlockBuffer_run (b : BlockNumber) (s : Rel) :
    unlockBuffer b s = .ok () { s with trace := s.trace ++ [.unlock b] } := rfl

@[simp] theorem markBufferDirty_run (b : BlockNumber) (s : Rel) :
    markBufferDirty b s = .ok () { s with trace := s.trace ++ [.dirty b] } := rfl

@[simp] theorem bufferGetPage_run (b : BlockNumber) (s : Rel) :
    bufferGetPage b s = .ok (pageAt s.pages b) s := rfl

@[simp] theorem putPage_run (b : BlockNumber) (p : Page) (s : Rel) :
    putPage b p s = .ok () { s with pages := s.pages.set b p } := rfl

@[simp] theorem emitAddItems_run (results : List Bool) (s : Rel) :
    emitAddItems results s = .ok () { s with trace := s.trace ++ results.map .addItem } := rfl

theorem readBuffer_run_of_lt {b : BlockNumber} {pages : List Page} {trace : List Event}
    (h : b < pages.length) :
    readBuffer b { pages := pages, trace := trace } = .ok () { pages := pages, trace := trace } := by
  simp [readBuffer, bind_apply, h]

theorem readBuffer_run_of_not_lt {b : BlockNumber} {pages : List Page} {trace : List Event}
    (h : ¬ b < pages.length) : readBuffer b { pages := pages, trace := trace } =
      .error .couldNotReadBlock { pages := pages, trace := trace } := by
  simp [readBuffer, bind_apply, h]

/-- Reading the meta page of a relation that has one. -/
theorem readMeta_run {s : Rel} (hlen : 0 < s.pages.length) :
    readMeta s = .ok (metaAt s.pages)
      { s with trace := s.trace ++ [Event.lock 0 .share, Event.unlock 0] } := by
  rw [readMeta, bind_of_ok (readBuffer_run_of_lt hlen), bind_of_ok (lockBuffer_run _ _ _),
    bind_of_ok (get_apply _), bind_of_ok (unlockBuffer_run _ _), pure_apply]
  simp

theorem readBuffer_eq_ok {b : BlockNumber} {s s' : Rel} {u : Unit} :
    readBuffer b s = .ok u s' ↔ b < s.pages.length ∧ s' = s := by
  obtain ⟨pages, trace⟩ := s
  by_cases h : b < pages.length
  · simp [readBuffer_run_of_lt h, h, eq_comm]
  · simp [readBuffer_run_of_not_lt h, h]

/-- Whether `P_NEW` succeeds on a relation of `n` blocks. -/
def canExtend (env : Env) (n : Nat) : Prop := n < invalidBlockNumber ∧ env.extendOk n = true

instance (env : Env) (n : Nat) : Decidable (canExtend env n) :=
  inferInstanceAs (Decidable (_ ∧ _))

theorem readBufferNew_run_of_can {env : Env} {pages : List Page} {trace : List Event}
    (h : canExtend env pages.length) :
    readBufferNew env { pages := pages, trace := trace } = .ok pages.length
      { pages := pages ++ [.zero], trace := trace ++ [.lock pages.length .exclusive] } := by
  simp only [readBufferNew, bind_apply, get_apply, h.1, h.2, decide_true, Bool.and_true, if_true,
    set_apply, lockBuffer_run, pure_apply]

theorem readBufferNew_run_of_cannot {env : Env} {pages : List Page} {trace : List Event}
    (h : ¬ canExtend env pages.length) :
    readBufferNew env { pages := pages, trace := trace } =
      .error .couldNotExtend { pages := pages, trace := trace } := by
  have h' : ¬ (pages.length < invalidBlockNumber ∧ env.extendOk pages.length = true) := h
  simp only [readBufferNew, bind_apply, get_apply, Bool.and_eq_true, decide_eq_true_eq, h', if_false,
    throw_apply]

/-- The WAL record of a set of page images, if the relation is logged at all. -/
def walRecord (env : Env) (images : List (BlockNumber × Page)) : List Event :=
  if env.needsWal then [.xlog images] else []

@[simp] theorem genericXLog_run (env : Env) (bs : List BlockNumber) (s : Rel) :
    genericXLog env bs s = .ok ()
      { s with trace := s.trace ++ walRecord env (bs.map (fun b => (b, s.pages.getD b .zero))) } := by
  cases h : env.needsWal <;> simp [genericXLog, bind_apply, walRecord, h]

/-! ## Pages read back -/

theorem pageAt_set_self {pages : List Page} {b : BlockNumber} {p : DataPage} (h : b < pages.length) :
    pageAt (pages.set b (.data p)) b = p := by
  simp [pageAt, List.getD_eq_getElem?_getD, h, Page.asData]

theorem pageAt_set_ne {pages : List Page} {b x : BlockNumber} {q : Page} (h : x ≠ b) :
    pageAt (pages.set b q) x = pageAt pages x := by
  simp [pageAt, List.getD_eq_getElem?_getD, List.getElem?_set_ne (Ne.symm h)]

theorem pageAt_append_of_lt {pages : List Page} {q : Page} {x : BlockNumber} (h : x < pages.length) :
    pageAt (pages ++ [q]) x = pageAt pages x := by
  simp [pageAt, List.getD_eq_getElem?_getD, List.getElem?_append_left h]

theorem pageAt_append_self {pages : List Page} {p : DataPage} :
    pageAt (pages ++ [.data p]) pages.length = p := by
  simp [pageAt, List.getD_eq_getElem?_getD, Page.asData]

theorem metaAt_set_ne {pages : List Page} {b : BlockNumber} {q : Page} (h : b ≠ 0) :
    metaAt (pages.set b q) = metaAt pages := by
  simp [metaAt, List.getD_eq_getElem?_getD, List.getElem?_set_ne h]

theorem metaAt_set_zero {pages : List Page} {m : RTreeMetaPageData} (h : 0 < pages.length) :
    metaAt (pages.set 0 (.metapage m)) = m := by
  simp [metaAt, List.getD_eq_getElem?_getD, h, Page.asMeta]

theorem metaAt_append {pages : List Page} {q : Page} (h : 0 < pages.length) :
    metaAt (pages ++ [q]) = metaAt pages := by
  rw [metaAt, metaAt, List.getD_eq_getElem?_getD, List.getElem?_append_left h,
    ← List.getD_eq_getElem?_getD]

/-! ## `PageAddItem` -/

/-- An appended tuple goes to the end; the special space stays. -/
theorem pageAddItem_items {page page' : DataPage} {itup : IndexTuple}
    (h : pageAddItem page itup invalidOffsetNumber = some page') :
    page'.items = page.items ++ [itup] ∧ page'.special = page.special := by
  simp only [pageAddItem, if_true] at h
  split at h
  · injection h with h
    subst h
    exact ⟨List.insertIdx_length_self, rfl⟩
  · exact absurd h (by simp)

/-- Right after the free-space test has passed, `PageAddItem` succeeds: the test asks for a line pointer
    more than is needed. -/
theorem pageAddItem_of_hasRoom {page : DataPage} {itup : IndexTuple} (h : hasRoom page itup = true) :
    ∃ page', pageAddItem page itup invalidOffsetNumber = some page' := by
  simp only [hasRoom, pageGetFreeSpace, decide_eq_true_eq, ge_iff_le] at h
  simp only [pageAddItem, if_true]
  rw [dif_pos]
  · exact ⟨_, rfl⟩
  · refine ⟨Nat.le_refl _, ?_⟩
    split at h
    · omega
    · omega

/-- Replacing a tuple keeps its place, the other tuples and the special space. -/
theorem rtreeReplaceTuple_items {page page' : DataPage} {pos : Nat} {itup : IndexTuple}
    (hpos : pos < page.items.length) (h : rtreeReplaceTuple page (pos + 1) itup = some page') :
    page'.items = page.items.set pos itup ∧ page'.special = page.special := by
  simp only [rtreeReplaceTuple, pageAddItem, invalidOffsetNumber, Nat.add_eq_zero_iff, one_ne_zero,
    and_false, if_false, Nat.add_sub_cancel] at h
  split at h
  · injection h with h
    subst h
    refine ⟨?_, rfl⟩
    simp only [pageIndexTupleDelete, Nat.add_sub_cancel]
    exact List.insertIdx_eraseIdx_self (Nat.ne_of_lt hpos) itup
  · exact absurd h (by simp)

/-- A run of `PageAddItem` calls keeps the special space and appends some of the tuples, all of them when
    no call failed. -/
theorem addItems_items (page : DataPage) (itups : List IndexTuple) :
    ∃ added : List IndexTuple, added.Sublist itups ∧
      (addItems page itups).1.items = page.items ++ added ∧
      (addItems page itups).1.special = page.special ∧
      ((∀ ok ∈ (addItems page itups).2, ok = true) → added = itups) := by
  induction itups generalizing page with
  | nil => exact ⟨[], List.Sublist.refl _, by simp [addItems], rfl, fun _ => rfl⟩
  | cons itup rest ih =>
      cases hadd : pageAddItem page itup invalidOffsetNumber with
      | some page' =>
          obtain ⟨added, hsub, hitems, hspecial, hall⟩ := ih page'
          obtain ⟨hi, hs⟩ := pageAddItem_items hadd
          refine ⟨itup :: added, hsub.cons_cons itup, ?_, ?_, ?_⟩
          · simp [addItems, hadd, hitems, hi]
          · simp [addItems, hadd, hspecial, hs]
          · intro hok
            simp only [addItems, hadd, List.mem_cons, forall_eq_or_imp, true_and] at hok
            rw [hall hok]
      | none =>
          obtain ⟨added, hsub, hitems, hspecial, hall⟩ := ih page
          refine ⟨added, hsub.cons itup, ?_, ?_, ?_⟩
          · simp [addItems, hadd, hitems]
          · simp [addItems, hadd, hspecial]
          · intro hok
            simp [addItems, hadd] at hok

/-- The calls that fail are the tuples that are missing. -/
theorem addItems_length (page : DataPage) (itups : List IndexTuple) :
    (addItems page itups).1.items.length + (addItems page itups).2.count false
      = page.items.length + itups.length := by
  induction itups generalizing page with
  | nil => simp [addItems]
  | cons t rest ih =>
      cases hadd : pageAddItem page t invalidOffsetNumber with
      | some page' =>
          have h := ih page'
          rw [(pageAddItem_items hadd).1] at h
          rw [List.length_append, List.length_singleton] at h
          simp only [addItems, hadd, List.length_cons, List.count_cons_of_ne (show true ≠ false by decide)]
          omega
      | none =>
          have h := ih page
          simp only [addItems, hadd, List.length_cons, List.count_cons_self]
          omega

end TemporalRTree
